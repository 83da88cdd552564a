import Vuma.Bd.Compat
import Vuma.Lib.Forall3

/-!
# Compatibility and subsumption as relations

`compatible` and `subsumes` reject every pair of representations that they have no case for, also
two equal ones. `compatible` compares sizes at every level. `subsumes` compares them only below a
`Byte`: the sizes that structs and unions declare are left alone.
-/

namespace Vuma.Bd

open Lib (Forall₃)

/-! ## Representations and their parts -/

@[elab_as_elim]
theorem RepD.parts_induction {motive : RepD Finset → Prop}
    (byte : ∀ b, motive (.byte b))
    (struct : ∀ fields totalSize align, (∀ f ∈ fields, motive f.2) →
      motive (.struct fields totalSize align))
    (array : ∀ element count, motive element → motive (.array element count))
    (enum : ∀ variants, (∀ v ∈ variants, motive v.2) → motive (.enum variants))
    (ptr : ∀ pointee, motive pointee → motive (.ptr pointee))
    (union : ∀ alternatives maxSize maxAlign, (∀ a ∈ alternatives, motive a) →
      motive (.union alternatives maxSize maxAlign))
    (func : ∀ params result, (∀ p ∈ params, motive p) → motive result →
      motive (.func params result))
    (manifoldSpatial : ∀ m, motive (.manifoldSpatial m))
    (gestaltSuperposition : ∀ g, motive (.gestaltSuperposition g))
    (conceptRelational : ∀ c, motive (.conceptRelational c))
    (generic : ∀ name constraints, (∀ r, .repDCompatibleWith r ∈ constraints → motive r) →
      motive (.generic name constraints))
    (state : ∀ layout, motive (.state layout))
    (ref : ∀ layout field, motive (.ref layout field))
    (dependentArray : ∀ elem countVar, motive elem → motive (.dependentArray elem countVar))
    (r : RepD Finset) : motive r := by
  induction hn : sizeOf r using Nat.strong_induction_on generalizing r with
  | _ n ih =>
    subst hn
    have hfield : ∀ {fs : List (UInt64 × RepD Finset)} {f}, f ∈ fs → sizeOf fs < sizeOf r →
        motive f.2 := by
      intro fs f hf hlt
      refine ih _ ?_ f.2 rfl
      have := List.sizeOf_lt_of_mem hf
      obtain ⟨off, rep⟩ := f
      simp only [Prod.mk.sizeOf_spec] at this
      change sizeOf rep < sizeOf r
      omega
    have hrep : ∀ {rs : List (RepD Finset)} {a}, a ∈ rs → sizeOf rs < sizeOf r → motive a := by
      intro rs a ha hlt
      have := List.sizeOf_lt_of_mem ha
      exact ih _ (by omega) a rfl
    cases r with
    | byte b => exact byte b
    | struct fields totalSize align =>
      exact struct _ _ _ fun f hf => hfield hf (by simp; omega)
    | array element count => exact array _ _ (ih _ (by simp; omega) _ rfl)
    | enum variants => exact enum _ fun v hv => hfield hv (by simp)
    | ptr pointee => exact ptr _ (ih _ (by simp) _ rfl)
    | union alternatives maxSize maxAlign =>
      exact union _ _ _ fun a ha => hrep ha (by simp; omega)
    | func params result =>
      exact func _ _ (fun p hp => hrep hp (by simp; omega))
        (ih _ (by rw [RepD.func.sizeOf_spec]; omega) _ rfl)
    | manifoldSpatial m => exact manifoldSpatial m
    | gestaltSuperposition g => exact gestaltSuperposition g
    | conceptRelational c => exact conceptRelational c
    | generic name constraints =>
      refine generic _ _ fun r hr => ih _ ?_ r rfl
      have := List.sizeOf_lt_of_mem hr
      simp only [BDConstraint.repDCompatibleWith.sizeOf_spec] at this
      simp only [RepD.generic.sizeOf_spec]
      omega
    | state layout => exact state layout
    | ref layout field => exact ref layout field
    | dependentArray elem countVar => exact dependentArray _ _ (ih _ (by simp; omega) _ rfl)

def RepD.isGeneric : RepD Finset → Bool
  | .generic _ _ => true
  | _ => false

/-! ## What compatibility is -/

theorem genericSatisfiesConstraints_iff {cs : List (BDConstraint Finset)} {r : RepD Finset} :
    genericSatisfiesConstraints cs r = true ↔
      ∀ p, .repDCompatibleWith p ∈ cs → r.compatible p = true := by
  induction cs with
  | nil => simp [genericSatisfiesConstraints.eq_def]
  | cons c cs ih =>
    rw [genericSatisfiesConstraints.eq_def]
    cases c with
    | repDCompatibleWith required => simp [ih]
    | capDAtLeast | relDContains => simp [ih]

/-- The numbers of the two fields are equal and their representations compatible. -/
def fieldCompatible (f g : UInt64 × RepD Finset) : Prop :=
  f.1 = g.1 ∧ f.2.compatible g.2 = true

theorem compatibleFields_iff {fs gs : List (UInt64 × RepD Finset)} :
    compatibleFields fs gs = true ↔ List.Forall₂ fieldCompatible fs gs := by
  induction fs generalizing gs with
  | nil => cases gs <;> simp [compatibleFields.eq_def]
  | cons f fs ih =>
    cases gs with
    | nil => simp [compatibleFields.eq_def]
    | cons g gs =>
      obtain ⟨off, rep⟩ := f
      obtain ⟨off', rep'⟩ := g
      rw [compatibleFields.eq_def]
      simp [ih, fieldCompatible]

theorem compatibleReps_iff {rs ss : List (RepD Finset)} :
    compatibleReps rs ss = true ↔ List.Forall₂ (fun r s => r.compatible s = true) rs ss := by
  induction rs generalizing ss with
  | nil => cases ss <;> simp [compatibleReps.eq_def]
  | cons r rs ih =>
    cases ss with
    | nil => simp [compatibleReps.eq_def]
    | cons s ss =>
      rw [compatibleReps.eq_def]
      simp [ih]

/-- The pairs of shapes, neither of them generic, that `compatible` has a case for. -/
inductive RepD.Matches : RepD Finset → RepD Finset → Prop
  | byteLeft {b s} : Matches (.byte b) s
  | byteRight {r b} : Matches r (.byte b)
  | struct {fs gs m n a b} (h : List.Forall₂ fieldCompatible fs gs) :
    Matches (.struct fs m a) (.struct gs n b)
  | array {r s n} (h : r.compatible s = true) : Matches (.array r n) (.array s n)
  | enum {vs ws} (h : List.Forall₂ fieldCompatible vs ws) : Matches (.enum vs) (.enum ws)
  | ptr {r s} (h : r.compatible s = true) : Matches (.ptr r) (.ptr s)
  | union {rs ss m n a b} (h : List.Forall₂ (fun r s => r.compatible s = true) rs ss) :
    Matches (.union rs m a) (.union ss n b)
  | func {ps qs r s} (hparams : List.Forall₂ (fun r s => r.compatible s = true) ps qs)
    (hresult : r.compatible s = true) : Matches (.func ps r) (.func qs s)

theorem RepD.compatible_generic_left {name : String} {cs : List (BDConstraint Finset)}
    {s : RepD Finset} :
    (RepD.generic name cs).compatible s = genericSatisfiesConstraints cs s := by
  rw [compatible.eq_def]

theorem RepD.compatible_generic_right {name : String} {cs : List (BDConstraint Finset)}
    {r : RepD Finset} (hr : r.isGeneric = false) :
    r.compatible (.generic name cs) = genericSatisfiesConstraints cs r := by
  rw [compatible.eq_def]
  cases r <;> first | rfl | cases hr

theorem RepD.compatible_iff {r s : RepD Finset} (hr : r.isGeneric = false)
    (hs : s.isGeneric = false) :
    r.compatible s = true ↔ r.size = s.size ∧ r.alignment = s.alignment ∧ r.Matches s := by
  rw [compatible.eq_def]
  split
  · cases hr
  · cases hs
  · split
    · next hne =>
      refine ⟨(absurd · Bool.false_ne_true), fun h => ?_⟩
      rcases hne with hne | hne
      · exact absurd h.1 hne
      · exact absurd h.2.1 hne
    · next heq =>
      rw [not_or, not_ne_iff, not_ne_iff] at heq
      rw [and_iff_right heq.1, and_iff_right heq.2]
      split
      · exact iff_of_true rfl .byteLeft
      · exact iff_of_true rfl .byteRight
      · rw [compatibleFields_iff]
        exact ⟨.struct, fun h => by cases h; assumption⟩
      · rw [Bool.and_eq_true, decide_eq_true_eq]
        exact ⟨fun h => h.1 ▸ .array h.2, fun h => by cases h; exact ⟨rfl, ‹_›⟩⟩
      · rw [compatibleFields_iff]
        exact ⟨.enum, fun h => by cases h; assumption⟩
      · exact ⟨.ptr, fun h => by cases h; assumption⟩
      · rw [compatibleReps_iff]
        exact ⟨.union, fun h => by cases h; assumption⟩
      · rw [Bool.and_eq_true, compatibleReps_iff]
        exact ⟨fun h => .func h.1 h.2, fun h => by cases h; exact ⟨‹_›, ‹_›⟩⟩
      · next hbyte hbyte' hstruct harray henum hptr hunion hfunc =>
        refine ⟨(absurd · Bool.false_ne_true), fun h => ?_⟩
        cases h with
        | byteLeft => exact absurd rfl (hbyte _)
        | byteRight => exact absurd rfl (hbyte' _)
        | struct => exact absurd rfl (hstruct _ _ _ _ _ _ rfl)
        | array => exact absurd rfl (harray _ _ _ _ rfl)
        | enum => exact absurd rfl (henum _ _ rfl)
        | ptr => exact absurd rfl (hptr _ _ rfl)
        | union => exact absurd rfl (hunion _ _ _ _ _ _ rfl)
        | func => exact absurd rfl (hfunc _ _ _ _ rfl)

/-! ## Symmetry -/

theorem RepD.exists_generic {r : RepD Finset} (h : r.isGeneric = true) :
    ∃ name cs, r = .generic name cs := by
  cases r with
  | generic name cs => exact ⟨name, cs, rfl⟩
  | _ => cases h

theorem RepD.compatible_symm_of_matches {r : RepD Finset} (hr : r.isGeneric = false)
    (hmatch : ∀ s, r.Matches s → s.Matches r) (s : RepD Finset) (h : r.compatible s = true) :
    s.compatible r = true := by
  cases hs : s.isGeneric with
  | false =>
    rw [compatible_iff hr hs] at h
    exact (compatible_iff hs hr).mpr ⟨h.1.symm, h.2.1.symm, hmatch s h.2.2⟩
  | true =>
    obtain ⟨name, cs, rfl⟩ := exists_generic hs
    rw [compatible_generic_right hr] at h
    rw [compatible_generic_left, h]

theorem forall₂_fieldCompatible_symm {fs gs : List (UInt64 × RepD Finset)}
    (ih : ∀ f ∈ fs, ∀ s, f.2.compatible s = true → s.compatible f.2 = true)
    (h : List.Forall₂ fieldCompatible fs gs) : List.Forall₂ fieldCompatible gs fs :=
  Lib.forall₂_swap (fun f hf _ hfg => ⟨hfg.1.symm, ih f hf _ hfg.2⟩) h

theorem RepD.compatible_symm (r : RepD Finset) :
    ∀ s, r.compatible s = true → s.compatible r = true := by
  induction r using parts_induction with
  | generic name cs ih =>
    intro s h
    rw [compatible_generic_left, genericSatisfiesConstraints_iff] at h
    cases hs : s.isGeneric with
    | false =>
      rw [compatible_generic_right hs, genericSatisfiesConstraints_iff]
      exact h
    | true =>
      -- each requirement of the one generic is compatible with each of the other
      obtain ⟨name', cs', rfl⟩ := exists_generic hs
      rw [compatible_generic_left, genericSatisfiesConstraints_iff]
      intro q hq
      rw [compatible_generic_left, genericSatisfiesConstraints_iff]
      intro p hp
      have hpq := h p hp
      rw [compatible_generic_left, genericSatisfiesConstraints_iff] at hpq
      exact ih p hp q (hpq q hq)
  | struct fields totalSize align ih =>
    refine compatible_symm_of_matches rfl fun s h => ?_
    cases h with
    | byteRight => exact .byteLeft
    | struct h => exact .struct (forall₂_fieldCompatible_symm ih h)
  | enum variants ih =>
    refine compatible_symm_of_matches rfl fun s h => ?_
    cases h with
    | byteRight => exact .byteLeft
    | enum h => exact .enum (forall₂_fieldCompatible_symm ih h)
  | union alternatives maxSize maxAlign ih =>
    refine compatible_symm_of_matches rfl fun s h => ?_
    cases h with
    | byteRight => exact .byteLeft
    | union h => exact .union (Lib.forall₂_swap ih h)
  | func params result ihparams ihresult =>
    refine compatible_symm_of_matches rfl fun s h => ?_
    cases h with
    | byteRight => exact .byteLeft
    | func hparams hresult => exact .func (Lib.forall₂_swap ihparams hparams) (ihresult _ hresult)
  | array element count ih =>
    refine compatible_symm_of_matches rfl fun s h => ?_
    cases h with
    | byteRight => exact .byteLeft
    | array h => exact .array (ih _ h)
  | ptr pointee ih =>
    refine compatible_symm_of_matches rfl fun s h => ?_
    cases h with
    | byteRight => exact .byteLeft
    | ptr h => exact .ptr (ih _ h)
  | byte => exact compatible_symm_of_matches rfl fun s _ => .byteRight
  | manifoldSpatial | gestaltSuperposition | conceptRelational | state | ref | dependentArray =>
    refine compatible_symm_of_matches rfl fun s h => ?_
    cases h with
    | byteRight => exact .byteLeft

theorem RepD.compatible_comm (r s : RepD Finset) : r.compatible s = s.compatible r :=
  Bool.eq_iff_iff.mpr ⟨compatible_symm r s, compatible_symm s r⟩

/-! ## Reflexivity -/

/-- Every part has a case of its own, and what a generic requires is compatible with one another. -/
inductive RepD.SelfCompatible : RepD Finset → Prop
  | byte {b} : SelfCompatible (.byte b)
  | struct {fs n a} (h : ∀ f ∈ fs, SelfCompatible f.2) : SelfCompatible (.struct fs n a)
  | array {r n} (h : SelfCompatible r) : SelfCompatible (.array r n)
  | enum {vs} (h : ∀ v ∈ vs, SelfCompatible v.2) : SelfCompatible (.enum vs)
  | ptr {r} (h : SelfCompatible r) : SelfCompatible (.ptr r)
  | union {rs n a} (h : ∀ r ∈ rs, SelfCompatible r) : SelfCompatible (.union rs n a)
  | func {ps r} (hparams : ∀ p ∈ ps, SelfCompatible p) (hresult : SelfCompatible r) :
    SelfCompatible (.func ps r)
  | generic {name cs} (h : ∀ p q, .repDCompatibleWith p ∈ cs → .repDCompatibleWith q ∈ cs →
    p.compatible q = true) : SelfCompatible (.generic name cs)

section

open RepD

variable {name : String} {fs gs vs ws : List (UInt64 × RepD Finset)} {r s : RepD Finset}
  {rs ss : List (RepD Finset)} {m n a b : UInt64}

theorem RepD.matches_struct :
    (struct fs m a).Matches (struct gs n b) ↔ List.Forall₂ fieldCompatible fs gs :=
  ⟨fun h => by cases h; assumption, .struct⟩

theorem RepD.matches_array :
    (array r m).Matches (array s n) ↔ m = n ∧ r.compatible s = true :=
  ⟨fun h => by cases h; exact ⟨rfl, ‹_›⟩, fun h => h.1 ▸ .array h.2⟩

theorem RepD.matches_enum : (enum vs).Matches (enum ws) ↔ List.Forall₂ fieldCompatible vs ws :=
  ⟨fun h => by cases h; assumption, .enum⟩

theorem RepD.matches_ptr : (ptr r).Matches (ptr s) ↔ r.compatible s = true :=
  ⟨fun h => by cases h; assumption, .ptr⟩

theorem RepD.matches_union : (union rs m a).Matches (union ss n b) ↔
    List.Forall₂ (fun r s => r.compatible s = true) rs ss :=
  ⟨fun h => by cases h; assumption, .union⟩

theorem RepD.matches_func : (func rs r).Matches (func ss s) ↔
    List.Forall₂ (fun r s => r.compatible s = true) rs ss ∧ r.compatible s = true :=
  ⟨fun h => by cases h; exact ⟨‹_›, ‹_›⟩, fun h => .func h.1 h.2⟩

theorem RepD.selfCompatible_struct :
    (struct fs n a).SelfCompatible ↔ ∀ f ∈ fs, f.2.SelfCompatible :=
  ⟨fun h => by cases h; assumption, .struct⟩

theorem RepD.selfCompatible_array : (array r n).SelfCompatible ↔ r.SelfCompatible :=
  ⟨fun h => by cases h; assumption, .array⟩

theorem RepD.selfCompatible_enum : (enum vs).SelfCompatible ↔ ∀ v ∈ vs, v.2.SelfCompatible :=
  ⟨fun h => by cases h; assumption, .enum⟩

theorem RepD.selfCompatible_ptr : (ptr r).SelfCompatible ↔ r.SelfCompatible :=
  ⟨fun h => by cases h; assumption, .ptr⟩

theorem RepD.selfCompatible_union :
    (union rs n a).SelfCompatible ↔ ∀ r ∈ rs, r.SelfCompatible :=
  ⟨fun h => by cases h; assumption, .union⟩

theorem RepD.selfCompatible_func :
    (func rs r).SelfCompatible ↔ (∀ p ∈ rs, p.SelfCompatible) ∧ r.SelfCompatible :=
  ⟨fun h => by cases h; exact ⟨‹_›, ‹_›⟩, fun h => .func h.1 h.2⟩

end

theorem forall₂_fieldCompatible_self {fs : List (UInt64 × RepD Finset)} :
    List.Forall₂ fieldCompatible fs fs ↔ ∀ f ∈ fs, f.2.compatible f.2 = true := by
  rw [List.forall₂_same]
  exact forall₂_congr fun f _ => and_iff_right rfl

theorem RepD.compatible_self_iff_matches {r : RepD Finset} (hr : r.isGeneric = false) :
    r.compatible r = true ↔ r.Matches r := by
  rw [compatible_iff hr hr, and_iff_right rfl, and_iff_right rfl]

theorem genericSatisfiesConstraints_generic_iff {name : String} {cs : List (BDConstraint Finset)} :
    genericSatisfiesConstraints cs (.generic name cs) = true ↔
      (RepD.generic name cs).SelfCompatible := by
  rw [genericSatisfiesConstraints_iff]
  constructor
  · intro h
    refine .generic fun p q hp hq => ?_
    have hq' := h q hq
    rw [RepD.compatible_generic_left, genericSatisfiesConstraints_iff] at hq'
    rw [RepD.compatible_comm]
    exact hq' p hp
  · intro h q hq
    cases h with
    | generic h =>
      rw [RepD.compatible_generic_left, genericSatisfiesConstraints_iff]
      exact fun p hp => h q p hq hp

theorem RepD.compatible_self_iff (r : RepD Finset) : r.compatible r = true ↔ r.SelfCompatible := by
  induction r using parts_induction with
  | generic name cs =>
    rw [compatible_generic_left]
    exact genericSatisfiesConstraints_generic_iff
  | byte => exact iff_of_true ((compatible_self_iff_matches rfl).mpr .byteLeft) .byte
  | struct fields totalSize align ih =>
    rw [compatible_self_iff_matches rfl, matches_struct, forall₂_fieldCompatible_self,
      selfCompatible_struct]
    exact forall₂_congr ih
  | enum variants ih =>
    rw [compatible_self_iff_matches rfl, matches_enum, forall₂_fieldCompatible_self,
      selfCompatible_enum]
    exact forall₂_congr ih
  | union alternatives maxSize maxAlign ih =>
    rw [compatible_self_iff_matches rfl, matches_union, List.forall₂_same, selfCompatible_union]
    exact forall₂_congr ih
  | func params result ihparams ihresult =>
    rw [compatible_self_iff_matches rfl, matches_func, List.forall₂_same, selfCompatible_func]
    exact and_congr (forall₂_congr ihparams) ihresult
  | array element count ih =>
    rw [compatible_self_iff_matches rfl, matches_array, and_iff_right rfl, selfCompatible_array, ih]
  | ptr pointee ih => rw [compatible_self_iff_matches rfl, matches_ptr, selfCompatible_ptr, ih]
  | manifoldSpatial | gestaltSuperposition | conceptRelational | state | ref | dependentArray =>
    rw [compatible_self_iff_matches rfl]
    exact ⟨nofun, nofun⟩

/-! ## What subsumption is -/

/-- The numbers of the two fields are equal and the first representation subsumes the second. -/
def fieldSubsumes (f g : UInt64 × RepD Finset) : Prop := f.1 = g.1 ∧ f.2.subsumes g.2 = true

theorem subsumesFields_iff {fs gs : List (UInt64 × RepD Finset)} :
    subsumesFields fs gs = true ↔ List.Forall₂ fieldSubsumes fs gs := by
  induction fs generalizing gs with
  | nil => cases gs <;> simp [subsumesFields]
  | cons f fs ih =>
    cases gs with
    | nil => simp [subsumesFields]
    | cons g gs => simp [subsumesFields, ih, fieldSubsumes]

theorem subsumesReps_iff {rs ss : List (RepD Finset)} :
    subsumesReps rs ss = true ↔ List.Forall₂ (fun r s => r.subsumes s = true) rs ss := by
  induction rs generalizing ss with
  | nil => cases ss <;> simp [subsumesReps]
  | cons r rs ih =>
    cases ss with
    | nil => simp [subsumesReps]
    | cons s ss => simp [subsumesReps, ih]

/-- The ways in which one representation subsumes another. -/
inductive RepD.Subsumes : RepD Finset → RepD Finset → Prop
  | byte {b : ByteRep} {s : RepD Finset} (hsize : b.size = s.size)
    (halign : b.align = s.alignment) : Subsumes (.byte b) s
  | generic {name cs s} (h : genericSatisfiesConstraints cs s = true) :
    Subsumes (.generic name cs) s
  | struct {fs gs m n a b} (h : List.Forall₂ fieldSubsumes fs gs) :
    Subsumes (.struct fs m a) (.struct gs n b)
  | array {r s n} (h : r.subsumes s = true) : Subsumes (.array r n) (.array s n)
  | enum {vs ws} (h : List.Forall₂ fieldSubsumes vs ws) : Subsumes (.enum vs) (.enum ws)
  | ptr {r s} (h : r.subsumes s = true) : Subsumes (.ptr r) (.ptr s)
  | union {rs ss m n a b} (h : List.Forall₂ (fun r s => r.subsumes s = true) rs ss) :
    Subsumes (.union rs m a) (.union ss n b)
  | func {ps qs r s} (hparams : List.Forall₂ (fun r s => r.subsumes s = true) ps qs)
    (hresult : r.subsumes s = true) : Subsumes (.func ps r) (.func qs s)

theorem RepD.subsumes_iff {r s : RepD Finset} : r.subsumes s = true ↔ r.Subsumes s := by
  rw [subsumes.eq_def]
  split
  · rw [Bool.and_eq_true, decide_eq_true_eq, decide_eq_true_eq]
    exact ⟨fun h => .byte h.1 h.2, fun h => by cases h; exact ⟨‹_›, ‹_›⟩⟩
  · exact ⟨.generic, fun h => by cases h; assumption⟩
  · rw [subsumesFields_iff]
    exact ⟨.struct, fun h => by cases h; assumption⟩
  · rw [Bool.and_eq_true, decide_eq_true_eq]
    exact ⟨fun ⟨hn, h⟩ => hn ▸ .array h, fun h => by cases h; exact ⟨rfl, ‹_›⟩⟩
  · rw [subsumesFields_iff]
    exact ⟨.enum, fun h => by cases h; assumption⟩
  · exact ⟨.ptr, fun h => by cases h; assumption⟩
  · rw [subsumesReps_iff]
    exact ⟨.union, fun h => by cases h; assumption⟩
  · rw [Bool.and_eq_true, subsumesReps_iff]
    exact ⟨fun h => .func h.1 h.2, fun h => by cases h; exact ⟨‹_›, ‹_›⟩⟩
  · next hbyte hgeneric hstruct harray henum hptr hunion hfunc =>
    refine ⟨nofun, fun h => ?_⟩
    cases h with
    | byte => exact absurd rfl (hbyte _)
    | generic => exact absurd rfl (hgeneric _ _)
    | struct => exact absurd rfl (hstruct _ _ _ _ _ _ rfl)
    | array => exact absurd rfl (harray _ _ _ _ rfl)
    | enum => exact absurd rfl (henum _ _ rfl)
    | ptr => exact absurd rfl (hptr _ _ rfl)
    | union => exact absurd rfl (hunion _ _ _ _ _ _ rfl)
    | func => exact absurd rfl (hfunc _ _ _ _ rfl)

theorem forall₂_fieldSubsumes_self {fs : List (UInt64 × RepD Finset)} :
    List.Forall₂ fieldSubsumes fs fs ↔ ∀ f ∈ fs, f.2.subsumes f.2 = true := by
  rw [List.forall₂_same]
  exact forall₂_congr fun f _ => and_iff_right rfl

theorem RepD.subsumes_self_iff (r : RepD Finset) : r.subsumes r = true ↔ r.SelfCompatible := by
  induction r using parts_induction with
  | generic name cs =>
    rw [subsumes_iff, ← genericSatisfiesConstraints_generic_iff]
    exact ⟨fun h => by cases h; assumption, .generic⟩
  | byte => exact iff_of_true (subsumes_iff.mpr (.byte rfl rfl)) .byte
  | struct fields totalSize align ih =>
    rw [subsumes, subsumesFields_iff, forall₂_fieldSubsumes_self, selfCompatible_struct]
    exact forall₂_congr ih
  | enum variants ih =>
    rw [subsumes, subsumesFields_iff, forall₂_fieldSubsumes_self, selfCompatible_enum]
    exact forall₂_congr ih
  | union alternatives maxSize maxAlign ih =>
    rw [subsumes, subsumesReps_iff, List.forall₂_same, selfCompatible_union]
    exact forall₂_congr ih
  | func params result ihparams ihresult =>
    rw [subsumes, Bool.and_eq_true, subsumesReps_iff, List.forall₂_same, selfCompatible_func]
    exact and_congr (forall₂_congr ihparams) ihresult
  | array element count ih =>
    rw [subsumes, Bool.and_eq_true, decide_eq_true_eq, and_iff_right rfl, selfCompatible_array, ih]
  | ptr pointee ih => rw [subsumes, selfCompatible_ptr, ih]
  | manifoldSpatial | gestaltSuperposition | conceptRelational | state | ref | dependentArray =>
    rw [subsumes_iff]
    exact ⟨nofun, nofun⟩

/-! ## Transitivity -/

/-- What `r` subsumes carries over from `s` to `t`: they have equal sizes wherever `r` is a `Byte`,
and wherever it is generic the part of `t` satisfies the constraints. -/
inductive RepD.Carries : RepD Finset → RepD Finset → RepD Finset → Prop
  | byte {b} {s t : RepD Finset} (hsize : s.size = t.size) (halign : s.alignment = t.alignment) :
    Carries (.byte b) s t
  | generic {name cs s t} (h : genericSatisfiesConstraints cs t = true) :
    Carries (.generic name cs) s t
  | struct {fs gs hs l m n a b c} (h : Forall₃ (fun f g h => Carries f.2 g.2 h.2) fs gs hs) :
    Carries (.struct fs l a) (.struct gs m b) (.struct hs n c)
  | array {r s t l m n} (h : Carries r s t) : Carries (.array r l) (.array s m) (.array t n)
  | enum {us vs ws} (h : Forall₃ (fun f g h => Carries f.2 g.2 h.2) us vs ws) :
    Carries (.enum us) (.enum vs) (.enum ws)
  | ptr {r s t} (h : Carries r s t) : Carries (.ptr r) (.ptr s) (.ptr t)
  | union {rs ss ts l m n a b c} (h : Forall₃ (fun r s t => Carries r s t) rs ss ts) :
    Carries (.union rs l a) (.union ss m b) (.union ts n c)
  | func {os ps qs r s t} (hparams : Forall₃ (fun r s t => Carries r s t) os ps qs)
    (hresult : Carries r s t) : Carries (.func os r) (.func ps s) (.func qs t)

theorem fieldSubsumes_iff_carries {fs gs hs : List (UInt64 × RepD Finset)}
    (ih : ∀ f ∈ fs, ∀ s t, f.2.subsumes s = true → s.subsumes t = true →
      (f.2.subsumes t = true ↔ f.2.Carries s t))
    (hfg : List.Forall₂ fieldSubsumes fs gs) (hgh : List.Forall₂ fieldSubsumes gs hs) :
    List.Forall₂ fieldSubsumes fs hs ↔ Forall₃ (fun f g h => f.2.Carries g.2 h.2) fs gs hs := by
  refine Forall₃.iff_of_forall₂ (fun f hf g h hfg hgh => ?_) hfg hgh
  rw [fieldSubsumes, and_iff_right (hfg.1.trans hgh.1)]
  exact ih f hf _ _ hfg.2 hgh.2

theorem RepD.subsumes_trans_iff (r : RepD Finset) : ∀ s t, r.subsumes s = true →
    s.subsumes t = true → (r.subsumes t = true ↔ r.Carries s t) := by
  induction r using parts_induction with
  | byte b =>
    intro s t hrs _
    obtain ⟨hsize, halign⟩ : b.size = s.size ∧ b.align = s.alignment := by
      cases subsumes_iff.mp hrs
      exact ⟨‹_›, ‹_›⟩
    rw [subsumes_iff]
    constructor
    · rintro ⟨⟩
      exact .byte (hsize.symm.trans ‹_›) (halign.symm.trans ‹_›)
    · rintro ⟨⟩
      exact .byte (hsize.trans ‹_›) (halign.trans ‹_›)
  | generic name cs =>
    intro s t _ _
    rw [subsumes_iff]
    constructor
    · rintro ⟨⟩
      exact .generic ‹_›
    · rintro ⟨⟩
      exact .generic ‹_›
  | struct fields totalSize align ih =>
    intro s t hrs hst
    cases subsumes_iff.mp hrs with
    | struct hfg =>
      cases subsumes_iff.mp hst with
      | struct hgh =>
        rw [subsumes, subsumesFields_iff, fieldSubsumes_iff_carries ih hfg hgh]
        exact ⟨.struct, fun h => by cases h; assumption⟩
  | enum variants ih =>
    intro s t hrs hst
    cases subsumes_iff.mp hrs with
    | enum hfg =>
      cases subsumes_iff.mp hst with
      | enum hgh =>
        rw [subsumes, subsumesFields_iff, fieldSubsumes_iff_carries ih hfg hgh]
        exact ⟨.enum, fun h => by cases h; assumption⟩
  | union alternatives maxSize maxAlign ih =>
    intro s t hrs hst
    cases subsumes_iff.mp hrs with
    | union hfg =>
      cases subsumes_iff.mp hst with
      | union hgh =>
        rw [subsumes, subsumesReps_iff, Forall₃.iff_of_forall₂ ih hfg hgh]
        exact ⟨.union, fun h => by cases h; assumption⟩
  | func params result ihparams ihresult =>
    intro s t hrs hst
    cases subsumes_iff.mp hrs with
    | func hfg hresult =>
      cases subsumes_iff.mp hst with
      | func hgh hresult' =>
        rw [subsumes, Bool.and_eq_true, subsumesReps_iff, Forall₃.iff_of_forall₂ ihparams hfg hgh,
          ihresult _ _ hresult hresult']
        exact ⟨fun h => .func h.1 h.2, fun h => by cases h; exact ⟨‹_›, ‹_›⟩⟩
  | array element count ih =>
    intro s t hrs hst
    cases subsumes_iff.mp hrs with
    | array hfg =>
      cases subsumes_iff.mp hst with
      | array hgh =>
        rw [subsumes, Bool.and_eq_true, decide_eq_true_eq, and_iff_right rfl, ih _ _ hfg hgh]
        exact ⟨.array, fun h => by cases h; assumption⟩
  | ptr pointee ih =>
    intro s t hrs hst
    cases subsumes_iff.mp hrs with
    | ptr hfg =>
      cases subsumes_iff.mp hst with
      | ptr hgh =>
        rw [subsumes, ih _ _ hfg hgh]
        exact ⟨.ptr, fun h => by cases h; assumption⟩
  | manifoldSpatial | gestaltSuperposition | conceptRelational | state | ref | dependentArray =>
    intro s t hrs
    cases subsumes_iff.mp hrs

/-! ## Sizes -/

theorem RepD.size_eq_of_compatible {r s : RepD Finset} (hr : r.isGeneric = false)
    (hs : s.isGeneric = false) (h : r.compatible s = true) :
    r.size = s.size ∧ r.alignment = s.alignment :=
  ((compatible_iff hr hs).mp h).imp_right And.left

/-- The sizes that the two representations declare agree: those of structs and unions, those of the
elements of arrays, taken as often as there are elements, and those of the greatest variants. -/
def RepD.DeclaresAs : RepD Finset → RepD Finset → Prop
  | .struct _ totalSize align, .struct _ totalSize' align' =>
    totalSize = totalSize' ∧ align = align'
  | .union _ maxSize maxAlign, .union _ maxSize' maxAlign' =>
    maxSize = maxSize' ∧ maxAlign = maxAlign'
  | .array element count, .array element' count' =>
    element.size * count = element'.size * count' ∧ element.alignment = element'.alignment
  | .enum variants, .enum variants' =>
    alignTo (maxSizes variants) 8 = alignTo (maxSizes variants') 8
  | _, _ => True

theorem RepD.size_eq_iff_of_subsumes {r s : RepD Finset} (hr : r.isGeneric = false)
    (h : r.subsumes s = true) :
    r.size = s.size ∧ r.alignment = s.alignment ↔ r.DeclaresAs s := by
  cases subsumes_iff.mp h with
  | byte hsize halign => exact iff_of_true ⟨hsize, halign⟩ trivial
  | generic => cases hr
  | struct | union | array => rfl
  | enum =>
    change 8 + _ = 8 + _ ∧ _ ↔ _
    exact (and_iff_left rfl).trans (UInt64.add_right_inj 8)
  | ptr | func => exact iff_of_true ⟨rfl, rfl⟩ trivial

/-! ## Both relations -/

/-- Symmetry and the sizes of compatible representations hold throughout; a representation that is
not related to itself, a subsumption that does not carry over, and sizes that differ between related
representations each come with what they rest on. -/
theorem RepD.compatible_subsumes_iff (r s t : RepD Finset) :
    (r.compatible r = true ↔ r.SelfCompatible) ∧
    (r.compatible s = true → s.compatible r = true) ∧
    (r.subsumes r = true ↔ r.SelfCompatible) ∧
    (r.subsumes s = true → s.subsumes t = true → (r.subsumes t = true ↔ r.Carries s t)) ∧
    (r.isGeneric = false → s.isGeneric = false → r.compatible s = true →
      r.size = s.size ∧ r.alignment = s.alignment) ∧
    (r.isGeneric = false → r.subsumes s = true →
      (r.size = s.size ∧ r.alignment = s.alignment ↔ r.DeclaresAs s)) :=
  ⟨compatible_self_iff r, compatible_symm r s, subsumes_self_iff r, subsumes_trans_iff r s t,
    size_eq_of_compatible, size_eq_iff_of_subsumes⟩

/-- One field of four bytes in a struct of the given size and alignment. -/
def oneWord (totalSize align : UInt64) : RepD Finset :=
  .struct [(0, .byte ⟨4, 4⟩)] totalSize align

/-- A `State` is not compatible with itself and does not subsume itself; a struct subsumes a larger
one with the same fields, and so subsumption is not transitive. -/
theorem not_compatible_subsumes :
    ¬(RepD.state 0).compatible (.state 0) = true ∧ ¬(RepD.state 0).subsumes (.state 0) = true ∧
    ((oneWord 4 4).subsumes (oneWord 8 8) = true ∧ (oneWord 4 4).size ≠ (oneWord 8 8).size ∧
      (oneWord 4 4).alignment ≠ (oneWord 8 8).alignment) ∧
    (RepD.byte ⟨4, 4⟩).subsumes (oneWord 4 4) = true ∧
    ¬(RepD.byte ⟨4, 4⟩).subsumes (oneWord 8 8) = true := by
  refine ⟨fun h => ?_, by decide, ⟨by decide, by decide, by decide⟩, by decide, by decide⟩
  cases ((RepD.compatible_iff rfl rfl).mp h).2.2

end Vuma.Bd
