import Vuma.Bd.Unify
import Vuma.Bd.CapdLattice
import Vuma.Bd.CompatCorrect
import Vuma.Lib.Fuel

/-!
# Unification yields a common descriptor

`unify` succeeds or fails alike in both orders. What it makes of two representations follows the
left one wherever both have a shape of their own, sizes and alignments included, and takes the other
side where one is generic. So the result is a common representation exactly when the sizes agree at
every level and the generics are met.
-/

namespace Vuma.Bd.Unify

open Lib (Forall₃)

/-! ## What unification does -/

/-- Three fields with one number whose representations unify. -/
def fieldUnifies (f g h : UInt64 × RepD Finset) : Prop :=
  f.1 = g.1 ∧ h.1 = f.1 ∧ unifyRepd f.2 g.2 = .ok h.2

theorem unifyFields_ok_iff {mismatch : UInt64 → UInt64 → UnificationError}
    {fs gs hs : List (UInt64 × RepD Finset)} (hlen : fs.length = gs.length) :
    unifyFields mismatch fs gs = .ok hs ↔ Forall₃ fieldUnifies fs gs hs := by
  induction fs generalizing gs hs with
  | nil =>
    obtain rfl : gs = [] := List.length_eq_zero_iff.mp hlen.symm
    simp [unifyFields, Forall₃.nil_iff, eq_comm]
  | cons f fs ih =>
    obtain _ | ⟨g, gs⟩ := gs
    · cases hlen
    rw [unifyFields]
    refine Lib.guard_ok_iff.trans ?_
    rw [not_ne_iff, Lib.bind_ok_iff]
    constructor
    · rintro ⟨hoff, u, hu, h⟩
      obtain ⟨us, hus, h⟩ := Lib.bind_eq_ok h
      cases h
      exact .cons ⟨hoff, rfl, hu⟩ ((ih (Nat.succ.inj hlen)).mp hus)
    · rintro ⟨⟩
      rename_i h hs hfield hrest
      refine ⟨hfield.1, h.2, hfield.2.2, Lib.bind_ok_iff.mpr ⟨hs, ?_, ?_⟩⟩
      · exact (ih (Nat.succ.inj hlen)).mpr hrest
      · rw [← hfield.2.1]
        rfl

theorem unifyReps_ok_iff {rs ss us : List (RepD Finset)} (hlen : rs.length = ss.length) :
    unifyReps rs ss = .ok us ↔ Forall₃ (fun r s u => unifyRepd r s = .ok u) rs ss us := by
  induction rs generalizing ss us with
  | nil =>
    obtain rfl : ss = [] := List.length_eq_zero_iff.mp hlen.symm
    simp [unifyReps, Forall₃.nil_iff, eq_comm]
  | cons r rs ih =>
    obtain _ | ⟨s, ss⟩ := ss
    · cases hlen
    rw [unifyReps, Lib.bind_ok_iff]
    constructor
    · rintro ⟨u, hu, h⟩
      obtain ⟨us, hus, h⟩ := Lib.bind_eq_ok h
      cases h
      exact .cons hu ((ih (Nat.succ.inj hlen)).mp hus)
    · rintro ⟨⟩
      rename_i u us hu hrest
      exact ⟨u, hu, Lib.bind_ok_iff.mpr ⟨us, (ih (Nat.succ.inj hlen)).mpr hrest, rfl⟩⟩

/-- The ways in which two representations unify, and what becomes of them. -/
inductive Unifies : RepD Finset → RepD Finset → RepD Finset → Prop
  | byte {b} : Unifies (.byte b) (.byte b) (.byte b)
  | struct {fs gs hs m n a b} (h : Forall₃ fieldUnifies fs gs hs) :
    Unifies (.struct fs m a) (.struct gs n b) (.struct hs m a)
  | array {r s u n} (h : unifyRepd r s = .ok u) : Unifies (.array r n) (.array s n) (.array u n)
  | enum {us vs ws} (h : Forall₃ fieldUnifies us vs ws) : Unifies (.enum us) (.enum vs) (.enum ws)
  | ptr {r s u} (h : unifyRepd r s = .ok u) : Unifies (.ptr r) (.ptr s) (.ptr u)
  | union {rs ss us m n a b} (h : Forall₃ (fun r s u => unifyRepd r s = .ok u) rs ss us) :
    Unifies (.union rs m a) (.union ss n b) (.union us m a)
  | func {os ps qs r s u} (hparams : Forall₃ (fun r s u => unifyRepd r s = .ok u) os ps qs)
    (hresult : unifyRepd r s = .ok u) : Unifies (.func os r) (.func ps s) (.func qs u)
  | genericLeft {name cs s} : Unifies (.generic name cs) s s
  | genericRight {r name cs} (hr : r.isGeneric = false) : Unifies r (.generic name cs) r

theorem unifyRepd_ok_iff {r s u : RepD Finset} : unifyRepd r s = .ok u ↔ Unifies r s u := by
  rw [unifyRepd.eq_def]
  split
  · next a b =>
    split
    · next hne =>
      refine ⟨nofun, fun h => ?_⟩
      cases h
      rcases hne with hne | hne <;> exact absurd rfl hne
    · next heq =>
      rw [not_or, not_ne_iff, not_ne_iff] at heq
      obtain rfl : a = b := by
        cases a
        cases b
        exact congrArg₂ ByteRep.mk heq.1 heq.2
      refine ⟨fun h => ?_, fun h => ?_⟩
      · cases h
        exact .byte
      · cases h
        rfl
  · refine Lib.guard_ok_iff.trans ?_
    constructor
    · rintro ⟨hlen, h⟩
      obtain ⟨hs, hfields, h⟩ := Lib.bind_eq_ok h
      cases h
      exact .struct ((unifyFields_ok_iff (not_ne_iff.mp hlen)).mp hfields)
    · intro h
      cases h with
      | struct h =>
        exact ⟨not_ne_iff.mpr h.length_eq,
          Lib.bind_ok_iff.mpr ⟨_, (unifyFields_ok_iff h.length_eq).mpr h, rfl⟩⟩
  · refine Lib.guard_ok_iff.trans ?_
    constructor
    · rintro ⟨hcount, h⟩
      obtain ⟨e, he, h⟩ := Lib.bind_eq_ok h
      cases h
      exact not_ne_iff.mp hcount ▸ .array he
    · intro h
      cases h with
      | array h => exact ⟨not_ne_iff.mpr rfl, Lib.bind_ok_iff.mpr ⟨_, h, rfl⟩⟩
  · refine Lib.guard_ok_iff.trans ?_
    constructor
    · rintro ⟨hlen, h⟩
      obtain ⟨hs, hfields, h⟩ := Lib.bind_eq_ok h
      cases h
      exact .enum ((unifyFields_ok_iff (not_ne_iff.mp hlen)).mp hfields)
    · intro h
      cases h with
      | enum h =>
        exact ⟨not_ne_iff.mpr h.length_eq,
          Lib.bind_ok_iff.mpr ⟨_, (unifyFields_ok_iff h.length_eq).mpr h, rfl⟩⟩
  · rw [Lib.bind_ok_iff]
    constructor
    · rintro ⟨p, hp, h⟩
      cases h
      exact .ptr hp
    · intro h
      cases h with
      | ptr h => exact ⟨_, h, rfl⟩
  · refine Lib.guard_ok_iff.trans ?_
    constructor
    · rintro ⟨hlen, h⟩
      obtain ⟨us, hreps, h⟩ := Lib.bind_eq_ok h
      cases h
      exact .union ((unifyReps_ok_iff (not_ne_iff.mp hlen)).mp hreps)
    · intro h
      cases h with
      | union h =>
        exact ⟨not_ne_iff.mpr h.length_eq,
          Lib.bind_ok_iff.mpr ⟨_, (unifyReps_ok_iff h.length_eq).mpr h, rfl⟩⟩
  · refine Lib.guard_ok_iff.trans ?_
    constructor
    · rintro ⟨hlen, h⟩
      obtain ⟨us, hparams, h⟩ := Lib.bind_eq_ok h
      obtain ⟨u, hresult, h⟩ := Lib.bind_eq_ok h
      cases h
      exact .func ((unifyReps_ok_iff (not_ne_iff.mp hlen)).mp hparams) hresult
    · intro h
      cases h with
      | func hparams hresult =>
        have hps := (unifyReps_ok_iff hparams.length_eq).mpr hparams
        exact ⟨not_ne_iff.mpr hparams.length_eq,
          Lib.bind_ok_iff.mpr ⟨_, hps, Lib.bind_ok_iff.mpr ⟨_, hresult, rfl⟩⟩⟩
  · refine ⟨fun h => ?_, fun h => ?_⟩
    · cases h
      exact .genericLeft
    · cases h with
      | genericLeft => rfl
      | genericRight hr => cases hr
  · next hne =>
    refine ⟨fun h => ?_, fun h => ?_⟩
    · cases h
      refine .genericRight ?_
      cases r with
      | generic name cs => exact absurd rfl (hne name cs)
      | _ => rfl
    · cases h with
      | genericLeft => exact absurd rfl (hne _ _)
      | genericRight => rfl
  · next hleft hright hbyte hstruct harray henum hptr hunion hfunc =>
    refine ⟨nofun, fun h => ?_⟩
    exfalso
    cases h with
    | byte => exact hbyte _ _ rfl rfl
    | struct => exact hstruct _ _ _ _ _ _ rfl rfl
    | array => exact harray _ _ _ _ rfl rfl
    | enum => exact henum _ _ rfl rfl
    | ptr => exact hptr _ _ rfl rfl
    | union => exact hunion _ _ _ _ _ _ rfl rfl
    | func => exact hfunc _ _ _ _ rfl rfl
    | genericLeft => exact hleft _ _ rfl
    | genericRight => exact hright _ _ rfl

/-! ## The two orders -/

theorem unifyRepd_swap (r : RepD Finset) :
    ∀ s u, unifyRepd r s = .ok u → ∃ v, unifyRepd s r = .ok v := by
  have hfields : ∀ {fs gs hs : List (UInt64 × RepD Finset)}, (∀ f ∈ fs, ∀ s u,
      unifyRepd f.2 s = .ok u → ∃ v, unifyRepd s f.2 = .ok v) → Forall₃ fieldUnifies fs gs hs →
      ∃ l, Forall₃ fieldUnifies gs fs l := by
    intro fs gs hs ih h
    refine h.exists_swap fun f hf g u hu => ?_
    obtain ⟨v, hv⟩ := ih f hf _ _ hu.2.2
    exact ⟨(g.1, v), hu.1.symm, rfl, hv⟩
  induction r using RepD.parts_induction with
  | generic name cs =>
    intro s u _
    simp only [unifyRepd_ok_iff]
    cases hs : s.isGeneric with
    | false => exact ⟨s, .genericRight hs⟩
    | true =>
      obtain ⟨name', cs', rfl⟩ := RepD.exists_generic hs
      exact ⟨_, .genericLeft⟩
  | struct fields totalSize align ih =>
    intro s u h
    simp only [unifyRepd_ok_iff] at h ⊢
    cases h with
    | struct h =>
      obtain ⟨l, hl⟩ := hfields ih h
      exact ⟨_, .struct hl⟩
    | genericRight => exact ⟨_, .genericLeft⟩
  | enum variants ih =>
    intro s u h
    simp only [unifyRepd_ok_iff] at h ⊢
    cases h with
    | enum h =>
      obtain ⟨l, hl⟩ := hfields ih h
      exact ⟨_, .enum hl⟩
    | genericRight => exact ⟨_, .genericLeft⟩
  | union alternatives maxSize maxAlign ih =>
    intro s u h
    simp only [unifyRepd_ok_iff] at h ⊢
    cases h with
    | union h =>
      obtain ⟨l, hl⟩ := h.exists_swap ih
      exact ⟨_, .union hl⟩
    | genericRight => exact ⟨_, .genericLeft⟩
  | func params result ihparams ihresult =>
    intro s u h
    rw [unifyRepd_ok_iff] at h
    simp only [unifyRepd_ok_iff (r := s)]
    cases h with
    | func hparams hresult =>
      obtain ⟨l, hl⟩ := hparams.exists_swap ihparams
      obtain ⟨v, hv⟩ := ihresult _ _ hresult
      exact ⟨_, .func hl hv⟩
    | genericRight => exact ⟨_, .genericLeft⟩
  | array element count ih =>
    intro s u h
    rw [unifyRepd_ok_iff] at h
    simp only [unifyRepd_ok_iff (r := s)]
    cases h with
    | array h =>
      obtain ⟨v, hv⟩ := ih _ _ h
      exact ⟨_, .array hv⟩
    | genericRight => exact ⟨_, .genericLeft⟩
  | ptr pointee ih =>
    intro s u h
    rw [unifyRepd_ok_iff] at h
    simp only [unifyRepd_ok_iff (r := s)]
    cases h with
    | ptr h =>
      obtain ⟨v, hv⟩ := ih _ _ h
      exact ⟨_, .ptr hv⟩
    | genericRight => exact ⟨_, .genericLeft⟩
  | byte =>
    intro s u h
    simp only [unifyRepd_ok_iff] at h ⊢
    cases h with
    | byte => exact ⟨_, .byte⟩
    | genericRight => exact ⟨_, .genericLeft⟩
  | manifoldSpatial | gestaltSuperposition | conceptRelational | state | ref | dependentArray =>
    intro s u h
    simp only [unifyRepd_ok_iff] at h ⊢
    cases h with
    | genericRight => exact ⟨_, .genericLeft⟩

theorem unifyCapd_swap {c c' d : CapD Finset} (h : unifyCapd c c' = .ok d) :
    unifyCapd c' c = .ok d := by
  unfold unifyCapd at h ⊢
  rw [c'.meet_comm]
  by_cases hempty : c.caps ≠ ∅ ∧ c'.caps ≠ ∅ ∧ (c.meet c').caps = ∅
  · rw [if_pos hempty] at h
    cases h
  · rw [if_neg hempty] at h
    rwa [if_neg fun hne => hempty ⟨hne.2.1, hne.1, hne.2.2⟩]

theorem unifyReld_swap {r r' t : RelD Finset} (h : unifyReld r r' = .ok t) :
    unifyReld r' r = .ok t := by
  have hmerge : r'.merge r = r.merge r' := by rw [RelD.merge, RelD.merge, Finset.inter_comm]
  unfold unifyReld at h ⊢
  rw [hmerge]
  by_cases hcons : (r.merge r').isConsistent = true
  · rw [if_pos hcons] at h ⊢
    exact h
  · rw [if_neg hcons] at h
    cases h

theorem unify_ok_iff {a b c : BD Finset} :
    unify a b = .ok c ↔ unifyRepd a.repd b.repd = .ok c.repd ∧
      unifyCapd a.capd b.capd = .ok c.capd ∧ unifyReld a.reld b.reld = .ok c.reld := by
  rw [unify, Lib.bind_ok_iff]
  constructor
  · rintro ⟨repd, hrepd, h⟩
    obtain ⟨capd, hcapd, h⟩ := Lib.bind_eq_ok h
    obtain ⟨reld, hreld, h⟩ := Lib.bind_eq_ok h
    cases h
    exact ⟨hrepd, hcapd, hreld⟩
  · rintro ⟨hrepd, hcapd, hreld⟩
    exact ⟨_, hrepd, Lib.bind_ok_iff.mpr ⟨_, hcapd, Lib.bind_ok_iff.mpr ⟨_, hreld, rfl⟩⟩⟩

theorem unify_swap {a b c : BD Finset} (h : unify a b = .ok c) : ∃ d, unify b a = .ok d := by
  obtain ⟨hrepd, hcapd, hreld⟩ := unify_ok_iff.mp h
  obtain ⟨repd, hrepd'⟩ := unifyRepd_swap _ _ _ hrepd
  exact ⟨⟨repd, c.capd, c.reld⟩,
    unify_ok_iff.mpr ⟨hrepd', unifyCapd_swap hcapd, unifyReld_swap hreld⟩⟩

/-! ## Unification with itself -/

/-- No part, a generic's requirements apart, is of a shape that unification rejects. -/
inductive Unifiable : RepD Finset → Prop
  | byte {b} : Unifiable (.byte b)
  | struct {fs n a} (h : ∀ f ∈ fs, Unifiable f.2) : Unifiable (.struct fs n a)
  | array {r n} (h : Unifiable r) : Unifiable (.array r n)
  | enum {vs} (h : ∀ v ∈ vs, Unifiable v.2) : Unifiable (.enum vs)
  | ptr {r} (h : Unifiable r) : Unifiable (.ptr r)
  | union {rs n a} (h : ∀ r ∈ rs, Unifiable r) : Unifiable (.union rs n a)
  | func {ps r} (hparams : ∀ p ∈ ps, Unifiable p) (hresult : Unifiable r) :
    Unifiable (.func ps r)
  | generic {name cs} : Unifiable (.generic name cs)

theorem fieldUnifies_self {fs : List (UInt64 × RepD Finset)} :
    Forall₃ fieldUnifies fs fs fs ↔ ∀ f ∈ fs, unifyRepd f.2 f.2 = .ok f.2 := by
  rw [Forall₃.same_iff]
  exact forall₂_congr fun f _ => (and_iff_right rfl).trans (and_iff_right rfl)

theorem unifyRepd_self_iff (r : RepD Finset) : unifyRepd r r = .ok r ↔ Unifiable r := by
  induction r using RepD.parts_induction with
  | byte => exact iff_of_true (unifyRepd_ok_iff.mpr .byte) .byte
  | generic => exact iff_of_true (unifyRepd_ok_iff.mpr .genericLeft) .generic
  | struct fields totalSize align ih =>
    rw [unifyRepd_ok_iff]
    refine ⟨fun h => ?_, fun h => ?_⟩
    · cases h with
      | struct h => exact .struct fun f hf => (ih f hf).mp (fieldUnifies_self.mp h f hf)
    · cases h with
      | struct h => exact .struct (fieldUnifies_self.mpr fun f hf => (ih f hf).mpr (h f hf))
  | enum variants ih =>
    rw [unifyRepd_ok_iff]
    refine ⟨fun h => ?_, fun h => ?_⟩
    · cases h with
      | enum h => exact .enum fun f hf => (ih f hf).mp (fieldUnifies_self.mp h f hf)
    · cases h with
      | enum h => exact .enum (fieldUnifies_self.mpr fun f hf => (ih f hf).mpr (h f hf))
  | union alternatives maxSize maxAlign ih =>
    rw [unifyRepd_ok_iff]
    refine ⟨fun h => ?_, fun h => ?_⟩
    · cases h with
      | union h => exact .union fun r hr => (ih r hr).mp (Forall₃.same_iff.mp h r hr)
    · cases h with
      | union h => exact .union (Forall₃.same_iff.mpr fun r hr => (ih r hr).mpr (h r hr))
  | func params result ihparams ihresult =>
    rw [unifyRepd_ok_iff]
    refine ⟨fun h => ?_, fun h => ?_⟩
    · cases h with
      | func hparams hresult =>
        exact .func (fun p hp => (ihparams p hp).mp (Forall₃.same_iff.mp hparams p hp))
          (ihresult.mp hresult)
    · cases h with
      | func hparams hresult =>
        exact .func (Forall₃.same_iff.mpr fun p hp => (ihparams p hp).mpr (hparams p hp))
          (ihresult.mpr hresult)
  | array element count ih =>
    rw [unifyRepd_ok_iff]
    refine ⟨fun h => ?_, fun h => ?_⟩
    · cases h with
      | array h => exact .array (ih.mp h)
    · cases h with
      | array h => exact .array (ih.mpr h)
  | ptr pointee ih =>
    rw [unifyRepd_ok_iff]
    refine ⟨fun h => ?_, fun h => ?_⟩
    · cases h with
      | ptr h => exact .ptr (ih.mp h)
    · cases h with
      | ptr h => exact .ptr (ih.mpr h)
  | manifoldSpatial | gestaltSuperposition | conceptRelational | state | ref | dependentArray =>
    rw [unifyRepd_ok_iff]
    exact ⟨nofun, nofun⟩

theorem unifyCapd_self (c : CapD Finset) : unifyCapd c c = .ok c := by
  rw [unifyCapd, c.meet_self, if_neg fun h => h.1 h.2.2]

theorem unify_self_iff {a : BD Finset} (h : a.reld.isConsistent = true) :
    unify a a = .ok a ↔ Unifiable a.repd := by
  have hreld : unifyReld a.reld a.reld = .ok a.reld := by
    have hmerge : a.reld.merge a.reld = a.reld := by rw [RelD.merge, Finset.inter_self]
    rw [unifyReld, hmerge, if_pos h]
  rw [unify_ok_iff, unifyRepd_self_iff, and_iff_left ⟨unifyCapd_self _, hreld⟩]

/-! ## A common representation -/

/-- Wherever neither representation is generic the parts agree in size and alignment, and wherever
one is generic the other meets its constraints and is compatible with itself. -/
inductive SizesAgree : RepD Finset → RepD Finset → Prop
  | byte {b} : SizesAgree (.byte b) (.byte b)
  | struct {fs gs n a} (h : List.Forall₂ (fun f g => SizesAgree f.2 g.2) fs gs) :
    SizesAgree (.struct fs n a) (.struct gs n a)
  | array {r s : RepD Finset} {n} (hsize : r.size * n = s.size * n)
    (halign : r.alignment = s.alignment) (h : SizesAgree r s) : SizesAgree (.array r n) (.array s n)
  | enum {vs ws} (hsize : (RepD.enum vs).size = (RepD.enum ws).size)
    (h : List.Forall₂ (fun v w => SizesAgree v.2 w.2) vs ws) : SizesAgree (.enum vs) (.enum ws)
  | ptr {r s} (h : SizesAgree r s) : SizesAgree (.ptr r) (.ptr s)
  | union {rs ss n a} (h : List.Forall₂ (fun r s => SizesAgree r s) rs ss) :
    SizesAgree (.union rs n a) (.union ss n a)
  | func {ps qs r s} (hparams : List.Forall₂ (fun r s => SizesAgree r s) ps qs)
    (hresult : SizesAgree r s) : SizesAgree (.func ps r) (.func qs s)
  | genericLeft {name cs s} (h : genericSatisfiesConstraints cs s = true)
    (hs : s.SelfCompatible) : SizesAgree (.generic name cs) s
  | genericRight {r name cs} (hr : r.isGeneric = false)
    (h : genericSatisfiesConstraints cs r = true) (hself : r.SelfCompatible) :
    SizesAgree r (.generic name cs)

theorem Unifies.isGeneric {r s u : RepD Finset} (h : Unifies r s u) (hr : r.isGeneric = false)
    (hs : s.isGeneric = false) : u.isGeneric = false := by
  cases h with
  | genericLeft => cases hr
  | genericRight => cases hs
  | _ => rfl

theorem max_eq_or (a b : UInt64) : max a b = a ∨ max a b = b := by
  rw [← UInt64.toNat_inj, ← UInt64.toNat_inj, toNat_max]
  omega

/-- A generic has no size of its own, so the greater size is that of the other side. -/
theorem Unifies.size_eq {r s u : RepD Finset} (h : Unifies r s u) (hr : u.compatible r = true)
    (hs : u.compatible s = true) :
    u.size = max r.size s.size ∧ (u.alignment = r.alignment ∨ u.alignment = s.alignment) := by
  have hmax : ∀ {a b c : UInt64}, a.toNat = max b.toNat c.toNat → a = max b c := fun h =>
    UInt64.toNat_inj.mp (h.trans (toNat_max _ _).symm)
  cases hgr : r.isGeneric with
  | true =>
    obtain ⟨name, cs, rfl⟩ := RepD.exists_generic hgr
    cases h with
    | genericLeft =>
      have hzero : (RepD.generic name cs).size.toNat = 0 := rfl
      exact ⟨hmax (by omega), .inr rfl⟩
    | genericRight hng => cases hng
  | false =>
    cases hgs : s.isGeneric with
    | true =>
      obtain ⟨name, cs, rfl⟩ := RepD.exists_generic hgs
      have hu : u = r := by
        cases h with
        | genericLeft => cases hgr
        | genericRight => rfl
      have hzero : (RepD.generic name cs).size.toNat = 0 := rfl
      rw [hu]
      exact ⟨hmax (by omega), .inl rfl⟩
    | false =>
      have hgu := h.isGeneric hgr hgs
      obtain ⟨hsize, halign⟩ := RepD.size_eq_of_compatible hgu hgr hr
      have hsize' := (RepD.size_eq_of_compatible hgu hgs hs).1
      refine ⟨hmax ?_, .inl halign⟩
      rw [← hsize, ← hsize', max_self]

theorem maxSizes_eq {vs ws us : List (UInt64 × RepD Finset)} (h : Forall₃ fieldUnifies vs ws us)
    (hvs : List.Forall₂ fieldCompatible us vs) (hws : List.Forall₂ fieldCompatible us ws) :
    maxSizes us = max (maxSizes vs) (maxSizes ws) := by
  apply UInt64.toNat_inj.mp
  induction h with
  | nil => rfl
  | @cons v w u vs ws us h _ ih =>
    rw [List.forall₂_cons] at hvs hws
    have hsize := ((unifyRepd_ok_iff.mp h.2.2).size_eq hvs.1.2 hws.1.2).1
    have hrest := ih hvs.2 hws.2
    rw [toNat_max] at hrest ⊢
    rw [maxSizes, maxSizes, maxSizes, toNat_max, toNat_max, toNat_max, hsize, toNat_max, hrest]
    omega

/-- The greatest size is the one of the left side or that of the right side. -/
theorem enum_size_eq {vs ws us : List (UInt64 × RepD Finset)} (h : Forall₃ fieldUnifies vs ws us)
    (hvs : List.Forall₂ fieldCompatible us vs) (hws : List.Forall₂ fieldCompatible us ws) :
    (RepD.enum us).size = (RepD.enum vs).size ∨ (RepD.enum us).size = (RepD.enum ws).size := by
  rw [RepD.size, RepD.size, RepD.size, maxSizes_eq h hvs hws]
  rcases max_eq_or (maxSizes vs) (maxSizes ws) with hmax | hmax
  · exact .inl (by rw [hmax])
  · exact .inr (by rw [hmax])

theorem array_size_eq {r s u : RepD Finset} {n : UInt64} (h : Unifies r s u)
    (hr : u.compatible r = true) (hs : u.compatible s = true) (hsize : r.size * n = s.size * n)
    (halign : r.alignment = s.alignment) :
    u.size * n = r.size * n ∧ u.alignment = r.alignment := by
  obtain ⟨hmax, halign'⟩ := h.size_eq hr hs
  constructor
  · rw [hmax]
    rcases max_eq_or r.size s.size with heq | heq
    · rw [heq]
    · rw [heq, hsize]
  · rcases halign' with heq | heq
    · exact heq
    · exact heq.trans halign.symm

section

variable {fs gs hs : List (UInt64 × RepD Finset)}

theorem fieldCompatible_iff_agrees
    (ih : ∀ f ∈ fs, ∀ s u, unifyRepd f.2 s = .ok u →
      (u.compatible f.2 = true ∧ u.compatible s = true ↔ SizesAgree f.2 s))
    (h : Forall₃ fieldUnifies fs gs hs) :
    List.Forall₂ fieldCompatible hs fs ∧ List.Forall₂ fieldCompatible hs gs ↔
      List.Forall₂ (fun f g => SizesAgree f.2 g.2) fs gs := by
  refine h.forall₂_and_iff fun f hf g k hk => ?_
  rw [fieldCompatible, fieldCompatible, and_iff_right hk.2.1,
    and_iff_right (hk.2.1.trans hk.1)]
  exact ih f hf _ _ hk.2.2

end

theorem unifyRepd_common_iff (r : RepD Finset) : ∀ s u, unifyRepd r s = .ok u →
    (u.compatible r = true ∧ u.compatible s = true ↔ SizesAgree r s) := by
  have hright : ∀ {r : RepD Finset} {name cs}, r.isGeneric = false →
      (r.compatible r = true ∧ r.compatible (.generic name cs) = true ↔
        SizesAgree r (.generic name cs)) := by
    intro r name cs hr
    rw [RepD.compatible_self_iff, RepD.compatible_generic_right hr]
    refine ⟨fun h => .genericRight hr h.2 h.1, fun h => ?_⟩
    cases h with
    | genericLeft => cases hr
    | genericRight _ h hself => exact ⟨hself, h⟩
  induction r using RepD.parts_induction with
  | generic name cs =>
    intro s u hok
    cases unifyRepd_ok_iff.mp hok with
    | genericLeft =>
      rw [RepD.compatible_comm, RepD.compatible_generic_left, RepD.compatible_self_iff]
      refine ⟨fun h => .genericLeft h.1 h.2, fun h => ?_⟩
      cases h with
      | genericLeft h hs => exact ⟨h, hs⟩
      | genericRight hr => cases hr
    | genericRight hr => cases hr
  | struct fields totalSize align ih =>
    intro s u hok
    cases unifyRepd_ok_iff.mp hok with
    | genericRight hr => exact hright hr
    | struct h =>
      rw [RepD.compatible_iff rfl rfl, RepD.compatible_iff rfl rfl, RepD.matches_struct,
        RepD.matches_struct]
      constructor
      · rintro ⟨⟨-, -, hfs⟩, rfl, rfl, hgs⟩
        exact .struct ((fieldCompatible_iff_agrees ih h).mp ⟨hfs, hgs⟩)
      · intro hagrees
        cases hagrees with
        | struct hfg =>
          obtain ⟨hfs, hgs⟩ := (fieldCompatible_iff_agrees ih h).mpr hfg
          exact ⟨⟨rfl, rfl, hfs⟩, rfl, rfl, hgs⟩
  | enum variants ih =>
    intro s u hok
    cases unifyRepd_ok_iff.mp hok with
    | genericRight hr => exact hright hr
    | enum h =>
      rw [RepD.compatible_iff rfl rfl, RepD.compatible_iff rfl rfl, RepD.matches_enum,
        RepD.matches_enum]
      constructor
      · rintro ⟨⟨hsize, -, hfs⟩, hsize', -, hgs⟩
        exact .enum (hsize.symm.trans hsize') ((fieldCompatible_iff_agrees ih h).mp ⟨hfs, hgs⟩)
      · intro hagrees
        cases hagrees with
        | enum hsize hfg =>
          obtain ⟨hfs, hgs⟩ := (fieldCompatible_iff_agrees ih h).mpr hfg
          rcases enum_size_eq h hfs hgs with hu | hu
          · exact ⟨⟨hu, rfl, hfs⟩, hu.trans hsize, rfl, hgs⟩
          · exact ⟨⟨hu.trans hsize.symm, rfl, hfs⟩, hu, rfl, hgs⟩
  | union alternatives maxSize maxAlign ih =>
    intro s u hok
    cases unifyRepd_ok_iff.mp hok with
    | genericRight hr => exact hright hr
    | union h =>
      rw [RepD.compatible_iff rfl rfl, RepD.compatible_iff rfl rfl, RepD.matches_union,
        RepD.matches_union]
      constructor
      · rintro ⟨⟨-, -, hrs⟩, rfl, rfl, hss⟩
        exact .union ((h.forall₂_and_iff ih).mp ⟨hrs, hss⟩)
      · intro hagrees
        cases hagrees with
        | union hfg =>
          obtain ⟨hrs, hss⟩ := (h.forall₂_and_iff ih).mpr hfg
          exact ⟨⟨rfl, rfl, hrs⟩, rfl, rfl, hss⟩
  | func params result ihparams ihresult =>
    intro s u hok
    cases unifyRepd_ok_iff.mp hok with
    | genericRight hr => exact hright hr
    | func hparams hresult =>
      rw [RepD.compatible_iff rfl rfl, RepD.compatible_iff rfl rfl, RepD.matches_func,
        RepD.matches_func]
      constructor
      · rintro ⟨⟨-, -, hps, hr⟩, -, -, hqs, hs⟩
        exact .func ((hparams.forall₂_and_iff ihparams).mp ⟨hps, hqs⟩)
          ((ihresult _ _ hresult).mp ⟨hr, hs⟩)
      · intro hagrees
        cases hagrees with
        | func hpq hrs =>
          obtain ⟨hps, hqs⟩ := (hparams.forall₂_and_iff ihparams).mpr hpq
          obtain ⟨hr, hs⟩ := (ihresult _ _ hresult).mpr hrs
          exact ⟨⟨rfl, rfl, hps, hr⟩, rfl, rfl, hqs, hs⟩
  | array element count ih =>
    intro s u hok
    cases unifyRepd_ok_iff.mp hok with
    | genericRight hr => exact hright hr
    | array h =>
      rw [RepD.compatible_iff rfl rfl, RepD.compatible_iff rfl rfl, RepD.matches_array,
        RepD.matches_array]
      constructor
      · rintro ⟨⟨hsize, halign, -, hr⟩, hsize', halign', -, hs⟩
        exact .array (hsize.symm.trans hsize') (halign.symm.trans halign')
          ((ih _ _ h).mp ⟨hr, hs⟩)
      · intro hagrees
        cases hagrees with
        | array hsize halign hrs =>
          obtain ⟨hr, hs⟩ := (ih _ _ h).mpr hrs
          obtain ⟨husize, hualign⟩ := array_size_eq (unifyRepd_ok_iff.mp h) hr hs hsize halign
          exact ⟨⟨husize, hualign, rfl, hr⟩, husize.trans hsize, hualign.trans halign, rfl, hs⟩
  | ptr pointee ih =>
    intro s u hok
    cases unifyRepd_ok_iff.mp hok with
    | genericRight hr => exact hright hr
    | ptr h =>
      rw [RepD.compatible_iff rfl rfl, RepD.compatible_iff rfl rfl, RepD.matches_ptr,
        RepD.matches_ptr]
      constructor
      · rintro ⟨⟨-, -, hr⟩, -, -, hs⟩
        exact .ptr ((ih _ _ h).mp ⟨hr, hs⟩)
      · intro hagrees
        cases hagrees with
        | ptr hrs =>
          obtain ⟨hr, hs⟩ := (ih _ _ h).mpr hrs
          exact ⟨⟨rfl, rfl, hr⟩, rfl, rfl, hs⟩
  | byte =>
    intro s u hok
    cases unifyRepd_ok_iff.mp hok with
    | genericRight hr => exact hright hr
    | byte =>
      rw [and_self_iff, RepD.compatible_self_iff]
      exact iff_of_true .byte .byte
  | manifoldSpatial | gestaltSuperposition | conceptRelational | state | ref | dependentArray =>
    intro s u hok
    cases unifyRepd_ok_iff.mp hok with
    | genericRight hr => exact hright hr

/-! ## Without generics -/

/-- No generic occurs. -/
inductive GenericFree : RepD Finset → Prop
  | byte {b} : GenericFree (.byte b)
  | struct {fs n a} (h : ∀ f ∈ fs, GenericFree f.2) : GenericFree (.struct fs n a)
  | array {r n} (h : GenericFree r) : GenericFree (.array r n)
  | enum {vs} (h : ∀ v ∈ vs, GenericFree v.2) : GenericFree (.enum vs)
  | ptr {r} (h : GenericFree r) : GenericFree (.ptr r)
  | union {rs n a} (h : ∀ r ∈ rs, GenericFree r) : GenericFree (.union rs n a)
  | func {ps r} (hparams : ∀ p ∈ ps, GenericFree p) (hresult : GenericFree r) :
    GenericFree (.func ps r)
  | manifoldSpatial {m} : GenericFree (.manifoldSpatial m)
  | gestaltSuperposition {g} : GenericFree (.gestaltSuperposition g)
  | conceptRelational {c} : GenericFree (.conceptRelational c)
  | state {layout} : GenericFree (.state layout)
  | ref {layout field} : GenericFree (.ref layout field)
  | dependentArray {r v} (h : GenericFree r) : GenericFree (.dependentArray r v)

/-- The left side is what is left over, and the two sides are equal when their sizes agree. -/
def LeftWins (r s u : RepD Finset) : Prop := u = r ∧ (r = s ↔ SizesAgree r s)

section

variable {fs gs hs : List (UInt64 × RepD Finset)}

theorem fields_leftWins (hfs : ∀ f ∈ fs, GenericFree f.2) (hgs : ∀ g ∈ gs, GenericFree g.2)
    (ih : ∀ f ∈ fs, ∀ s u, GenericFree f.2 → GenericFree s → unifyRepd f.2 s = .ok u →
      LeftWins f.2 s u) (h : Forall₃ fieldUnifies fs gs hs) :
    hs = fs ∧ (fs = gs ↔ List.Forall₂ (fun f g => SizesAgree f.2 g.2) fs gs) := by
  have hstep : ∀ f ∈ fs, ∀ g ∈ gs, ∀ k, fieldUnifies f g k → LeftWins f.2 g.2 k.2 :=
    fun f hf g hg k hk => ih f hf _ _ (hfs f hf) (hgs g hg) hk.2.2
  refine ⟨h.eq_left fun f hf g hg k hk => ?_, h.eq_iff fun f hf g hg k hk => ?_⟩
  · exact Prod.ext hk.2.1 (hstep f hf g hg k hk).1
  · rw [← (hstep f hf g hg k hk).2]
    exact ⟨congrArg Prod.snd, Prod.ext hk.1⟩

theorem reps_leftWins {rs ss us : List (RepD Finset)} (hrs : ∀ r ∈ rs, GenericFree r)
    (hss : ∀ s ∈ ss, GenericFree s)
    (ih : ∀ r ∈ rs, ∀ s u, GenericFree r → GenericFree s → unifyRepd r s = .ok u →
      LeftWins r s u) (h : Forall₃ (fun r s u => unifyRepd r s = .ok u) rs ss us) :
    us = rs ∧ (rs = ss ↔ List.Forall₂ (fun r s => SizesAgree r s) rs ss) := by
  refine ⟨h.eq_left fun r hr s hs u hu => ?_, h.eq_iff fun r hr s hs u hu => ?_⟩
  · exact (ih r hr s u (hrs r hr) (hss s hs) hu).1
  · exact (ih r hr s u (hrs r hr) (hss s hs) hu).2

end

theorem unifyRepd_leftWins (r : RepD Finset) : ∀ s u, GenericFree r → GenericFree s →
    unifyRepd r s = .ok u → LeftWins r s u := by
  induction r using RepD.parts_induction with
  | byte =>
    intro s u _ hs hok
    cases unifyRepd_ok_iff.mp hok with
    | genericRight => cases hs
    | byte => exact ⟨rfl, iff_of_true rfl .byte⟩
  | generic => exact fun _ _ hr => by cases hr
  | struct fields totalSize align ih =>
    intro s u hr hs hok
    cases unifyRepd_ok_iff.mp hok with
    | genericRight => cases hs
    | struct h =>
      cases hr with
      | struct hfs =>
        cases hs with
        | struct hgs =>
          obtain ⟨rfl, heq⟩ := fields_leftWins hfs hgs ih h
          refine ⟨rfl, fun hrs => ?_, fun hagrees => ?_⟩
          · cases hrs
            exact .struct (heq.mp rfl)
          · cases hagrees with
            | struct hfg => rw [heq.mpr hfg]
  | enum variants ih =>
    intro s u hr hs hok
    cases unifyRepd_ok_iff.mp hok with
    | genericRight => cases hs
    | enum h =>
      cases hr with
      | enum hfs =>
        cases hs with
        | enum hgs =>
          obtain ⟨rfl, heq⟩ := fields_leftWins hfs hgs ih h
          refine ⟨rfl, fun hrs => ?_, fun hagrees => ?_⟩
          · cases hrs
            exact .enum rfl (heq.mp rfl)
          · cases hagrees with
            | enum _ hfg => rw [heq.mpr hfg]
  | union alternatives maxSize maxAlign ih =>
    intro s u hr hs hok
    cases unifyRepd_ok_iff.mp hok with
    | genericRight => cases hs
    | union h =>
      cases hr with
      | union hrs =>
        cases hs with
        | union hss =>
          obtain ⟨rfl, heq⟩ := reps_leftWins hrs hss ih h
          refine ⟨rfl, fun hrs => ?_, fun hagrees => ?_⟩
          · cases hrs
            exact .union (heq.mp rfl)
          · cases hagrees with
            | union hfg => rw [heq.mpr hfg]
  | func params result ihparams ihresult =>
    intro s u hr hs hok
    cases unifyRepd_ok_iff.mp hok with
    | genericRight => cases hs
    | func hparams hresult =>
      cases hr with
      | func hps hpr =>
        cases hs with
        | func hqs hqr =>
          obtain ⟨rfl, heq⟩ := reps_leftWins hps hqs ihparams hparams
          obtain ⟨rfl, heq'⟩ := ihresult _ _ hpr hqr hresult
          refine ⟨rfl, fun hrs => ?_, fun hagrees => ?_⟩
          · cases hrs
            exact .func (heq.mp rfl) (heq'.mp rfl)
          · cases hagrees with
            | func hpq hrs => rw [heq.mpr hpq, heq'.mpr hrs]
  | array element count ih =>
    intro s u hr hs hok
    cases unifyRepd_ok_iff.mp hok with
    | genericRight => cases hs
    | array h =>
      cases hr with
      | array hr =>
        cases hs with
        | array hs =>
          obtain ⟨rfl, heq⟩ := ih _ _ hr hs h
          refine ⟨rfl, fun hrs => ?_, fun hagrees => ?_⟩
          · cases hrs
            exact .array rfl rfl (heq.mp rfl)
          · cases hagrees with
            | array _ _ hrs => rw [heq.mpr hrs]
  | ptr pointee ih =>
    intro s u hr hs hok
    cases unifyRepd_ok_iff.mp hok with
    | genericRight => cases hs
    | ptr h =>
      cases hr with
      | ptr hr =>
        cases hs with
        | ptr hs =>
          obtain ⟨rfl, heq⟩ := ih _ _ hr hs h
          refine ⟨rfl, fun hrs => ?_, fun hagrees => ?_⟩
          · cases hrs
            exact .ptr (heq.mp rfl)
          · cases hagrees with
            | ptr hrs => rw [heq.mpr hrs]
  | manifoldSpatial | gestaltSuperposition | conceptRelational | state | ref | dependentArray =>
    intro s u _ hs hok
    cases unifyRepd_ok_iff.mp hok with
    | genericRight => cases hs

/-! ## Descriptors -/

theorem unifyCapd_isSubset {c c' d : CapD Finset} (h : unifyCapd c c' = .ok d) :
    d.isSubset c = true ∧ d.isSubset c' = true := by
  have hd : d = c.meet c' := by
    unfold unifyCapd at h
    by_cases hempty : c.caps ≠ ∅ ∧ c'.caps ≠ ∅ ∧ (c.meet c').caps = ∅
    · rw [if_pos hempty] at h
      cases h
    · rw [if_neg hempty] at h
      cases h
      rfl
  have hlower := (c.isGLB_meet c').1
  rw [hd]
  exact ⟨hlower (Set.mem_insert c {c'}), hlower (Set.mem_insert_of_mem c rfl)⟩

theorem unifyReld_subset {r r' t : RelD Finset} (h : unifyReld r r' = .ok t) :
    t.relations ⊆ r.relations ∧ t.relations ⊆ r'.relations := by
  have ht : t = r.merge r' := by
    unfold unifyReld at h
    by_cases hcons : (r.merge r').isConsistent = true
    · rw [if_pos hcons] at h
      cases h
      rfl
    · rw [if_neg hcons] at h
      cases h
  rw [ht]
  exact ⟨Finset.inter_subset_left, Finset.inter_subset_right⟩

theorem unify_comm_iff {a b c d : BD Finset} (hab : unify a b = .ok c) (hba : unify b a = .ok d)
    (ha : GenericFree a.repd) (hb : GenericFree b.repd) : c = d ↔ SizesAgree a.repd b.repd := by
  obtain ⟨hrepd, hcapd, hreld⟩ := unify_ok_iff.mp hab
  obtain ⟨hrepd', hcapd', hreld'⟩ := unify_ok_iff.mp hba
  obtain ⟨hc, heq⟩ := unifyRepd_leftWins _ _ _ ha hb hrepd
  have hd := (unifyRepd_leftWins _ _ _ hb ha hrepd').1
  have hcap : c.capd = d.capd :=
    Except.ok.inj ((unifyCapd_swap hcapd).symm.trans hcapd')
  have hrel : c.reld = d.reld :=
    Except.ok.inj ((unifyReld_swap hreld).symm.trans hreld')
  rw [← heq, ← hc, ← hd]
  refine ⟨congrArg BD.repd, fun h => ?_⟩
  cases c
  cases d
  exact congr (congrArg₂ BD.mk h hcap) hrel

/-- `unify` succeeds in both orders or in neither and its capabilities and relations are common to
both sides. Unifying with itself takes shapes that unification knows, and a common representation
takes sizes that agree. -/
theorem unify_common_iff (a b : BD Finset) :
    (a.reld.isConsistent = true → (unify a a = .ok a ↔ Unifiable a.repd)) ∧
    ((∃ c, unify a b = .ok c) ↔ ∃ c, unify b a = .ok c) ∧
    (∀ c d, unify a b = .ok c → unify b a = .ok d → GenericFree a.repd → GenericFree b.repd →
      (c = d ↔ SizesAgree a.repd b.repd)) ∧
    ∀ c, unify a b = .ok c →
      (c.repd.compatible a.repd = true ∧ c.repd.compatible b.repd = true ↔
        SizesAgree a.repd b.repd) ∧
      (c.capd.isSubset a.capd = true ∧ c.capd.isSubset b.capd = true) ∧
      c.reld.relations ⊆ a.reld.relations ∧ c.reld.relations ⊆ b.reld.relations := by
  refine ⟨unify_self_iff, ⟨fun ⟨_, h⟩ => unify_swap h, fun ⟨_, h⟩ => unify_swap h⟩,
    fun c d => unify_comm_iff, fun c h => ?_⟩
  obtain ⟨hrepd, hcapd, hreld⟩ := unify_ok_iff.mp h
  exact ⟨unifyRepd_common_iff _ _ _ hrepd, unifyCapd_isSubset hcapd, unifyReld_subset hreld⟩

/-! ## Where unification falls short -/

/-- A descriptor without capabilities and relations. -/
def bare (repd : RepD Finset) : BD Finset := ⟨repd, ⟨∅, ∅⟩, ⟨∅⟩⟩

theorem unify_oneWord (n a m b : UInt64) :
    unify (bare (oneWord n a)) (bare (oneWord m b)) = .ok (bare (oneWord n a)) := by
  refine unify_ok_iff.mpr ⟨unifyRepd_ok_iff.mpr (.struct (.cons ⟨rfl, rfl, ?_⟩ .nil)), ?_, ?_⟩
  · exact unifyRepd_ok_iff.mpr .byte
  · exact unifyCapd_self _
  · rfl

/-- A struct of one word unifies with itself to a common representation, and with one of another size
to something else in each order. -/
theorem unify_common_oneWord :
    (unify (bare (oneWord 4 4)) (bare (oneWord 4 4)) = .ok (bare (oneWord 4 4)) ∧
      (oneWord 4 4).compatible (oneWord 4 4) = true) ∧
    bare (oneWord 4 4) ≠ bare (oneWord 8 8) := by
  have hself : SizesAgree (oneWord 4 4) (oneWord 4 4) := .struct (.cons .byte .nil)
  have hne : ¬ SizesAgree (oneWord 4 4) (oneWord 8 8) := nofun
  have hfree : ∀ n a, GenericFree (oneWord n a) := fun n a =>
    .struct fun f hf => by rw [List.mem_singleton.mp hf]; exact .byte
  have hok := ((unify_common_iff (bare (oneWord 4 4)) (bare (oneWord 4 4))).1 (by decide)).mpr
    (.struct fun f hf => by rw [List.mem_singleton.mp hf]; exact .byte)
  refine ⟨⟨hok, ?_⟩, fun heq => hne ?_⟩
  · exact (((unify_common_iff _ _).2.2.2 _ hok).1.mpr hself).1
  · exact ((unify_common_iff (bare (oneWord 4 4)) (bare (oneWord 8 8))).2.2.1 _ _
      (unify_oneWord ..) (unify_oneWord ..) (hfree ..) (hfree ..)).mp heq

/-- A `State` does not unify with itself. Two structs with one field and different sizes unify, to
the left one in either order, which is not compatible with the right one. -/
theorem not_unify_common :
    ((bare (.state 0)).reld.isConsistent = true ∧
      unify (bare (.state 0)) (bare (.state 0)) ≠ .ok (bare (.state 0))) ∧
    ∃ c d, unify (bare (oneWord 4 4)) (bare (oneWord 8 8)) = .ok c ∧
      unify (bare (oneWord 8 8)) (bare (oneWord 4 4)) = .ok d ∧ c ≠ d ∧
      ¬c.repd.compatible (bare (oneWord 8 8)).repd = true := by
  refine ⟨⟨by decide, fun h => ?_⟩, bare (oneWord 4 4), bare (oneWord 8 8),
    unify_oneWord .., unify_oneWord .., fun h => ?_, fun h => ?_⟩
  · cases unifyRepd_ok_iff.mp (unify_ok_iff.mp h).1
  · have hsize : (4 : UInt64) = 8 := congrArg (fun bd => bd.repd.size) h
    exact absurd hsize (by decide)
  · have hsize : (4 : UInt64) = 8 := ((RepD.compatible_iff rfl rfl).mp h).1
    exact absurd hsize (by decide)

end Vuma.Bd.Unify
