import Vuma.Bd.LayoutRegistry

/-!
# Registered layouts

A layout is as it should be exactly when its padded size fits into 64 bits and no field that holds a
state runs into what comes after it: the loop places the fields as if a state took no room.
-/

namespace Vuma.Bd

open Vuma.Lib

/-! ## What is asked of a layout -/

/-- The bytes a field takes up. -/
def LayoutRegistry.occupied (reg : LayoutRegistry) (f : LayoutField) : Nat :=
  match f.repd with
  | .state layout => (reg.stateSize layout).toNat
  | _ => f.size.toNat

/-- The bytes from an offset on. -/
def byteRange (offset size : Nat) : Set Nat := Set.Ico offset (offset + size)

/-- The fields are apart and in order, aligned and inside of the layout, which is a multiple of its
alignment. -/
structure LayoutDef.WellFormed (reg : LayoutRegistry) (d : LayoutDef) : Prop where
  apart : d.fields.Pairwise fun f g => f.offset ≤ g.offset ∧
    Disjoint (byteRange f.offset.toNat (reg.occupied f)) (byteRange g.offset.toNat (reg.occupied g))
  aligned : ∀ f ∈ d.fields, f.repd.fieldAlign.toNat ∣ f.offset.toNat
  inside : ∀ f ∈ d.fields, f.offset.toNat + reg.occupied f ≤ d.totalSize.toNat
  padded : d.alignment.toNat ∣ d.totalSize.toNat

/-- What the registry promises after some calls: its layouts are well formed, and the layout of an
id is the one it had when the id was returned. -/
structure RegistryRight (calls : List (String × List (String × RepD Finset))) : Prop where
  wellFormed : ∀ d ∈ (LayoutRegistry.new.registerAll calls).layouts,
    d.WellFormed (LayoutRegistry.new.registerAll calls)
  keeps : ∀ before call after, calls = before ++ call :: after →
    let r := (LayoutRegistry.new.registerAll before).register call.1 call.2
    (LayoutRegistry.new.registerAll calls).get r.2 = r.1.get r.2

/-! ## Places without a bound -/

/-- Where the fields go, one after the other from a number on, if numbers have no bound. -/
def places : Nat → List (RepD Finset) → List (Nat × RepD Finset)
  | _, [] => []
  | cur, r :: rs =>
    (roundUp cur r.fieldAlign.toNat, r) ::
      places (roundUp cur r.fieldAlign.toNat + r.size.toNat) rs

/-- Where the last of them ends. -/
def placesEnd : Nat → List (RepD Finset) → Nat
  | cur, [] => cur
  | cur, r :: rs => placesEnd (roundUp cur r.fieldAlign.toNat + r.size.toNat) rs

/-- The greatest alignment, at least `a`. -/
def maxFieldAlign (a : UInt64) (rs : List (RepD Finset)) : UInt64 :=
  rs.foldl (fun a r => max a r.fieldAlign) a

/-- The size of a layout with its padding. -/
def paddedSize (rs : List (RepD Finset)) : Nat :=
  roundUp (placesEnd 0 rs) (maxFieldAlign 1 rs).toNat

/-- The bytes a representation takes up, given the sizes of the states. -/
def occupies (stateSize : UInt32 → Nat) : RepD Finset → Nat
  | .state layout => stateSize layout
  | r => r.size.toNat

/-- The representation is that of a state. -/
def RepD.IsState (r : RepD Finset) : Prop := ∃ layout, r = .state layout

/-- The padded size fits, and every state ends before the next field that takes up room, and before
the end of the layout. -/
structure Fits (stateSize : UInt32 → Nat) (rs : List (RepD Finset)) : Prop where
  bound : paddedSize rs < 2 ^ 64
  next : (places 0 rs).Pairwise fun p q => p.2.IsState → occupies stateSize p.2 ≠ 0 →
    occupies stateSize q.2 ≠ 0 → p.1 + occupies stateSize p.2 ≤ q.1
  last : ∀ p ∈ places 0 rs, p.2.IsState → p.1 + occupies stateSize p.2 ≤ paddedSize rs

theorem fieldAlign_pos (r : RepD Finset) : 0 < r.fieldAlign.toNat := by
  have hone : (1 : UInt64).toNat = 1 := rfl
  rw [RepD.fieldAlign, toNat_max, hone]
  omega

variable {r : RepD Finset} {rs : List (RepD Finset)} {cur : Nat}

theorem occupies_of_not_isState (stateSize : UInt32 → Nat) (h : ¬ r.IsState) :
    occupies stateSize r = r.size.toNat := by
  cases r with
  | state layout => exact absurd ⟨layout, rfl⟩ h
  | _ => rfl

theorem size_of_isState (h : r.IsState) : r.size.toNat = 0 := by
  obtain ⟨layout, rfl⟩ := h
  simp [RepD.size]

theorem size_le_occupies (stateSize : UInt32 → Nat) (r : RepD Finset) :
    r.size.toNat ≤ occupies stateSize r := by
  by_cases h : r.IsState
  · rw [size_of_isState h]
    exact Nat.zero_le _
  · rw [occupies_of_not_isState stateSize h]

theorem le_placesEnd (cur : Nat) (rs : List (RepD Finset)) : cur ≤ placesEnd cur rs := by
  induction rs generalizing cur with
  | nil => exact Nat.le_refl cur
  | cons r rs ih =>
    have hstart := le_roundUp (fieldAlign_pos r) cur
    have hrest := ih (roundUp cur r.fieldAlign.toNat + r.size.toNat)
    rw [placesEnd]
    omega

theorem mem_places {p : Nat × RepD Finset} (h : p ∈ places cur rs) :
    cur ≤ p.1 ∧ p.2.fieldAlign.toNat ∣ p.1 ∧ p.1 + p.2.size.toNat ≤ placesEnd cur rs := by
  induction rs generalizing cur with
  | nil => cases h
  | cons r rs ih =>
    have hstart := le_roundUp (fieldAlign_pos r) cur
    rw [places, List.mem_cons] at h
    rw [placesEnd]
    rcases h with rfl | h
    · exact ⟨hstart, dvd_roundUp _ _, le_placesEnd _ _⟩
    · obtain ⟨hle, hdvd, hend⟩ := ih h
      exact ⟨by omega, hdvd, hend⟩

/-- Each place starts where the one before it ends, or after. -/
theorem pairwise_places (cur : Nat) (rs : List (RepD Finset)) :
    (places cur rs).Pairwise fun p q => p.1 + p.2.size.toNat ≤ q.1 := by
  induction rs generalizing cur with
  | nil => exact .nil
  | cons r rs ih => exact List.pairwise_cons.mpr ⟨fun q hq => (mem_places hq).1, ih _⟩

theorem maxFieldAlign_pos {a : UInt64} (ha : 0 < a.toNat) (rs : List (RepD Finset)) :
    0 < (maxFieldAlign a rs).toNat := by
  induction rs generalizing a with
  | nil => exact ha
  | cons r rs ih =>
    apply ih
    rw [toNat_max]
    omega

/-! ## The code's places -/

theorem mod_eq_zero_iff {n align : UInt64} : n % align = 0 ↔ align.toNat ∣ n.toNat := by
  rw [← UInt64.toNat_inj, UInt64.toNat_mod, Nat.dvd_iff_mod_eq_zero]
  rfl

theorem toNat_alignTo {n align : UInt64} (ha : 0 < align.toNat) :
    (alignTo n align).toNat = roundUp n.toNat align.toNat % 2 ^ 64 := by
  rw [alignTo, UInt64.toNat_mul, UInt64.toNat_add, UInt64.toNat_div, Nat.mul_mod, Nat.mod_mod,
    ← Nat.mul_mod]
  by_cases hdvd : align.toNat ∣ n.toNat
  · have hzero : (0 : UInt64).toNat = 0 := rfl
    rw [if_pos (mod_eq_zero_iff.mpr hdvd), roundUp_of_dvd ha hdvd, hzero, Nat.add_zero,
      Nat.div_mul_cancel hdvd]
  · have hone : (1 : UInt64).toNat = 1 := rfl
    rw [if_neg (mt mod_eq_zero_iff.mp hdvd), roundUp_of_not_dvd hdvd, hone]

theorem toNat_eq_of_dvd {n align : UInt64} (ha : 0 < align.toNat) (h : align.toNat ∣ n.toNat) :
    n.toNat = roundUp n.toNat align.toNat % 2 ^ 64 := by
  rw [roundUp_of_dvd ha h, Nat.mod_eq_of_lt n.toNat_lt]

theorem toNat_bumpOffset {offset align : UInt64} (ha : 0 < align.toNat) :
    (bumpOffset offset align).toNat = roundUp offset.toNat align.toNat % 2 ^ 64 := by
  have hone : align > 1 ↔ 1 < align.toNat := UInt64.lt_iff_toNat_lt
  rw [bumpOffset]
  split
  · exact toNat_alignTo ha
  · next h =>
    rw [hone, Ne, mod_eq_zero_iff, not_and_or, not_not] at h
    apply toNat_eq_of_dvd ha
    rcases h with h | h
    · rw [show align.toNat = 1 by omega]
      exact Nat.one_dvd _
    · exact h

theorem toNat_totalSize {offset align : UInt64} (ha : 0 < align.toNat) :
    (totalSize offset align).toNat = roundUp offset.toNat align.toNat % 2 ^ 64 := by
  rw [totalSize]
  split
  · next h =>
    subst h
    exact toNat_eq_of_dvd ha (Nat.dvd_zero _)
  split
  · next h => exact toNat_eq_of_dvd ha (mod_eq_zero_iff.mp h)
  · exact toNat_alignTo ha

/-- What the loop does as long as nothing wraps around. -/
theorem resolveFields_of_fits {fields : List (String × RepD Finset)} {index : Nat}
    {offset align : UInt64} (h : placesEnd offset.toNat (fields.map Prod.snd) < 2 ^ 64) :
    (resolveFields fields index offset align).1.map (fun f => (f.offset.toNat, f.repd)) =
        places offset.toNat (fields.map Prod.snd) ∧
      (resolveFields fields index offset align).2.1.toNat =
        placesEnd offset.toNat (fields.map Prod.snd) := by
  induction fields generalizing index offset align with
  | nil => exact ⟨rfl, rfl⟩
  | cons field fields ih =>
    rw [List.map_cons, placesEnd] at h
    have hle := le_placesEnd (roundUp offset.toNat field.2.fieldAlign.toNat + field.2.size.toNat)
      (fields.map Prod.snd)
    have hstart : (bumpOffset offset field.2.fieldAlign).toNat =
        roundUp offset.toNat field.2.fieldAlign.toNat := by
      rw [toNat_bumpOffset (fieldAlign_pos _), Nat.mod_eq_of_lt (by omega)]
    have hend : (bumpOffset offset field.2.fieldAlign + field.2.size).toNat =
        roundUp offset.toNat field.2.fieldAlign.toNat + field.2.size.toNat := by
      rw [UInt64.toNat_add, hstart, Nat.mod_eq_of_lt (by omega)]
    rw [← hend] at h
    obtain ⟨hplaces, hlast⟩ := @ih (index + 1) _ (max align field.2.fieldAlign) h
    rw [List.map_cons, places, placesEnd, ← hend, ← hstart]
    exact ⟨congrArg (List.cons _) hplaces, hlast⟩

theorem resolveFields_align (fields : List (String × RepD Finset)) (index : Nat)
    (offset align : UInt64) :
    (resolveFields fields index offset align).2.2 = maxFieldAlign align (fields.map Prod.snd) := by
  induction fields generalizing index offset align with
  | nil => rfl
  | cons field fields ih => exact ih _ _ _

theorem resolveFields_size {fields : List (String × RepD Finset)} {index : Nat}
    {offset align : UInt64} {f : LayoutField}
    (h : f ∈ (resolveFields fields index offset align).1) : f.size = f.repd.size := by
  induction fields generalizing index offset align with
  | nil => cases h
  | cons field fields ih =>
    rw [resolveFields, List.mem_cons] at h
    rcases h with rfl | h
    · rfl
    · exact ih h

theorem resolveLayout_alignment (name : String) (fields : List (String × RepD Finset)) :
    (resolveLayout name fields).alignment.toNat =
      (maxFieldAlign 1 (fields.map Prod.snd)).toNat := by
  have hpos := maxFieldAlign_pos (a := 1) Nat.one_pos (fields.map Prod.snd)
  have hone : (1 : UInt64).toNat = 1 := rfl
  change (max (resolveFields fields 0 0 1).2.2 1).toNat = _
  rw [resolveFields_align, toNat_max, hone]
  omega

theorem resolveLayout_totalSize (name : String) (fields : List (String × RepD Finset)) :
    (resolveLayout name fields).totalSize.toNat =
      roundUp (resolveFields fields 0 0 1).2.1.toNat
        (maxFieldAlign 1 (fields.map Prod.snd)).toNat % 2 ^ 64 := by
  have hpos := maxFieldAlign_pos (a := 1) Nat.one_pos (fields.map Prod.snd)
  have halign := resolveLayout_alignment name fields
  change (totalSize (resolveFields fields 0 0 1).2.1
    (resolveLayout name fields).alignment).toNat = _
  rw [toNat_totalSize (by omega), halign]

/-! ## What is well formed has not wrapped around -/

theorem disjoint_byteRange {o n o' n' : Nat} : Disjoint (byteRange o n) (byteRange o' n') ↔
    n = 0 ∨ n' = 0 ∨ o + n ≤ o' ∨ o' + n' ≤ o := by
  rw [byteRange, byteRange, Set.Ico_disjoint_Ico]
  omega

theorem occupied_eq (reg : LayoutRegistry) {f : LayoutField} (h : f.size = f.repd.size) :
    reg.occupied f = occupies (fun layout => (reg.stateSize layout).toNat) f.repd := by
  rw [LayoutRegistry.occupied, occupies.eq_def, h]
  cases f.repd <;> rfl

theorem size_le_occupied (reg : LayoutRegistry) {f : LayoutField} (h : f.size = f.repd.size) :
    f.size.toNat ≤ reg.occupied f := by
  rw [occupied_eq reg h, h]
  exact size_le_occupies _ _

theorem size_eq_zero_or (reg : LayoutRegistry) {f : LayoutField} (h : f.size = f.repd.size) :
    f.size.toNat = 0 ∨ reg.occupied f = f.size.toNat := by
  rw [occupied_eq reg h, h]
  by_cases hstate : f.repd.IsState
  · exact .inl (size_of_isState hstate)
  · exact .inr (occupies_of_not_isState _ hstate)

theorem bumpOffset_zero (r : RepD Finset) : bumpOffset 0 r.fieldAlign = 0 := by
  rw [← UInt64.toNat_inj, toNat_bumpOffset (fieldAlign_pos r)]
  exact congrArg (· % 2 ^ 64) (roundUp_zero (fieldAlign_pos r))

theorem resolveFields_zero (reg : LayoutRegistry) {fields : List (String × RepD Finset)}
    {index n : Nat} {align : UInt64} (hn : 0 < n)
    (h : ∀ f ∈ (resolveFields fields index 0 align).1,
      Disjoint (byteRange 0 n) (byteRange f.offset.toNat (reg.occupied f))) :
    (resolveFields fields index 0 align).2.1 = 0 := by
  induction fields generalizing index align with
  | nil => rfl
  | cons field fields ih =>
    rw [resolveFields] at h ⊢
    simp only [bumpOffset_zero, List.forall_mem_cons] at h ⊢
    have hsize : field.2.size.toNat = 0 := by
      have hle := size_le_occupied reg
        (f := ⟨field.1, .ofNat index, 0, field.2.size, field.2⟩) rfl
      have hapart := disjoint_byteRange.mp h.1
      simp only [UInt64.toNat_zero] at hle hapart
      omega
    have hzero : 0 + field.2.size = 0 := by
      rw [← UInt64.toNat_inj, UInt64.toNat_add, hsize]
      rfl
    rw [hzero] at h ⊢
    exact ih h.2

/-- Bytes at an offset, before some fields. -/
def Before (reg : LayoutRegistry) (fields : List LayoutField) (total o n : Nat) : Prop :=
  0 < n ∧ o + n ≤ total ∧ ∀ f ∈ fields, o ≤ f.offset.toNat ∧
    Disjoint (byteRange o n) (byteRange f.offset.toNat (reg.occupied f))

theorem before_cons {reg : LayoutRegistry} {f : LayoutField} {fields : List LayoutField}
    {total o n : Nat} : Before reg (f :: fields) total o n ↔ (o ≤ f.offset.toNat ∧
      Disjoint (byteRange o n) (byteRange f.offset.toNat (reg.occupied f))) ∧
      Before reg fields total o n := by
  rw [Before, Before, List.forall_mem_cons]
  tauto

-- By induction on the fields. An offset that wraps around comes to zero, as it is a multiple of the
-- alignment; but by then some bytes are taken.
theorem placesEnd_lt (reg : LayoutRegistry) {fields : List (String × RepD Finset)}
    {index total : Nat} {offset align : UInt64} (htotal : total < 2 ^ 64)
    (hlast : (resolveFields fields index offset align).2.1 = 0 → total = 0)
    (hapart : (resolveFields fields index offset align).1.Pairwise fun f g => f.offset ≤ g.offset ∧
      Disjoint (byteRange f.offset.toNat (reg.occupied f))
        (byteRange g.offset.toNat (reg.occupied g)))
    (haligned : ∀ f ∈ (resolveFields fields index offset align).1,
      f.repd.fieldAlign.toNat ∣ f.offset.toNat)
    (hinside : ∀ f ∈ (resolveFields fields index offset align).1,
      f.offset.toNat + reg.occupied f ≤ total)
    (hbefore : offset.toNat = 0 ∨
      ∃ o n, Before reg (resolveFields fields index offset align).1 total o n) :
    placesEnd offset.toNat (fields.map Prod.snd) < 2 ^ 64 ∧
      (placesEnd offset.toNat (fields.map Prod.snd) = 0 ∨ 0 < total) := by
  induction fields generalizing index offset align with
  | nil =>
    refine ⟨offset.toNat_lt, hbefore.imp id ?_⟩
    rintro ⟨o, n, hn, hon, -⟩
    omega
  | cons field fields ih =>
    rw [resolveFields] at hlast hapart haligned hinside hbefore
    have ha := fieldAlign_pos field.2
    have hstart : (bumpOffset offset field.2.fieldAlign).toNat = _ := toNat_bumpOffset ha
    generalize bumpOffset offset field.2.fieldAlign = start at *
    simp only [List.pairwise_cons, List.forall_mem_cons] at hapart haligned hinside
    have hsize := size_eq_zero_or reg
      (f := ⟨field.1, .ofNat index, start, field.2.size, field.2⟩) rfl
    have hfield := size_le_occupied reg
      (f := ⟨field.1, .ofNat index, start, field.2.size, field.2⟩) rfl
    simp only at hsize hfield
    simp only [before_cons] at hbefore
    have hfit : roundUp offset.toNat field.2.fieldAlign.toNat < 2 ^ 64 := by
      by_contra hwrap
      have hlt := roundUp_lt ha offset.toNat
      have hoffset := offset.toNat_lt
      have halign := field.2.fieldAlign.toNat_lt
      have hzero : start.toNat = 0 := Nat.eq_zero_of_dvd_of_lt haligned.1 (by omega)
      rcases hbefore with h0 | ⟨o, n, ⟨ho, hhead⟩, hn, hon, htail⟩
      · rw [h0, roundUp_zero ha] at hwrap
        omega
      obtain rfl : o = 0 := by omega
      have hempty := disjoint_byteRange.mp hhead
      have hnext : start + field.2.size = 0 := by
        rw [← UInt64.toNat_inj, UInt64.toNat_add, hzero, show field.2.size.toNat = 0 by omega]
        rfl
      rw [hnext] at hlast htail
      have := hlast (resolveFields_zero reg hn fun f hf => (htail f hf).2)
      omega
    rw [Nat.mod_eq_of_lt hfit] at hstart
    have hend : (start + field.2.size).toNat = start.toNat + field.2.size.toNat := by
      rw [UInt64.toNat_add, Nat.mod_eq_of_lt (by omega)]
    rw [List.map_cons, placesEnd, ← hstart, ← hend]
    refine ih hlast hapart.2 haligned.2 hinside.2 ?_
    rcases Nat.eq_zero_or_pos field.2.size.toNat with h0 | hpos
    · rw [hend, h0, Nat.add_zero, hstart]
      rcases hbefore with hoffset | ⟨o, n, -, htail⟩
      · rw [hoffset, roundUp_zero ha]
        exact .inl rfl
      · exact .inr ⟨o, n, htail⟩
    · rw [hsize.resolve_left hpos.ne'] at hapart hinside
      exact .inr ⟨start.toNat, field.2.size.toNat, hpos, hinside.1, hapart.1⟩

theorem one_pos : 0 < (1 : UInt64).toNat := Nat.one_pos

theorem paddedSize_lt_of_wellFormed {reg : LayoutRegistry} {name : String}
    {fields : List (String × RepD Finset)} (h : (resolveLayout name fields).WellFormed reg) :
    paddedSize (fields.map Prod.snd) < 2 ^ 64 := by
  have hpos := maxFieldAlign_pos one_pos (fields.map Prod.snd)
  have htotal := resolveLayout_totalSize name fields
  have hlast : (resolveFields fields 0 0 1).2.1 = 0 →
      (resolveLayout name fields).totalSize.toNat = 0 := fun h0 => by
    rw [htotal, h0, UInt64.toNat_zero, roundUp_zero hpos, Nat.zero_mod]
  obtain ⟨hend, hnone⟩ :=
    placesEnd_lt reg (UInt64.toNat_lt _) hlast h.apart h.aligned h.inside (.inl rfl)
  rw [(resolveFields_of_fits hend).2] at htotal
  have hpadded := h.padded
  rw [resolveLayout_alignment] at hpadded
  change placesEnd 0 _ < _ at hend
  change _ = roundUp (placesEnd 0 _) _ % _ at htotal
  change placesEnd 0 _ = 0 ∨ _ at hnone
  rw [paddedSize]
  by_contra hwrap
  have hlt := roundUp_lt hpos (placesEnd 0 (fields.map Prod.snd))
  have halign := (maxFieldAlign 1 (fields.map Prod.snd)).toNat_lt
  have hzero := Nat.eq_zero_of_dvd_of_lt hpadded (by omega)
  have hempty : placesEnd 0 (fields.map Prod.snd) = 0 := by omega
  rw [hempty, roundUp_zero hpos] at hwrap
  omega

theorem resolveLayout_of_lt {fields : List (String × RepD Finset)} (name : String)
    (h : paddedSize (fields.map Prod.snd) < 2 ^ 64) :
    (resolveLayout name fields).totalSize.toNat = paddedSize (fields.map Prod.snd) ∧
      (resolveLayout name fields).fields.map (fun f => (f.offset.toNat, f.repd)) =
        places 0 (fields.map Prod.snd) := by
  have hpos := maxFieldAlign_pos one_pos (fields.map Prod.snd)
  have hend : placesEnd (0 : UInt64).toNat (fields.map Prod.snd) < 2 ^ 64 :=
    (le_roundUp hpos _).trans_lt h
  obtain ⟨hplaces, hlast⟩ := @resolveFields_of_fits fields 0 0 1 hend
  rw [resolveLayout_totalSize, hlast]
  exact ⟨Nat.mod_eq_of_lt h, hplaces⟩

/-! ## Exactly when a layout is well formed -/

/-- The places are as they should be if every state has the room it takes up. -/
theorem fits_iff_places {stateSize : UInt32 → Nat} (hbound : paddedSize rs < 2 ^ 64) :
    Fits stateSize rs ↔
      (places 0 rs).Pairwise (fun p q => p.1 ≤ q.1 ∧
        Disjoint (byteRange p.1 (occupies stateSize p.2))
          (byteRange q.1 (occupies stateSize q.2))) ∧
      ∀ p ∈ places 0 rs, p.1 + occupies stateSize p.2 ≤ paddedSize rs := by
  have hend : placesEnd 0 rs ≤ paddedSize rs := le_roundUp (maxFieldAlign_pos one_pos rs) _
  constructor
  · rintro ⟨-, hnext, hlast⟩
    refine ⟨(pairwise_places 0 rs).imp₂ (fun p q hle hstate => ?_) hnext, fun p hp => ?_⟩
    · refine ⟨by omega, disjoint_byteRange.mpr ?_⟩
      by_cases hp : p.2.IsState
      · have := hstate hp
        omega
      · rw [occupies_of_not_isState stateSize hp]
        omega
    · by_cases hstate : p.2.IsState
      · exact hlast p hp hstate
      · rw [occupies_of_not_isState stateSize hstate]
        exact (mem_places hp).2.2.trans hend
  · rintro ⟨hapart, hinside⟩
    refine ⟨hbound, hapart.imp fun {p q} h _ hp hq => ?_, fun p hp _ => hinside p hp⟩
    have := disjoint_byteRange.mp h.2
    omega

theorem resolveLayout_wellFormed_iff (reg : LayoutRegistry) (name : String)
    (fields : List (String × RepD Finset)) :
    (resolveLayout name fields).WellFormed reg ↔
      Fits (fun layout => (reg.stateSize layout).toNat) (fields.map Prod.snd) := by
  by_cases hbound : paddedSize (fields.map Prod.snd) < 2 ^ 64
  swap
  · exact iff_of_false (fun h => hbound (paddedSize_lt_of_wellFormed h)) fun h => hbound h.bound
  obtain ⟨htotal, hplaces⟩ := resolveLayout_of_lt name hbound
  have hoccupied : ∀ f ∈ (resolveLayout name fields).fields, reg.occupied f =
      occupies (fun layout => (reg.stateSize layout).toNat) f.repd := fun f hf =>
    occupied_eq reg (resolveFields_size hf)
  rw [fits_iff_places hbound, ← hplaces, List.pairwise_map, List.forall_mem_map, ← htotal]
  constructor
  · intro h
    refine ⟨h.apart.imp_of_mem fun hf hg hfg => ?_, fun f hf => ?_⟩
    · rw [← hoccupied _ hf, ← hoccupied _ hg]
      exact ⟨UInt64.le_iff_toNat_le.mp hfg.1, hfg.2⟩
    · rw [← hoccupied f hf]
      exact h.inside f hf
  · rintro ⟨hapart, hinside⟩
    refine ⟨hapart.imp_of_mem fun hf hg hfg => ?_, fun f hf => ?_, fun f hf => ?_, ?_⟩
    · rw [← hoccupied _ hf, ← hoccupied _ hg] at hfg
      exact ⟨UInt64.le_iff_toNat_le.mpr hfg.1, hfg.2⟩
    · have hmem : (f.offset.toNat, f.repd) ∈ places 0 (fields.map Prod.snd) := by
        rw [← hplaces]
        exact List.mem_map_of_mem hf
      exact (mem_places hmem).2.1
    · rw [hoccupied f hf]
      exact hinside f hf
    · rw [resolveLayout_alignment, htotal]
      exact dvd_roundUp _ _

/-! ## The registry -/

namespace LayoutRegistry

variable {reg : LayoutRegistry} {calls : List (String × List (String × RepD Finset))}

theorem registerAll_layouts (reg : LayoutRegistry)
    (calls : List (String × List (String × RepD Finset))) :
    (reg.registerAll calls).layouts =
      reg.layouts ++ calls.map fun call => resolveLayout call.1 call.2 := by
  induction calls generalizing reg with
  | nil => rw [List.map_nil, List.append_nil, registerAll, List.foldl_nil]
  | cons call calls ih =>
    rw [registerAll, List.foldl_cons, ← registerAll, ih, register, List.append_assoc]
    rfl

theorem get_registerAll {id : UInt32} {d : LayoutDef} (h : reg.get id = some d) :
    (reg.registerAll calls).get id = some d := by
  rw [get] at h ⊢
  obtain ⟨hlt, -⟩ := List.getElem?_eq_some_iff.mp h
  rw [registerAll_layouts, List.getElem?_append_left hlt, h]

theorem isSome_get_register (reg : LayoutRegistry) (name : String)
    (fields : List (String × RepD Finset)) :
    ∃ d, (reg.register name fields).1.get (reg.register name fields).2 = some d := by
  apply Option.isSome_iff_exists.mp
  have hid : (reg.register name fields).2.toNat < (reg.register name fields).1.layouts.length := by
    simp only [register, List.length_append, List.length_singleton]
    apply Nat.lt_succ_of_le
    rw [UInt32.toNat_ofNat']
    exact Nat.mod_le _ _
  rw [get, List.getElem?_eq_getElem hid]
  rfl

theorem registerAll_append (reg : LayoutRegistry)
    (before after : List (String × List (String × RepD Finset))) :
    reg.registerAll (before ++ after) = (reg.registerAll before).registerAll after := by
  rw [registerAll, List.foldl_append]
  rfl

end LayoutRegistry

/-- The sizes of the states, without wrapping around. -/
def stateSizes (calls : List (String × List (String × RepD Finset))) (id : UInt32) : Nat :=
  match calls[id.toNat]? with
  | some call => paddedSize (call.2.map Prod.snd)
  | none => 0

theorem toNat_stateSize {calls : List (String × List (String × RepD Finset))}
    (h : ∀ call ∈ calls, paddedSize (call.2.map Prod.snd) < 2 ^ 64) (id : UInt32) :
    ((LayoutRegistry.new.registerAll calls).stateSize id).toNat = stateSizes calls id := by
  rw [LayoutRegistry.stateSize, LayoutRegistry.get, LayoutRegistry.registerAll_layouts, stateSizes,
    LayoutRegistry.new, List.nil_append, List.getElem?_map]
  cases hcall : calls[id.toNat]? with
  | none => rfl
  | some call =>
    exact (resolveLayout_of_lt call.1 (h call (List.mem_of_getElem? hcall))).1

/-- The registry is right exactly when each call's fields fit, with the states at their sizes. -/
theorem registryRight_iff (calls : List (String × List (String × RepD Finset))) :
    RegistryRight calls ↔ ∀ call ∈ calls, Fits (stateSizes calls) (call.2.map Prod.snd) := by
  have hlayouts : (LayoutRegistry.new.registerAll calls).layouts =
      calls.map fun call => resolveLayout call.1 call.2 := LayoutRegistry.registerAll_layouts _ _
  have hfits : (∀ d ∈ (LayoutRegistry.new.registerAll calls).layouts,
      d.WellFormed (LayoutRegistry.new.registerAll calls)) ↔
        ∀ call ∈ calls, Fits (stateSizes calls) (call.2.map Prod.snd) := by
    rw [hlayouts, List.forall_mem_map]
    simp only [resolveLayout_wellFormed_iff]
    constructor
    · intro h call hcall
      rw [← funext (toNat_stateSize fun call hcall => (h call hcall).bound)]
      exact h call hcall
    · intro h call hcall
      rw [funext (toNat_stateSize fun call hcall => (h call hcall).bound)]
      exact h call hcall
  refine ⟨fun h => hfits.mp h.wellFormed, fun h => ⟨hfits.mpr h, ?_⟩⟩
  rintro before call after rfl
  obtain ⟨d, hd⟩ := (LayoutRegistry.new.registerAll before).isSome_get_register call.1 call.2
  rw [LayoutRegistry.registerAll_append]
  exact (LayoutRegistry.get_registerAll hd).trans hd.symm

/-- A point of two numbers, and a shape that starts with a point. -/
def shapeCalls : List (String × List (String × RepD Finset)) :=
  [("Point", [("x", .byte ⟨4, 4⟩), ("y", .byte ⟨4, 4⟩)]),
    ("Shape", [("origin", .state 0), ("color", .byte ⟨4, 4⟩)])]

/-- The color lies in the middle of the point. -/
theorem not_registryRight : ¬ ∀ calls : List (String × List (String × RepD Finset)),
    (∀ call ∈ calls, (call.2.map fun field => occupies (stateSizes calls) field.2).sum < 2 ^ 64) →
      RegistryRight calls := by
  intro h
  have hright := h shapeCalls (by decide)
  have hshape := hright.wellFormed (resolveLayout "Shape" shapeCalls[1].2) (by
    rw [LayoutRegistry.registerAll_layouts]
    simp [LayoutRegistry.new, shapeCalls])
  have hfits := ((resolveLayout_wellFormed_iff _ _ _).mp hshape).next
  have hpoint : (0 : Nat) + 8 ≤ 0 :=
    (List.pairwise_cons.mp hfits).1 (0, .byte ⟨4, 4⟩) (.head _) ⟨0, rfl⟩ (by decide) (by decide)
  omega

end Vuma.Bd
