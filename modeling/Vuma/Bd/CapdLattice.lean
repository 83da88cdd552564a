import Vuma.Bd.Compat

/-!
# The order on capability descriptors

`CapD::all`, `CapD::join` and `CapD::widen`. A descriptor is lower when it grants
less or asks for more: capabilities and conditions are ordered in opposite directions. In this order
two descriptors always have a greatest lower bound, `meet`, and a least upper bound; `join` departs
from the latter by its rules on state capabilities.
-/

namespace Vuma.Bd

/-! ## Operations -/

/-- `CapD::all`; `StateConsume` is left out. -/
def CapD.all : CapD Finset :=
  ⟨{.read, .write, .execute, .iterate, .send, .persist, .serialize, .deserialize, .hash, .compare,
    .derivePtr, .cast, .fork, .drop, .share, .move, .pin, .stateRead, .stateWrite,
    .stateTransform}, ∅⟩

def CapD.join (c c' : CapD Finset) : CapD Finset :=
  let conditions := c.conditions ∩ c'.conditions
  if .stateConsume ∈ c.caps ∨ .stateConsume ∈ c'.caps then ⟨{.stateConsume}, conditions⟩
  else
    let caps := c.caps ∪ c'.caps
    if .stateRead ∈ caps ∧ .stateWrite ∈ caps then ⟨insert .stateTransform caps, conditions⟩
    else ⟨caps, conditions⟩

def CapD.widen (c c' : CapD Finset) : CapD Finset :=
  if c.isSubset c' ∧ c' ≠ c then .all else c'

/-! ## The order -/

theorem CapD.ext_iff {c c' : CapD Finset} :
    c = c' ↔ c.caps = c'.caps ∧ c.conditions = c'.conditions := by
  cases c
  cases c'
  simp

theorem CapD.isSubset_iff {c c' : CapD Finset} :
    c.isSubset c' = true ↔ c.caps ⊆ c'.caps ∧ c'.conditions ⊆ c.conditions := by
  simp [isSubset]

theorem CapD.isSubset_refl (c : CapD Finset) : c.isSubset c = true :=
  isSubset_iff.mpr ⟨subset_rfl, subset_rfl⟩

theorem CapD.isSubset_trans {c c' c'' : CapD Finset} (h : c.isSubset c' = true)
    (h' : c'.isSubset c'' = true) : c.isSubset c'' = true := by
  rw [isSubset_iff] at *
  exact ⟨h.1.trans h'.1, h'.2.trans h.2⟩

theorem CapD.isSubset_antisymm {c c' : CapD Finset} (h : c.isSubset c' = true)
    (h' : c'.isSubset c = true) : c = c' := by
  rw [isSubset_iff] at *
  exact ext_iff.mpr ⟨h.1.antisymm h'.1, h'.2.antisymm h.2⟩

instance : PartialOrder (CapD Finset) where
  le c c' := c.isSubset c' = true
  le_refl := CapD.isSubset_refl
  le_trans _ _ _ := CapD.isSubset_trans
  le_antisymm _ _ := CapD.isSubset_antisymm

theorem CapD.le_iff {c c' : CapD Finset} :
    c ≤ c' ↔ c.caps ⊆ c'.caps ∧ c'.conditions ⊆ c.conditions := isSubset_iff

/-! ## Meet -/

theorem CapD.isGLB_meet (c c' : CapD Finset) : IsGLB {c, c'} (c.meet c') := by
  refine ⟨?_, fun d hd => ?_⟩
  · rintro d (rfl | rfl)
    · exact le_iff.mpr ⟨Finset.inter_subset_left, Finset.subset_union_left⟩
    · exact le_iff.mpr ⟨Finset.inter_subset_right, Finset.subset_union_right⟩
  · have h := le_iff.mp (hd (Set.mem_insert c {c'}))
    have h' := le_iff.mp (hd (Set.mem_insert_of_mem c rfl))
    exact le_iff.mpr ⟨Finset.subset_inter h.1 h'.1, Finset.union_subset h.2 h'.2⟩

theorem CapD.meet_comm (c c' : CapD Finset) : c.meet c' = c'.meet c := by
  rw [meet, meet, Finset.inter_comm, Finset.union_comm]

theorem CapD.meet_assoc (c c' c'' : CapD Finset) :
    (c.meet c').meet c'' = c.meet (c'.meet c'') := by
  simp only [meet, Finset.inter_assoc, Finset.union_assoc]

theorem CapD.meet_self (c : CapD Finset) : c.meet c = c := by
  rw [meet, Finset.inter_self, Finset.union_self]

/-! ## Join -/

/-- What the two rules on state capabilities make of the union of the capabilities. -/
def stateRules (caps : Finset Capability) : Finset Capability :=
  if .stateConsume ∈ caps then {.stateConsume}
  else if .stateRead ∈ caps ∧ .stateWrite ∈ caps then insert .stateTransform caps
  else caps

/-- Capabilities that the rules leave alone. -/
structure StateNormal (caps : Finset Capability) : Prop where
  exclusive : .stateConsume ∈ caps → caps = {.stateConsume}
  transform : .stateRead ∈ caps → .stateWrite ∈ caps → .stateTransform ∈ caps

theorem stateRules_eq_self_iff {caps : Finset Capability} :
    stateRules caps = caps ↔ StateNormal caps := by
  unfold stateRules
  constructor
  · intro h
    split at h
    · exact ⟨fun _ => h.symm, fun hr _ => by rw [← h] at hr; simp at hr⟩
    · next hconsume =>
      refine ⟨fun hmem => absurd hmem hconsume, fun hr hw => ?_⟩
      rw [if_pos ⟨hr, hw⟩] at h
      exact Finset.insert_eq_self.mp h
  · intro h
    split
    · next hconsume => exact (h.exclusive hconsume).symm
    · split
      · next hrw => exact Finset.insert_eq_self.mpr (h.transform hrw.1 hrw.2)
      · rfl

-- The rules see the same four capabilities in either union.
theorem stateRules_union (s t : Finset Capability) :
    stateRules (stateRules s ∪ t) = stateRules (s ∪ t) := by
  unfold stateRules
  by_cases hs : Capability.stateConsume ∈ s
  · simp [hs]
  · by_cases hrw : Capability.stateRead ∈ s ∧ Capability.stateWrite ∈ s
    · by_cases ht : Capability.stateConsume ∈ t
      · simp [hs, hrw, ht]
      · simp [hs, hrw, ht, Finset.insert_union]
    · simp [hs, hrw]

theorem CapD.join_eq (c c' : CapD Finset) :
    c.join c' = ⟨stateRules (c.caps ∪ c'.caps), c.conditions ∩ c'.conditions⟩ := by
  unfold join stateRules
  by_cases h : Capability.stateConsume ∈ c.caps ∪ c'.caps
  · rw [if_pos h, if_pos (Finset.mem_union.mp h)]
  · rw [if_neg h, if_neg (h ∘ Finset.mem_union.mpr)]
    dsimp only
    split <;> rfl

theorem CapD.join_comm (c c' : CapD Finset) : c.join c' = c'.join c := by
  rw [join_eq, join_eq, Finset.union_comm, Finset.inter_comm]

theorem CapD.join_assoc (c c' c'' : CapD Finset) :
    (c.join c').join c'' = c.join (c'.join c'') := by
  have hcaps : stateRules (stateRules (c.caps ∪ c'.caps) ∪ c''.caps) =
      stateRules (c.caps ∪ stateRules (c'.caps ∪ c''.caps)) := by
    rw [stateRules_union, Finset.union_comm c.caps (stateRules _), stateRules_union,
      Finset.union_comm _ c.caps, Finset.union_assoc]
  simp only [join_eq, hcaps, Finset.inter_assoc]

theorem CapD.join_self_iff (c : CapD Finset) : c.join c = c ↔ StateNormal c.caps := by
  rw [join_eq, Finset.union_self, Finset.inter_self, ext_iff, ← stateRules_eq_self_iff]
  exact and_iff_left rfl

/-- The least upper bound: all capabilities, the shared conditions. -/
theorem CapD.isLUB_union (c c' : CapD Finset) :
    IsLUB {c, c'} (⟨c.caps ∪ c'.caps, c.conditions ∩ c'.conditions⟩ : CapD Finset) := by
  refine ⟨?_, fun d hd => ?_⟩
  · rintro d (rfl | rfl)
    · exact le_iff.mpr ⟨Finset.subset_union_left, Finset.inter_subset_left⟩
    · exact le_iff.mpr ⟨Finset.subset_union_right, Finset.inter_subset_right⟩
  · have h := le_iff.mp (hd (Set.mem_insert c {c'}))
    have h' := le_iff.mp (hd (Set.mem_insert_of_mem c rfl))
    exact le_iff.mpr ⟨Finset.union_subset h.1 h'.1, Finset.subset_inter h.2 h'.2⟩

theorem CapD.isLUB_join_iff (c c' : CapD Finset) :
    IsLUB {c, c'} (c.join c') ↔ StateNormal (c.caps ∪ c'.caps) := by
  rw [← stateRules_eq_self_iff, join_eq]
  constructor
  · intro h
    exact (ext_iff.mp (h.unique (isLUB_union c c'))).1
  · intro h
    rw [h]
    exact isLUB_union c c'

theorem CapD.join_le_iff {c c' d : CapD Finset} (hc : .stateConsume ∉ c.caps)
    (hc' : .stateConsume ∉ c'.caps)
    (hd : .stateRead ∈ d.caps → .stateWrite ∈ d.caps → .stateTransform ∈ d.caps) :
    c.join c' ≤ d ↔ c ≤ d ∧ c' ≤ d := by
  have hunion := isLUB_le_iff (b := d) (isLUB_union c c')
  rw [show c ≤ d ∧ c' ≤ d ↔ d ∈ upperBounds {c, c'} by simp [upperBounds], ← hunion, le_iff, le_iff,
    join_eq]
  refine and_congr_left fun _ => ?_
  rw [stateRules, if_neg (by simp [hc, hc'])]
  split
  · next hrw =>
    rw [Finset.insert_subset_iff]
    exact ⟨And.right, fun h => ⟨hd (h hrw.1) (h hrw.2), h⟩⟩
  · rfl

theorem CapD.join_consume {c c' : CapD Finset} (h : .stateConsume ∈ c.caps ∪ c'.caps) :
    c.join c' = ⟨{.stateConsume}, c.conditions ∩ c'.conditions⟩ := by
  rw [join_eq, stateRules, if_pos h]

/-! ## Widening -/

theorem CapD.le_all_iff {c : CapD Finset} : c ≤ all ↔ .stateConsume ∉ c.caps := by
  rw [le_iff]
  constructor
  · intro h hmem
    have : Capability.stateConsume ∉ all.caps := by decide
    exact this (h.1 hmem)
  · intro h
    refine ⟨fun cap hcap => ?_, Finset.empty_subset _⟩
    have hne : cap ≠ .stateConsume := fun heq => h (heq ▸ hcap)
    cases cap <;> first | exact absurd rfl hne | decide

theorem CapD.widen_of_le {c c' : CapD Finset} (h : c ≤ c') :
    c.widen c' = if c' = c then c else all := by
  unfold widen
  by_cases heq : c' = c
  · rw [if_neg fun h => h.2 heq, if_pos heq, heq]
  · rw [if_pos ⟨h, heq⟩, if_neg heq]

theorem CapD.all_widen {c : CapD Finset} (h : all ≤ c) : all.widen c = all := by
  rw [widen_of_le h]
  exact ite_self all

theorem CapD.widen_of_not_lt {c c' : CapD Finset} (h : ¬c < c') : c.widen c' = c' := by
  rw [widen, if_neg fun hlt => h (lt_of_le_of_ne hlt.1 hlt.2.symm)]

theorem CapD.widen_of_lt {c c' : CapD Finset} (h : c < c') : c.widen c' = all := by
  rw [widen_of_le h.le, if_neg h.ne']

theorem CapD.le_widen_right_iff {c c' : CapD Finset} :
    c' ≤ c.widen c' ↔ (c < c' → .stateConsume ∉ c'.caps) := by
  by_cases h : c < c'
  · rw [widen_of_lt h, le_all_iff]
    exact ⟨fun hle _ => hle, fun himp => himp h⟩
  · rw [widen_of_not_lt h]
    exact iff_of_true le_rfl fun hlt => absurd hlt h

theorem CapD.le_widen_left_iff {c c' : CapD Finset} :
    c ≤ c.widen c' ↔ c = c' ∨ c < c' ∧ .stateConsume ∉ c.caps := by
  by_cases h : c < c'
  · rw [widen_of_lt h, le_all_iff]
    exact ⟨fun hle => .inr ⟨h, hle⟩, fun hor => (hor.resolve_left h.ne).2⟩
  · rw [widen_of_not_lt h, le_iff_eq_or_lt]
    exact or_congr_right (iff_of_false h fun hand => h hand.1)

-- The first strict increase jumps to `all`, and nothing leads away from there.
theorem CapD.widen_chain {x y : ℕ → CapD Finset} (hstep : ∀ n, x (n + 1) = (x n).widen (y n))
    (hasc : ∀ n, x n ≤ y n) :
    ∃ N, (∀ n ≤ N, x n = x 0) ∧ ∀ n, N < n → x n = x (N + 1) := by
  by_cases h : ∃ N, y N ≠ x N
  · refine ⟨Nat.find h, fun n hn => ?_, fun n hn => ?_⟩
    · induction n with
      | zero => rfl
      | succ n ih =>
        have hstable : y n = x n := not_ne_iff.mp (Nat.find_min h hn)
        rw [hstep, widen_of_le (hasc n), if_pos hstable]
        exact ih (Nat.le_of_succ_le hn)
    · have hjump : x (Nat.find h + 1) = all := by
        rw [hstep, widen_of_le (hasc _), if_neg (Nat.find_spec h)]
      rw [hjump]
      induction n, hn using Nat.le_induction with
      | base => exact hjump
      | succ n _ ih =>
        rw [hstep, ih]
        exact all_widen (ih ▸ hasc n)
  · have hstable : ∀ n, y n = x n := fun n => not_ne_iff.mp fun hne => h ⟨n, hne⟩
    have hconst : ∀ n, x n = x 0 := by
      intro n
      induction n with
      | zero => rfl
      | succ n ih => rw [hstep, widen_of_le (hasc n), if_pos (hstable n), ih]
    exact ⟨0, fun n _ => hconst n, fun n _ => (hconst n).trans (hconst 1).symm⟩

/-! ## The laws -/

/-- The order is partial and `meet` its greatest lower bound. `join` is a least upper bound where
the rules on state capabilities leave the union alone, and `widen` stops ascending chains. -/
theorem CapD.lattice_laws :
    ((∀ a : CapD Finset, a.isSubset a = true) ∧
      (∀ a b : CapD Finset, a.isSubset b = true → b.isSubset a = true → a = b) ∧
      ∀ a b c : CapD Finset, a.isSubset b = true → b.isSubset c = true → a.isSubset c = true) ∧
    ((∀ a b : CapD Finset, IsGLB {a, b} (a.meet b)) ∧
      (∀ a b : CapD Finset, a.meet b = b.meet a) ∧
      (∀ a b c : CapD Finset, (a.meet b).meet c = a.meet (b.meet c)) ∧
      ∀ a : CapD Finset, a.meet a = a) ∧
    ((∀ a b : CapD Finset, IsLUB {a, b} (a.join b) ↔ StateNormal (a.caps ∪ b.caps)) ∧
      (∀ a b : CapD Finset, a.join b = b.join a) ∧
      (∀ a b c : CapD Finset, (a.join b).join c = a.join (b.join c)) ∧
      (∀ a : CapD Finset, a.join a = a ↔ StateNormal a.caps) ∧
      (∀ a b : CapD Finset, .stateConsume ∈ a.caps ∪ b.caps →
        a.join b = ⟨{.stateConsume}, a.conditions ∩ b.conditions⟩) ∧
      ∀ a b c : CapD Finset, .stateConsume ∉ a.caps → .stateConsume ∉ b.caps →
        (.stateRead ∈ c.caps → .stateWrite ∈ c.caps → .stateTransform ∈ c.caps) →
        (a.join b ≤ c ↔ a ≤ c ∧ b ≤ c)) ∧
    ((∀ a b : CapD Finset, a < b → a.widen b = all) ∧
      (∀ a b : CapD Finset, ¬a < b → a.widen b = b) ∧
      (∀ a b : CapD Finset, b ≤ a.widen b ↔ (a < b → .stateConsume ∉ b.caps)) ∧
      ∀ a b : CapD Finset, a ≤ a.widen b ↔ a = b ∨ a < b ∧ .stateConsume ∉ a.caps) ∧
    ∀ x y : ℕ → CapD Finset, (∀ n, x (n + 1) = (x n).widen (y n)) → (∀ n, x n ≤ y n) →
      ∃ N, (∀ n ≤ N, x n = x 0) ∧ ∀ n, N < n → x n = x (N + 1) := by
  refine ⟨⟨isSubset_refl, fun _ _ => isSubset_antisymm, fun _ _ _ => isSubset_trans⟩,
    ⟨isGLB_meet, meet_comm, meet_assoc, meet_self⟩,
    ⟨isLUB_join_iff, join_comm, join_assoc, join_self_iff, fun _ _ => join_consume,
      fun _ _ _ => join_le_iff⟩,
    ⟨fun _ _ => widen_of_lt, fun _ _ => widen_of_not_lt, fun _ _ => le_widen_right_iff,
      fun _ _ => le_widen_left_iff⟩, fun _ _ => widen_chain⟩

/-! ## Where the laws fail -/

def readOnly : CapD Finset := ⟨{.read}, ∅⟩

def writeOnly : CapD Finset := ⟨{.write}, ∅⟩

def consumeOnly : CapD Finset := ⟨{.stateConsume}, ∅⟩

def readConsume : CapD Finset := ⟨{.read, .stateConsume}, ∅⟩

/-- An iteration between two descriptors that cannot be compared. -/
def alternate (n : ℕ) : CapD Finset := if n % 2 = 0 then readOnly else writeOnly

theorem alternate_widen (n : ℕ) : alternate (n + 1) = (alternate n).widen (alternate (n + 1)) := by
  refine (CapD.widen_of_not_lt fun hlt => ?_).symm
  unfold alternate at hlt
  rcases Nat.mod_two_eq_zero_or_one n with h | h
  · rw [if_pos h, if_neg (by omega), lt_iff_le_not_ge, CapD.le_iff] at hlt
    exact absurd hlt.1.1 (by decide)
  · rw [if_neg (by omega), if_pos (by omega), lt_iff_le_not_ge, CapD.le_iff] at hlt
    exact absurd hlt.1.1 (by decide)

/-- `join` is not above its operands and not idempotent, `widen` is not above its arguments, and
an iteration of `widen` alternates for ever. -/
theorem not_lattice :
    ¬readOnly.isSubset (readOnly.join consumeOnly) = true ∧
    readConsume.join readConsume ≠ readConsume ∧
    ¬readConsume.isSubset (readOnly.widen readConsume) = true ∧
    ∃ x y : ℕ → CapD Finset, (∀ n, x (n + 1) = (x n).widen (y n)) ∧
      ¬∃ N, ∀ n, N ≤ n → x n = x N := by
  refine ⟨by decide, by decide, by decide, alternate, fun n => alternate (n + 1), alternate_widen,
    ?_⟩
  rintro ⟨N, hN⟩
  have heq : alternate (N + 1) = alternate N := hN _ N.le_succ
  have hne : readOnly ≠ writeOnly := by decide
  unfold alternate at heq
  rcases Nat.mod_two_eq_zero_or_one N with h | h
  · rw [if_neg (by omega), if_pos h] at heq
    exact hne heq.symm
  · rw [if_pos (by omega), if_neg (by omega)] at heq
    exact hne heq

end Vuma.Bd
