import Mathlib

/-!
# Passes until nothing is added

A pass adds elements to a finite set. It is repeated until it adds nothing; as many rounds as there
are elements that can be added are enough, and one more.
-/

namespace Vuma.Lib

variable {α : Type*} [DecidableEq α] {pass : Finset α → Finset α}

/-- The pass is repeated until it adds nothing, at most so many times. -/
def untilStable (pass : Finset α → Finset α) : Nat → Finset α → Finset α
  | 0, s => s
  | rounds + 1, s => if pass s = s then s else untilStable pass rounds (pass s)

theorem subset_untilStable (hle : ∀ s, s ⊆ pass s) (rounds : Nat) (s : Finset α) :
    s ⊆ untilStable pass rounds s := by
  induction rounds generalizing s with
  | zero => exact Finset.Subset.refl s
  | succ rounds ih =>
    rw [untilStable]
    split
    · exact Finset.Subset.refl s
    · exact (hle s).trans (ih (pass s))

/-- What every pass keeps holds at the end. -/
theorem untilStable_induction {P : Finset α → Prop} (hP : ∀ s, P s → P (pass s)) (rounds : Nat)
    {s : Finset α} (hs : P s) : P (untilStable pass rounds s) := by
  induction rounds generalizing s with
  | zero => exact hs
  | succ rounds ih =>
    rw [untilStable]
    split
    · exact hs
    · exact ih (hP s hs)

/-- Nothing is left to add after enough rounds. -/
theorem untilStable_stable {U : Finset α} (hle : ∀ s, s ⊆ pass s) (hU : ∀ s ⊆ U, pass s ⊆ U)
    (rounds : Nat) {s : Finset α} (hs : s ⊆ U) (hrounds : U.card < rounds + s.card) :
    pass (untilStable pass rounds s) = untilStable pass rounds s := by
  induction rounds generalizing s with
  | zero =>
    have := Finset.card_le_card hs
    omega
  | succ rounds ih =>
    rw [untilStable]
    split
    · assumption
    · next hne =>
      have hgrow : s.card < (pass s).card :=
        Finset.card_lt_card (Finset.ssubset_iff_subset_ne.mpr ⟨hle s, Ne.symm hne⟩)
      exact ih (hU s hs) (by omega)

end Vuma.Lib
