import Mathlib

/-!
# Round-robin iteration

The unknowns of a monotone system of equations are gone through in some order, again and again, and
each is set to what its equation gives for the present values. From below this reaches whatever the
simultaneous iteration reaches in as many rounds, and it stays below every solution.
-/

namespace Vuma.Lib

variable {ι σ : Type*} [DecidableEq ι]

/-- One unknown is set to what its equation gives. -/
def visit (F : (ι → σ) → ι → σ) (s : ι → σ) (i : ι) : ι → σ := Function.update s i (F s i)

/-- All unknowns in the order are visited. -/
def sweep (F : (ι → σ) → ι → σ) (order : List ι) (s : ι → σ) : ι → σ := order.foldl (visit F) s

variable {F : (ι → σ) → ι → σ} {order : List ι} {s t : ι → σ}

theorem visit_of_eq {i : ι} (h : F s i = s i) : visit F s i = s := by
  rw [visit, h, Function.update_eq_self]

/-- A solution on the order is not changed. -/
theorem sweep_of_eq (h : ∀ i ∈ order, F s i = s i) : sweep F order s = s := by
  induction order with
  | nil => rfl
  | cons i order ih =>
    rw [sweep, List.foldl_cons, visit_of_eq (h i List.mem_cons_self)]
    exact ih fun j hj => h j (List.mem_cons_of_mem _ hj)

variable [PartialOrder σ]

/-- What lies below a solution stays below it. -/
theorem visit_le (hF : Monotone F) (ht : F t ≤ t) (h : s ≤ t) (i : ι) : visit F s i ≤ t := by
  intro j
  rw [visit, Function.update_apply]
  split_ifs with hj
  · rw [hj]
    exact (hF h i).trans (ht i)
  · exact h j

theorem sweep_le (hF : Monotone F) (ht : F t ≤ t) (h : s ≤ t) : sweep F order s ≤ t := by
  induction order generalizing s with
  | nil => exact h
  | cons i order ih => exact ih (visit_le hF ht h i)

/-- Values below what the equations give only grow. -/
theorem le_visit (h : s ≤ F s) (i : ι) : s ≤ visit F s i := by
  intro j
  rw [visit, Function.update_apply]
  split_ifs with hj
  · rw [hj]
    exact h i
  · exact le_refl _

theorem visit_le_apply (hF : Monotone F) (h : s ≤ F s) (i : ι) : visit F s i ≤ F (visit F s i) := by
  have hgrow : F s ≤ F (visit F s i) := hF (le_visit h i)
  intro j
  rw [visit, Function.update_apply]
  split_ifs with hj
  · rw [hj]
    exact hgrow i
  · exact (h j).trans (hgrow j)

theorem sweep_le_apply (hF : Monotone F) (h : s ≤ F s) :
    s ≤ sweep F order s ∧ sweep F order s ≤ F (sweep F order s) := by
  induction order generalizing s with
  | nil => exact ⟨le_refl _, h⟩
  | cons i order ih =>
    obtain ⟨hle, hnext⟩ := ih (visit_le_apply hF h i)
    exact ⟨(le_visit h i).trans hle, hnext⟩

/-- A sweep reaches what all equations give at once. -/
theorem apply_le_sweep (hF : Monotone F) (h : s ≤ F s) {i : ι} (hi : i ∈ order) :
    F s i ≤ sweep F order s i := by
  induction order generalizing s with
  | nil => cases hi
  | cons j order ih =>
    have hnext := visit_le_apply hF h j
    rcases List.mem_cons.mp hi with rfl | hi
    · have hset : F s i = visit F s i i := by rw [visit, Function.update_self]
      rw [hset]
      exact (sweep_le_apply hF hnext).1 i
    · exact (hF (le_visit h j) i).trans (ih hnext hi)

/-- As many sweeps reach what as many simultaneous rounds reach, where the unknowns that are not
visited keep their values. -/
theorem iterate_le_sweep (hF : Monotone F) (h : s ≤ F s)
    (hout : ∀ t, ∀ i, i ∉ order → F t i ≤ s i) (n : Nat) :
    F^[n] s ≤ (sweep F order)^[n] s := by
  have hpost : ∀ n, s ≤ (sweep F order)^[n] s ∧
      (sweep F order)^[n] s ≤ F ((sweep F order)^[n] s) := by
    intro n
    induction n with
    | zero => exact ⟨le_refl _, h⟩
    | succ n ih =>
      rw [Function.iterate_succ_apply']
      obtain ⟨hle, hnext⟩ := @sweep_le_apply _ _ _ _ order _ _ hF ih.2
      exact ⟨ih.1.trans hle, hnext⟩
  induction n with
  | zero => exact le_refl _
  | succ n ih =>
    rw [Function.iterate_succ_apply', Function.iterate_succ_apply']
    intro i
    by_cases hi : i ∈ order
    · exact (hF ih i).trans (apply_le_sweep hF (hpost n).2 hi)
    · have hstart := (hpost (n + 1)).1 i
      rw [Function.iterate_succ_apply'] at hstart
      exact (hout _ i hi).trans hstart

end Vuma.Lib
