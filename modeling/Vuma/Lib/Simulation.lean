import Mathlib

/-!
# Simulation between deterministic transition systems

A deterministic system is a step function `f : α → α`; the state after `n` steps is `f^[n] a`.
Two rules relate the runs of two systems: a lockstep simulation matches every step by one step,
a stuttering simulation matches every step by at least one.
-/

namespace Vuma.Lib

variable {α β : Type*} {f : α → α} {g : β → β}

/-- A relation kept by matching single steps is kept by runs of the same length. -/
theorem iterate_lockstep {R : α → β → Prop} (hstep : ∀ a b, R a b → R (f a) (g b)) (n : Nat)
    {a : α} {b : β} (h : R a b) : R (f^[n] a) (g^[n] b) := by
  induction n generalizing a b with
  | zero => exact h
  | succ n ih =>
    rw [Function.iterate_succ_apply, Function.iterate_succ_apply]
    exact ih (hstep a b h)

/-- A relation kept by matching each step with one or more steps: after `n` steps of the first
system, the second is related to it after some `m ≥ n` steps. -/
theorem iterate_stutter {R : α → β → Prop}
    (hstep : ∀ a b, R a b → ∃ k, R (f a) (g^[k + 1] b)) (n : Nat) {a : α} {b : β} (h : R a b) :
    ∃ m, n ≤ m ∧ R (f^[n] a) (g^[m] b) := by
  induction n generalizing a b with
  | zero => exact ⟨0, Nat.le_refl 0, h⟩
  | succ n ih =>
    obtain ⟨k, hk⟩ := hstep a b h
    obtain ⟨m, hm, hR⟩ := ih hk
    refine ⟨m + (k + 1), by omega, ?_⟩
    rw [Function.iterate_succ_apply, Function.iterate_add_apply]
    exact hR

end Vuma.Lib
