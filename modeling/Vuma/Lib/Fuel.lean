import Mathlib

/-!
# Computations with fuel

A computation with fuel is `none` while the fuel is not enough. It finishes when some amount of fuel
is enough, and every larger amount gives the same. A computation made of others that may end with an
error ends with a value when they do.
-/

namespace Vuma.Lib

variable {α β : Type}

/-- From some amount of fuel on, the computation comes back with `a`. -/
def Finishes (f : ℕ → Option α) (a : α) : Prop := ∃ n, ∀ m, n ≤ m → f m = some a

theorem finishes_some (a : α) : Finishes (fun _ => some a) a := ⟨0, fun _ _ => rfl⟩

theorem Finishes.bind {f : ℕ → Option α} {g : α → ℕ → Option β} {a : α} {b : β}
    (hf : Finishes f a) (hg : Finishes (g a) b) : Finishes (fun n => (f n).bind (g · n)) b := by
  obtain ⟨n, hn⟩ := hf
  obtain ⟨k, hk⟩ := hg
  refine ⟨max n k, fun m hm => ?_⟩
  simp only [hn m (Nat.le_trans (Nat.le_max_left n k) hm)]
  exact hk m (Nat.le_trans (Nat.le_max_right n k) hm)

/-- A call that takes one unit of the fuel. -/
theorem Finishes.step {f g : ℕ → Option α} {a : α} (hg : Finishes g a)
    (h : ∀ n, f (n + 1) = g n) : Finishes f a := by
  obtain ⟨n, hn⟩ := hg
  refine ⟨n + 1, fun m hm => ?_⟩
  obtain ⟨k, rfl⟩ := Nat.exists_eq_add_of_le' (Nat.le_of_add_left_le hm)
  rw [h]
  exact hn k (Nat.le_of_succ_le_succ hm)

/-! ## Values and errors -/

variable {ε : Type}

theorem bind_ok_iff {x : Except ε α} {f : α → Except ε β} {b : β} :
    (x >>= f) = .ok b ↔ ∃ a, x = .ok a ∧ f a = .ok b := by
  cases x with
  | error e => exact ⟨nofun, nofun⟩
  | ok a => exact ⟨fun h => ⟨a, rfl, h⟩, fun ⟨_, rfl, h⟩ => h⟩

theorem bind_eq_ok {x : Except ε α} {f : α → Except ε β} {b : β} (h : (x >>= f) = .ok b) :
    ∃ a, x = .ok a ∧ f a = .ok b :=
  bind_ok_iff.mp h

/-- `if c { return Err(e); }` and what comes after it. -/
theorem guard_ok_iff {c : Prop} [Decidable c] {e : ε} {f : PUnit → Except ε α} {a : α} :
    (if c then (throw e : Except ε PUnit) >>= f else f ⟨⟩) = .ok a ↔ ¬c ∧ f ⟨⟩ = .ok a := by
  split
  · next hc => exact ⟨nofun, fun h => absurd hc h.1⟩
  · next hc => exact ⟨fun h => ⟨hc, h⟩, And.right⟩

end Vuma.Lib
