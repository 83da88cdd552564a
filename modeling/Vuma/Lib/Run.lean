import Mathlib

/-!
# Runs of a computation with a state

A computation changes a state, may fail, and may not come back. `Returns` says that it comes back
with a value and in a state; the rules follow the way a computation is put together.
-/

namespace Vuma.Lib

/-- A computation that does not come back is `none`. -/
abbrev Run (ε σ α : Type) := ExceptT ε (StateT σ Option) α

namespace Run

variable {ε σ α β : Type}

/-- The computation `p` from the state `s` comes back with `a` in the state `s'`. -/
def Returns (p : Run ε σ α) (s : σ) (a : α) (s' : σ) : Prop := p s = some (.ok a, s')

theorem returns_pure (s : σ) (a : α) : Returns (pure a : Run ε σ α) s a s := rfl

theorem returns_get (s : σ) : Returns (get : Run ε σ σ) s s s := rfl

theorem returns_modifyGet (s : σ) (f : σ → α × σ) :
    Returns (modifyGet f : Run ε σ α) s (f s).1 (f s).2 := rfl

theorem bind_of_returns {p : Run ε σ α} {s s' : σ} {a : α} (h : Returns p s a s')
    (f : α → Run ε σ β) : (p >>= f) s = f a s' := by
  have hp : p s = some (.ok a, s') := h
  change (p s).bind _ = _
  rw [hp]
  rfl

theorem returns_bind {p : Run ε σ α} {f : α → Run ε σ β} {s s' s'' : σ} {a : α} {b : β}
    (hp : Returns p s a s') (hf : Returns (f a) s' b s'') : Returns (p >>= f) s b s'' :=
  (bind_of_returns hp f).trans hf

theorem returns_bind_iff {p : Run ε σ α} {f : α → Run ε σ β} {s s'' : σ} {b : β} :
    Returns (p >>= f) s b s'' ↔ ∃ a s', Returns p s a s' ∧ Returns (f a) s' b s'' := by
  refine ⟨fun h => ?_, fun ⟨a, s', hp, hf⟩ => returns_bind hp hf⟩
  change (p s).bind _ = _ at h
  cases hp : p s with
  | none =>
    rw [hp] at h
    cases h
  | some r =>
    obtain ⟨r, s'⟩ := r
    rw [hp] at h
    cases r with
    | error e => cases h
    | ok a => exact ⟨a, s', hp, h⟩

/-- A computation that is run in a changed state, whose outcome is handed on as a value. -/
theorem returns_try {p : Run ε σ α} (enter leave : σ → σ) {s s' : σ} {a : α}
    (h : Returns p (enter s) a s') :
    Returns (fun s => do
      let (r, s') ← p (enter s)
      return (.ok r, leave s') : Run ε σ (Except ε α)) s (.ok a) (leave s') := by
  have hp : p (enter s) = some (.ok a, s') := h
  change (p (enter s)).bind _ = _
  rw [hp]
  rfl

end Run

end Vuma.Lib
