import Mathlib

/-!
# Runs of a partial step function

A run takes a list of actions one after another, and stops for good at the first one that is not
possible. `Always` says what holds in every state that the run reaches, and `Along` what holds of
every action that it reaches, together with the state before it.
-/

namespace Vuma.Lib

namespace Steps

section

variable {σ ι : Type} (step : σ → ι → Option σ)

/-- The property holds in the first state and in every state that the run reaches. -/
def Always (P : σ → Prop) : σ → List ι → Prop
  | s, [] => P s
  | s, a :: acts => P s ∧ ∀ s', step s a = some s' → Always P s' acts

/-- The property holds of every action that the run reaches, in the state before it. -/
def Along (C : σ → ι → Prop) : σ → List ι → Prop
  | _, [] => True
  | s, a :: acts => C s a ∧ ∀ s', step s a = some s' → Along C s' acts

variable {step} {P I : σ → Prop} {C : σ → ι → Prop} {s : σ} {acts : List ι}

theorem Always.head (h : Always step P s acts) : P s := by
  cases acts with
  | nil => exact h
  | cons a acts => exact h.1

/-- An invariant that every action keeps, if it meets its condition, holds along a run whose actions
all meet theirs. -/
theorem always_of_along
    (hstep : ∀ s a s', I s → C s a → step s a = some s' → I s') (hI : I s)
    (h : Along step C s acts) : Always step I s acts := by
  induction acts generalizing s with
  | nil => exact hI
  | cons a acts ih =>
    obtain ⟨hC, hrest⟩ := h
    exact ⟨hI, fun t ht => ih (hstep s a t hI hC ht) (hrest t ht)⟩

/-- `Always` in terms of the actions that lead to the states. -/
theorem always_iff_along (hs : P s) :
    Always step P s acts ↔ Along step (fun s a => ∀ s', step s a = some s' → P s') s acts := by
  induction acts generalizing s with
  | nil => exact iff_of_true hs trivial
  | cons a acts ih =>
    constructor
    · rintro ⟨-, hrest⟩
      exact ⟨fun t ht => (hrest t ht).head, fun t ht => (ih (hrest t ht).head).mp (hrest t ht)⟩
    · rintro ⟨hP, hrest⟩
      exact ⟨hs, fun t ht => (ih (hP t ht)).mpr (hrest t ht)⟩

theorem along_and {D : σ → ι → Prop} :
    Along step (fun s a => C s a ∧ D s a) s acts ↔ Along step C s acts ∧ Along step D s acts := by
  induction acts generalizing s with
  | nil => exact iff_of_true trivial ⟨trivial, trivial⟩
  | cons a acts ih =>
    constructor
    · rintro ⟨⟨hC, hD⟩, hrest⟩
      exact ⟨⟨hC, fun t ht => (ih.mp (hrest t ht)).1⟩, hD, fun t ht => (ih.mp (hrest t ht)).2⟩
    · rintro ⟨⟨hC, hrestC⟩, hD, hrestD⟩
      exact ⟨⟨hC, hD⟩, fun t ht => ih.mpr ⟨hrestC t ht, hrestD t ht⟩⟩

theorem Always.mono {Q : σ → Prop} (h : Always step P s acts) (hPQ : ∀ s, P s → Q s) :
    Always step Q s acts := by
  induction acts generalizing s with
  | nil => exact hPQ s h
  | cons a acts ih => exact ⟨hPQ s h.1, fun t ht => ih (h.2 t ht)⟩

/-- If an action from a state of the invariant keeps it exactly if it meets its condition, and
otherwise has a bad effect, then a run without bad effects is one whose actions meet their
conditions. -/
theorem along_iff {G : σ → ι → Prop}
    (hstep : ∀ s a s', I s → C s a → step s a = some s' → I s')
    (hgood : ∀ s a, I s → (G s a ↔ C s a)) (hI : I s) :
    Along step G s acts ↔ Along step C s acts := by
  induction acts generalizing s with
  | nil => exact Iff.rfl
  | cons a acts ih =>
    constructor
    · rintro ⟨hG, hrest⟩
      have hC := (hgood s a hI).mp hG
      exact ⟨hC, fun t ht => (ih (hstep s a t hI hC ht)).mp (hrest t ht)⟩
    · rintro ⟨hC, hrest⟩
      exact ⟨(hgood s a hI).mpr hC, fun t ht => (ih (hstep s a t hI hC ht)).mpr (hrest t ht)⟩

end

end Steps

end Vuma.Lib
