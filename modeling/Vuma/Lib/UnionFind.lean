import Mathlib

/-!
# Roots of a parent function

A forest is given by a function to parents, with the roots as its fixed points. When every element
reaches a root within `d` steps, linking one root to another leaves a forest in which `d + 1` steps
are enough.
-/

namespace Vuma.Lib

variable {α : Type*} {parent : α → α}

/-- Every element reaches a root within `d` steps. -/
def DepthAtMost (parent : α → α) (d : Nat) : Prop := ∀ x, parent (parent^[d] x) = parent^[d] x

theorem iterate_of_root {x : α} (h : parent x = x) (n : Nat) : parent^[n] x = x :=
  Function.iterate_fixed h n

theorem DepthAtMost.iterate_eq {d : Nat} (h : DepthAtMost parent d) {n : Nat} (hn : d ≤ n) (x : α) :
    parent^[n] x = parent^[d] x := by
  obtain ⟨k, rfl⟩ := Nat.exists_eq_add_of_le' hn
  rw [Function.iterate_add_apply]
  exact iterate_of_root (h x) k

variable [DecidableEq α] {a b : α}

/-- After linking the root `b` to the root `a`, what led to `b` leads to `a`. -/
theorem iterate_link (ha : parent a = a) (hb : parent b = b) (hab : a ≠ b) {d : Nat} {x : α}
    (h : parent (parent^[d] x) = parent^[d] x) :
    (Function.update parent b a)^[d + 1] x =
      if parent^[d] x = b then a else parent^[d] x := by
  have hroot : Function.update parent b a a = a := by
    rw [Function.update_of_ne hab, ha]
  induction d generalizing x with
  | zero =>
    change Function.update parent b a x = if x = b then a else x
    split
    · next hx => rw [hx, Function.update_self]
    · next hx =>
      rw [Function.update_of_ne hx]
      exact h
  | succ d ih =>
    have hstep : parent^[d + 1] x = parent^[d] (parent x) := Function.iterate_succ_apply _ _ _
    rw [hstep] at h ⊢
    rw [Function.iterate_succ_apply]
    by_cases hx : x = b
    · rw [hx, Function.update_self, iterate_of_root hroot, hb, iterate_of_root hb, if_pos rfl]
    · rw [Function.update_of_ne hx]
      exact ih h

theorem DepthAtMost.link (ha : parent a = a) (hb : parent b = b) (hab : a ≠ b) {d : Nat}
    (h : DepthAtMost parent d) : DepthAtMost (Function.update parent b a) (d + 1) := by
  intro x
  rw [iterate_link ha hb hab (h x)]
  split
  · rw [Function.update_of_ne hab, ha]
  · next hx => rw [Function.update_of_ne hx, h x]

/-! ## Paths to roots -/

omit [DecidableEq α]

/-- The path from the first element ends at the second one, which is a root. -/
inductive Leads (parent : α → α) : α → α → Prop
  | root {x : α} (h : parent x = x) : Leads parent x x
  | step {x r : α} (h : parent x ≠ x) (hr : Leads parent (parent x) r) : Leads parent x r

namespace Leads

variable {x y r q : α}

theorem isRoot (h : Leads parent x r) : parent r = r := by
  induction h with
  | root h => exact h
  | step h hr ih => exact ih

/-- The parent leads to the same root. -/
theorem parent_leads (h : Leads parent x r) : Leads parent (parent x) r := by
  cases h with
  | root h => rw [h]; exact .root h
  | step _ hr => exact hr

theorem unique (h : Leads parent x r) (h' : Leads parent x q) : r = q := by
  induction h with
  | root h =>
    cases h' with
    | root _ => rfl
    | step hne _ => exact absurd h hne
  | step h hr ih =>
    cases h' with
    | root heq => exact absurd heq h
    | step _ hq => exact ih hq

/-- No element before the end of the path is a root. -/
theorem exists_iterate (h : Leads parent x r) :
    ∃ n, parent^[n] x = r ∧ ∀ m < n, parent (parent^[m] x) ≠ parent^[m] x := by
  induction h with
  | root h => exact ⟨0, rfl, nofun⟩
  | step h hr ih =>
    obtain ⟨n, hn, hbefore⟩ := ih
    refine ⟨n + 1, hn, fun m hm => ?_⟩
    cases m with
    | zero => exact h
    | succ m => exact hbefore m (Nat.lt_of_succ_lt_succ hm)

/-- A path is no longer than the number of elements that are no roots. -/
theorem iterate_card {s : Finset α} (h : Leads parent x r) (hs : ∀ y, parent y ≠ y → y ∈ s) :
    parent^[s.card] x = r := by
  obtain ⟨n, hn, hbefore⟩ := h.exists_iterate
  have hinj : ∀ i j, i < j → j < n → parent^[i] x ≠ parent^[j] x := by
    intro i j hij hj heq
    refine hbefore (n - j + i) (by omega) ?_
    have hsame : parent^[n - j + i] x = r := by
      rw [Function.iterate_add_apply, heq, ← Function.iterate_add_apply,
        Nat.sub_add_cancel hj.le, hn]
    rw [hsame]
    exact h.isRoot
  have hle : n ≤ s.card := by
    have hmap : ∀ i ∈ Finset.range n, parent^[i] x ∈ s := fun i hi =>
      hs _ (hbefore i (Finset.mem_range.mp hi))
    have hcard := Finset.card_le_card_of_injOn (parent^[·] x) hmap fun i hi j hj heq => by
      rw [Finset.coe_range, Set.mem_Iio] at hi hj
      rcases Nat.lt_trichotomy i j with hlt | rfl | hlt
      · exact absurd heq (hinj i j hlt hj)
      · rfl
      · exact absurd heq.symm (hinj j i hlt hi)
    rwa [Finset.card_range] at hcard
  obtain ⟨k, hk⟩ := Nat.exists_eq_add_of_le' hle
  rw [hk, Function.iterate_add_apply, hn]
  exact iterate_of_root h.isRoot k

variable [DecidableEq α]

/-- A shortcut to the end of a path changes no end. -/
theorem compress (hx : Leads parent x r) (hy : Leads parent y q) :
    Leads (Function.update parent x r) y q := by
  have hroot : Function.update parent x r r = r := by
    by_cases hxr : r = x
    · rw [hxr, Function.update_self]
    · rw [Function.update_of_ne hxr, hx.isRoot]
  induction hy with
  | @root y h =>
    by_cases hyx : y = x
    · obtain rfl : r = y := hx.unique (hyx ▸ .root h)
      exact .root hroot
    · exact .root (by rw [Function.update_of_ne hyx, h])
  | @step y q h hq ih =>
    by_cases hyx : y = x
    · obtain rfl : r = q := hx.unique (hyx ▸ .step h hq)
      rw [hyx] at h ⊢
      have hne : r ≠ x := fun heq => h (heq ▸ hx.isRoot)
      exact .step (by rwa [Function.update_self]) (by
        rw [Function.update_self]
        exact .root hroot)
    · exact .step (by rwa [Function.update_of_ne hyx]) (by rwa [Function.update_of_ne hyx])

/-- After linking the root `a` to the root `b`, what led to `a` leads to `b`. -/
theorem link {a b : α} (ha : parent a = a) (hb : parent b = b) (hab : a ≠ b)
    (hy : Leads parent y q) :
    Leads (Function.update parent a b) y (if q = a then b else q) := by
  have hroot : Function.update parent a b b = b := by
    rw [Function.update_of_ne hab.symm, hb]
  have hlink : Leads (Function.update parent a b) a b :=
    .step (by rwa [Function.update_self, ne_comm]) (by
      rw [Function.update_self]
      exact .root hroot)
  induction hy with
  | @root y h =>
    by_cases hya : y = a
    · rwa [if_pos hya, hya]
    · rw [if_neg hya]
      exact .root (by rw [Function.update_of_ne hya, h])
  | @step y q h hq ih =>
    by_cases hya : y = a
    · exact absurd (hya ▸ ha) h
    · exact .step (by rwa [Function.update_of_ne hya]) (by rwa [Function.update_of_ne hya])

end Leads

end Vuma.Lib
