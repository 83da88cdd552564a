import Mathlib

/-!
# Reordering a list of actions

A function of a list that does not notice the exchange of two neighbours that are independent does
not notice any permutation that keeps the order of every dependent pair.
-/

namespace Vuma.Lib

variable {α S : Type*} {R : α → α → Prop}

/-- An action moves to the front past actions it is independent of. -/
theorem move_front {f : List α → S}
    (hswap : ∀ x a b y, R a b → f (x ++ a :: b :: y) = f (x ++ b :: a :: y))
    {p q : List α} {a : α} (h : ∀ b ∈ p, R b a) : f (p ++ a :: q) = f (a :: (p ++ q)) := by
  induction p using List.reverseRecOn generalizing q with
  | nil => rfl
  | append_singleton p b ih =>
    have hlast : R b a := h b (List.mem_append_right p List.mem_cons_self)
    calc f (p ++ [b] ++ a :: q)
        = f (p ++ b :: a :: q) := by rw [List.append_assoc, List.singleton_append]
      _ = f (p ++ a :: b :: q) := hswap p b a q hlast
      _ = f (a :: (p ++ b :: q)) := ih fun c hc => h c (List.mem_append_left _ hc)
      _ = f (a :: (p ++ [b] ++ q)) := by rw [List.append_assoc, List.singleton_append]

/-- The permuted list has the same value when every pair it reverses is independent. -/
theorem reorder_eq {f : List α → S}
    (hswap : ∀ x a b y, R a b → f (x ++ a :: b :: y) = f (x ++ b :: a :: y))
    {l l' : List α} (hperm : l'.Perm l)
    (hkeep : ∀ a b, [a, b].Sublist l → [b, a].Sublist l' → R a b) : f l' = f l := by
  induction l' generalizing l f with
  | nil => rw [List.nil_perm.mp hperm]
  | cons a t ih =>
    obtain ⟨p, q, rfl⟩ := List.append_of_mem (hperm.subset List.mem_cons_self)
    have ht : t.Perm (p ++ q) := (hperm.trans List.perm_middle).cons_inv
    have hfront : ∀ b ∈ p, R b a := by
      intro b hb
      refine hkeep b a ?_ ?_
      · exact (List.singleton_sublist.mpr hb).append
          (List.singleton_sublist.mpr List.mem_cons_self)
      · have hbt : b ∈ t := ht.symm.subset (List.mem_append_left q hb)
        exact (List.singleton_sublist.mpr hbt).cons_cons a
    rw [move_front hswap hfront]
    refine ih (f := fun t => f (a :: t)) (fun x b c y h => hswap (a :: x) b c y h) ht ?_
    intro b c hbc hcb
    refine hkeep b c (hbc.trans ?_) (hcb.trans (List.sublist_cons_self a t))
    exact (List.Sublist.refl p).append (List.sublist_cons_self a q)

end Vuma.Lib
