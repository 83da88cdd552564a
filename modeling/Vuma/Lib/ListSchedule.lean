import Mathlib

/-!
# Issuing what is ready

`n` tasks wait for predecessors that come before them. A task is ready when its predecessors are
issued and it is not; an order is built by issuing a ready task at every step. These are the facts
about such orders that a list scheduler needs, whatever it prefers among the ready tasks.
-/

namespace Vuma.Lib

/-- Every element of the list stands in the relation to those before it. -/
def Stepwise (Q : List Nat → Nat → Prop) (order : List Nat) : Prop :=
  ∀ done i rest, order = done ++ i :: rest → Q done i

/-- After `done`, the task `j` is ready: its predecessors are issued, and it is not. -/
structure Ready (n : Nat) (preds : Nat → List Nat) (done : List Nat) (j : Nat) : Prop where
  lt : j < n
  fresh : j ∉ done
  issued : ∀ p ∈ preds j, p ∈ done

/-- Predecessors come before the tasks that wait for them, and none is listed twice. -/
structure Forward (preds : Nat → List Nat) : Prop where
  nodup : ∀ j, (preds j).Nodup
  lt : ∀ j, ∀ i ∈ preds j, i < j

/-- The number of predecessors of `j` that are not issued. -/
def waiting (preds : Nat → List Nat) (done : List Nat) (j : Nat) : Nat :=
  ((preds j).filter fun p => decide (p ∉ done)).length

/-! ## Orders -/

theorem Stepwise.nil (Q : List Nat → Nat → Prop) : Stepwise Q [] := by
  intro done i rest h
  simp at h

theorem Stepwise.snoc {Q : List Nat → Nat → Prop} {order : List Nat} {i : Nat}
    (h : Stepwise Q order) (hi : Q order i) : Stepwise Q (order ++ [i]) := by
  intro done j rest hsplit
  rcases List.eq_nil_or_concat rest with rfl | ⟨front, last, rfl⟩
  · obtain ⟨rfl, hij⟩ := List.append_inj' hsplit rfl
    injection hij with hij
    exact hij ▸ hi
  · rw [List.concat_eq_append, ← List.cons_append, ← List.append_assoc] at hsplit
    exact h done j front (List.append_inj' hsplit rfl).1

theorem Stepwise.imp {Q Q' : List Nat → Nat → Prop} {order : List Nat} (h : Stepwise Q order)
    (hQ : ∀ done i, Q done i → Q' done i) : Stepwise Q' order :=
  fun done i rest hsplit => hQ done i (h done i rest hsplit)

section

variable {n : Nat} {preds : Nat → List Nat}

/-- What is issued has its predecessors issued. -/
theorem Stepwise.closed {order : List Nat} (h : Stepwise (Ready n preds) order) :
    ∀ j ∈ order, ∀ p ∈ preds j, p ∈ order := by
  intro j hj p hp
  obtain ⟨done, rest, rfl⟩ := List.append_of_mem hj
  exact List.mem_append_left _ ((h done j rest rfl).issued p hp)

theorem Stepwise.nodup {order : List Nat} (h : Stepwise (Ready n preds) order) : order.Nodup := by
  induction order using List.reverseRecOn with
  | nil => exact .nil
  | append_singleton order i ih =>
    have hi := h order i [] rfl
    have horder : Stepwise (Ready n preds) order := by
      intro done j rest hsplit
      exact h done j (rest ++ [i]) (by rw [hsplit]; simp)
    refine List.nodup_append.mpr ⟨ih horder, List.nodup_singleton i, ?_⟩
    rintro a ha _ hb rfl
    rw [List.mem_singleton] at hb
    exact hi.fresh (hb ▸ ha)

theorem Stepwise.lt {order : List Nat} (h : Stepwise (Ready n preds) order) :
    ∀ i ∈ order, i < n := by
  intro i hi
  obtain ⟨done, rest, rfl⟩ := List.append_of_mem hi
  exact (h done i rest rfl).lt

/-- A task comes after those it waits for, directly or through others. -/
theorem Stepwise.idxOf_lt {order : List Nat} (h : Stepwise (Ready n preds) order) {i j : Nat}
    (hij : Relation.TransGen (fun i j => i ∈ preds j) i j) (hj : j ∈ order) :
    i ∈ order ∧ order.idxOf i < order.idxOf j := by
  have hedge : ∀ k l, k ∈ preds l → l ∈ order → k ∈ order ∧ order.idxOf k < order.idxOf l := by
    intro k l hmem hl
    refine ⟨h.closed l hl k hmem, ?_⟩
    obtain ⟨done, rest, rfl⟩ := List.append_of_mem hl
    have hready := h done l rest rfl
    rw [List.idxOf_append_of_mem (hready.issued k hmem), List.idxOf_append_of_notMem hready.fresh]
    have := List.idxOf_lt_length_of_mem (hready.issued k hmem)
    omega
  induction hij with
  | single hmem => exact hedge _ _ hmem hj
  | tail _ hmem ih =>
    obtain ⟨hk, hlt⟩ := hedge _ _ hmem hj
    obtain ⟨hi, hlt'⟩ := ih hk
    exact ⟨hi, hlt'.trans hlt⟩

theorem idxOf_lt_of_sublist {l : List Nat} {a b : Nat} (hl : l.Nodup) (h : [a, b].Sublist l) :
    l.idxOf a < l.idxOf b := by
  induction l with
  | nil => cases h
  | cons c l ih =>
    have hc := (List.nodup_cons.mp hl).1
    cases h with
    | cons _ h =>
      have ha : c ≠ a := by
        rintro rfl
        exact hc (h.subset List.mem_cons_self)
      have hb : c ≠ b := by
        rintro rfl
        exact hc (h.subset (by simp))
      rw [List.idxOf_cons_ne _ ha, List.idxOf_cons_ne _ hb]
      exact Nat.succ_lt_succ (ih (List.nodup_cons.mp hl).2 h)
    | cons_cons _ h =>
      have hb : a ≠ b := by
        rintro rfl
        exact hc (List.singleton_sublist.mp h)
      rw [List.idxOf_cons_self, List.idxOf_cons_ne _ hb]
      exact Nat.succ_pos _

/-- No task comes before one it waits for. -/
theorem Stepwise.not_sublist {order : List Nat} (h : Stepwise (Ready n preds) order) {i j : Nat}
    (hij : Relation.TransGen (fun i j => i ∈ preds j) i j) : ¬[j, i].Sublist order := by
  intro hsub
  have hlt := (h.idxOf_lt hij (hsub.subset List.mem_cons_self)).2
  exact Nat.lt_asymm hlt (idxOf_lt_of_sublist h.nodup hsub)

/-! ## One more task -/

theorem waiting_eq_zero {done : List Nat} {j : Nat} :
    waiting preds done j = 0 ↔ ∀ p ∈ preds j, p ∈ done := by
  simp [waiting]

theorem waiting_snoc (hfwd : Forward preds) {done : List Nat} {i : Nat} (hi : i ∉ done) (j : Nat) :
    waiting preds done j =
      waiting preds (done ++ [i]) j + if i ∈ preds j then 1 else 0 := by
  have hnodup := hfwd.nodup j
  unfold waiting
  generalize preds j = ps at hnodup ⊢
  induction ps with
  | nil => rfl
  | cons p ps ih =>
    obtain ⟨hp, hps⟩ := List.nodup_cons.mp hnodup
    have hrest := ih hps
    by_cases hpi : p = i
    · subst hpi
      have hold : (p :: ps).filter (fun q => decide (q ∉ done)) =
          p :: ps.filter (fun q => decide (q ∉ done)) := by simp [hi]
      have hnew : (p :: ps).filter (fun q => decide (q ∉ done ++ [p])) =
          ps.filter (fun q => decide (q ∉ done ++ [p])) := by simp
      rw [hold, hnew, List.length_cons, hrest, if_neg hp, if_pos List.mem_cons_self]
    · have hmem : i ∈ p :: ps ↔ i ∈ ps := by simp [Ne.symm hpi]
      simp only [hmem]
      by_cases hdone : p ∈ done
      · simpa [hdone] using hrest
      · simp only [List.filter_cons, hdone, List.mem_append, List.mem_singleton, hpi]
        simp only [not_false_eq_true, or_self, decide_true, if_true, List.length_cons]
        simp only [List.mem_append, List.mem_singleton] at hrest
        omega

/-- After `i`, the ready tasks are the others that were ready, and those that waited for `i`
only. -/
theorem ready_snoc (hfwd : Forward preds) {done : List Nat} {i : Nat} (hi : Ready n preds done i)
    (hclosed : ∀ j ∈ done, ∀ p ∈ preds j, p ∈ done) (j : Nat) :
    Ready n preds (done ++ [i]) j ↔
      (j < n ∧ i ∈ preds j) ∧ waiting preds done j = 1 ∨ Ready n preds done j ∧ j ≠ i := by
  have hsnoc := waiting_snoc hfwd hi.fresh j
  constructor
  · rintro ⟨hj, hfresh, hissued⟩
    rw [List.mem_append, List.mem_singleton, not_or] at hfresh
    rw [← waiting_eq_zero] at hissued
    by_cases hmem : i ∈ preds j
    · rw [if_pos hmem] at hsnoc
      exact Or.inl ⟨⟨hj, hmem⟩, by omega⟩
    · rw [if_neg hmem] at hsnoc
      exact Or.inr ⟨⟨hj, hfresh.1, waiting_eq_zero.mp (by omega)⟩, hfresh.2⟩
  · rintro (⟨⟨hj, hmem⟩, hone⟩ | ⟨hready, hne⟩)
    · rw [if_pos hmem] at hsnoc
      refine ⟨hj, ?_, waiting_eq_zero.mp (by omega)⟩
      rw [List.mem_append, List.mem_singleton, not_or]
      refine ⟨fun hdone => hi.fresh (hclosed j hdone i hmem), ?_⟩
      have := hfwd.lt j i hmem
      omega
    · refine ⟨hready.lt, ?_, fun p hp => List.mem_append_left _ (hready.issued p hp)⟩
      rw [List.mem_append, List.mem_singleton, not_or]
      exact ⟨hready.fresh, hne⟩

/-- Each task depends directly on the one before it iff after the first `k` only `k` is
ready. -/
theorem chain_iff (hfwd : Forward preds) :
    (∀ i, i + 1 < n → i ∈ preds (i + 1)) ↔
      ∀ k j, Ready n preds (List.range k) j → j = k := by
  constructor
  · intro hchain k j hj
    have hge : k ≤ j := by
      by_contra hlt
      exact hj.fresh (List.mem_range.mpr (by omega))
    by_contra hne
    have hpred := hchain (j - 1) (by have := hj.lt; omega)
    rw [Nat.sub_add_cancel (by omega)] at hpred
    have := List.mem_range.mp (hj.issued _ hpred)
    omega
  · intro honly i hi
    by_contra hnot
    have hready : Ready n preds (List.range i) (i + 1) := by
      refine ⟨hi, by simp, fun p hp => List.mem_range.mpr ?_⟩
      have hlt := hfwd.lt _ p hp
      have hne : p ≠ i := by
        rintro rfl
        exact hnot hp
      omega
    have := honly i (i + 1) hready
    omega

theorem ready_range (hfwd : Forward preds) {k : Nat} (hk : k < n) :
    Ready n preds (List.range k) k :=
  ⟨hk, by simp, fun p hp => List.mem_range.mpr (hfwd.lt k p hp)⟩

/-- An order in which only one task is ready at every step is the original one. -/
theorem take_eq_range (hfwd : Forward preds) {order : List Nat}
    (hperm : order.Perm (List.range n))
    (honly : Stepwise (fun done i => ∀ k, done = List.range k → ∀ j, Ready n preds done j → j = i)
      order) (k : Nat) (hk : k ≤ n) : order.take k = List.range k := by
  have hlen : order.length = n := by rw [hperm.length_eq, List.length_range]
  induction k with
  | zero => rfl
  | succ k ih =>
    have hlt : k < order.length := by omega
    have hsplit : order = order.take k ++ order[k] :: order.drop (k + 1) := by
      rw [List.getElem_cons_drop, List.take_append_drop]
    have htake := ih (by omega)
    have hnext := honly _ _ _ hsplit k htake k (htake ▸ ready_range hfwd (by omega))
    rw [List.take_succ_eq_append_getElem hlt, htake, ← hnext, List.range_succ]

/-- What comes before an element of the original order. -/
theorem range_split {n i : Nat} {done rest : List Nat} (h : List.range n = done ++ i :: rest) :
    done = List.range i ∧ i < n := by
  have hlt : done.length < n := by
    have := congrArg List.length h
    simp only [List.length_range, List.length_append, List.length_cons] at this
    omega
  have hi : i = done.length := by
    have hget : (List.range n)[done.length]? = some i := by simp [h]
    rw [List.getElem?_range hlt] at hget
    exact (Option.some.inj hget).symm
  refine ⟨?_, by omega⟩
  have htake := congrArg (List.take done.length) h
  rw [List.take_left, List.take_range, Nat.min_eq_left (by omega), ← hi] at htake
  exact htake.symm

/-- When no task is ready any more, all are issued, once each. -/
theorem Stepwise.complete (hfwd : Forward preds) {order : List Nat}
    (h : Stepwise (Ready n preds) order) (hend : ∀ j, ¬Ready n preds order j) :
    order.Perm (List.range n) := by
  have hall : ∀ j < n, j ∈ order := by
    intro j
    induction j using Nat.strong_induction_on with
    | _ j ih =>
      intro hj
      by_contra hnot
      refine hend j ⟨hj, hnot, fun p hp => ?_⟩
      have hlt := hfwd.lt j p hp
      exact ih p hlt (by omega)
  refine (List.perm_ext_iff_of_nodup h.nodup List.nodup_range).mpr fun i => ?_
  rw [List.mem_range]
  exact ⟨h.lt i, hall i⟩

end

end Vuma.Lib
