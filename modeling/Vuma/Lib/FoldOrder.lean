import Mathlib

/-!
# Folds that do not depend on an order

Two folds over one list stay related when every step keeps the relation, where a step may ask for a
condition on the state of the first fold (`foldlOk`). A search that at most one element answers
finds it in every order, and sorting and removing repetitions commute with leaving elements out.
-/

namespace Vuma.Lib

variable {α β σ τ : Type*}

/-! ## Two folds -/

/-- The condition holds before every step of the fold. -/
def foldlOk (step : σ → α → σ) (ok : σ → α → Bool) (s : σ) : List α → Bool
  | [] => true
  | a :: l => ok s a && foldlOk step ok (step s a) l

/-- When the condition holds before every step, a relation that a step keeps then is kept by the
folds. -/
theorem foldl_rel_of_foldlOk {R : σ → τ → Prop} {step : σ → α → σ} {step' : τ → α → τ}
    {ok : σ → α → Bool} {l : List α}
    (hstep : ∀ s t, ∀ a ∈ l, R s t → ok s a → R (step s a) (step' t a)) {s : σ} {t : τ} (h : R s t)
    (hok : foldlOk step ok s l) : R (l.foldl step s) (l.foldl step' t) := by
  induction l generalizing s t with
  | nil => exact h
  | cons a l ih =>
    obtain ⟨hfirst, hrest⟩ := Bool.and_eq_true_iff.1 hok
    have hnext := hstep s t a List.mem_cons_self h hfirst
    exact ih (fun s t b hb => hstep s t b (List.mem_cons_of_mem _ hb)) hnext hrest

/-! ## Searching -/

/-- When at most one element is accepted, it is found in every order. -/
theorem findSome?_of_perm {f : α → Option β} {l l' : List α} (h : l.Perm l')
    (huniq : ∀ a ∈ l, ∀ b ∈ l, (f a).isSome → (f b).isSome → a = b) :
    l.findSome? f = l'.findSome? f := by
  induction h with
  | nil => rfl
  | cons a _ ih =>
    rw [List.findSome?_cons, List.findSome?_cons, ih fun b hb c hc =>
      huniq b (List.mem_cons_of_mem _ hb) c (List.mem_cons_of_mem _ hc)]
  | swap a b l =>
    have hab := huniq a (List.mem_cons_of_mem _ List.mem_cons_self) b List.mem_cons_self
    simp only [List.findSome?_cons]
    cases ha : f a with
    | none => rfl
    | some x =>
      cases hb : f b with
      | none => rfl
      | some y =>
        rw [ha, hb] at hab
        rw [hab rfl rfl, hb] at ha
        exact ha
  | trans h₁ h₂ ih₁ ih₂ =>
    rw [ih₁ huniq]
    exact ih₂ fun a ha b hb => huniq a (h₁.mem_iff.2 ha) b (h₁.mem_iff.2 hb)

/-! ## Sorting and removing repetitions -/

theorem filter_dedup [DecidableEq α] (p : α → Bool) (l : List α) :
    l.dedup.filter p = (l.filter p).dedup := by
  induction l with
  | nil => rfl
  | cons a l ih =>
    by_cases ha : a ∈ l
    · rw [List.dedup_cons_of_mem ha, ih]
      by_cases hp : p a
      · rw [List.filter_cons_of_pos hp, List.dedup_cons_of_mem (List.mem_filter.2 ⟨ha, hp⟩)]
      · rw [List.filter_cons_of_neg hp]
    · rw [List.dedup_cons_of_notMem ha]
      by_cases hp : p a
      · rw [List.filter_cons_of_pos hp, List.filter_cons_of_pos hp, ih,
          List.dedup_cons_of_notMem fun h => ha (List.mem_of_mem_filter h)]
      · rw [List.filter_cons_of_neg hp, List.filter_cons_of_neg hp, ih]

section

variable (r : α → α → Prop) [DecidableRel r] [Std.Total r] [IsTrans α r]

omit [Std.Total r] [IsTrans α r] in
theorem orderedInsert_eq_cons {a : α} {l : List α} (h : ∀ b ∈ l, r a b) :
    l.orderedInsert r a = a :: l := by
  cases l with
  | nil => rfl
  | cons b l => rw [List.orderedInsert_cons, if_pos (h b List.mem_cons_self)]

omit [Std.Total r] in
theorem filter_orderedInsert (p : α → Bool) (a : α) {l : List α} (hl : l.Pairwise r) :
    (l.orderedInsert r a).filter p =
      if p a then (l.filter p).orderedInsert r a else l.filter p := by
  induction l with
  | nil => by_cases hp : p a <;> simp [hp]
  | cons b l ih =>
    obtain ⟨hb, hl⟩ := List.pairwise_cons.1 hl
    by_cases hab : r a b
    · have hall : ∀ c ∈ (b :: l).filter p, r a c := by
        intro c hc
        rcases List.mem_cons.1 (List.mem_of_mem_filter hc) with rfl | hc
        · exact hab
        · exact trans_of r hab (hb c hc)
      rw [List.orderedInsert_cons, if_pos hab, orderedInsert_eq_cons r hall, List.filter_cons]
    · rw [List.orderedInsert_cons, if_neg hab]
      by_cases hpb : p b
      · rw [List.filter_cons_of_pos hpb, List.filter_cons_of_pos hpb, ih hl]
        split
        · rw [List.orderedInsert_cons, if_neg hab]
        · rfl
      · rw [List.filter_cons_of_neg hpb, List.filter_cons_of_neg hpb, ih hl]

theorem filter_insertionSort (p : α → Bool) (l : List α) :
    (l.insertionSort r).filter p = (l.filter p).insertionSort r := by
  induction l with
  | nil => rfl
  | cons a l ih =>
    rw [List.insertionSort_cons, filter_orderedInsert r p a (List.pairwise_insertionSort r l), ih,
      List.filter_cons]
    split <;> rfl

end

end Vuma.Lib
