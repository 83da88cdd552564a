import Mathlib

/-!
# Prefix-free codes

A code is prefix-free when no word of it is the beginning of another. A sequence of such words can
be taken apart in one way only. A number in decimals is such a word when a character that is no
digit follows it.
-/

namespace Vuma.Lib

section

variable {α β : Type} {enc : α → List β}

/-- The words of a code are not empty, and none begins another. -/
structure PrefixFree (enc : α → List β) : Prop where
  ne_nil : ∀ a, enc a ≠ []
  eq_of_append : ∀ a b r s, enc a ++ r = enc b ++ s → a = b

theorem PrefixFree.flatMap_injective (h : PrefixFree enc) :
    Function.Injective fun l : List α => l.flatMap enc := by
  intro l
  induction l with
  | nil =>
    intro l' heq
    cases l' with
    | nil => rfl
    | cons b l' =>
      have hnil : enc b ++ l'.flatMap enc = [] := heq.symm
      exact absurd (List.append_eq_nil_iff.1 hnil).1 (h.ne_nil b)
  | cons a l ih =>
    intro l' heq
    cases l' with
    | nil =>
      have hnil : enc a ++ l.flatMap enc = [] := heq
      exact absurd (List.append_eq_nil_iff.1 hnil).1 (h.ne_nil a)
    | cons b l' =>
      have heq : enc a ++ l.flatMap enc = enc b ++ l'.flatMap enc := heq
      obtain rfl := h.eq_of_append a b _ _ heq
      rw [ih (List.append_cancel_left heq)]

end

/-- A list ends at the first occurrence of an element that it does not contain. -/
theorem append_cons_inj {α : Type} {c : α} {x y s t : List α} (hx : c ∉ x) (hy : c ∉ y)
    (h : x ++ c :: s = y ++ c :: t) : x = y ∧ s = t := by
  induction x generalizing y with
  | nil =>
    cases y with
    | nil => exact ⟨rfl, (List.cons.inj h).2⟩
    | cons b y => exact absurd (List.cons.inj h).1 (List.ne_of_not_mem_cons hy)
  | cons a x ih =>
    cases y with
    | nil => exact absurd (List.cons.inj h).1.symm (List.ne_of_not_mem_cons hx)
    | cons b y =>
      obtain ⟨rfl, htail⟩ := List.cons.inj h
      obtain ⟨rfl, hrest⟩ := ih (List.not_mem_of_not_mem_cons hx)
        (List.not_mem_of_not_mem_cons hy) htail
      exact ⟨rfl, hrest⟩

/-- A number before a character that is no digit, and what follows, can be read off. -/
theorem digits_append_inj {n m : Nat} {c : Char} {x y : List Char} (hc : c.isDigit = false)
    (h : (toString n).toList ++ c :: x = (toString m).toList ++ c :: y) : n = m ∧ x = y := by
  have hno : ∀ k : Nat, c ∉ Nat.toDigits 10 k := by
    intro k hmem
    have hdigit := Nat.isDigit_of_mem_toDigits (by omega) (by omega) hmem
    rw [hc] at hdigit
    exact absurd hdigit (by simp)
  rw [show toString n = n.repr from rfl, show toString m = m.repr from rfl, Nat.toList_repr,
    Nat.toList_repr] at h
  obtain ⟨hdigits, hrest⟩ := append_cons_inj (hno n) (hno m) h
  refine ⟨?_, hrest⟩
  rw [← Nat.ofDigitChars_ten_toDigits (n := n), hdigits, Nat.ofDigitChars_ten_toDigits]

end Vuma.Lib
