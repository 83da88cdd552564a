import Mathlib

/-!
# Three lists side by side

`Forall₃ R` relates three lists of one length place by place. The lemmas that carry one relation to
another ask for the step only at elements of the first list: an induction on the elements gives no
more.
-/

namespace Vuma.Lib

variable {α β γ : Type*}

inductive Forall₃ (R : α → β → γ → Prop) : List α → List β → List γ → Prop
  | nil : Forall₃ R [] [] []
  | cons {a b c l₁ l₂ l₃} (h : R a b c) (hs : Forall₃ R l₁ l₂ l₃) :
    Forall₃ R (a :: l₁) (b :: l₂) (c :: l₃)

theorem forall₂_imp_of_mem {R S : α → β → Prop} {l₁ : List α} {l₂ : List β}
    (H : ∀ a ∈ l₁, ∀ b, R a b → S a b) (h : List.Forall₂ R l₁ l₂) : List.Forall₂ S l₁ l₂ :=
  ((List.forall₂_and_left l₁ l₂).mpr ⟨H, h⟩).imp fun _ b hab => hab.1 b hab.2

theorem forall₂_swap {R : α → β → Prop} {S : β → α → Prop} {l₁ : List α} {l₂ : List β}
    (H : ∀ a ∈ l₁, ∀ b, R a b → S b a) (h : List.Forall₂ R l₁ l₂) : List.Forall₂ S l₂ l₁ :=
  (forall₂_imp_of_mem (S := flip S) H h).flip

namespace Forall₃

variable {R : α → β → γ → Prop} {l₁ : List α} {l₂ : List β} {l₃ : List γ}

theorem length_eq (h : Forall₃ R l₁ l₂ l₃) : l₁.length = l₂.length := by
  induction h with
  | nil => rfl
  | cons _ _ ih => rw [List.length_cons, List.length_cons, ih]

theorem nil_iff {l₂ : List β} {l₃ : List γ} : Forall₃ R [] l₂ l₃ ↔ l₂ = [] ∧ l₃ = [] := by
  constructor
  · rintro ⟨⟩
    exact ⟨rfl, rfl⟩
  · rintro ⟨rfl, rfl⟩
    exact .nil

theorem cons_iff {a : α} {b : β} {c : γ} :
    Forall₃ R (a :: l₁) (b :: l₂) (c :: l₃) ↔ R a b c ∧ Forall₃ R l₁ l₂ l₃ := by
  constructor
  · rintro ⟨⟩
    exact ⟨‹_›, ‹_›⟩
  · exact fun h => .cons h.1 h.2

/-- Two relations that meet in a middle list. -/
theorem iff_of_forall₂ {A : α → β → Prop} {B : β → γ → Prop} {C : α → γ → Prop}
    (H : ∀ a ∈ l₁, ∀ b c, A a b → B b c → (C a c ↔ R a b c)) (hA : List.Forall₂ A l₁ l₂)
    (hB : List.Forall₂ B l₂ l₃) : List.Forall₂ C l₁ l₃ ↔ Forall₃ R l₁ l₂ l₃ := by
  induction hA generalizing l₃ with
  | nil =>
    cases hB
    exact iff_of_true .nil .nil
  | @cons a b l₁ l₂ hab _ ih =>
    obtain _ | ⟨hbc, hB⟩ := hB
    rw [List.forall₂_cons, cons_iff, H a List.mem_cons_self b _ hab hbc,
      ih (fun a ha => H a (List.mem_cons_of_mem _ ha)) hB]

/-- The third list against each of the first two. -/
theorem forall₂_and_iff {A : γ → α → Prop} {B : γ → β → Prop} {C : α → β → Prop}
    (H : ∀ a ∈ l₁, ∀ b c, R a b c → (A c a ∧ B c b ↔ C a b)) (h : Forall₃ R l₁ l₂ l₃) :
    List.Forall₂ A l₃ l₁ ∧ List.Forall₂ B l₃ l₂ ↔ List.Forall₂ C l₁ l₂ := by
  induction h with
  | nil => simp
  | @cons a b c l₁ l₂ l₃ h _ ih =>
    simp only [List.forall₂_cons]
    rw [and_and_and_comm, H a List.mem_cons_self b c h,
      ih fun a ha => H a (List.mem_cons_of_mem _ ha)]

/-- The first two lists change places, for another third list. -/
theorem exists_swap {S : β → α → γ → Prop}
    (H : ∀ a ∈ l₁, ∀ b c, R a b c → ∃ d, S b a d) (h : Forall₃ R l₁ l₂ l₃) :
    ∃ l, Forall₃ S l₂ l₁ l := by
  induction h with
  | nil => exact ⟨[], .nil⟩
  | @cons a b c l₁ l₂ l₃ h _ ih =>
    obtain ⟨d, hd⟩ := H a List.mem_cons_self b c h
    obtain ⟨l, hl⟩ := ih fun a ha => H a (List.mem_cons_of_mem _ ha)
    exact ⟨d :: l, .cons hd hl⟩

theorem same_iff {R : α → α → α → Prop} {l : List α} : Forall₃ R l l l ↔ ∀ a ∈ l, R a a a := by
  induction l with
  | nil => exact iff_of_true .nil nofun
  | cons a l ih => rw [cons_iff, ih, List.forall_mem_cons]

/-- The third list is the first. -/
theorem eq_left {R : α → β → α → Prop} {l₁ l₃ : List α}
    (H : ∀ a ∈ l₁, ∀ b ∈ l₂, ∀ c, R a b c → c = a) (h : Forall₃ R l₁ l₂ l₃) : l₃ = l₁ := by
  induction h with
  | nil => rfl
  | @cons a b c l₁ l₂ l₃ h _ ih =>
    rw [H a List.mem_cons_self b List.mem_cons_self c h,
      ih fun a ha b hb => H a (List.mem_cons_of_mem _ ha) b (List.mem_cons_of_mem _ hb)]

/-- When the first two lists are equal. -/
theorem eq_iff {R : α → α → γ → Prop} {C : α → α → Prop} {l₁ l₂ : List α}
    (H : ∀ a ∈ l₁, ∀ b ∈ l₂, ∀ c, R a b c → (a = b ↔ C a b)) (h : Forall₃ R l₁ l₂ l₃) :
    l₁ = l₂ ↔ List.Forall₂ C l₁ l₂ := by
  induction h with
  | nil => exact iff_of_true rfl .nil
  | @cons a b c l₁ l₂ l₃ h _ ih =>
    rw [List.cons.injEq, List.forall₂_cons, H a List.mem_cons_self b List.mem_cons_self c h,
      ih fun a ha b hb => H a (List.mem_cons_of_mem _ ha) b (List.mem_cons_of_mem _ hb)]

end Forall₃

end Vuma.Lib
