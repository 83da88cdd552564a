import Mathlib

/-!
# Depth-first collection

Elements are collected by a recursion that goes from an element to those next to it that have not
been collected yet. As much fuel as there are elements, and one unit more, is enough to collect
everything that can be reached.
-/

namespace Vuma.Lib

variable {α : Type*} [DecidableEq α]

/-- Collects what is next to an element, and what is next to that. -/
def collect (next : α → List α) : Nat → α → Finset α → Finset α
  | 0, _, seen => seen
  | fuel + 1, a, seen =>
    (next a).foldl
      (fun seen b => if b ∈ seen then seen else collect next fuel b (insert b seen)) seen

/-- What one call does: it keeps what has been seen, sees what is next to the element and to the
elements that are new, and goes no further. -/
structure Collected (next : α → List α) (l : List α) (seen result : Finset α) : Prop where
  subset : seen ⊆ result
  mem : ∀ b ∈ l, b ∈ result
  closed : ∀ x ∈ result, x ∉ seen → ∀ y ∈ next x, y ∈ result
  reached : ∀ x ∈ result, x ∉ seen → ∃ b ∈ l, Relation.ReflTransGen (fun a b => b ∈ next a) b x

variable {next : α → List α} {U seen : Finset α}

theorem Collected.cons {a : α} {l : List α} {mid result : Finset α}
    (hfirst : Collected next [a] seen mid) (hrest : Collected next l mid result) :
    Collected next (a :: l) seen result where
  subset := hfirst.subset.trans hrest.subset
  mem := by
    intro b hb
    rcases List.mem_cons.mp hb with rfl | hb
    · exact hrest.subset (hfirst.mem b (List.mem_singleton_self b))
    · exact hrest.mem b hb
  closed := by
    intro x hx hnew y hy
    by_cases hmid : x ∈ mid
    · exact hrest.subset (hfirst.closed x hmid hnew y hy)
    · exact hrest.closed x hx hmid y hy
  reached := by
    intro x hx hnew
    by_cases hmid : x ∈ mid
    · obtain ⟨b, hb, hreach⟩ := hfirst.reached x hmid hnew
      exact ⟨b, List.mem_cons.mpr (.inl (List.mem_singleton.mp hb)), hreach⟩
    · obtain ⟨b, hb, hreach⟩ := hrest.reached x hx hmid
      exact ⟨b, List.mem_cons_of_mem _ hb, hreach⟩

/-- With enough fuel for the elements that have not been seen, a call collects. -/
theorem collected_collect (hU : ∀ a, ∀ b ∈ next a, b ∈ U) {fuel : Nat}
    (hfuel : (U \ seen).card < fuel) (a : α) :
    Collected next (next a) seen (collect next fuel a seen) := by
  induction fuel generalizing a seen with
  | zero => omega
  | succ fuel ih =>
    have hstep : ∀ b ∈ next a, ∀ s : Finset α, (U \ s).card < fuel + 1 →
        Collected next [b] s (if b ∈ s then s else collect next fuel b (insert b s)) := by
      intro b hb s hs
      split_ifs with hmem
      · refine ⟨subset_rfl, ?_, fun x hx hnew => absurd hx hnew, fun x hx hnew => absurd hx hnew⟩
        intro c hc
        rw [List.mem_singleton.mp hc]
        exact hmem
      · have hless : (U \ insert b s).card < fuel := by
          have hlt : (U \ insert b s).card < (U \ s).card := by
            apply Finset.card_lt_card
            refine ⟨Finset.sdiff_subset_sdiff subset_rfl (Finset.subset_insert b s), fun hsub => ?_⟩
            have hnot := hsub (Finset.mem_sdiff.mpr ⟨hU a b hb, hmem⟩)
            exact (Finset.mem_sdiff.mp hnot).2 (Finset.mem_insert_self b s)
          omega
        have hcall := ih hless b
        refine ⟨(Finset.subset_insert b s).trans hcall.subset, ?_, ?_, ?_⟩
        · intro c hc
          rw [List.mem_singleton.mp hc]
          exact hcall.subset (Finset.mem_insert_self b s)
        · intro x hx hnew y hy
          by_cases hxb : x = b
          · exact hcall.mem y (hxb ▸ hy)
          · exact hcall.closed x hx (fun h => (Finset.mem_insert.mp h).elim hxb hnew) y hy
        · intro x hx hnew
          refine ⟨b, List.mem_singleton_self b, ?_⟩
          by_cases hxb : x = b
          · rw [hxb]
          · obtain ⟨c, hc, hreach⟩ :=
              hcall.reached x hx (fun h => (Finset.mem_insert.mp h).elim hxb hnew)
            exact .head hc hreach
    -- the elements next to `a` one after another
    have hfold : ∀ l, (∀ b ∈ l, b ∈ next a) → ∀ s : Finset α, (U \ s).card < fuel + 1 →
        Collected next l s
          (l.foldl (fun s b => if b ∈ s then s else collect next fuel b (insert b s)) s) := by
      intro l
      induction l with
      | nil =>
        intro _ s _
        exact ⟨subset_rfl, nofun, fun x hx hnew => absurd hx hnew,
          fun x hx hnew => absurd hx hnew⟩
      | cons b l ihl =>
        intro hl s hs
        have hfirst := hstep b (hl b List.mem_cons_self) s hs
        refine hfirst.cons (ihl (fun c hc => hl c (List.mem_cons_of_mem _ hc)) _ ?_)
        have hle := Finset.card_le_card
          (Finset.sdiff_subset_sdiff (subset_refl U) hfirst.subset)
        omega
    exact hfold (next a) (fun b hb => hb) seen hfuel

/-- Everything that can be reached is collected, and nothing else. -/
theorem mem_collect (hU : ∀ a, ∀ b ∈ next a, b ∈ U) {fuel : Nat} (hfuel : U.card < fuel) {a x : α} :
    x ∈ collect next fuel a ∅ ↔ Relation.TransGen (fun a b => b ∈ next a) a x := by
  have hcollected := @collected_collect _ _ _ _ ∅ hU _ (by rwa [Finset.sdiff_empty]) a
  constructor
  · intro hx
    obtain ⟨b, hb, hreach⟩ := hcollected.reached x hx (Finset.notMem_empty x)
    exact .head' hb hreach
  · intro hreach
    induction hreach with
    | single hb => exact hcollected.mem _ hb
    | tail _ hc ih => exact hcollected.closed _ ih (Finset.notMem_empty _) _ hc

end Vuma.Lib
