import Mathlib

/-!
# Folds of keyed updates

A fold that changes a part of a state, a map, at the key of each element and may fail there. If the
keys are distinct, the elements do not see each other's changes: the fold succeeds exactly if every
element succeeds on the initial map, and each key has the value its element gives it.
-/

namespace Vuma.Lib

/-- A map that is a part of a state. -/
structure MapField (C K V : Type) where
  get : C → K → Option V
  set : C → (K → Option V) → C
  get_set : ∀ c m, get (set c m) = m
  set_set : ∀ c m m', set (set c m) m' = set c m'
  set_get : ∀ c, set c (get c) = c

variable {C K V ι : Type} [DecidableEq K] (L : MapField C K V)

/-- The fold for distinct keys. The steps may depend on what `I` fixes of the rest of the state. -/
theorem foldlM_keyed_iff (I : C → Prop) (key : ι → K) (ok : ι → Option V → Prop)
    (val : ι → Option V → Option V) {F : C → ι → Option C} (hI : ∀ c m, I c → I (L.set c m))
    (hfail : ∀ c x, I c → ¬ ok x (L.get c (key x)) → F c x = none)
    (hstep : ∀ c x, I c → ok x (L.get c (key x)) → F c x =
      some (L.set c (Function.update (L.get c) (key x) (val x (L.get c (key x))))))
    {l : List ι} (hnodup : (l.map key).Nodup) {c c' : C} (hc : I c) :
    l.foldlM F c = some c' ↔ (∀ x ∈ l, ok x (L.get c (key x))) ∧
      ∃ m, c' = L.set c m ∧ (∀ x ∈ l, m (key x) = val x (L.get c (key x))) ∧
        ∀ k, k ∉ l.map key → m k = L.get c k := by
  induction l generalizing c with
  | nil =>
    simp only [List.foldlM_nil, List.not_mem_nil, false_implies, implies_true, true_and, List.map_nil,
      not_false_eq_true, forall_const]
    constructor
    · intro h
      exact ⟨L.get c, by rw [L.set_get]; exact (Option.some.inj h).symm, fun _ => rfl⟩
    · rintro ⟨m, rfl, hm⟩
      rw [funext hm, L.set_get]
      rfl
  | cons x l ih =>
    obtain ⟨hx, hl⟩ := List.nodup_cons.1 hnodup
    have hne : ∀ y ∈ l, key y ≠ key x := fun y hy h => hx (h ▸ List.mem_map_of_mem hy)
    rw [List.foldlM_cons]
    by_cases hok : ok x (L.get c (key x))
    · rw [hstep c x hc hok, Option.bind_eq_bind, Option.bind_some, ih hl (hI _ _ hc)]
      simp only [L.get_set, L.set_set]
      constructor
      · rintro ⟨hoks, m, rfl, hm, hrest⟩
        refine ⟨?_, m, rfl, ?_, ?_⟩
        · intro y hy
          obtain rfl | hy := List.mem_cons.1 hy
          · exact hok
          · simpa [hne y hy] using hoks y hy
        · intro y hy
          obtain rfl | hy := List.mem_cons.1 hy
          · simpa using hrest (key y) hx
          · simpa [hne y hy] using hm y hy
        · intro k hk
          rw [List.map_cons, List.mem_cons, not_or] at hk
          simpa [hk.1] using hrest k hk.2
      · rintro ⟨hoks, m, rfl, hm, hrest⟩
        refine ⟨?_, m, rfl, ?_, ?_⟩
        · intro y hy
          simpa [hne y hy] using hoks y (List.mem_cons_of_mem x hy)
        · intro y hy
          simpa [hne y hy] using hm y (List.mem_cons_of_mem x hy)
        · intro k hk
          by_cases hkx : k = key x
          · subst hkx
            simpa using hm x List.mem_cons_self
          · have := hrest k (by simp only [List.map_cons, List.mem_cons]; tauto)
            simpa [hkx] using this
    · rw [hfail c x hc hok]
      simp only [Option.bind_eq_bind, Option.bind_none, reduceCtorEq, false_iff]
      rintro ⟨hoks, -⟩
      exact hok (hoks x List.mem_cons_self)

/-- A fold that cannot fail changes each key of its list once. -/
theorem foldl_keyed_eq (I : C → Prop) (val : K → Option V → Option V) {F : C → K → C}
    (hI : ∀ c m, I c → I (L.set c m))
    (hF : ∀ c k, I c → F c k = L.set c (Function.update (L.get c) k (val k (L.get c k))))
    {l : List K} (hl : l.Nodup) {c : C} (hc : I c) :
    l.foldl F c = L.set c fun k => if k ∈ l then val k (L.get c k) else L.get c k := by
  induction l generalizing c with
  | nil => simp [L.set_get]
  | cons x l ih =>
    obtain ⟨hx, hl⟩ := List.nodup_cons.1 hl
    rw [List.foldl_cons, hF c x hc, ih hl (hI _ _ hc), L.set_set, L.get_set]
    refine congrArg (L.set c) (funext fun k => ?_)
    by_cases hk : k = x
    · subst hk
      simp [hx]
    · simp [hk]

end Vuma.Lib
