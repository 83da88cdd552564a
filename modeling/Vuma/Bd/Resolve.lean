import Vuma.Bd.UnifySound

/-!
# Resolving terms

`substitute_term` follows a chain of variables to its end, with nothing to stop it on a cycle. It
comes to an end for every term if and only if the substitution has no cycle.
-/

namespace Vuma.Bd.Unify

/-- `substitute_term` comes to an end, with a result. -/
inductive Resolves (s : Subst) : BDTerm → BDTerm → Prop
  | concrete (bd : BD Finset) : Resolves s (.concrete bd) (.concrete bd)
  | unbound {v : BDVariable} (h : s.lookup v = none) : Resolves s (.var v) (.var v)
  | bound {v : BDVariable} {t r : BDTerm} (h : s.lookup v = some t) (ht : Resolves s t r) :
      Resolves s (.var v) r

/-- One variable is bound to another. -/
def BoundTo (s : Subst) (v w : BDVariable) : Prop := s.lookup v = some (.var w)

/-- No chain of variables comes back to where it started. -/
def Acyclic {α : Type} (next : α → α → Prop) : Prop := ∀ v, ¬ Relation.TransGen next v v

variable {s : Subst} {t r r' : BDTerm} {v w : BDVariable}

theorem Resolves.unique (h : Resolves s t r) (h' : Resolves s t r') : r = r' := by
  induction h with
  | concrete bd =>
    cases h'
    rfl
  | unbound hv =>
    cases h' with
    | unbound => rfl
    | bound hv' _ => rw [hv] at hv'; cases hv'
  | bound hv _ ih =>
    cases h' with
    | unbound hv' => rw [hv] at hv'; cases hv'
    | bound hv' h' =>
      obtain rfl := Option.some.inj (hv.symm.trans hv')
      exact ih h'

/-- The result is a descriptor or a variable without a binding. -/
theorem Resolves.result_unbound (h : Resolves s t r) : Unbound s r := by
  induction h with
  | concrete bd => exact unbound_concrete s bd
  | unbound hv =>
    intro w hw
    cases hw
    exact hv
  | bound _ _ ih => exact ih

theorem Resolves.not_cycle (h : Resolves s (.var v) r) : ¬ Relation.TransGen (BoundTo s) v v := by
  generalize ht : BDTerm.var v = t at h
  induction h generalizing v with
  | concrete bd => cases ht
  | unbound hv =>
    cases ht
    intro hcycle
    obtain ⟨w, hw, -⟩ := Relation.TransGen.head'_iff.mp hcycle
    rw [BoundTo, hv] at hw
    cases hw
  | bound hv _ ih =>
    cases ht
    intro hcycle
    obtain ⟨w, hw, hback⟩ := Relation.TransGen.head'_iff.mp hcycle
    obtain rfl := Option.some.inj (hv.symm.trans hw)
    exact ih rfl (Relation.TransGen.tail'_iff.mpr ⟨_, hback, hw⟩)

/-! ## Acyclic substitutions -/

/-- Without a cycle, chains in a finite set come to an end. -/
theorem Acyclic.wellFounded {α : Type} {next : α → α → Prop} (h : Acyclic next) {S : Set α}
    (hS : S.Finite) (hnext : ∀ v w, next v w → v ∈ S) : WellFounded (fun w v => next v w) := by
  have hstrict : IsStrictOrder α (fun w v => Relation.TransGen next v w) :=
    { irrefl := h
      trans := fun a b c hab hbc => hbc.trans hab }
  have hon := Set.wellFoundedOn_iff.mp
    (Set.Finite.wellFoundedOn (r := fun w v => Relation.TransGen next v w) hS)
  refine ⟨fun v => ?_⟩
  -- one step leads into the finite set, or to the end of the chain
  have hacc : ∀ v ∈ S, Acc (fun w v => next v w) v := by
    intro v
    induction v using hon.induction with
    | h v ih =>
      intro hv
      refine ⟨v, fun w hvw => ?_⟩
      by_cases hw : w ∈ S
      · exact ih w ⟨.single hvw, hw, hv⟩ hw
      · exact ⟨w, fun u hwu => absurd (hnext w u hwu) hw⟩
  by_cases hv : v ∈ S
  · exact hacc v hv
  · exact ⟨v, fun w hvw => absurd (hnext v w hvw) hv⟩

theorem mem_keys_of_lookup (h : s.lookup v = some t) : v ∈ s.map Prod.fst := by
  obtain ⟨l₁, l₂, rfl, -⟩ := List.lookup_eq_some_iff.mp h
  simp

theorem Acyclic.exists_resolves (h : Acyclic (BoundTo s)) (t : BDTerm) : ∃ r, Resolves s t r := by
  have hwf := h.wellFounded (List.finite_toSet (s.map Prod.fst)) fun v w hvw =>
    mem_keys_of_lookup hvw
  cases t with
  | concrete bd => exact ⟨_, .concrete bd⟩
  | var v =>
    induction v using hwf.induction with
    | h v ih =>
      cases hv : s.lookup v with
      | none => exact ⟨_, .unbound hv⟩
      | some t =>
        cases t with
        | concrete bd => exact ⟨_, .bound hv (.concrete bd)⟩
        | var w =>
          obtain ⟨r, hr⟩ := ih w hv
          exact ⟨r, .bound hv hr⟩

/-- Resolving comes to an end for every term if and only if there is no cycle. -/
theorem acyclic_iff : Acyclic (BoundTo s) ↔ ∀ t, ∃ r, Resolves s t r := by
  refine ⟨Acyclic.exists_resolves, fun h v hcycle => ?_⟩
  obtain ⟨r, hr⟩ := h (.var v)
  exact hr.not_cycle hcycle

/-- The variables on the way, each once. -/
theorem Resolves.exists_chain (h : Resolves s t r) : ∃ vs : List BDVariable, vs.Nodup ∧
    (∀ w ∈ vs, w ∈ s.map Prod.fst ∧ ∃ u, t = .var u ∧ Relation.ReflTransGen (BoundTo s) u w) ∧
    ∀ n, vs.length ≤ n → substituteTermFuel s n t = r := by
  induction h with
  | concrete bd => exact ⟨[], .nil, by simp, fun n _ => by cases n <;> rfl⟩
  | @unbound v hv =>
    exact ⟨[], .nil, by simp, fun n _ => by cases n <;> simp [substituteTermFuel, hv]⟩
  | @bound v t r hv ht ih =>
    obtain ⟨vs, hnodup, hvs, hfuel⟩ := ih
    refine ⟨v :: vs, List.nodup_cons.mpr ⟨fun hmem => ?_, hnodup⟩, fun w hw => ?_, fun n hn => ?_⟩
    · obtain ⟨-, u, rfl, hback⟩ := hvs v hmem
      exact (Resolves.bound hv ht).not_cycle (Relation.TransGen.head'_iff.mpr ⟨u, hv, hback⟩)
    · rcases List.mem_cons.mp hw with rfl | hw
      · exact ⟨mem_keys_of_lookup hv, w, rfl, .refl⟩
      · obtain ⟨hkey, u, rfl, hto⟩ := hvs w hw
        exact ⟨hkey, v, rfl, .head hv hto⟩
    · obtain ⟨n, rfl⟩ : ∃ m, n = m + 1 := Nat.exists_eq_add_one.mpr (by simp at hn; omega)
      rw [substituteTermFuel, hv]
      exact hfuel n (by simpa using hn)

/-- As many steps as there are bindings are enough. -/
theorem Resolves.substituteTerm_eq (h : Resolves s t r) : substituteTerm t s = r := by
  obtain ⟨vs, hnodup, hvs, hfuel⟩ := h.exists_chain
  refine hfuel _ ?_
  have hsub : vs ⊆ s.map Prod.fst := fun w hw => (hvs w hw).1
  simpa using (hnodup.subperm hsub).length_le

theorem Acyclic.resolves (h : Acyclic (BoundTo s)) (t : BDTerm) :
    Resolves s t (substituteTerm t s) := by
  obtain ⟨r, hr⟩ := h.exists_resolves t
  rwa [hr.substituteTerm_eq]

theorem Resolves.cons {b : BDTerm} (h : Resolves s t r) (hv : s.lookup v = none)
    (hb : Unbound s b) (hne : b ≠ .var v) :
    Resolves ((v, b) :: s) t (if r = .var v then b else r) := by
  have hend : Resolves ((v, b) :: s) b b := by
    cases b with
    | concrete bd => exact .concrete bd
    | var u => exact .unbound (unbound_cons hb hne u rfl)
  induction h with
  | concrete bd =>
    rw [if_neg nofun]
    exact .concrete bd
  | @unbound u hu =>
    split
    · next heq =>
      cases heq
      exact .bound List.lookup_cons_self hend
    · next hne' => exact .unbound (by rwa [lookup_cons_of_ne b (by simpa using hne')])
  | @bound u t r hu _ ih =>
    have huv : u ≠ v := by
      rintro rfl
      rw [hv] at hu
      cases hu
    exact .bound (by rwa [lookup_cons_of_ne b huv]) ih

/-- What the solver builds has no cycle. -/
theorem Subst.Wf.acyclic (h : s.Wf) : Acyclic (BoundTo s) := by
  refine acyclic_iff.mpr fun t => ?_
  induction h generalizing t with
  | nil =>
    cases t with
    | concrete bd => exact ⟨_, .concrete bd⟩
    | var v => exact ⟨_, .unbound rfl⟩
  | cons _ hv hb hne ih =>
    obtain ⟨r, hr⟩ := ih t
    exact ⟨_, hr.cons hv hb hne⟩

/-! ## Composition -/

def composeSubst (s1 s2 : Subst) : Subst :=
  s1.map (fun b => (b.1, substituteTerm b.2 s2)) ++ s2.filter fun b => (s1.lookup b.1).isNone

variable {s1 s2 : Subst}

theorem lookup_map_snd {α β γ : Type} [BEq α] (l : List (α × β)) (f : β → γ) (a : α) :
    (l.map fun p => (p.1, f p.2)).lookup a = (l.lookup a).map f := by
  induction l with
  | nil => rfl
  | cons p l ih =>
    rw [List.map_cons, List.lookup_cons, List.lookup_cons, ih]
    cases a == p.1 <;> rfl

theorem lookup_filter_key {α β : Type} [BEq α] [LawfulBEq α] (l : List (α × β)) {P : α → Bool}
    {a : α} (ha : P a = true) : (l.filter fun p => P p.1).lookup a = l.lookup a := by
  induction l with
  | nil => rfl
  | cons p l ih =>
    rw [List.filter_cons]
    by_cases hap : a = p.1
    · rw [if_pos (hap ▸ ha), List.lookup_cons, List.lookup_cons, hap, beq_self_eq_true]
    · split
      · rw [List.lookup_cons, List.lookup_cons, ih]
      · rw [List.lookup_cons, beq_false_of_ne hap, ih]

theorem lookup_composeSubst (v : BDVariable) : (composeSubst s1 s2).lookup v =
    match s1.lookup v with
    | some t => some (substituteTerm t s2)
    | none => s2.lookup v := by
  rw [composeSubst, List.lookup_append, lookup_map_snd s1 (substituteTerm · s2)]
  cases hv : s1.lookup v with
  | some t => rfl
  | none => exact lookup_filter_key s2 (P := fun w => (s1.lookup w).isNone) (by simp [hv])

/-- The law: to apply the composition is to apply the first substitution, then the second. -/
def ComposeLaw (s1 s2 : Subst) : Prop :=
  ∀ t, Resolves (composeSubst s1 s2) t (substituteTerm (substituteTerm t s1) s2)

/-- Applying `s2` to the binding of `v` in `s1` gives `w`. -/
def ComposedTo (s1 s2 : Subst) (v w : BDVariable) : Prop :=
  ∃ t, s1.lookup v = some t ∧ substituteTerm t s2 = .var w

theorem ComposedTo.boundTo (h : ComposedTo s1 s2 v w) : BoundTo (composeSubst s1 s2) v w := by
  obtain ⟨t, hv, ht⟩ := h
  rw [BoundTo, lookup_composeSubst, hv]
  exact congrArg some ht

/-- What a chain of the composition does at a variable bound by the first substitution: it ends, or
goes on at another such variable. -/
theorem exists_resolves_composed (h2 : Acyclic (BoundTo s2)) (h : Acyclic (ComposedTo s1 s2))
    (hv : s1.lookup v = some t) : ∃ r, Resolves (composeSubst s1 s2) (.var v) r := by
  have hwf := h.wellFounded (List.finite_toSet (s1.map Prod.fst)) fun v w ⟨_, hv, _⟩ =>
    mem_keys_of_lookup hv
  induction v using hwf.induction generalizing t with
  | h v ih =>
    have hcv : (composeSubst s1 s2).lookup v = some (substituteTerm t s2) := by
      rw [lookup_composeSubst, hv]
    cases ht : substituteTerm t s2 with
    | concrete bd =>
      rw [ht] at hcv
      exact ⟨_, .bound hcv (.concrete bd)⟩
    | var w =>
      have hw2 : s2.lookup w = none := (h2.resolves t).result_unbound w ht
      rw [ht] at hcv
      cases hw : s1.lookup w with
      | some t' =>
        obtain ⟨r, hr⟩ := ih w ⟨t, hv, ht⟩ hw
        exact ⟨r, .bound hcv hr⟩
      | none =>
        refine ⟨_, .bound hcv (.unbound ?_)⟩
        rw [lookup_composeSubst, hw]
        exact hw2

theorem exists_resolves_compose (h2 : Acyclic (BoundTo s2)) (h : Acyclic (ComposedTo s1 s2))
    (t : BDTerm) : ∃ r, Resolves (composeSubst s1 s2) t r := by
  have hwf := h2.wellFounded (List.finite_toSet (s2.map Prod.fst)) fun v w hvw =>
    mem_keys_of_lookup hvw
  cases t with
  | concrete bd => exact ⟨_, .concrete bd⟩
  | var v =>
    induction v using hwf.induction with
    | h v ih =>
      cases hv1 : s1.lookup v with
      | some t => exact exists_resolves_composed h2 h hv1
      | none =>
        have hcv : (composeSubst s1 s2).lookup v = s2.lookup v := by
          rw [lookup_composeSubst, hv1]
        cases hv2 : s2.lookup v with
        | none => exact ⟨_, .unbound (hcv.trans hv2)⟩
        | some t =>
          cases t with
          | concrete bd => exact ⟨_, .bound (hcv.trans hv2) (.concrete bd)⟩
          | var w =>
            obtain ⟨r, hr⟩ := ih w hv2
            exact ⟨r, .bound (hcv.trans hv2) hr⟩

theorem substituteTerm_of_lookup (h : Acyclic (BoundTo s)) (hv : s.lookup v = some t) :
    substituteTerm (.var v) s = substituteTerm t s :=
  (Resolves.bound hv (h.resolves t)).substituteTerm_eq

theorem substituteTerm_of_none (hv : s.lookup v = none) : substituteTerm (.var v) s = .var v :=
  (Resolves.unbound hv).substituteTerm_eq

/-- The law holds of acyclic substitutions if and only if applying the second to the bindings of the
first makes no cycle, it makes no difference to such a binding that the second is applied to it
before the two, and the first makes no difference, under the second, to what only the second
binds. -/
theorem composeLaw_iff (h1 : Acyclic (BoundTo s1)) (h2 : Acyclic (BoundTo s2)) :
    ComposeLaw s1 s2 ↔ Acyclic (ComposedTo s1 s2) ∧
      (∀ v t, s1.lookup v = some t →
        substituteTerm (substituteTerm (substituteTerm t s2) s1) s2 =
          substituteTerm (substituteTerm t s1) s2) ∧
      (∀ v t, s1.lookup v = none → s2.lookup v = some t →
        substituteTerm (substituteTerm t s1) s2 = substituteTerm t s2) := by
  constructor
  · intro hlaw
    -- both sides of the law are constant along a chain of the composition
    have hstep : ∀ v t, (composeSubst s1 s2).lookup v = some t →
        substituteTerm (substituteTerm t s1) s2 =
          substituteTerm (substituteTerm (.var v) s1) s2 := fun v t hv =>
      (Resolves.bound hv (hlaw t)).unique (hlaw (.var v))
    refine ⟨fun v hcycle => ?_, fun v t hv => ?_, fun v t hv1 hv2 => ?_⟩
    · have hsub : ComposedTo s1 s2 ≤ BoundTo (composeSubst s1 s2) := fun _ _ h => h.boundTo
      exact (hlaw (.var v)).not_cycle (Relation.TransGen.mono hsub _ _ hcycle)
    · rw [hstep v _ (by rw [lookup_composeSubst, hv]), substituteTerm_of_lookup h1 hv]
    · rw [hstep v t (by rw [lookup_composeSubst, hv1]; exact hv2), substituteTerm_of_none hv1,
        substituteTerm_of_lookup h2 hv2]
  · rintro ⟨hacyclic, hfirst, hsecond⟩ t
    obtain ⟨r, hr⟩ := exists_resolves_compose h2 hacyclic t
    suffices hsame : r = substituteTerm (substituteTerm t s1) s2 from hsame ▸ hr
    induction hr with
    | concrete bd =>
      rw [substituteTerm_of_unbound (unbound_concrete s1 bd),
        substituteTerm_of_unbound (unbound_concrete s2 bd)]
    | @unbound v hv =>
      rw [lookup_composeSubst] at hv
      cases hv1 : s1.lookup v with
      | some t => simp [hv1] at hv
      | none =>
        rw [hv1] at hv
        rw [substituteTerm_of_none hv1, substituteTerm_of_none hv]
    | @bound v t r hv _ ih =>
      rw [lookup_composeSubst] at hv
      cases hv1 : s1.lookup v with
      | some t' =>
        rw [hv1] at hv
        obtain rfl := Option.some.inj hv
        rw [ih, hfirst v t' hv1, substituteTerm_of_lookup h1 hv1]
      | none =>
        rw [hv1] at hv
        rw [ih, hsecond v t hv1 hv, substituteTerm_of_none hv1, substituteTerm_of_lookup h2 hv]

def varY : BDVariable := ⟨1, "Y"⟩

/-- `varX` goes to `varY`. -/
def xToY : Subst := [(varX, .var varY)]

theorem xToY_wf : xToY.Wf := .cons .nil rfl (fun _ _ => rfl) (by decide)

theorem composeLaw_chain : ComposeLaw xToY [(varY, .concrete fourBytes)] := by
  have h2 : Subst.Wf [(varY, .concrete fourBytes)] :=
    .cons .nil rfl (unbound_concrete _ _) nofun
  have hx : ∀ v t, xToY.lookup v = some t → t = .var varY := by
    intro v t hv
    obtain ⟨l₁, l₂, hl, -⟩ := List.lookup_eq_some_iff.mp hv
    have hmem : (v, t) ∈ xToY := by rw [hl]; simp
    simp [xToY] at hmem
    exact hmem.2
  refine (composeLaw_iff xToY_wf.acyclic h2.acyclic).mpr ⟨fun v hcycle => ?_, fun v t hv => ?_,
    fun v t _ hv => ?_⟩
  · obtain ⟨w, ⟨t, hv, ht⟩, -⟩ := Relation.TransGen.head'_iff.mp hcycle
    rw [hx v t hv] at ht
    cases ht
  · rw [hx v t hv]
    rfl
  · obtain rfl : t = .concrete fourBytes := by
      obtain ⟨l₁, l₂, hl, -⟩ := List.lookup_eq_some_iff.mp hv
      have hmem : (v, t) ∈ [(varY, BDTerm.concrete fourBytes)] := by rw [hl]; simp
      simp at hmem
      exact hmem.2
    rfl

/-- Each of the two has no cycle, and their composition binds `varX` to itself. -/
theorem not_composeLaw : ¬ ∀ s1 s2 : Subst, Acyclic (BoundTo s1) → Acyclic (BoundTo s2) →
    ComposeLaw s1 s2 := by
  intro h
  have hwf : Subst.Wf [(varY, .var varX)] := .cons .nil rfl (fun _ _ => rfl) (by decide)
  have hloop := h xToY [(varY, .var varX)] xToY_wf.acyclic hwf.acyclic (.var varX)
  exact hloop.not_cycle (.single rfl)

end Vuma.Bd.Unify
