import Vuma.Bd.Unify

/-!
# What a solution of the constraints guarantees

The solver checks a constraint once, against the bindings made by the constraints before it. An
equality between two descriptors only has to unify, and a check on a variable without a binding is
waved through and not made up for. The solution satisfies every constraint exactly when neither of
the two lets something wrong pass.

Equality constraints link terms. As long as they do not link two different descriptors, the terms
they link are the terms that the solver resolves alike.
-/

namespace Vuma.Bd.Unify

/-! ## Resolving a term -/

/-- A descriptor, or a variable without a binding. -/
def Unbound (s : Subst) (t : BDTerm) : Prop := ∀ v, t = .var v → s.lookup v = none

/-- Substitutions the solver builds: an unbound variable is bound to another resolved term. -/
inductive Subst.Wf : Subst → Prop where
  | nil : Subst.Wf []
  | cons {s : Subst} {v : BDVariable} {t : BDTerm} (h : Subst.Wf s) (hv : s.lookup v = none)
      (ht : Unbound s t) (hne : t ≠ .var v) : Subst.Wf ((v, t) :: s)

theorem unbound_concrete (s : Subst) (bd : BD Finset) : Unbound s (.concrete bd) := nofun

theorem substituteTermFuel_of_unbound {s : Subst} {t : BDTerm} (h : Unbound s t) (n : Nat) :
    substituteTermFuel s n t = t := by
  cases t with
  | concrete bd => cases n <;> rfl
  | var v =>
    cases n with
    | zero => rfl
    | succ n => rw [substituteTermFuel, h v rfl]

theorem substituteTerm_of_unbound {s : Subst} {t : BDTerm} (h : Unbound s t) :
    substituteTerm t s = t :=
  substituteTermFuel_of_unbound h _

theorem unbound_cons {s : Subst} {v : BDVariable} {b t : BDTerm} (h : Unbound s t)
    (hne : t ≠ .var v) : Unbound ((v, b) :: s) t := by
  intro w hw
  have hwv : w ≠ v := by
    rintro rfl
    exact hne hw
  rw [List.lookup_cons, beq_false_of_ne hwv]
  exact h w hw

theorem substituteTermFuel_var (s : Subst) (n : Nat) (v : BDVariable) :
    substituteTermFuel s (n + 1) (.var v) =
      match s.lookup v with
      | some resolved => substituteTermFuel s n resolved
      | none => .var v := rfl

theorem lookup_cons_of_ne {s : Subst} {u v : BDVariable} (b : BDTerm) (h : u ≠ v) :
    List.lookup u ((v, b) :: s) = s.lookup u := by
  rw [List.lookup_cons, beq_false_of_ne h]

-- A chain that ends at `v` goes on to the new binding; every other chain stays as it was.
theorem substituteTermFuel_cons {s : Subst} {v : BDVariable} {b : BDTerm}
    (hv : s.lookup v = none) (hb : Unbound s b) (hne : b ≠ .var v) {n : Nat} {t : BDTerm}
    (h : Unbound s (substituteTermFuel s n t)) :
    substituteTermFuel ((v, b) :: s) (n + 1) t =
      if substituteTermFuel s n t = .var v then b else substituteTermFuel s n t := by
  induction n generalizing t with
  | zero =>
    cases t with
    | concrete bd => simp [substituteTermFuel]
    | var u =>
      by_cases huv : u = v
      · subst huv
        rw [substituteTermFuel_var, List.lookup_cons_self, substituteTermFuel, if_pos rfl]
        exact substituteTermFuel_of_unbound (unbound_cons hb hne) 0
      · have hnone : s.lookup u = none := h u rfl
        rw [substituteTermFuel_var, lookup_cons_of_ne b huv, hnone, substituteTermFuel, if_neg]
        simpa using huv
  | succ n ih =>
    cases t with
    | concrete bd => simp [substituteTermFuel]
    | var u =>
      by_cases huv : u = v
      · subst huv
        rw [substituteTermFuel, List.lookup_cons_self, substituteTermFuel, hv, if_pos rfl]
        exact substituteTermFuel_of_unbound (unbound_cons hb hne) _
      · cases hu : s.lookup u with
        | none =>
          rw [substituteTermFuel, lookup_cons_of_ne b huv, hu, substituteTermFuel, hu, if_neg]
          simpa using huv
        | some t' =>
          have hstep : substituteTermFuel s (n + 1) (.var u) = substituteTermFuel s n t' := by
            rw [substituteTermFuel, hu]
          rw [hstep] at h ⊢
          rw [substituteTermFuel, lookup_cons_of_ne b huv, hu]
          exact ih h

theorem Subst.Wf.unbound {s : Subst} (h : s.Wf) (t : BDTerm) : Unbound s (substituteTerm t s) := by
  induction h generalizing t with
  | nil => exact fun _ _ => rfl
  | @cons s v b _ hv hb hne ih =>
    have hcons : substituteTerm t ((v, b) :: s) =
      if substituteTerm t s = .var v then b else substituteTerm t s :=
      substituteTermFuel_cons hv hb hne (ih t)
    rw [hcons]
    split
    · exact unbound_cons hb hne
    · next hroot => exact unbound_cons (ih t) hroot

/-- How a new binding changes what a term resolves to. -/
theorem Subst.Wf.substituteTerm_cons {s : Subst} (h : s.Wf) {v : BDVariable} {b : BDTerm}
    (hv : s.lookup v = none) (hb : Unbound s b) (hne : b ≠ .var v) (t : BDTerm) :
    substituteTerm t ((v, b) :: s) =
      if substituteTerm t s = .var v then b else substituteTerm t s :=
  substituteTermFuel_cons hv hb hne (h.unbound t)

theorem Subst.Wf.resolve_cons {s : BDSolver} (h : s.subst.Wf) {v : BDVariable} {b : BDTerm}
    (hv : s.subst.lookup v = none) (hb : Unbound s.subst b) (hne : b ≠ .var v) (t : BDTerm) :
    BDSolver.resolve ⟨(v, b) :: s.subst⟩ t = if s.resolve t = .var v then b else s.resolve t :=
  h.substituteTerm_cons hv hb hne t

/-! ## One constraint -/

/-- What a constraint demands of two descriptors. -/
def BDConstraintKind.Demands (k : BDConstraintKind) (l r : BD Finset) : Prop :=
  match k with
  | .equality => l = r
  | .compatibility => l.compatible r = true
  | .subtyping => l.refines r = true

theorem occursIn_eq_false {s : Subst} {v : BDVariable} {t : BDTerm} (ht : Unbound s t)
    (hne : t ≠ .var v) : occursIn v t s = false := by
  cases t with
  | concrete bd =>
    unfold occursIn
    cases s.length <;> rfl
  | var u =>
    have hvu : v ≠ u := by
      rintro rfl
      exact hne rfl
    unfold occursIn
    cases s.length with
    | zero => simp [occursInFuel, hvu]
    | succ n => simp [occursInFuel, hvu, ht u rfl]

theorem BDSolver.bindVariableFuel_eq {s : BDSolver} {v : BDVariable} {t : BDTerm}
    (hv : s.subst.lookup v = none) (ht : Unbound s.subst t) (hne : t ≠ .var v) (fuel : Nat) :
    s.bindVariableFuel fuel v t = .ok ⟨(v, t) :: s.subst⟩ := by
  simp [bindVariableFuel.eq_def, occursIn_eq_false ht hne, hv]

/-- What `add_constraint` does to the solver: nothing, or one new binding between the two sides. -/
inductive BDSolver.Adds (s : BDSolver) (c : BDConstraint) : BDSolver → Prop where
  | same (hk : c.kind = .equality) (h : s.resolve c.left = s.resolve c.right) : Adds s c s
  | unified (hk : c.kind = .equality) {l r : BD Finset} (hl : s.resolve c.left = .concrete l)
      (hr : s.resolve c.right = .concrete r) (hne : l ≠ r) : Adds s c s
  | bound (hk : c.kind = .equality) {v : BDVariable} {t : BDTerm}
      (h : s.resolve c.left = .var v ∧ s.resolve c.right = t ∨
        s.resolve c.left = t ∧ s.resolve c.right = .var v)
      (hv : s.subst.lookup v = none) (ht : Unbound s.subst t) (hne : t ≠ .var v) :
      Adds s c ⟨(v, t) :: s.subst⟩
  | checked (hk : c.kind ≠ .equality) (h : ∀ l r, s.resolve c.left = .concrete l →
      s.resolve c.right = .concrete r → c.kind.Demands l r) : Adds s c s

theorem BDSolver.adds_of_unifyTerms {s s' : BDSolver} {c : BDConstraint} (hwf : s.subst.Wf)
    (hk : c.kind = .equality)
    (h : s.unifyTerms (s.resolve c.left) (s.resolve c.right) = .ok s') : s.Adds c s' := by
  have hleft := hwf.unbound c.left
  have hright := hwf.unbound c.right
  rw [unifyTerms, unifyTermsFuel.eq_def] at h
  split at h
  · next heq =>
    cases h
    exact .same hk heq
  · next hne =>
    change Unbound s.subst (s.resolve c.left) at hleft
    change Unbound s.subst (s.resolve c.right) at hright
    cases hl : s.resolve c.left with
    | var v =>
      rw [hl] at h hleft hne
      have hbind := bindVariableFuel_eq (hleft v rfl) hright (Ne.symm hne) 1
      have hs : s' = ⟨(v, s.resolve c.right) :: s.subst⟩ := by
        cases hr : s.resolve c.right <;> rw [hr] at h hbind <;> simpa [hbind] using h.symm
      rw [hs]
      exact .bound hk (.inl ⟨hl, rfl⟩) (hleft v rfl) hright (Ne.symm hne)
    | concrete l =>
      cases hr : s.resolve c.right with
      | var v =>
        rw [hl, hr] at h
        rw [hr] at hright
        have hbind := bindVariableFuel_eq (hright v rfl) (unbound_concrete s.subst l) nofun 1
        have hs : s' = ⟨(v, .concrete l) :: s.subst⟩ := by simpa [hbind] using h.symm
        rw [hs]
        exact .bound hk (.inr ⟨hl, hr⟩) (hright v rfl) (unbound_concrete _ l) nofun
      | concrete r =>
        rw [hl, hr] at h hne
        cases hu : unify l r with
        | error e =>
          simp only [hu] at h
          cases h
        | ok bd =>
          simp only [hu] at h
          cases h
          exact .unified hk hl hr fun heq => hne (by rw [heq])

theorem BDSolver.adds_of_check {s s' : BDSolver} {c : BDConstraint}
    {check : Except UnificationError Unit} (hk : c.kind ≠ .equality)
    (h : (do check; return s) = .ok s')
    (hcheck : check = .ok () → ∀ l r, s.resolve c.left = .concrete l →
      s.resolve c.right = .concrete r → c.kind.Demands l r) : s.Adds c s' := by
  cases check with
  | error e => cases h
  | ok u =>
    cases h
    exact .checked hk (hcheck rfl)

theorem BDSolver.adds_of_addConstraint {s s' : BDSolver} {c : BDConstraint} (hwf : s.subst.Wf)
    (h : s.addConstraint c = .ok s') : s.Adds c s' := by
  unfold addConstraint at h
  cases hk : c.kind with
  | equality =>
    simp only [hk] at h
    exact adds_of_unifyTerms hwf hk h
  | compatibility =>
    simp only [hk] at h
    refine adds_of_check (by simp [hk]) h fun hcheck l r hl hr => ?_
    rw [hl, hr, checkCompatibility] at hcheck
    rw [hk, BDConstraintKind.Demands]
    by_contra hno
    simp [hno] at hcheck
  | subtyping =>
    simp only [hk] at h
    refine adds_of_check (by simp [hk]) h fun hcheck l r hl hr => ?_
    rw [hl, hr, checkSubtyping] at hcheck
    rw [hk, BDConstraintKind.Demands]
    by_contra hno
    simp [hno] at hcheck

theorem BDSolver.Adds.wf {s s' : BDSolver} {c : BDConstraint} (h : s.Adds c s')
    (hwf : s.subst.Wf) : s'.subst.Wf := by
  cases h with
  | same | unified | checked => exact hwf
  | bound _ _ hv ht hne => exact .cons hwf hv ht hne

/-- A term keeps the descriptor it resolves to. -/
theorem BDSolver.Adds.resolve {s s' : BDSolver} {c : BDConstraint} (h : s.Adds c s')
    (hwf : s.subst.Wf) {t : BDTerm} {bd : BD Finset} (ht : s.resolve t = .concrete bd) :
    s'.resolve t = .concrete bd := by
  cases h with
  | same | unified | checked => exact ht
  | bound _ _ hv hb hne =>
    rw [hwf.resolve_cons hv hb hne, ht, if_neg nofun]

/-! ## Links -/

/-- Equal because of equality constraints of the list. -/
def Linked (cs : List BDConstraint) : BDTerm → BDTerm → Prop :=
  Relation.EqvGen fun t u => ⟨t, u, .equality⟩ ∈ cs

theorem Linked.mono {cs cs' : List BDConstraint} (h : ∀ c ∈ cs, c ∈ cs') {t u : BDTerm}
    (htu : Linked cs t u) : Linked cs' t u :=
  Relation.EqvGen.mono (fun _ _ hmem => h _ hmem) _ _ htu

theorem Linked.of_mem {cs : List BDConstraint} {c : BDConstraint} (h : c ∈ cs)
    (hk : c.kind = .equality) : Linked cs c.left c.right := by
  obtain ⟨left, right, kind⟩ := c
  obtain rfl : kind = .equality := hk
  exact .rel _ _ h

/-- Linked terms are alike for every view under which the sides of each equality are. -/
theorem Linked.congr {α : Type} {cs : List BDConstraint} {f : BDTerm → α} {t u : BDTerm}
    (htu : Linked cs t u) (h : ∀ c ∈ cs, c.kind = .equality → f c.left = f c.right) : f t = f u := by
  induction htu with
  | rel t u hmem => exact h _ hmem rfl
  | refl => rfl
  | symm _ _ _ ih => exact ih.symm
  | trans _ _ _ _ _ ih ih' => exact ih.trans ih'

/-- No equality constraint links two different descriptors, given the links made by the
constraints before it. -/
def NoClash (cs : List BDConstraint) : Prop :=
  ∀ before c after, cs = before ++ c :: after → c.kind = .equality → ∀ l r,
    Linked before c.left (.concrete l) → Linked before c.right (.concrete r) → l = r

theorem NoClash.before {cs cs' : List BDConstraint} (h : NoClash (cs ++ cs')) : NoClash cs := by
  intro before c after heq
  exact h before c (after ++ cs') (by simp [heq])

/-- The solver resolves alike exactly the terms that are linked. -/
structure Agrees (cs : List BDConstraint) (s : BDSolver) : Prop where
  wf : s.subst.Wf
  iff : ∀ t u, s.resolve t = s.resolve u ↔ Linked cs t u

theorem agrees_new : Agrees [] .new := by
  refine ⟨.nil, fun t u => ⟨?_, ?_⟩⟩
  · intro h
    have htu : t = u := by
      have ht : BDSolver.new.resolve t = t := substituteTerm_of_unbound fun _ _ => rfl
      have hu : BDSolver.new.resolve u = u := substituteTerm_of_unbound fun _ _ => rfl
      rwa [ht, hu] at h
    exact htu ▸ .refl t
  · intro h
    exact h.congr nofun

theorem Agrees.resolve_concrete {cs : List BDConstraint} {s : BDSolver} (h : Agrees cs s)
    {t : BDTerm} {bd : BD Finset} : s.resolve t = .concrete bd ↔ Linked cs t (.concrete bd) := by
  rw [← h.iff]
  have : s.resolve (.concrete bd) = .concrete bd :=
    substituteTerm_of_unbound (unbound_concrete _ bd)
  rw [this]

/-- Terms that were resolved alike still are. -/
theorem BDSolver.Adds.resolve_congr {s s' : BDSolver} {c : BDConstraint} (h : s.Adds c s')
    (hwf : s.subst.Wf) {t u : BDTerm} (htu : s.resolve t = s.resolve u) :
    s'.resolve t = s'.resolve u := by
  cases h with
  | same | unified | checked => exact htu
  | bound _ _ hv hb hne => rw [hwf.resolve_cons hv hb hne, hwf.resolve_cons hv hb hne, htu]

theorem Agrees.add {cs : List BDConstraint} {c : BDConstraint} {s s' : BDSolver}
    (h : Agrees cs s) (hclash : NoClash (cs ++ [c])) (hadd : s.Adds c s') :
    Agrees (cs ++ [c]) s' := by
  have hold : ∀ {t u}, s.resolve t = s.resolve u → Linked (cs ++ [c]) t u := fun htu =>
    ((h.iff _ _).mp htu).mono fun _ hmem => List.mem_append_left _ hmem
  refine ⟨hadd.wf h.wf, fun t u => ⟨fun htu => ?_, fun htu => htu.congr fun d hd hk => ?_⟩⟩
  · cases hadd with
    | same | checked => exact hold htu
    | unified hk hl hr hne =>
      exact absurd (hclash cs c [] rfl hk _ _ (h.resolve_concrete.mp hl)
        (h.resolve_concrete.mp hr)) hne
    | @bound hk v b hsides hv hb hne =>
      have hc : Linked (cs ++ [c]) c.left c.right := .of_mem (by simp) hk
      obtain ⟨p, q, hp, hq, hpq⟩ : ∃ p q, s.resolve p = .var v ∧ s.resolve q = b ∧
          Linked (cs ++ [c]) p q := by
        rcases hsides with ⟨hl, hr⟩ | ⟨hl, hr⟩
        · exact ⟨_, _, hl, hr, hc⟩
        · exact ⟨_, _, hr, hl, hc.symm⟩
      rw [h.wf.resolve_cons hv hb hne, h.wf.resolve_cons hv hb hne] at htu
      split at htu <;> split at htu
      · next ht hu => exact hold (ht.trans hu.symm)
      · next ht hu =>
        exact (hold (ht.trans hp.symm)).trans _ _ _ (hpq.trans _ _ _ (hold (hq.trans htu)))
      · next ht hu =>
        exact (hold (htu.trans hq.symm)).trans _ _ _ (hpq.symm.trans _ _ _ (hold (hp.trans hu.symm)))
      · exact hold htu
  · rcases List.mem_append.mp hd with hd | hd
    · exact hadd.resolve_congr h.wf ((h.iff _ _).mpr (.of_mem hd hk))
    · obtain rfl := List.mem_singleton.mp hd
      cases hadd with
      | same _ heq => exact heq
      | unified _ hl hr hne =>
        exact absurd (hclash cs d [] rfl hk _ _ (h.resolve_concrete.mp hl)
          (h.resolve_concrete.mp hr)) hne
      | bound _ hsides hv hb hne =>
        rw [h.wf.resolve_cons hv hb hne, h.wf.resolve_cons hv hb hne]
        rcases hsides with ⟨hl, hr⟩ | ⟨hl, hr⟩
        · rw [hl, hr, if_pos rfl, if_neg hne]
        · rw [hl, hr, if_pos rfl, if_neg hne]
      | checked hne => exact absurd hk hne

/-! ## All constraints -/

theorem BDSolver.process_append {s s' : BDSolver} {before after : List BDConstraint}
    (h : s.process (before ++ after) = (s', [])) :
    ∃ s₁, s.process before = (s₁, []) ∧ s₁.process after = (s', []) := by
  induction before generalizing s with
  | nil => exact ⟨s, rfl, h⟩
  | cons c before ih =>
    rw [List.cons_append, process] at h
    rw [process]
    cases hadd : s.addConstraint c with
    | error e =>
      rw [hadd] at h
      cases h
    | ok s₁ =>
      rw [hadd] at h
      exact ih h

theorem BDSolver.process_cons {s s' : BDSolver} {c : BDConstraint} {cs : List BDConstraint}
    (h : s.process (c :: cs) = (s', [])) :
    ∃ s₁, s.addConstraint c = .ok s₁ ∧ s₁.process cs = (s', []) := by
  rw [process] at h
  cases hadd : s.addConstraint c with
  | error e =>
    rw [hadd] at h
    cases h
  | ok s₁ =>
    rw [hadd] at h
    exact ⟨s₁, rfl, h⟩

theorem BDSolver.process_wf {s s' : BDSolver} {cs : List BDConstraint} (hwf : s.subst.Wf)
    (h : s.process cs = (s', [])) : s'.subst.Wf := by
  induction cs generalizing s with
  | nil =>
    cases h
    exact hwf
  | cons c cs ih =>
    obtain ⟨s₁, hadd, hrest⟩ := process_cons h
    exact ih ((adds_of_addConstraint hwf hadd).wf hwf) hrest

theorem BDSolver.process_resolve {s s' : BDSolver} {cs : List BDConstraint} (hwf : s.subst.Wf)
    (h : s.process cs = (s', [])) {t : BDTerm} {bd : BD Finset}
    (ht : s.resolve t = .concrete bd) : s'.resolve t = .concrete bd := by
  induction cs generalizing s with
  | nil =>
    cases h
    exact ht
  | cons c cs ih =>
    obtain ⟨s₁, hadd, hrest⟩ := process_cons h
    have hadds := adds_of_addConstraint hwf hadd
    exact ih (hadds.wf hwf) hrest (hadds.resolve hwf ht)

-- By induction on the list from its end: the last constraint extends the links and the bindings.
theorem agrees_process {cs : List BDConstraint} {s : BDSolver} (hclash : NoClash cs)
    (h : BDSolver.new.process cs = (s, [])) : Agrees cs s := by
  induction cs using List.reverseRecOn generalizing s with
  | nil =>
    cases h
    exact agrees_new
  | append_singleton cs c ih =>
    obtain ⟨s₁, hbefore, hlast⟩ := BDSolver.process_append h
    obtain ⟨s₂, hadd, hnil⟩ := BDSolver.process_cons hlast
    cases hnil
    have hagrees := ih hclash.before hbefore
    exact hagrees.add hclash (BDSolver.adds_of_addConstraint hagrees.wf hadd)

/-! ## The solution -/

/-- A term under the solution; a variable that is still free has no descriptor. -/
def applySolution (σ : List (BDVariable × BD Finset)) : BDTerm → Option (BD Finset)
  | .concrete bd => some bd
  | .var v => σ.lookup v

/-- The constraint holds under the solution, if it gives both sides a descriptor. -/
def Holds (σ : List (BDVariable × BD Finset)) (c : BDConstraint) : Prop :=
  ∀ l r, applySolution σ c.left = some l → applySolution σ c.right = some r → c.kind.Demands l r

theorem lookup_filterMap_entry {s : BDSolver} {vs : List BDVariable} {v : BDVariable}
    {bd : BD Finset} :
    (vs.filterMap s.entry).lookup v = some bd ↔ v ∈ vs ∧ s.resolve (.var v) = .concrete bd := by
  induction vs with
  | nil => simp
  | cons w vs ih =>
    cases hw : s.resolve (.var w) with
    | var u =>
      have hentry : s.entry w = none := by rw [BDSolver.entry, hw]
      rw [List.filterMap_cons_none hentry, ih, List.mem_cons]
      constructor
      · rintro ⟨hmem, hres⟩
        exact ⟨.inr hmem, hres⟩
      · rintro ⟨rfl | hmem, hres⟩
        · rw [hw] at hres
          cases hres
        · exact ⟨hmem, hres⟩
    | concrete b =>
      have hentry : s.entry w = some (w, b) := by rw [BDSolver.entry, hw]
      rw [List.filterMap_cons_some hentry, List.lookup_cons]
      by_cases hvw : v = w
      · subst hvw
        simp [hw, eq_comm]
      · rw [beq_false_of_ne hvw, ih, List.mem_cons]
        simp [hvw]

theorem mem_keys_of_resolve {s : BDSolver} {v : BDVariable} {bd : BD Finset}
    (h : s.resolve (.var v) = .concrete bd) : v ∈ s.subst.map Prod.fst := by
  by_contra hno
  have hnone : s.subst.lookup v = none := by
    rw [List.lookup_eq_none_iff]
    intro p hp
    rw [bne_iff_ne]
    rintro rfl
    exact hno (List.mem_map_of_mem hp)
  have hvar : s.resolve (.var v) = .var v := by
    refine substituteTerm_of_unbound fun w hw => ?_
    cases hw
    exact hnone
  rw [hvar] at h
  cases h

/-- The solution gives a term the descriptor that the last solver resolves it to. -/
theorem solveConstraints_ok {cs : List BDConstraint} {σ : List (BDVariable × BD Finset)}
    (h : solveConstraints cs = .ok σ) : ∃ s, BDSolver.new.process cs = (s, []) ∧
      ∀ t bd, applySolution σ t = some bd ↔ s.resolve t = .concrete bd := by
  unfold solveConstraints BDSolver.solve at h
  cases hproc : BDSolver.new.process cs with
  | mk s errors =>
    rw [hproc] at h
    cases errors with
    | cons e es => cases h
    | nil =>
      refine ⟨s, rfl, fun t bd => ?_⟩
      cases t with
      | concrete b =>
        have : s.resolve (.concrete b) = .concrete b :=
          substituteTerm_of_unbound (unbound_concrete _ b)
        rw [this]
        simp [applySolution]
      | var v =>
        cases h
        rw [applySolution, lookup_filterMap_entry]
        exact and_iff_right_of_imp mem_keys_of_resolve

/-- A check on a term that is not linked to a descriptor when its turn comes still holds of the
descriptors that all constraints together link the sides to. -/
def DeferredHold (cs : List BDConstraint) : Prop :=
  ∀ before c after, cs = before ++ c :: after → c.kind ≠ .equality →
    ¬ ((∃ l, Linked before c.left (.concrete l)) ∧ ∃ r, Linked before c.right (.concrete r)) →
    ∀ l r, Linked cs c.left (.concrete l) → Linked cs c.right (.concrete r) → c.kind.Demands l r

theorem noClash_of_holds {cs : List BDConstraint} {s : BDSolver}
    (hproc : BDSolver.new.process cs = (s, []))
    (h : ∀ c ∈ cs, c.kind = .equality → ∀ l r, s.resolve c.left = .concrete l →
      s.resolve c.right = .concrete r → l = r) : NoClash cs := by
  induction cs using List.reverseRecOn generalizing s with
  | nil =>
    intro before c after heq
    simp at heq
  | append_singleton cs c ih =>
    obtain ⟨s₁, hbefore, hlast⟩ := BDSolver.process_append hproc
    have hwf := BDSolver.process_wf .nil hbefore
    have hclash : NoClash cs := ih hbefore fun d hd hk l r hl hr =>
      h d (List.mem_append_left _ hd) hk l r (BDSolver.process_resolve hwf hlast hl)
        (BDSolver.process_resolve hwf hlast hr)
    have hagrees := agrees_process hclash hbefore
    intro before d after heq hk l r hl hr
    rcases List.eq_nil_or_concat after with rfl | ⟨after, e, rfl⟩
    · obtain ⟨rfl, rfl⟩ : cs = before ∧ c = d := by simpa using List.append_inj' heq rfl
      exact h c (by simp) hk l r
        (BDSolver.process_resolve hwf hlast (hagrees.resolve_concrete.mpr hl))
        (BDSolver.process_resolve hwf hlast (hagrees.resolve_concrete.mpr hr))
    · have hcs : cs = before ++ d :: after := by
        rw [List.concat_eq_append, ← List.cons_append, ← List.append_assoc] at heq
        exact (List.append_inj' heq rfl).1
      exact hclash before d after hcs hk l r hl hr

theorem demands_of_noClash {cs : List BDConstraint} {s : BDSolver} (hclash : NoClash cs)
    (hdeferred : DeferredHold cs) (hproc : BDSolver.new.process cs = (s, [])) {c : BDConstraint}
    (hc : c ∈ cs) {l r : BD Finset} (hl : s.resolve c.left = .concrete l)
    (hr : s.resolve c.right = .concrete r) : c.kind.Demands l r := by
  have hagrees := agrees_process hclash hproc
  by_cases hk : c.kind = .equality
  · have heq := (hagrees.iff _ _).mpr (.of_mem hc hk)
    rw [hl, hr] at heq
    rw [hk]
    exact BDTerm.concrete.inj heq
  · obtain ⟨before, after, rfl⟩ := List.append_of_mem hc
    obtain ⟨s₁, hbefore, hrest⟩ := BDSolver.process_append hproc
    obtain ⟨s₂, hadd, hafter⟩ := BDSolver.process_cons hrest
    have hagrees₁ := agrees_process hclash.before hbefore
    by_cases hboth : (∃ l, Linked before c.left (.concrete l)) ∧
        ∃ r, Linked before c.right (.concrete r)
    · obtain ⟨⟨l', hl'⟩, r', hr'⟩ := hboth
      -- both sides had their descriptors already, so the check was made with them
      have hl₁ := hagrees₁.resolve_concrete.mpr hl'
      have hr₁ := hagrees₁.resolve_concrete.mpr hr'
      have hdemands : c.kind.Demands l' r' := by
        cases BDSolver.adds_of_addConstraint hagrees₁.wf hadd with
        | same hk' | unified hk' | bound hk' => exact absurd hk' hk
        | checked _ hchecked => exact hchecked l' r' hl₁ hr₁
      have hl₂ := BDSolver.process_resolve hagrees₁.wf hrest hl₁
      have hr₂ := BDSolver.process_resolve hagrees₁.wf hrest hr₁
      rw [hl] at hl₂
      rw [hr] at hr₂
      cases hl₂
      cases hr₂
      exact hdemands
    · exact hdeferred before c after rfl hk hboth l r (hagrees.resolve_concrete.mp hl)
        (hagrees.resolve_concrete.mp hr)

/-- The solution satisfies every constraint exactly when no equality equates two different
descriptors and no check that was waved through would have failed. -/
theorem solveConstraints_sound_iff {cs : List BDConstraint} {σ : List (BDVariable × BD Finset)}
    (h : solveConstraints cs = .ok σ) :
    (∀ c ∈ cs, Holds σ c) ↔ NoClash cs ∧ DeferredHold cs := by
  obtain ⟨s, hproc, happly⟩ := solveConstraints_ok h
  simp only [Holds, happly]
  constructor
  · intro hholds
    have hclash : NoClash cs := noClash_of_holds hproc fun c hc hk l r hl hr => by
      have := hholds c hc l r hl hr
      rwa [hk] at this
    have hagrees := agrees_process hclash hproc
    refine ⟨hclash, fun before c after heq hk _ l r hl hr => ?_⟩
    exact hholds c (by simp [heq]) l r (hagrees.resolve_concrete.mpr hl)
      (hagrees.resolve_concrete.mpr hr)
  · rintro ⟨hclash, hdeferred⟩ c hc l r hl hr
    exact demands_of_noClash hclash hdeferred hproc hc hl hr

/-- A readable value of four bytes, one of eight, and one that is also writable. -/
def fourBytes : BD Finset := ⟨.byte ⟨4, 4⟩, ⟨{.read}, ∅⟩, ⟨∅⟩⟩

def eightBytes : BD Finset := ⟨.byte ⟨8, 8⟩, ⟨{.read}, ∅⟩, ⟨∅⟩⟩

def fourWritableBytes : BD Finset := ⟨.byte ⟨4, 4⟩, ⟨{.read, .write}, ∅⟩, ⟨∅⟩⟩

def varX : BDVariable := ⟨0, "X"⟩

/-- The variable is bound before it is checked. -/
def boundThenChecked : List BDConstraint :=
  [⟨.var varX, .concrete fourBytes, .equality⟩,
    ⟨.var varX, .concrete fourWritableBytes, .compatibility⟩]

theorem compatible_fourBytes : fourBytes.compatible fourWritableBytes = true := by
  have hrep : fourBytes.repd.compatible fourWritableBytes.repd = true := by
    rw [RepD.compatible.eq_def]
    decide
  rw [BD.compatible, hrep]
  decide

theorem addConstraint_varX : BDSolver.new.addConstraint ⟨.var varX, .concrete fourBytes, .equality⟩ =
    .ok ⟨[(varX, .concrete fourBytes)]⟩ := by
  change BDSolver.unifyTermsFuel _ 1 (.var varX) (.concrete fourBytes) = _
  rw [BDSolver.unifyTermsFuel.eq_def, if_neg nofun]
  exact BDSolver.bindVariableFuel_eq rfl (unbound_concrete _ _) nofun 1

theorem solveConstraints_boundThenChecked :
    solveConstraints boundThenChecked = .ok [(varX, fourBytes)] ∧
      ((∀ c ∈ boundThenChecked, Holds [(varX, fourBytes)] c) ↔
        NoClash boundThenChecked ∧ DeferredHold boundThenChecked) := by
  have hcheck : BDSolver.addConstraint ⟨[(varX, .concrete fourBytes)]⟩
      ⟨.var varX, .concrete fourWritableBytes, .compatibility⟩ =
        .ok ⟨[(varX, .concrete fourBytes)]⟩ := by
    change (do checkCompatibility (.concrete fourBytes) (.concrete fourWritableBytes); return _) = _
    rw [checkCompatibility, compatible_fourBytes, if_pos rfl]
    rfl
  have h : solveConstraints boundThenChecked = .ok [(varX, fourBytes)] := by
    rw [solveConstraints, BDSolver.solve, boundThenChecked, BDSolver.process, addConstraint_varX]
    simp only [BDSolver.process, hcheck]
    rfl
  exact ⟨h, solveConstraints_sound_iff h⟩

/-- The variable is checked before it is bound. -/
def checkedThenBound : List BDConstraint :=
  [⟨.var varX, .concrete eightBytes, .compatibility⟩,
    ⟨.var varX, .concrete fourBytes, .equality⟩]

/-- Two different descriptors that unify. -/
def unequalConcrete : List BDConstraint :=
  [⟨.concrete fourBytes, .concrete fourWritableBytes, .equality⟩]

theorem not_compatible_eightBytes : fourBytes.compatible eightBytes = false := by
  have hrep : fourBytes.repd.compatible eightBytes.repd = false := by
    rw [RepD.compatible.eq_def]
    decide
  rw [BD.compatible, hrep]
  rfl

/-- The check is lost when it comes before the binding, and unequal descriptors pass as equal. -/
theorem solveConstraints_unsound :
    (solveConstraints checkedThenBound = .ok [(varX, fourBytes)] ∧
      ¬ ∀ c ∈ checkedThenBound, Holds [(varX, fourBytes)] c) ∧
    (solveConstraints unequalConcrete = .ok [] ∧ ¬ ∀ c ∈ unequalConcrete, Holds [] c) := by
  have hne : fourBytes ≠ fourWritableBytes := by
    have hcaps : fourBytes.capd.caps ≠ fourWritableBytes.capd.caps := by decide
    exact fun h => hcaps (by rw [h])
  refine ⟨⟨?_, fun h => ?_⟩, ?_, fun h => ?_⟩
  · have hcheck : BDSolver.new.addConstraint ⟨.var varX, .concrete eightBytes, .compatibility⟩ =
        .ok .new := rfl
    rw [solveConstraints, BDSolver.solve, checkedThenBound, BDSolver.process, hcheck]
    simp only [BDSolver.process, addConstraint_varX]
    rfl
  · have := h _ List.mem_cons_self fourBytes eightBytes rfl rfl
    rw [BDConstraintKind.Demands, not_compatible_eightBytes] at this
    cases this
  · have hadd : BDSolver.new.addConstraint
        ⟨.concrete fourBytes, .concrete fourWritableBytes, .equality⟩ = .ok .new := by
      change BDSolver.unifyTermsFuel _ 1 (.concrete fourBytes) (.concrete fourWritableBytes) = _
      rw [BDSolver.unifyTermsFuel.eq_def, if_neg (by simpa using hne)]
      rfl
    rw [solveConstraints, BDSolver.solve, unequalConcrete, BDSolver.process, hadd]
    rfl
  · exact hne (h _ List.mem_cons_self fourBytes fourWritableBytes rfl rfl)

end Vuma.Bd.Unify
