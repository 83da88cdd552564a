import Vuma.Bd.Resolve
import Vuma.Lib.Fuel

/-!
# The solver comes to an end

The functions of the solver chase chains of bindings with nothing to stop them on a cycle. Here they
are computations with fuel, `none` when it runs out, and they change the solver as the source does,
also when they fail. The solver never builds a cycle, so every call comes to an end, and a
constraint that fails changes nothing.
-/

namespace Vuma.Bd.Unify

open Vuma.Lib

/-! ## The functions of the source -/

/-- `substitute_term`. -/
def substituteWithin (subst : Subst) : Nat → BDTerm → Option BDTerm
  | _, .concrete bd => some (.concrete bd)
  | 0, .var _ => none
  | n + 1, .var v =>
    match subst.lookup v with
    | some resolved => substituteWithin subst n resolved
    | none => some (.var v)

/-- `occurs_in`. -/
def occursWithin (var : BDVariable) (subst : Subst) : Nat → BDTerm → Option Bool
  | _, .concrete _ => some false
  | 0, .var _ => none
  | n + 1, .var v =>
    if var = v then some true
    else
      match subst.lookup v with
      | some resolved => occursWithin var subst n resolved
      | none => some false

/-- What a call returns, and the solver after it. -/
abbrev Outcome := Except UnificationError Unit × BDSolver

mutual

/-- `unify_terms`. -/
def BDSolver.unifyTermsWithin (s : BDSolver) : Nat → BDTerm → BDTerm → Option Outcome
  | 0, _, _ => none
  | n + 1, t1, t2 =>
    if t1 = t2 then some (.ok (), s)
    else
      match t1, t2 with
      | .concrete bd1, .concrete bd2 => some ((unify bd1 bd2).map fun _ => (), s)
      | .var v, right => s.bindVariableWithin n v right
      | left, .var v => s.bindVariableWithin n v left

/-- `bind_variable`. -/
def BDSolver.bindVariableWithin (s : BDSolver) : Nat → BDVariable → BDTerm → Option Outcome
  | 0, _, _ => none
  | n + 1, var, term =>
    (occursWithin var s.subst n term).bind fun occurs =>
      if occurs then some (.error (.occursCheckFailed var term), s)
      else
        match s.subst.lookup var with
        | some existing =>
          (substituteWithin s.subst n existing).bind fun existing =>
            (substituteWithin s.subst n term).bind fun term =>
              if existing = term then some (.ok (), s) else s.unifyTermsWithin n existing term
        | none => some (.ok (), ⟨(var, term) :: s.subst⟩)

end

/-- `add_constraint`. -/
def BDSolver.addConstraintWithin (s : BDSolver) (c : BDConstraint) (n : Nat) : Option Outcome :=
  (substituteWithin s.subst n c.left).bind fun left =>
    (substituteWithin s.subst n c.right).bind fun right =>
      match c.kind with
      | .equality => s.unifyTermsWithin n left right
      | .compatibility => some (checkCompatibility left right, s)
      | .subtyping => some (checkSubtyping left right, s)

/-- Calls of `add_constraint`, one after the other, whatever they return. -/
def BDSolver.addAllWithin (s : BDSolver) : List BDConstraint → Nat → Option BDSolver
  | [], _ => some s
  | c :: cs, n => (s.addConstraintWithin c n).bind fun o => o.2.addAllWithin cs n

/-- The loop of `finalize`, over the keys of the map. -/
def BDSolver.finalizeWithin (s : BDSolver) : List BDVariable → Nat → Option BDSolver
  | [], _ => some s
  | var :: vars, n =>
    (substituteWithin s.subst n (.var var)).bind fun resolved =>
      BDSolver.finalizeWithin ⟨(var, resolved) :: s.subst⟩ vars n

/-! ## One call -/

variable {s : Subst} {t r : BDTerm} {v : BDVariable}

theorem finishes_substituteWithin (h : Resolves s t r) :
    Finishes (substituteWithin s · t) r := by
  induction h with
  | concrete bd => exact ⟨0, fun m _ => by cases m <;> rfl⟩
  | @unbound v hv =>
    refine (finishes_some _).step fun n => ?_
    rw [substituteWithin, hv]
  | @bound v t r hv _ ih =>
    refine ih.step fun n => ?_
    rw [substituteWithin, hv]

theorem finishes_resolve {s : BDSolver} (hwf : s.subst.Wf) (t : BDTerm) :
    Finishes (substituteWithin s.subst · t) (s.resolve t) :=
  finishes_substituteWithin (hwf.acyclic.resolves t)

/-- The occurs check never fails: the solver checks an unbound variable against another term. -/
theorem finishes_occursWithin (ht : Unbound s t) (hne : t ≠ .var v) :
    Finishes (occursWithin v s · t) false := by
  cases t with
  | concrete bd => exact ⟨0, fun m _ => by cases m <;> rfl⟩
  | var u =>
    have hvu : v ≠ u := by
      rintro rfl
      exact hne rfl
    refine (finishes_some false).step fun n => ?_
    rw [occursWithin, if_neg hvu, ht u rfl]

/-- A call that returns an error leaves the solver as it was. -/
def BDSolver.outcome (s : BDSolver) : Except UnificationError BDSolver → Outcome
  | .ok s' => (.ok (), s')
  | .error e => (.error e, s)

variable {s : BDSolver}

theorem finishes_bindVariable (hv : s.subst.lookup v = none) (ht : Unbound s.subst t)
    (hne : t ≠ .var v) :
    Finishes (s.bindVariableWithin · v t) (.ok (), ⟨(v, t) :: s.subst⟩) := by
  refine Finishes.step ((finishes_occursWithin ht hne).bind (g := fun b _ =>
    if b then some (.error (.occursCheckFailed v t), s)
    else some (.ok (), ⟨(v, t) :: s.subst⟩)) (finishes_some _)) fun n => ?_
  rw [BDSolver.bindVariableWithin, hv]

theorem finishes_unifyTerms {l : BDTerm} (hl : Unbound s.subst l) (hr : Unbound s.subst r) :
    Finishes (s.unifyTermsWithin · l r) (s.outcome (s.unifyTerms l r)) := by
  rw [BDSolver.unifyTerms, BDSolver.unifyTermsFuel.eq_def]
  by_cases heq : l = r
  · rw [if_pos heq]
    refine (finishes_some _).step fun n => ?_
    rw [BDSolver.unifyTermsWithin.eq_def]
    exact if_pos heq
  rw [if_neg heq]
  cases l with
  | var v =>
    have hbind := BDSolver.bindVariableFuel_eq (hl v rfl) hr (Ne.symm heq) 1
    have hrun := finishes_bindVariable (hl v rfl) hr (Ne.symm heq)
    cases r with
    | var w | concrete bd =>
      simp only [hbind]
      refine hrun.step fun n => ?_
      rw [BDSolver.unifyTermsWithin.eq_def]
      exact if_neg heq
  | concrete bd =>
    cases r with
    | var v =>
      simp only [BDSolver.bindVariableFuel_eq (hr v rfl) hl heq 1]
      refine (finishes_bindVariable (hr v rfl) hl heq).step fun n => ?_
      rw [BDSolver.unifyTermsWithin.eq_def]
      exact if_neg heq
    | concrete bd' =>
      refine (finishes_some _).step fun n => ?_
      rw [BDSolver.unifyTermsWithin, if_neg heq]
      cases hunify : unify bd bd' with
      | error e => simp only [hunify]; rfl
      | ok _ => simp only [hunify]; rfl

theorem outcome_check (s : BDSolver) (check : Except UnificationError Unit) :
    s.outcome (do check; return s) = (check, s) := by
  cases check <;> rfl

theorem finishes_addConstraint (hwf : s.subst.Wf) (c : BDConstraint) :
    Finishes (s.addConstraintWithin c) (s.outcome (s.addConstraint c)) := by
  refine (finishes_resolve hwf c.left).bind ((finishes_resolve hwf c.right).bind ?_)
  unfold BDSolver.addConstraint
  cases c.kind with
  | equality => exact finishes_unifyTerms (hwf.unbound _) (hwf.unbound _)
  | compatibility | subtyping =>
    rw [outcome_check]
    exact finishes_some _

/-! ## All calls -/

theorem wf_outcome (hwf : s.subst.Wf) (c : BDConstraint) :
    (s.outcome (s.addConstraint c)).2.subst.Wf := by
  cases hadd : s.addConstraint c with
  | error e => exact hwf
  | ok s' => exact (BDSolver.adds_of_addConstraint hwf hadd).wf hwf

theorem finishes_addAll (hwf : s.subst.Wf) (cs : List BDConstraint) :
    ∃ s' : BDSolver, Finishes (s.addAllWithin cs) s' ∧ s'.subst.Wf := by
  induction cs generalizing s with
  | nil => exact ⟨s, finishes_some s, hwf⟩
  | cons c cs ih =>
    obtain ⟨s', hrun, hwf'⟩ := ih (wf_outcome hwf c)
    exact ⟨s', (finishes_addConstraint hwf c).bind hrun, hwf'⟩

/-! ## Finalizing -/

/-- A binding to the end of its own chain changes nothing. -/
theorem Resolves.shortcut {s : Subst} (hv : Resolves s (.var v) r)
    (hbound : (s.lookup v).isSome) {r' : BDTerm} (h : Resolves s t r') :
    Resolves ((v, r) :: s) t r' := by
  induction h with
  | concrete bd => exact .concrete bd
  | @unbound u hu =>
    have huv : u ≠ v := by
      rintro rfl
      simp [hu] at hbound
    exact .unbound (by rwa [lookup_cons_of_ne r huv])
  | @bound u t r' hu ht ih =>
    by_cases huv : u = v
    · subst huv
      obtain rfl := hv.unique (.bound hu ht)
      refine .bound List.lookup_cons_self ?_
      cases r with
      | concrete bd => exact .concrete bd
      | var w =>
        have hw := (Resolves.bound hu ht).result_unbound w rfl
        have hwu : w ≠ u := by
          rintro rfl
          simp [hw] at hbound
        exact .unbound (by rwa [lookup_cons_of_ne _ hwu])
    · exact .bound (by rwa [lookup_cons_of_ne r huv]) ih

theorem isSome_lookup_cons {s : Subst} (hv : (s.lookup v).isSome) (u : BDVariable) :
    (List.lookup u ((v, t) :: s)).isSome = (s.lookup u).isSome := by
  by_cases huv : u = v
  · subst huv
    rw [List.lookup_cons_self, hv]
    rfl
  · rw [lookup_cons_of_ne t huv]

/-- The loop keeps where every term resolves to, and binds each variable it has come to to that. -/
theorem finishes_finalize (hs : Acyclic (BoundTo s.subst)) {vars : List BDVariable}
    (hvars : ∀ v ∈ vars, (s.subst.lookup v).isSome) :
    ∃ s' : BDSolver, Finishes (s.finalizeWithin vars) s' ∧
      (∀ t r, Resolves s.subst t r → Resolves s'.subst t r) ∧
      (∀ v, (s'.subst.lookup v).isSome = (s.subst.lookup v).isSome) ∧
      (∀ v ∈ vars, s'.subst.lookup v = some (s.resolve (.var v))) ∧
      ∀ v ∉ vars, s'.subst.lookup v = s.subst.lookup v := by
  induction vars generalizing s with
  | nil => exact ⟨s, finishes_some s, fun _ _ h => h, fun _ => rfl, nofun, fun _ _ => rfl⟩
  | cons var vars ih =>
    have hvar := hs.resolves (.var var)
    have hbound := hvars var List.mem_cons_self
    have hkeep : ∀ t r, Resolves s.subst t r →
        Resolves ((var, s.resolve (.var var)) :: s.subst) t r := fun _ _ h =>
      hvar.shortcut hbound h
    have hs' : Acyclic (BoundTo ((var, s.resolve (.var var)) :: s.subst)) := by
      refine acyclic_iff.mpr fun t => ?_
      obtain ⟨r, hr⟩ := hs.exists_resolves t
      exact ⟨r, hkeep t r hr⟩
    obtain ⟨s', hrun, hresolves, hsome, hdone, hrest⟩ := ih
      (s := ⟨(var, s.resolve (.var var)) :: s.subst⟩) hs' fun v hv => by
        rw [isSome_lookup_cons hbound]
        exact hvars v (List.mem_cons_of_mem _ hv)
    have hsame : ∀ v, BDSolver.resolve ⟨(var, s.resolve (.var var)) :: s.subst⟩ (.var v) =
        s.resolve (.var v) := fun v =>
      (hkeep _ _ (hs.resolves (.var v))).substituteTerm_eq
    refine ⟨s', (finishes_substituteWithin hvar).bind hrun,
      fun t r h => hresolves t r (hkeep t r h),
      fun v => (hsome v).trans (isSome_lookup_cons hbound v), fun v hv => ?_, fun v hv => ?_⟩
    · by_cases hmem : v ∈ vars
      · rw [hdone v hmem, hsame]
      · obtain rfl := (List.mem_cons.mp hv).resolve_right hmem
        rw [hrest v hmem]
        exact List.lookup_cons_self
    · rw [List.mem_cons, not_or] at hv
      rw [hrest v hv.2]
      exact lookup_cons_of_ne _ hv.1

/-! ## Every solver -/

/-- Every call on the solver comes to an end; finalizing it binds every variable to a descriptor or
to a variable without a binding, and a constraint that fails leaves it as it was. -/
structure BDSolver.EndsWell (s : BDSolver) : Prop where
  acyclic : Acyclic (BoundTo s.subst)
  resolve : ∀ t, ∃ r, Finishes (substituteWithin s.subst · t) r
  finalize : ∀ vars, vars.Perm (s.subst.map Prod.fst) →
    ∃ s' : BDSolver, Finishes (s.finalizeWithin vars) s' ∧
      (∀ v, (s'.subst.lookup v).isSome = (s.subst.lookup v).isSome) ∧
      ∀ v t, s'.subst.lookup v = some t → Unbound s'.subst t
  addConstraint : ∀ c, ∃ o, Finishes (s.addConstraintWithin c) o ∧
    ∀ e, o.1 = .error e → o.2 = s

theorem endsWell_of_wf (hwf : s.subst.Wf) : s.EndsWell where
  acyclic := hwf.acyclic
  resolve t := ⟨_, finishes_resolve hwf t⟩
  finalize vars hperm := by
    have hvars : ∀ v, v ∈ vars ↔ (s.subst.lookup v).isSome := by
      intro v
      rw [hperm.mem_iff, List.lookup_isSome_iff, List.mem_map]
      exact exists_congr fun b => and_congr_right fun _ => by rw [beq_iff_eq, eq_comm]
    obtain ⟨s', hrun, -, hsome, hdone, -⟩ := finishes_finalize hwf.acyclic fun v => (hvars v).mp
    refine ⟨s', hrun, hsome, fun v t hv w ht => ?_⟩
    have hmem : v ∈ vars := by
      rw [hvars, ← hsome, hv]
      rfl
    rw [hdone v hmem] at hv
    have hw : s.subst.lookup w = none := hwf.unbound (.var v) w ((Option.some.inj hv).trans ht)
    rw [← Option.not_isSome_iff_eq_none, hsome, hw]
    exact nofun
  addConstraint c := by
    refine ⟨_, finishes_addConstraint hwf c, fun e he => ?_⟩
    cases hadd : s.addConstraint c with
    | error e => rfl
    | ok s' =>
      rw [hadd] at he
      cases he

/-- Whatever constraints a new solver is given, and whichever of them fail, it ends well. -/
theorem addAll_endsWell (cs : List BDConstraint) :
    ∃ s : BDSolver, Finishes (BDSolver.new.addAllWithin cs) s ∧ s.EndsWell := by
  obtain ⟨s, hrun, hwf⟩ := finishes_addAll (s := .new) .nil cs
  exact ⟨s, hrun, endsWell_of_wf hwf⟩

end Vuma.Bd.Unify
