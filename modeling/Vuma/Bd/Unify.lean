import Vuma.Bd.Compat

/-!
# Unification of descriptors

`unify.rs`: unification of two concrete descriptors, and the constraint solver, which processes a
list of constraints from left to right against a growing substitution. An error of the source holds
the printed form of the values it is about; here it holds the values.
-/

namespace Vuma.Bd.Unify

/-- `BDVariable`; equality is derived, so it compares the name too. -/
structure BDVariable where
  id : UInt64
  name : String
  deriving DecidableEq, Repr

inductive BDTerm where
  | concrete (bd : BD Finset)
  | var (v : BDVariable)
  deriving DecidableEq

inductive BDConstraintKind where
  | equality | compatibility | subtyping
  deriving DecidableEq, Repr

/-- `BDConstraint` of `unify.rs`. -/
structure BDConstraint where
  left : BDTerm
  right : BDTerm
  kind : BDConstraintKind
  deriving DecidableEq

inductive UnificationError where
  | incompatibleRepD (repd1 repd2 : RepD Finset) (reason : String)
  | incompatibleCapD (capd1 capd2 : CapD Finset)
  | inconsistentRelD (reld1 reld2 : RelD Finset)
  | occursCheckFailed (var : BDVariable) (term : BDTerm)
  | subtypeViolation (sub sup : BD Finset)
  | failed (msg : String) (t1 t2 : BDTerm)

/-! ## Concrete descriptors -/

mutual

/-- `unify_repd_inner`. The `visited` set of the source holds the addresses of pairs of
representations being unified, which never come up again below themselves: representations are
trees. -/
def unifyRepd : RepD Finset → RepD Finset → Except UnificationError (RepD Finset)
  | .byte a, .byte b =>
    if a.size ≠ b.size ∨ a.align ≠ b.align then
      .error (.incompatibleRepD (.byte a) (.byte b) ("byte size/alignment mismatch: (" ++
        s!"{a.size}, {a.align}) vs ({b.size}, {b.align})"))
    else .ok (.byte ⟨a.size, a.align⟩)
  | .struct fs totalSize align, .struct gs totalSize' align' => do
    let r1 := .struct fs totalSize align
    let r2 := .struct gs totalSize' align'
    if fs.length ≠ gs.length then
      throw (.incompatibleRepD r1 r2
        s!"struct field count mismatch: {fs.length} vs {gs.length}")
    let fields ← unifyFields (fun a b => .incompatibleRepD r1 r2
      s!"struct field offset mismatch: {a} vs {b}") fs gs
    return .struct fields totalSize align
  | .array element count, .array element' count2 => do
    if count ≠ count2 then
      throw (.incompatibleRepD (.array element count) (.array element' count2)
        s!"array count mismatch: {count} vs {count2}")
    let element ← unifyRepd element element'
    return .array element count
  | .enum vs, .enum ws => do
    if vs.length ≠ ws.length then
      throw (.incompatibleRepD (.enum vs) (.enum ws)
        s!"enum variant count mismatch: {vs.length} vs {ws.length}")
    let variants ← unifyFields (fun a b => .incompatibleRepD (.enum vs) (.enum ws)
      s!"enum tag mismatch: {a} vs {b}") vs ws
    return .enum variants
  | .ptr pointee, .ptr pointee' => do
    let pointee ← unifyRepd pointee pointee'
    return .ptr pointee
  | .union as maxSize maxAlign, .union bs maxSize' maxAlign' => do
    if as.length ≠ bs.length then
      throw (.incompatibleRepD (.union as maxSize maxAlign) (.union bs maxSize' maxAlign')
        s!"union alternative count mismatch: {as.length} vs {bs.length}")
    let alternatives ← unifyReps as bs
    return .union alternatives maxSize maxAlign
  | .func ps result, .func qs result' => do
    if ps.length ≠ qs.length then
      throw (.incompatibleRepD (.func ps result) (.func qs result')
        s!"function param count mismatch: {ps.length} vs {qs.length}")
    let params ← unifyReps ps qs
    let result ← unifyRepd result result'
    return .func params result
  | .generic _ _, r2 => .ok r2
  | r1, .generic _ _ => .ok r1
  | r1, r2 => .error (.incompatibleRepD r1 r2 "different RepD constructors")

/-- The pairs of two lists of equal length, one after the other. -/
def unifyFields (mismatch : UInt64 → UInt64 → UnificationError) :
    List (UInt64 × RepD Finset) → List (UInt64 × RepD Finset) →
      Except UnificationError (List (UInt64 × RepD Finset))
  | (off, rep) :: fs, (off', rep') :: fs' => do
    if off ≠ off' then
      throw (mismatch off off')
    let rep ← unifyRepd rep rep'
    let fields ← unifyFields mismatch fs fs'
    return (off, rep) :: fields
  | _, _ => .ok []

def unifyReps : List (RepD Finset) → List (RepD Finset) →
    Except UnificationError (List (RepD Finset))
  | rep :: rs, rep' :: rs' => do
    let rep ← unifyRepd rep rep'
    let reps ← unifyReps rs rs'
    return rep :: reps
  | _, _ => .ok []

end

def unifyCapd (c1 c2 : CapD Finset) : Except UnificationError (CapD Finset) :=
  let result := c1.meet c2
  if c1.caps ≠ ∅ ∧ c2.caps ≠ ∅ ∧ result.caps = ∅ then .error (.incompatibleCapD c1 c2)
  else .ok result

def unifyReld (r1 r2 : RelD Finset) : Except UnificationError (RelD Finset) :=
  let merged := r1.merge r2
  if merged.isConsistent then .ok merged else .error (.inconsistentRelD r1 r2)

def unify (bd1 bd2 : BD Finset) : Except UnificationError (BD Finset) := do
  let repd ← unifyRepd bd1.repd bd2.repd
  let capd ← unifyCapd bd1.capd bd2.capd
  let reld ← unifyReld bd1.reld bd2.reld
  return ⟨repd, capd, reld⟩

/-! ## Substitutions -/

/-- `HashMap<BDVariable, BDTerm>`, the latest binding first. -/
abbrev Subst := List (BDVariable × BDTerm)

/-- At most `fuel` steps of `substitute_term`. -/
def substituteTermFuel (subst : Subst) : Nat → BDTerm → BDTerm
  | _, .concrete bd => .concrete bd
  | 0, .var v => .var v
  | fuel + 1, .var v =>
    match subst.lookup v with
    | some resolved => substituteTermFuel subst fuel resolved
    | none => .var v

/-- `substitute_term`; a chain of variables is no longer than the substitution. -/
def substituteTerm (term : BDTerm) (subst : Subst) : BDTerm :=
  substituteTermFuel subst subst.length term

/-- At most `fuel` steps of `occurs_in`. -/
def occursInFuel (var : BDVariable) (subst : Subst) : Nat → BDTerm → Bool
  | _, .concrete _ => false
  | 0, .var v => var = v
  | fuel + 1, .var v =>
    if var = v then true
    else
      match subst.lookup v with
      | some resolved => occursInFuel var subst fuel resolved
      | none => false

def occursIn (var : BDVariable) (term : BDTerm) (subst : Subst) : Bool :=
  occursInFuel var subst subst.length term

/-! ## The solver -/

structure BDSolver where
  subst : Subst

def BDSolver.new : BDSolver := ⟨[]⟩

def BDSolver.resolve (s : BDSolver) (term : BDTerm) : BDTerm := substituteTerm term s.subst

mutual

/-- `unify_terms`. It and `bind_variable` call each other at most `fuel` times. -/
def BDSolver.unifyTermsFuel (s : BDSolver) (fuel : Nat) (t1 t2 : BDTerm) :
    Except UnificationError BDSolver :=
  if t1 = t2 then .ok s
  else
    match t1, t2 with
    | .concrete bd1, .concrete bd2 => do
      let _ ← unify bd1 bd2
      return s
    | .var v, right => s.bindVariableFuel fuel v right
    | left, .var v => s.bindVariableFuel fuel v left
termination_by (fuel, 1)

/-- `bind_variable`. -/
def BDSolver.bindVariableFuel (s : BDSolver) (fuel : Nat) (var : BDVariable) (term : BDTerm) :
    Except UnificationError BDSolver :=
  if occursIn var term s.subst then .error (.occursCheckFailed var term)
  else
    match s.subst.lookup var, fuel with
    | some existing, fuel + 1 =>
      let existing := s.resolve existing
      let term := s.resolve term
      if existing = term then .ok s else s.unifyTermsFuel fuel existing term
    | some _, 0 => .ok s
    | none, _ => .ok ⟨(var, term) :: s.subst⟩
termination_by (fuel, 0)

end

/-- `unify_terms` of resolved terms binds unbound variables only, so it does not come back to
itself more than once. -/
def BDSolver.unifyTerms (s : BDSolver) (t1 t2 : BDTerm) : Except UnificationError BDSolver :=
  s.unifyTermsFuel 1 t1 t2

def checkCompatibility (t1 t2 : BDTerm) : Except UnificationError Unit :=
  match t1, t2 with
  | .concrete bd1, .concrete bd2 =>
    if bd1.compatible bd2 then .ok () else .error (.failed "incompatible BDs" t1 t2)
  | _, _ => .ok ()

def checkSubtyping (t1 t2 : BDTerm) : Except UnificationError Unit :=
  match t1, t2 with
  | .concrete bd1, .concrete bd2 =>
    if bd1.refines bd2 then .ok () else .error (.subtypeViolation bd1 bd2)
  | _, _ => .ok ()

/-- `add_constraint`: the solver with the extended substitution. -/
def BDSolver.addConstraint (s : BDSolver) (c : BDConstraint) : Except UnificationError BDSolver :=
  let left := s.resolve c.left
  let right := s.resolve c.right
  match c.kind with
  | .equality => s.unifyTerms left right
  | .compatibility => do
    checkCompatibility left right
    return s
  | .subtyping => do
    checkSubtyping left right
    return s

/-- The loop of `solve`: the last solver and the errors. A constraint that fails leaves the solver
as it was. -/
def BDSolver.process (s : BDSolver) : List BDConstraint → BDSolver × List UnificationError
  | [] => (s, [])
  | c :: cs =>
    match s.addConstraint c with
    | .ok s' => s'.process cs
    | .error e =>
      let (s', errors) := s.process cs
      (s', e :: errors)

/-- The entry for a variable in the map that `solve` returns. -/
def BDSolver.entry (s : BDSolver) (var : BDVariable) : Option (BDVariable × BD Finset) :=
  match s.resolve (.var var) with
  | .concrete bd => some (var, bd)
  | .var _ => none

def BDSolver.solve (s : BDSolver) (cs : List BDConstraint) :
    Except (List UnificationError) (List (BDVariable × BD Finset)) :=
  let (s', errors) := s.process cs
  if errors ≠ [] then .error errors
  else .ok ((s'.subst.map Prod.fst).filterMap s'.entry)

def solveConstraints (cs : List BDConstraint) :
    Except (List UnificationError) (List (BDVariable × BD Finset)) :=
  BDSolver.new.solve cs

end Vuma.Bd.Unify
