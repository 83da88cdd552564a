import Vuma.Lib.HashMap

/-!
# Session types

The session type checker of `session_type.rs`. The events of all channels are gone through in the
order of their nodes, and a map holds the type that remains for every channel with an open session.
-/

namespace Vuma.Ive

open Lib

inductive SessionType where
  | ended
  | send (t : String) (s : SessionType)
  | recv (t : String) (s : SessionType)
  | choice (s₁ s₂ : SessionType)
  | offer (s₁ s₂ : SessionType)
  | recur (body : SessionType)
  | var (n : UInt32)
  deriving DecidableEq, Repr

/-- Replaces the variable `Var(depth)`, and lowers the variables above it. -/
def substitute (ty : SessionType) (depth : UInt32) (replacement : SessionType) : SessionType :=
  match ty with
  | .ended => .ended
  | .send t s => .send t (substitute s depth replacement)
  | .recv t s => .recv t (substitute s depth replacement)
  | .choice s₁ s₂ => .choice (substitute s₁ depth replacement) (substitute s₂ depth replacement)
  | .offer s₁ s₂ => .offer (substitute s₁ depth replacement) (substitute s₂ depth replacement)
  | .recur s => .recur (substitute s (depth + 1) replacement)
  | .var n => if n = depth then replacement else if depth < n then .var (n - 1) else .var n

namespace SessionType

/-- One level of recursion is unfolded. -/
def unfold : SessionType → SessionType
  | recur body => substitute body 0 (recur body)
  | other => other

end SessionType

inductive SessionEventKind where
  | openSession (vreg : UInt32) (sessionType : SessionType)
  | send (vreg : UInt32) (msgType : String)
  | recv (vreg : UInt32) (expectedType : String)
  | close (vreg : UInt32)
  deriving DecidableEq, Repr

structure SessionEvent where
  kind : SessionEventKind
  atNode : Nat
  deriving DecidableEq, Repr

/-- `SessionViolation`, by the message that it carries. -/
inductive SessionViolation where
  | alreadyActive (atNode : Nat) (vreg : UInt32)
  | noSession (isSend : Bool) (atNode : Nat) (vreg : UInt32)
  | typeMismatch (isSend : Bool) (atNode : Nat) (vreg : UInt32) (expected got : String)
  | noBranch (isSend : Bool) (atNode : Nat) (vreg : UInt32) (msgType : String)
  | unexpected (isSend : Bool) (atNode : Nat) (vreg : UInt32) (other : SessionType)
  | closeNoSession (atNode : Nat) (vreg : UInt32)
  | closeIncomplete (atNode : Nat) (vreg : UInt32) (other : SessionType)
  | incomplete (vreg : UInt32) (st : SessionType)
  deriving DecidableEq, Repr

/-- The continuation of a branch that starts with the message. -/
def matchBranch (isSend : Bool) (msgType : String) : SessionType → Option SessionType
  | .send t cont => if isSend ∧ t = msgType then some cont else none
  | .recv t cont => if ¬ isSend ∧ t = msgType then some cont else none
  | _ => none

/-- The first branch that starts with the message gives the new state. -/
def tryMatchChoiceBranch (branches : List SessionType) (msgType : String) (atNode : Nat)
    (vreg : UInt32) (results : List SessionViolation) (isSend : Bool) :
    Option SessionType × List SessionViolation :=
  match branches.findSome? (matchBranch isSend msgType) with
  | some newState => (some newState, results)
  | none => (none, results ++ [.noBranch isSend atNode vreg msgType])

/-- The variables of the loop. -/
structure Checker where
  state : HashMap UInt32 SessionType
  results : List SessionViolation

namespace Checker

def push (c : Checker) (v : SessionViolation) : Checker := { c with results := c.results ++ [v] }

/-- The state that a matched branch gives, if there is one. -/
def selectBranch (c : Checker) (vreg : UInt32)
    (matched : Option SessionType × List SessionViolation) : Checker :=
  match matched with
  | (some newState, results) => ⟨c.state.insert vreg newState, results⟩
  | (none, results) => { c with results }

/-- The arms of the loop for `Send` and `Recv`. -/
def message (c : Checker) (isSend : Bool) (vreg : UInt32) (msgType : String) (atNode : Nat) :
    Checker :=
  match isSend, c.state.lookup vreg with
  | _, none => c.push (.noSession isSend atNode vreg)
  | true, some (.send expected cont) | false, some (.recv expected cont) =>
    if expected ≠ msgType then c.push (.typeMismatch isSend atNode vreg expected msgType)
    else { c with state := c.state.insert vreg cont }
  | true, some (.choice s₁ s₂) | false, some (.offer s₁ s₂) =>
    c.selectBranch vreg (tryMatchChoiceBranch [s₁, s₂] msgType atNode vreg c.results isSend)
  | _, some other => c.push (.unexpected isSend atNode vreg other)

/-- The body of the loop. -/
def event (c : Checker) (e : SessionEvent) : Checker :=
  match e.kind with
  | .openSession vreg sessionType =>
    let c' := if (c.state.lookup vreg).isSome then c.push (.alreadyActive e.atNode vreg) else c
    { c' with state := c.state.insert vreg sessionType }
  | .send vreg msgType => c.message true vreg msgType e.atNode
  | .recv vreg expectedType => c.message false vreg expectedType e.atNode
  | .close vreg =>
    match c.state.lookup vreg with
    | none => c.push (.closeNoSession e.atNode vreg)
    | some .ended => { c with state := c.state.erase vreg }
    | some other => c.push (.closeIncomplete e.atNode vreg other)

end Checker

def verifySessionTypes (it : KeyOrder UInt32) (events : List SessionEvent) : List SessionViolation :=
  let sorted := events.mergeSort fun e e' => e.atNode ≤ e'.atNode
  let c := sorted.foldl Checker.event ⟨∅, []⟩
  c.results ++ (it.order c.state.keys).filterMap fun vreg =>
    match c.state.lookup vreg with
    | some st => if st = .ended then none else some (.incomplete vreg st)
    | none => none

end Vuma.Ive
