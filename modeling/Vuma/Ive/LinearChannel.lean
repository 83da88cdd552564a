import Vuma.Lib.HashMap

/-!
# Linear channels

The linear channel gate of `borrow_region.rs`. It scans the events of a function once, with a stack
of frames for the branches that are not joined yet.
-/

namespace Vuma.Ive

open Lib

inductive ChannelLifecycle where
  | opened
  | closed
  deriving DecidableEq, Repr

inductive ChannelEventKind where
  | openChannel
  | use
  | close
  | branch
  | join
  | elseStart
  | functionExit
  deriving DecidableEq, Repr

structure ChannelEvent where
  vreg : String
  kind : ChannelEventKind
  atNode : Nat
  deriving DecidableEq, Repr

/-- `LinearVerification`, by the message that it carries. -/
inductive LinearVerification where
  | reopened (vreg : String) (atNode : Nat)
  | useUninitialized (vreg : String) (atNode : Nat)
  | useAfterClose (vreg : String) (atNode : Nat)
  | closeUninitialized (vreg : String) (atNode : Nat)
  | doubleClose (vreg : String) (atNode : Nat)
  | closedOnOnePath (vreg : String)
  | openAtExit (vreg : String)
  deriving DecidableEq, Repr

abbrev HandleState := HashMap String ChannelLifecycle

structure BranchFrame where
  snapshot : HandleState
  thenState : Option HandleState
  thenReturned : Bool

/-- The variables of the scan; the top of the stack is the head of the list. -/
structure Gate where
  state : HandleState
  results : List LinearVerification
  branchStack : List BranchFrame

namespace Gate

def push (g : Gate) (v : LinearVerification) : Gate := { g with results := g.results ++ [v] }

/-- A handle at the join of two branches that fell through. -/
def mergeHandle (thenState : HandleState) (g : Gate) (vreg : String) : Gate :=
  let thenClosed : Bool := thenState.lookup vreg = some .closed
  let elseClosed : Bool := g.state.lookup vreg = some .closed
  match thenClosed, elseClosed with
  | true, true => { g with state := g.state.insert vreg .closed }
  | true, false | false, true =>
    { g.push (.closedOnOnePath vreg) with state := g.state.insert vreg .opened }
  | false, false => { g with state := g.state.insert vreg .opened }

/-- A handle at the join of a branch without `else`. -/
def resetHandle (snapshot : HandleState) (state : HandleState) (vreg : String) : HandleState :=
  if state.lookup vreg = some .closed ∧ snapshot.lookup vreg ≠ some .closed then
    state.insert vreg .opened
  else state

/-- The arm for `Branch`. -/
def branch (g : Gate) : Gate :=
  { g with branchStack := ⟨g.state, none, false⟩ :: g.branchStack }

/-- The arm for `ElseStart`. -/
def elseStart (g : Gate) : Gate :=
  match g.branchStack with
  | [] => g
  | frame :: branchStack =>
    { g with
      state := frame.snapshot
      branchStack := { frame with thenState := some g.state } :: branchStack }

/-- The arm for `Join`. -/
def join (it : KeyOrder String) (g : Gate) : Gate :=
  match g.branchStack with
  | [] => g
  | frame :: branchStack =>
    let g := { g with branchStack }
    if frame.thenReturned then g
    else
      match frame.thenState with
      | some thenState =>
        (it.order (g.state.keys ++ thenState.keys).dedup).foldl (mergeHandle thenState) g
      | none =>
        { g with state := (it.order g.state.keys).foldl (resetHandle frame.snapshot) g.state }

/-- The handles that are open at an exit. -/
def leaks (it : KeyOrder String) (state : HandleState) : List LinearVerification :=
  (it.order state.keys).filterMap fun vreg =>
    if state.lookup vreg = some .opened then some (.openAtExit vreg) else none

/-- The arm for `FunctionExit`. -/
def functionExit (it : KeyOrder String) (g : Gate) : Gate :=
  let g := { g with results := g.results ++ leaks it g.state }
  match g.branchStack with
  | [] => g
  | frame :: branchStack =>
    if frame.thenState.isNone then
      { g with
        state := frame.snapshot
        branchStack := { frame with thenState := some g.state, thenReturned := true } ::
          branchStack }
    else g

/-- The body of the loop. -/
def event (it : KeyOrder String) (g : Gate) (e : ChannelEvent) : Gate :=
  match e.kind with
  | .openChannel =>
    let g' := if g.state.lookup e.vreg = some .opened then g.push (.reopened e.vreg e.atNode) else g
    { g' with state := g.state.insert e.vreg .opened }
  | .use =>
    match g.state.lookup e.vreg with
    | none => g.push (.useUninitialized e.vreg e.atNode)
    | some .closed => g.push (.useAfterClose e.vreg e.atNode)
    | some .opened => g
  | .close =>
    match g.state.lookup e.vreg with
    | none => g.push (.closeUninitialized e.vreg e.atNode)
    | some .closed => g.push (.doubleClose e.vreg e.atNode)
    | some .opened => { g with state := g.state.insert e.vreg .closed }
  | .branch => g.branch
  | .elseStart => g.elseStart
  | .join => g.join it
  | .functionExit => g.functionExit it

end Gate

def verifyLinearChannels (it : KeyOrder String) (events : List ChannelEvent) :
    List LinearVerification :=
  let sorted := events.mergeSort fun e e' => e.atNode ≤ e'.atNode
  (sorted.foldl (Gate.event it) ⟨∅, [], []⟩).results

/-! ## Programs -/

/-- An operation on a channel. -/
inductive ChannelOp where
  | openChannel
  | use
  | close
  deriving DecidableEq, Repr

def ChannelOp.kind : ChannelOp → ChannelEventKind
  | openChannel => .openChannel
  | use => .use
  | close => .close

/-- The statements of a block, as far as channels are concerned. -/
inductive Block where
  | nil
  | op (o : ChannelOp) (vreg : String) (rest : Block)
  | ifThen (thenBlock rest : Block)
  | ifElse (thenBlock elseBlock rest : Block)
  | ret (rest : Block)
  deriving DecidableEq, Repr

/-- The events of a block, as the pipeline gives them for the nodes of the graph. -/
def Block.events : Block → List (String × ChannelEventKind)
  | nil => []
  | op o vreg rest => (vreg, o.kind) :: rest.events
  | ifThen thenBlock rest => ("", .branch) :: (thenBlock.events ++ ("", .join) :: rest.events)
  | ifElse thenBlock elseBlock rest => ("", .branch) ::
      (thenBlock.events ++ ("", .elseStart) :: (elseBlock.events ++ ("", .join) :: rest.events))
  | ret rest => ("", .functionExit) :: rest.events

/-- The events of a function with its epilogue, numbered in program order. -/
def Emits (b : Block) (events : List ChannelEvent) : Prop :=
  events.map (fun e => (e.vreg, e.kind)) = b.events ++ [("", .functionExit)] ∧
    (events.map ChannelEvent.atNode).Pairwise (· ≤ ·)

end Vuma.Ive
