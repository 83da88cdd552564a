import Vuma.Lib.Collect
import Vuma.Lib.Stable
import Vuma.Scg.Neighbors

/-!
# Liveness on the semantic computation graph

`liveness.rs`: the sets of values that are live at the nodes, by sweeps over all nodes until nothing
changes, and what is read off from them. A node defines its own value and uses the values of the
nodes that data-flow and derivation edges come from.
-/

namespace Vuma.Scg

open Lib

structure LivenessInfo where
  liveIn : Finset NodeId
  liveOut : Finset NodeId
  deriving DecidableEq

def LivenessInfo.empty : LivenessInfo := ⟨∅, ∅⟩

structure LivenessAnalysis where
  liveness : HashMap NodeId LivenessInfo
  iterations : Nat
  converged : Bool

def maxIterations : Nat := 10000

/-- The target of the edge uses the value of its source. -/
def EdgeKind.isUse : EdgeKind → Bool
  | .dataFlow | .derivation => true
  | _ => false

/-- Liveness goes along the edge. -/
def EdgeKind.isFlow : EdgeKind → Bool
  | .controlFlow | .dataFlow | .derivation => true
  | _ => false

namespace SCG

def computeUseSet (g : SCG) (nodeId : NodeId) : Finset NodeId :=
  ((g.edges.filter fun edge => edge.target = nodeId ∧ edge.kind.isUse).map EdgeData.source).toFinset

def computeSuccessorSet (g : SCG) (nodeId : NodeId) : List NodeId :=
  ((g.successors nodeId).getD []).eraseDups.filter fun succ =>
    g.edges.any fun e => e.source = nodeId ∧ e.target = succ ∧ e.kind.isFlow

/-- The sets that the loop computes for a node. -/
def newInfo (g : SCG) (liveness : HashMap NodeId LivenessInfo) (nodeId : NodeId) : LivenessInfo :=
  let newLiveOut := (g.computeSuccessorSet nodeId).foldl (fun out succ =>
    match liveness.lookup succ with
    | some succInfo => out ∪ succInfo.liveIn
    | none => out) ∅
  ⟨g.computeUseSet nodeId ∪ newLiveOut.erase nodeId, newLiveOut⟩

/-- The body of the loop over the nodes, with the flag `converged`. -/
def livenessStep (g : SCG) (s : HashMap NodeId LivenessInfo × Bool) (nodeId : NodeId) :
    HashMap NodeId LivenessInfo × Bool :=
  let info := g.newInfo s.1 nodeId
  if s.1.lookup nodeId = some info then s else (s.1.insert nodeId info, false)

/-- The loop over the sweeps, of which so many are left. -/
def livenessLoop (g : SCG) (allNodeIds : List NodeId) :
    Nat → HashMap NodeId LivenessInfo → LivenessAnalysis
  | 0, liveness => ⟨liveness, maxIterations, false⟩
  | left + 1, liveness =>
    let (liveness', converged) := allNodeIds.foldl g.livenessStep (liveness, true)
    if converged then ⟨liveness', maxIterations - left, true⟩
    else livenessLoop g allNodeIds left liveness'

/-- `compute_liveness_inner`, for an order of the map of nodes. -/
def computeLivenessInner (it : KeyOrder NodeId) (g : SCG) : LivenessAnalysis :=
  let allNodeIds := it.order g.nodeIds
  if allNodeIds = [] then ⟨∅, 0, true⟩
  else g.livenessLoop allNodeIds maxIterations
    (allNodeIds.foldl (fun liveness nodeId => liveness.insert nodeId .empty) ∅)

def computeLiveness (it : KeyOrder NodeId) (g : SCG) : HashMap NodeId LivenessInfo :=
  (g.computeLivenessInner it).liveness

end SCG

/-! ## Dead code -/

def isPureNode : NodeType → Bool
  | .computation | .cast | .phantom => true
  | _ => false

namespace SCG

/-- One pass over the edges, which marks what marked nodes use. -/
def neededPass (g : SCG) (needed : Finset NodeId) : Finset NodeId :=
  g.edges.foldl (fun needed edge =>
    if edge.kind.isUse ∧ edge.target ∈ needed then insert edge.source needed else needed) needed

/-- The marked nodes when the passes have come to an end: every pass but the last marks the source
of an edge. -/
def needed (g : SCG) : Finset NodeId :=
  untilStable g.neededPass (g.edges.length + 1)
    ((g.nodes.filter fun nodeData => ¬ isPureNode nodeData.nodeType).map NodeData.id).toFinset

def findDeadCode (g : SCG) : List NodeId :=
  ((g.nodes.filter fun nodeData =>
    isPureNode nodeData.nodeType ∧ nodeData.id ∉ g.needed).map NodeData.id).mergeSort (· ≤ ·)

end SCG

/-! ## Use after free -/

structure UseAfterFree where
  allocation : NodeId
  deallocation : NodeId
  violatingUses : Finset NodeId
  deriving DecidableEq

namespace SCG

/-- The successors at whose entry the value is live. -/
def liveSuccessors (g : SCG) (liveness : HashMap NodeId LivenessInfo) (allocId : NodeId)
    (current : NodeId) : List NodeId :=
  ((g.successors current).getD []).filter fun succ =>
    match liveness.lookup succ with
    | some info => allocId ∈ info.liveIn
    | none => false

/-- `collect_violating_uses` and `collect_violating_uses_recursive`: the recursion goes on from
every node that is new, so that its depth is at most the number of the nodes. -/
def collectViolatingUses (g : SCG) (liveness : HashMap NodeId LivenessInfo)
    (allocId deallocId : NodeId) : Finset NodeId :=
  collect (g.liveSuccessors liveness allocId) (g.nodeIds.length + 1) deallocId ∅

/-- The violation that a node gives, if it is a deallocation. -/
def useAfterFreeAt (g : SCG) (liveness : HashMap NodeId LivenessInfo) (nodeData : NodeData) :
    Option UseAfterFree :=
  match nodeData.payload with
  | .deallocation dealloc =>
    match liveness.lookup nodeData.id with
    | some info =>
      if dealloc.allocationNode ∈ info.liveOut then
        some ⟨dealloc.allocationNode, nodeData.id,
          g.collectViolatingUses liveness dealloc.allocationNode nodeData.id⟩
      else none
    | none => none
  | _ => none

def findUseAfterFree (g : SCG) (liveness : HashMap NodeId LivenessInfo) : List UseAfterFree :=
  (g.nodes.filterMap (g.useAfterFreeAt liveness)).mergeSort fun v w =>
    v.deallocation ≤ w.deallocation

end SCG

end Vuma.Scg
