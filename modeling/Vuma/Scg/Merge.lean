import Vuma.Scg.Diff

/-!
# Three-way merge

`three_way_merge` of `diff.rs`. The changes of either side relative to the base are collected for
each element and applied to a copy of the base, first those of nodes, then of edges, then of
regions; the results of the single steps are dropped.
-/

namespace Vuma.Scg

open Lib

inductive ElementChange (α : Type) where
  | added (data : α)
  | removed
  | modified (data : α)
  deriving DecidableEq, Repr

namespace ElementChange

variable {α : Type}

/-- `change_to_node_data`, and likewise for edges and regions. -/
def data : ElementChange α → Option α
  | added d | modified d => some d
  | removed => none

end ElementChange

/-- `NodeConflict`, `EdgeConflict` and `RegionConflict`. -/
structure ElementConflict (α : Type) where
  id : UInt64
  base : Option α
  ours : Option α
  theirs : Option α
  deriving DecidableEq

structure MergeConflict where
  nodeConflicts : List (ElementConflict NodeData)
  edgeConflicts : List (ElementConflict EdgeData)
  regionConflicts : List (ElementConflict SCGRegion)

def MergeConflict.isEmpty (c : MergeConflict) : Bool :=
  c.nodeConflicts.isEmpty && c.edgeConflicts.isEmpty && c.regionConflicts.isEmpty

/-! ## Collecting changes -/

/-- The change of a node that an entry stands for. -/
def DiffEntry.nodeChange? : DiffEntry → Option (NodeId × ElementChange NodeData)
  | nodeAdded d => some (d.id, .added d)
  | nodeRemoved id => some (id, .removed)
  | nodeModified id _ new => some (id, .modified new)
  | _ => none

/-- The change of an edge that an entry stands for. -/
def DiffEntry.edgeChange? : DiffEntry → Option (EdgeId × ElementChange EdgeData)
  | edgeAdded d => some (d.id, .added d)
  | edgeRemoved id => some (id, .removed)
  | edgeModified id _ new => some (id, .modified new)
  | _ => none

/-- The change of a region that an entry stands for. -/
def DiffEntry.regionChange? : DiffEntry → Option (RegionId × ElementChange SCGRegion)
  | regionAdded d => some (d.id, .added d)
  | regionRemoved id => some (id, .removed)
  | regionModified id _ new => some (id, .modified new)
  | _ => none

/-- A map of the changes of one sort. -/
def collectChanges {α : Type} (change? : DiffEntry → Option (UInt64 × ElementChange α))
    (entries : List DiffEntry) : HashMap UInt64 (ElementChange α) :=
  (entries.filterMap change?).foldl (fun m p => m.insert p.1 p.2) ∅

def collectNodeChanges : List DiffEntry → HashMap NodeId (ElementChange NodeData) :=
  collectChanges DiffEntry.nodeChange?

def collectEdgeChanges : List DiffEntry → HashMap EdgeId (ElementChange EdgeData) :=
  collectChanges DiffEntry.edgeChange?

def collectRegionChanges : List DiffEntry → HashMap RegionId (ElementChange SCGRegion) :=
  collectChanges DiffEntry.regionChange?

/-! ## Applying changes -/

def applyNodeChange (g : SCG) (id : NodeId) : ElementChange NodeData → SCG
  | .added data =>
    if (g.getNode id).isNone then
      let g' := (g.addNodeWithId data.id data.nodeType data.payload data.programPoint).2
      match data.annotation with
      | some ann => g'.modifyNode id fun node => { node with annotation := some ann }
      | none => g'
    else g
  | .removed => (g.removeNode id).2
  | .modified data =>
    g.updateNode id data.nodeType data.annotation data.programPoint data.payload

def applyEdgeChange (g : SCG) (id : EdgeId) : ElementChange EdgeData → SCG
  | .added data =>
    if (g.getEdge id).isNone then
      let g' := (g.addEdgeWithId data.id data.source data.target data.kind).2
      match data.label with
      | some label => g'.modifyEdge id fun edge => { edge with label := some label }
      | none => g'
    else g
  | .removed => (g.removeEdge id).2
  | .modified data => g.updateEdge id data.kind data.label

def applyRegionChange (g : SCG) (id : RegionId) : ElementChange SCGRegion → SCG
  | .added data => if (g.getRegion id).isNone then g.addRegion data else g
  | .removed => g.removeRegion id
  | .modified data => g.updateRegion id data

/-- The loop over the changed elements of one sort: a change of one side, or the same change of
both, is applied, and different changes are a conflict. -/
def mergeChanges {α : Type} [DecidableEq α] (apply : SCG → UInt64 → ElementChange α → SCG)
    (base : UInt64 → Option α) (ours theirs : HashMap UInt64 (ElementChange α))
    (ids : List UInt64) (merged : SCG) : SCG × List (ElementConflict α) :=
  ids.foldl (fun (merged, conflicts) id =>
    match ours.lookup id, theirs.lookup id with
    | none, none => (merged, conflicts)
    | some oc, none => (apply merged id oc, conflicts)
    | none, some tc => (apply merged id tc, conflicts)
    | some oc, some tc =>
      if oc = tc then (apply merged id oc, conflicts)
      else (merged, conflicts ++ [⟨id, base id, oc.data, tc.data⟩])) (merged, [])

/-- The elements that some side has changed. -/
def changedIds {α : Type} (ours theirs : HashMap UInt64 (ElementChange α)) : List UInt64 :=
  (ours.keys ++ theirs.keys).dedup

/-- The orders of the hash sets in a merge. -/
structure MergeIteration where
  ours : Iteration
  theirs : Iteration
  merge : Iteration

def threeWayMerge (it : MergeIteration) (base ours theirs : SCG) : Outcome MergeConflict SCG := do
  let diffOurs ← diffScg it.ours base ours
  let diffTheirs ← diffScg it.theirs base theirs
  let oursNodeChanges := collectNodeChanges diffOurs
  let theirsNodeChanges := collectNodeChanges diffTheirs
  let (merged, nodeConflicts) := mergeChanges applyNodeChange base.getNode oursNodeChanges
    theirsNodeChanges (it.merge.order 0 (changedIds oursNodeChanges theirsNodeChanges)) base
  let oursEdgeChanges := collectEdgeChanges diffOurs
  let theirsEdgeChanges := collectEdgeChanges diffTheirs
  let (merged, edgeConflicts) := mergeChanges applyEdgeChange base.getEdge oursEdgeChanges
    theirsEdgeChanges (it.merge.order 1 (changedIds oursEdgeChanges theirsEdgeChanges)) merged
  let oursRegionChanges := collectRegionChanges diffOurs
  let theirsRegionChanges := collectRegionChanges diffTheirs
  let (merged, regionConflicts) := mergeChanges applyRegionChange base.getRegion oursRegionChanges
    theirsRegionChanges (it.merge.order 2 (changedIds oursRegionChanges theirsRegionChanges)) merged
  let conflict : MergeConflict := ⟨nodeConflicts, edgeConflicts, regionConflicts⟩
  if conflict.isEmpty then .ok merged else .err conflict

end Vuma.Scg
