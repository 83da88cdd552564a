import Vuma.Scg.Graph

/-!
# Differences of graphs

`diff_scg`, `apply_diff` and `apply_entry` of `diff.rs`. The differences of two sets of identifiers
are iterated over in the order of a hash set, so each loop takes an arbitrary order.
-/

namespace Vuma.Scg

open Lib

inductive DiffEntry where
  | nodeAdded (data : NodeData)
  | nodeRemoved (id : NodeId)
  | nodeModified (id : NodeId) (old new : NodeData)
  | edgeAdded (data : EdgeData)
  | edgeRemoved (id : EdgeId)
  | edgeModified (id : EdgeId) (old new : EdgeData)
  | regionAdded (data : SCGRegion)
  | regionRemoved (id : RegionId)
  | regionModified (id : RegionId) (old new : SCGRegion)

/-- The errors of `DiffError` that applying an entry returns. -/
inductive DiffError where
  | nodeNotFound (id : NodeId)
  | edgeNotFound (id : EdgeId)
  | regionNotFound (id : RegionId)
  | duplicateNode (id : NodeId)
  | duplicateEdge (id : EdgeId)
  | invalidEdgeEndpoints (source target : NodeId)
  deriving DecidableEq, Repr

/-- The orders in which the loops iterate over their hash sets. -/
structure Iteration where
  order : Nat → List UInt64 → List UInt64
  perm : ∀ n l, (order n l).Perm l

def SCG.edgeIds (g : SCG) : List EdgeId := g.edgeIdToIndex.keys

/-- The identifiers of `regions`. -/
def SCG.regionIds (g : SCG) : List RegionId := (g.regions.entries.map fun r => r.2.id).dedup

section Entries

variable {ε α : Type}

/-- The difference of two sets. -/
def onlyIn (ids ids' : List UInt64) : List UInt64 := ids.filter (· ∉ ids')

/-- The intersection of two sets. -/
def inBoth (ids ids' : List UInt64) : List UInt64 := ids.filter (· ∈ ids')

/-- The elements that are in both graphs with different data. -/
def modifiedEntries [DecidableEq α] (entry : UInt64 → α → α → DiffEntry)
    (old new : UInt64 → Option α) (ids : List UInt64) : Outcome ε (List DiffEntry) := do
  let entries ← ids.mapM fun id => do
    let oldData ← Outcome.unwrap (old id)
    let newData ← Outcome.unwrap (new id)
    pure (if oldData ≠ newData then [entry id oldData newData] else [])
  pure entries.flatten

/-- The elements that are only in the new graph. -/
def addedEntries (entry : α → DiffEntry) (new : UInt64 → Option α) (ids : List UInt64) :
    Outcome ε (List DiffEntry) :=
  ids.mapM fun id => do
    let data ← Outcome.unwrap (new id)
    pure (entry data)

def diffScg (it : Iteration) (old new : SCG) : Outcome ε (List DiffEntry) := do
  let nodesRemoved := (it.order 0 (onlyIn old.nodeIds new.nodeIds)).map .nodeRemoved
  let nodesModified ← modifiedEntries .nodeModified old.getNode new.getNode
    (it.order 1 (inBoth old.nodeIds new.nodeIds))
  let edgesRemoved := (it.order 2 (onlyIn old.edgeIds new.edgeIds)).map .edgeRemoved
  let edgesModified ← modifiedEntries .edgeModified old.getEdge new.getEdge
    (it.order 3 (inBoth old.edgeIds new.edgeIds))
  let regionsRemoved := (it.order 4 (onlyIn old.regionIds new.regionIds)).map .regionRemoved
  let regionsModified ← modifiedEntries .regionModified old.getRegion new.getRegion
    (it.order 5 (inBoth old.regionIds new.regionIds))
  let regionsAdded ← addedEntries .regionAdded new.getRegion
    (it.order 6 (onlyIn new.regionIds old.regionIds))
  let edgesAdded ← addedEntries .edgeAdded new.getEdge
    (it.order 7 (onlyIn new.edgeIds old.edgeIds))
  let nodesAdded ← addedEntries .nodeAdded new.getNode
    (it.order 8 (onlyIn new.nodeIds old.nodeIds))
  pure (nodesRemoved ++ nodesModified ++ edgesRemoved ++ edgesModified ++ regionsRemoved ++
    regionsModified ++ regionsAdded ++ edgesAdded ++ nodesAdded)

end Entries

/-- The graph after a call, with another error for the one of the call. -/
def mapErr {α : Type} (r : Outcome SCGError α × SCG) (e : DiffError) : Outcome DiffError SCG :=
  match r.1 with
  | .ok _ => .ok r.2
  | .err _ => .err e
  | .panic => .panic

def applyEntry (g : SCG) : DiffEntry → Outcome DiffError SCG
  | .nodeRemoved id => mapErr (g.removeNode id) (.nodeNotFound id)
  | .nodeAdded data =>
    if (g.getNode data.id).isSome then .err (.duplicateNode data.id)
    else do
      let g' ← mapErr (g.addNodeWithId data.id data.nodeType data.payload data.programPoint)
        (.duplicateNode data.id)
      match data.annotation with
      | some ann => pure (g'.modifyNode data.id fun node => { node with annotation := some ann })
      | none => pure g'
  | .nodeModified id _ new =>
    if (g.getNode id).isSome then
      .ok (g.updateNode id new.nodeType new.annotation new.programPoint new.payload)
    else .err (.nodeNotFound id)
  | .edgeRemoved id => mapErr (g.removeEdge id) (.edgeNotFound id)
  | .edgeAdded data =>
    if (g.getEdge data.id).isSome then .err (.duplicateEdge data.id)
    else if (g.getNode data.source).isNone then
      .err (.invalidEdgeEndpoints data.source data.target)
    else if (g.getNode data.target).isNone then
      .err (.invalidEdgeEndpoints data.source data.target)
    else do
      let g' ← mapErr (g.addEdgeWithId data.id data.source data.target data.kind)
        (.duplicateEdge data.id)
      match data.label with
      | some label => pure (g'.modifyEdge data.id fun edge => { edge with label := some label })
      | none => pure g'
  | .edgeModified id _ new =>
    if (g.getEdge id).isSome then .ok (g.updateEdge id new.kind new.label)
    else .err (.edgeNotFound id)
  | .regionRemoved id => .ok (g.removeRegion id)
  | .regionAdded data =>
    if (g.getRegion data.id).isSome then .err (.regionNotFound data.id)
    else .ok (g.addRegion data)
  | .regionModified id _ new =>
    if (g.getRegion id).isSome then .ok (g.updateRegion id new)
    else .err (.regionNotFound id)

/-- `apply_diff`; the graph is changed in place, up to the first entry that fails. -/
def applyDiff (g : SCG) (entries : List DiffEntry) : Outcome DiffError SCG :=
  entries.foldlM applyEntry g

end Vuma.Scg
