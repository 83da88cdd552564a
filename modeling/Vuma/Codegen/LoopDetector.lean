import Vuma.IR.Syntax

/-!
# Detecting loops

`LoopDetector` of `regalloc.rs`. The dominators of the blocks are found by iteration: in each
round, a block gets as its immediate dominator the closest common ancestor, in the tree found so
far, of its predecessors that have one. An edge to an earlier block that dominates its source is a
back edge. The depth of a loop is the number of other loops that contain its header, and the depth
of a block that of its innermost loop, counted from one.

Blocks are their indices; an edge leads to the last block with its label. A loop that has not come
to its end when the fuel is used up gives `none`. Depths (`u32`) are natural numbers.
-/

namespace Vuma.Codegen

open IR

/-- `LoopInfo`, without the induction variables, which `detect` leaves empty. -/
structure LoopInfo where
  header : String
  latch : String
  blocks : Finset String
  depth : Nat
  deriving DecidableEq

namespace LoopDetector

/-- The edges between blocks, in the order of the two loops over blocks and successor labels. -/
def edges (f : IRFunction) : List (Nat × Nat) :=
  f.blocks.zipIdx.flatMap fun (block, idx) =>
    (block.terminator.successorLabels.filterMap f.labelToIdx).map (idx, ·)

/-- `pred_map[b]`; a predecessor with two edges to `b` stands in it twice. -/
def predMap (f : IRFunction) (b : Nat) : List Nat :=
  ((edges f).filter (·.2 = b)).map Prod.fst

/-! ## Dominators -/

/-- `doms`, during the iteration. -/
abbrev Doms := Nat → Option Nat

/-- The first loop of `intersect`, which collects `path1`. -/
def pathUp (doms : Doms) : Nat → Nat → Option (List Nat)
  | 0, _ => none
  | fuel + 1, finger1 =>
    match doms finger1 with
    | some d => if d = finger1 then some [finger1] else (pathUp doms fuel d).map (finger1 :: ·)
    | none => some [finger1]

/-- The second loop of `intersect`. -/
def meetUp (doms : Doms) (path1 : List Nat) : Nat → Nat → Option Nat
  | 0, _ => none
  | fuel + 1, finger2 =>
    if path1.contains finger2 then some finger2
    else
      match doms finger2 with
      | some d => if d = finger2 then some 0 else meetUp doms path1 fuel d
      | none => some 0

def intersect (doms : Doms) (fuel b1 b2 : Nat) : Option Nat := do
  let path1 ← pathUp doms fuel b1
  meetUp doms path1 fuel b2

/-- One predecessor of the second loop over the predecessors. -/
def intersectStep (doms : Doms) (fuel newIdom pred : Nat) : Option Nat :=
  match doms pred with
  | none => some newIdom
  | some _ => intersect doms fuel pred newIdom

/-- One block of a round. -/
def visit (f : IRFunction) (s : Doms × Bool) (b : Nat) : Option (Doms × Bool) :=
  match (predMap f b).find? (fun pred => (s.1 pred).isSome) with
  | none => some s
  | some first => do
    let newIdom ← (predMap f b).foldlM (intersectStep s.1 f.blocks.length) first
    if s.1 b = some newIdom then some s
    else some (Function.update s.1 b (some newIdom), true)

/-- One round, over all blocks but the entry. -/
def round (f : IRFunction) (doms : Doms) : Option (Doms × Bool) :=
  (List.range' 1 (f.blocks.length - 1)).foldlM (visit f) (doms, false)

/-- `while changed`. -/
def iterate (f : IRFunction) : Nat → Doms → Option Doms
  | 0, _ => none
  | fuel + 1, doms => do
    let (doms', changed) ← round f doms
    if changed then iterate f fuel doms' else some doms'

def computeDominators (f : IRFunction) : Option (List Nat) :=
  if f.blocks = [] then some []
  else do
    let doms ← iterate f f.blocks.length (Function.update (fun _ => none) 0 (some 0))
    some ((List.range f.blocks.length).map fun b => (doms b).getD 0)

/-- The walk of `dominates`, for so many steps. -/
def walkUp (doms : List Nat) (a : Nat) : Nat → Nat → Bool
  | 0, current => current == a
  | steps + 1, current =>
    if current = a then true
    else if doms.getD current 0 = current then current == a
    else walkUp doms a steps (doms.getD current 0)

def dominates (doms : List Nat) (a b : Nat) : Bool :=
  if a = b then true else walkUp doms a doms.length b

/-! ## Loops -/

/-- `back_edges`, as latch and header. -/
def backEdges (f : IRFunction) (doms : List Nat) : List (Nat × Nat) :=
  (edges f).filter fun (idx, succIdx) => succIdx ≤ idx && dominates doms succIdx idx

/-- The search for the blocks of a loop. The last element of the worklist comes first. -/
def loopBody (f : IRFunction) (headerIdx : Nat) :
    Nat → List Nat → Finset String → Option (Finset String)
  | _, [], loopBlocks => some loopBlocks
  | 0, _ :: _, _ => none
  | fuel + 1, b :: worklist, loopBlocks =>
    if b = headerIdx then loopBody f headerIdx fuel worklist loopBlocks
    else if f.labelAt b ∈ loopBlocks then loopBody f headerIdx fuel worklist loopBlocks
    else
      loopBody f headerIdx fuel ((predMap f b).reverse ++ worklist)
        (insert (f.labelAt b) loopBlocks)

/-- The loop of a back edge. -/
def loopOf (f : IRFunction) (e : Nat × Nat) : Option LoopInfo := do
  let blocks ← loopBody f e.2 (1 + (edges f).length) [e.1] {f.labelAt e.2}
  some ⟨f.labelAt e.2, f.labelAt e.1, blocks, 0⟩

/-- The number of other loops that contain the header of the loop at `i`. -/
def nestingDepth (loops : List LoopInfo) (i : Nat) (l : LoopInfo) : Nat :=
  loops.zipIdx.countP fun (m, j) => i ≠ j ∧ l.header ∈ m.blocks

def detect (f : IRFunction) : Option (List LoopInfo) := do
  let doms ← computeDominators f
  let loops ← (backEdges f doms).mapM (loopOf f)
  let loops := loops.zipIdx.map fun (l, i) => { l with depth := nestingDepth loops i l }
  some (loops.insertionSort fun l m => l.depth ≤ m.depth)

end LoopDetector

/-! ## Depths of blocks -/

abbrev BlockLoopDepthMap := String → Option Nat

/-- One loop: every block in it gets at least the depth of the loop, counted from one. -/
def deepen (depths : BlockLoopDepthMap) (l : LoopInfo) : BlockLoopDepthMap := fun label =>
  if label ∈ l.blocks then some (max ((depths label).getD 0) (l.depth + 1)) else depths label

/-- The depths before the first loop. -/
def zeroDepths (f : IRFunction) : BlockLoopDepthMap := fun label =>
  if f.blocks.any (·.label = label) then some 0 else none

def computeBlockLoopDepths (f : IRFunction) : Option BlockLoopDepthMap := do
  let loops ← LoopDetector.detect f
  some (loops.foldl deepen (zeroDepths f))

end Vuma.Codegen
