import Vuma.Opt.AliasAnalysis
import Vuma.Opt.DeadCode

/-!
# Loop-invariant code motion

`licm` of `opt.rs` finds loops by the back edges of the block layout, and moves instructions of the
header whose operands the loop does not modify to a new block, the preheader, through which the edges
from outside are led.
-/

namespace Vuma.Opt

open IR

def isSafeToSpeculate : IRInstr → Bool
  | .binOp op .. => !(op == .sdiv || op == .udiv || op == .srem || op == .urem)
  | .div .. | .load .. | .store .. | .atomicLoad .. | .atomicStore .. | .atomicCas .. | .call ..
  | .syscall .. | .free _ | .alloc .. | .ret _ | .branch _ | .condBranch .. => false
  | .channelOpen .. | .channelSend .. | .channelRecv .. | .channelRecvTimeout ..
  | .channelClose _ => false
  | _ => true

/-! ## Loops -/

/-- A loop: the label of its header, and the labels of its blocks. -/
abbrev Loop := String × List String

/-- The predecessors recorded in the block with the given label. -/
def predsOf (f : IRFunction) (label : String) : List String :=
  match f.labelToIdx label with
  | some i => ((f.blocks[i]?).map (·.predecessors)).getD []
  | none => []

/-- One round of the search for the blocks of a loop: the stack and the blocks found. -/
def loopBodyStep (f : IRFunction) : List String × List String → List String × List String
  | ([], body) => ([], body)
  | (label :: stack, body) =>
    if body.contains label then (stack, body) else (predsOf f label ++ stack, label :: body)

/-- The number of rounds the search can take: each block is expanded once. -/
def loopBodyFuel (f : IRFunction) : Nat := 1 + (f.blocks.map (·.predecessors.length)).sum

/-- The header and all blocks from which the source of the back edge can be reached without going
through the header. -/
def naturalLoop (f : IRFunction) (header source : String) : List String :=
  ((loopBodyStep f)^[loopBodyFuel f] ([source], [header])).2

/-- The back edges, as header and source: edges to a block that is not later in the layout. -/
def backEdges (f : IRFunction) : List (String × String) :=
  f.blocks.zipIdx.flatMap fun (b, i) => b.successors.filterMap fun s =>
    match f.labelToIdx s with
    | some j => if j ≤ i then some (s, b.label) else none
    | none => none

/-- Only the first back edge of each header counts. -/
def firstByHeader (edges : List (String × String)) : List (String × String) :=
  edges.foldl (fun seen e => if seen.any (fun s => s.1 == e.1) then seen else seen ++ [e]) []

/-- Merge the body of loop `j` into loop `i` when its header is there. -/
def absorb (loops : List Loop) (i j : Nat) : List Loop :=
  match loops[i]?, loops[j]? with
  | some li, some lj =>
    if i ≠ j ∧ li.2.contains lj.1 then
      loops.set i (li.1, li.2 ++ lj.2.filter (fun l => !li.2.contains l))
    else loops
  | _, _ => loops

/-- One round of the `while changed` loop. -/
def mergeRound (loops : List Loop) : List Loop :=
  ((List.range loops.length).product (List.range loops.length)).foldl
    (fun ls p => absorb ls p.1 p.2) loops

/-- The number of rounds after which nothing can change. -/
def mergeFuel (loops : List Loop) : Nat := loops.length * (loops.flatMap (·.2)).length

def findNaturalLoops (f : IRFunction) : List Loop :=
  let loops := (firstByHeader (backEdges f)).map fun e => (e.1, naturalLoop f e.1 e.2)
  mergeRound^[mergeFuel loops] loops

/-- `nested_headers`: the headers that lie in the body of another loop. -/
def nestedHeaders (loops : List Loop) : List String :=
  loops.zipIdx.flatMap fun (li, i) =>
    (loops.zipIdx.filter fun (lj, j) => i != j && li.2.contains lj.1).map fun (lj, _) => lj.1

/-- The loops that are processed, in order: the outermost ones, the last header first. -/
def sortedLoops (f : IRFunction) : List Loop :=
  let loops := findNaturalLoops f
  (loops.insertionSort (fun a b =>
    (f.labelToIdx b.1).getD 0 ≤ (f.labelToIdx a.1).getD 0)).filter
      (fun l => !(nestedHeaders loops).contains l.1)

/-! ## The instructions to move -/

section

variable (f : IRFunction) (l : Loop)

/-- The registers that the blocks of the loop define. -/
def loopModified : List VReg :=
  (f.blocks.filter (fun b => l.2.contains b.label)).flatMap fun b =>
    b.instructions.flatMap IRInstr.definedRegs

/-- The parameters, and the registers that the other blocks define. -/
def outsideDefs : List VReg :=
  f.params.filterMap IRValue.asRegister ++
    (f.blocks.filter (fun b => !l.2.contains b.label)).flatMap fun b =>
      b.instructions.flatMap IRInstr.definedRegs

/-- The instructions of the loop that count as writing memory. -/
def loopStores : List IRInstr :=
  ((f.blocks.filter (fun b => l.2.contains b.label)).flatMap (·.instructions)).filter fun
    | .store .. | .atomicStore .. | .call .. => true
    | _ => false

def isHoistableLoad : IRInstr → Bool
  | .load _ addr _ _ =>
    (loopStores f l).all fun
      | .store _ storeAddr _ _ | .atomicStore _ storeAddr _ =>
        !(analyzeAliases f).valuesMayAlias addr storeAddr
      | _ => false
  | _ => false

/-- The instructions that may be moved if their operands are invariant. -/
def isHoistable (i : IRInstr) : Bool :=
  !i.isPhi && (isHoistableLoad f l i || (!hasSideEffects i && isSafeToSpeculate i))

/-- Go through the instructions of the header and mark those to move. -/
def markInvariant : List VReg → List IRInstr → List (IRInstr × Bool)
  | _, [] => []
  | outside, i :: is =>
    if isHoistable f l i &&
        i.usedRegs.all (fun r => outside.contains r && !(loopModified f l).contains r) then
      (i, true) :: markInvariant (outside ++ i.definedRegs) is
    else (i, false) :: markInvariant outside is

end

/-- The marked instructions. -/
def moved (ms : List (IRInstr × Bool)) : List IRInstr := (ms.filter (·.2)).map Prod.fst

/-- The instructions that stay. -/
def kept (ms : List (IRInstr × Bool)) : List IRInstr := (ms.filter (!·.2)).map Prod.fst

/-! ## The preheader -/

def redirectTerminator (source target : String) : IRTerminator → IRTerminator
  | .jump t => .jump (if t = source then target else t)
  | .branch cond t f =>
    .branch cond (if t = source then target else t) (if f = source then target else f)
  | .switch discr targets default =>
    .switch discr (targets.map fun e => (e.1, if e.2 = source then target else e.2))
      (if default = source then target else default)
  | t => t

/-- The instruction-level branches are redirected with the terminator. -/
def redirectBranch (source target : String) : IRInstr → IRInstr
  | .branch t => .branch (if t = source then target else t)
  | .condBranch cond t f =>
    .condBranch cond (if t = source then target else t) (if f = source then target else f)
  | i => i

/-- The block is outside of the loop and its terminator leads to the header. -/
def isRedirected (l : Loop) (b : IRBlock) : Bool :=
  !l.2.contains b.label && b.terminator.successorLabels.contains l.1

/-- `format!("preheader_{}", header_label)`. -/
def preheaderLabel (header : String) : String := "preheader_" ++ header

/-- Lead the edges of a block other than the header through the preheader. -/
def redirectBlock (l : Loop) (b : IRBlock) : IRBlock :=
  if isRedirected l b then
    { b with
      instructions := b.instructions.map (redirectBranch l.1 (preheaderLabel l.1))
      terminator := redirectTerminator l.1 (preheaderLabel l.1) b.terminator }
  else b

/-- The value a phi takes from the preheader: that of the last redirected predecessor. -/
def preheaderVal (redirected : List String) (incoming : List (IRValue × String)) :
    Option IRValue :=
  ((incoming.filter (fun e => redirected.contains e.2)).getLast?).map Prod.fst

/-- The entries of the redirected predecessors become one entry for the preheader. -/
def mergePhi (redirected : List String) (preheader : String) : IRInstr → IRInstr
  | .phi dst incoming =>
    .phi dst (incoming.filter (fun e => !redirected.contains e.2) ++
      ((preheaderVal redirected incoming).map (·, preheader)).toList)
  | i => i

/-- Only the leading phis are updated. -/
def mergePhis (redirected : List String) (preheader : String) (is : List IRInstr) : List IRInstr :=
  (is.takeWhile IRInstr.isPhi).map (mergePhi redirected preheader) ++ is.dropWhile IRInstr.isPhi

/-- The labels of the redirected predecessors. -/
def redirectedPreds (l : Loop) (bs : List IRBlock) : List String :=
  (bs.filter (isRedirected l)).map (·.label)

/-- Process one loop. -/
def licmLoop (f : IRFunction) (l : Loop) : IRFunction :=
  let before := f.blocks.takeWhile (fun b => b.label != l.1)
  match f.blocks.dropWhile (fun b => b.label != l.1) with
  | [] => f
  | header :: after =>
    let ms := markInvariant f l (outsideDefs f l) header.instructions
    if (moved ms).isEmpty then f
    else
      let preheader : IRBlock :=
        { label := preheaderLabel l.1, instructions := moved ms, terminator := .jump l.1 }
      let header' :=
        { header with
          instructions :=
            mergePhis (redirectedPreds l (before ++ after)) (preheaderLabel l.1) (kept ms) }
      { f with
        blocks := before.map (redirectBlock l) ++ preheader :: header' ::
          after.map (redirectBlock l) }

def licm (f : IRFunction) : IRFunction :=
  let f := f.rebuildCfg
  ((sortedLoops f).foldl licmLoop f).rebuildCfg

end Vuma.Opt
