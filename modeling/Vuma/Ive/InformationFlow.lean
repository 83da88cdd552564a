import Vuma.IR.Syntax
import Vuma.Lib.HashMap

/-!
# Information flow

The gate of `information_flow.rs`. One sweep over the instructions of a program, in the order in
which they are written down, collects the stores and sends with the labels of their operands; a
label is secret if the register has a secret name, or if the table of the loads says so.
-/

namespace Vuma.Ive

open Lib IR

inductive SecurityLabel where
  | pub | internal | secret | topSecret
  deriving DecidableEq, Repr

namespace SecurityLabel

def canFlowTo : SecurityLabel → SecurityLabel → Bool
  | pub, _ => true
  | internal, internal | internal, secret | internal, topSecret => true
  | secret, secret | secret, topSecret => true
  | topSecret, topSecret => true
  | _, _ => false

def join : SecurityLabel → SecurityLabel → SecurityLabel
  | pub, x | x, pub => x
  | internal, x | x, internal => x
  | secret, x | x, secret => x
  | topSecret, topSecret => topSecret

/-- The label as it is printed. -/
def display : SecurityLabel → String
  | pub => "Public"
  | internal => "Internal"
  | secret => "Secret"
  | topSecret => "TopSecret"

end SecurityLabel

inductive FlowKind where
  | assign (dstVreg : VReg) (dstLabel srcLabel : SecurityLabel)
  | binOp (dstVreg : VReg) (dstLabel lhsLabel rhsLabel : SecurityLabel)
  | channelSend (channelLabel msgLabel : SecurityLabel)
  | branch (condLabel : SecurityLabel) (branchVarLabels : List SecurityLabel)
  deriving DecidableEq, Repr

structure FlowEvent where
  kind : FlowKind
  atNode : Nat
  deriving DecidableEq, Repr

structure FlowViolation where
  valid : Bool
  error : Option String
  deriving DecidableEq, Repr

/-- The violations of one event. -/
def FlowEvent.violations (e : FlowEvent) : List FlowViolation :=
  match e.kind with
  | .assign dstVreg dstLabel srcLabel =>
    if srcLabel.canFlowTo dstLabel then []
    else
      let (dst, src) := (dstLabel.display, srcLabel.display)
      [⟨false, some (s!"information-flow violation at node {e.atNode}: assignment to vreg " ++
        s!"{dstVreg} (label {dst}) from source with label {src} — {src} ⊀ {dst} (would leak " ++
        s!"{src} data to {dst} location)")⟩]
  | .binOp dstVreg dstLabel lhsLabel rhsLabel =>
    let resultLabel := lhsLabel.join rhsLabel
    if resultLabel.canFlowTo dstLabel then []
    else
      let (dst, result) := (dstLabel.display, resultLabel.display)
      let (lhs, rhs) := (lhsLabel.display, rhsLabel.display)
      [⟨false, some (s!"information-flow violation at node {e.atNode}: binary op result (label " ++
        s!"{result}, from join({lhs},{rhs})) stored in vreg {dstVreg} (label {dst}) — " ++
        s!"{result} ⊀ {dst} (would leak data)")⟩]
  | .channelSend channelLabel msgLabel =>
    if msgLabel.canFlowTo channelLabel then []
    else
      let (channel, msg) := (channelLabel.display, msgLabel.display)
      [⟨false, some (s!"information-flow violation at node {e.atNode}: sending message with " ++
        s!"label {msg} on channel with label {channel} — {msg} ⊀ {channel} (would leak {msg} " ++
        s!"data to {channel} channel)")⟩]
  | .branch condLabel branchVarLabels =>
    branchVarLabels.flatMap fun varLabel =>
      if condLabel.canFlowTo varLabel then []
      else
        let (cond, var) := (condLabel.display, varLabel.display)
        [⟨false, some (s!"implicit information-flow violation at node {e.atNode}: branch on " ++
          s!"condition with label {cond} assigns to variable with label {var} — {cond} ⊀ {var} " ++
          "(implicit leak via control flow)")⟩]

def verifyInformationFlow (events : List FlowEvent) : List FlowViolation :=
  (events.mergeSort fun a b => a.atNode ≤ b.atNode).flatMap FlowEvent.violations

/-! ## Programs -/

def labelOfVreg (secretVars : Finset String) (f : IRFunction) : IRValue → SecurityLabel
  | .register id =>
    match (f.vregs.find? (·.id = id)).bind VirtualRegister.name with
    | some name => if name ∈ secretVars then .secret else .pub
    | none => .pub
  | _ => .pub

/-- The tables and the events of the sweep. -/
structure FlowState where
  memoryLabels : HashMap VReg SecurityLabel
  vregLabels : HashMap VReg SecurityLabel
  events : List FlowEvent

def resolveLabel (secretVars : Finset String) (f : IRFunction)
    (vregLabels : HashMap VReg SecurityLabel) : IRValue → SecurityLabel
  | .register id =>
    match vregLabels.lookup id with
    | some label => label
    | none => labelOfVreg secretVars f (.register id)
  | _ => .pub

/-- An instruction with its place: the number that stands for it, and its function. -/
structure FlowSite where
  atNode : Nat
  func : IRFunction
  instr : IRInstr

/-- The instructions in the order in which they are written down. -/
def flowSites (program : IRProgram) : List FlowSite :=
  program.functions.zipIdx.flatMap fun (func, fi) =>
    func.blocks.zipIdx.flatMap fun (block, bi) =>
      block.instructions.zipIdx.map fun (instr, ii) => ⟨fi * 10000 + bi * 100 + ii, func, instr⟩

/-- One instruction of the sweep. -/
def flowStep (secretVars : Finset String) (s : FlowState) (site : FlowSite) : FlowState :=
  let label := resolveLabel secretVars site.func s.vregLabels
  let send (channelLabel msgLabel : SecurityLabel) : FlowState :=
    { s with events := s.events ++ [⟨.channelSend channelLabel msgLabel, site.atNode⟩] }
  match site.instr with
  | .channelSend ch msg _ => send (label ch) (label msg)
  | .call _ name args _ =>
    if name = "channel_send" ∨ name = "channel_send_cap" then
      send ((args[0]?.map label).getD .pub) ((args[1]?.map label).getD .pub)
    else s
  | .store value addr _ _ =>
    let dstVreg := addr.asRegister.getD 0
    let cellLabel := (s.memoryLabels.lookup dstVreg).getD .pub
    { s with
      events := s.events ++ [⟨.assign dstVreg (label addr) (label value), site.atNode⟩]
      memoryLabels := s.memoryLabels.insert dstVreg
        (if label value = .secret ∨ cellLabel = .secret then .secret else .pub) }
  | .load dst addr _ _ =>
    let cellLabel := (s.memoryLabels.lookup (addr.asRegister.getD 0)).getD .pub
    { s with vregLabels := s.vregLabels.insert (dst.asRegister.getD 0) cellLabel }
  | _ => s

/-- The state of the sweep after some instructions. -/
def flowSweep (secretVars : Finset String) (sites : List FlowSite) : FlowState :=
  sites.foldl (flowStep secretVars) ⟨∅, ∅, []⟩

/-- `verify_information_flow_from_ir`, for a text of violations. -/
def verifyInformationFlowFromIr (debug : FlowViolation → String) (program : IRProgram)
    (secretVars : Finset String) : List String :=
  (verifyInformationFlow (flowSweep secretVars (flowSites program)).events).map debug

end Vuma.Ive
