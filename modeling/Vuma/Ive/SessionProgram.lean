import Vuma.Ive.SessionCorrect
import Vuma.IR.Syntax

/-!
# Session types of a program

The checker that the pipeline runs: the channel calls of a program in its intermediate
representation are turned into events, and all of them are checked together. The order of the calls
is one number, made of the indices of function, block and instruction, and the channels are register
numbers of the whole program.
-/

namespace Vuma.Ive

open IR Lib

inductive BackendKind where
  | aArch64 | riscV64 | wasm32 | loongArch64 | x86_64 | arm32 | mips64 | powerPC64 | powerPC64LE
  | riscV32 | x86_32 | sparc64 | s390X | mips64Be | armEb | aArch64Be | m68k | alpha | hppa
  deriving DecidableEq, Repr

def isWasm32NativeChannelBuiltin (name : String) : Bool :=
  ["channel_open", "channel_send", "channel_recv", "channel_close", "channel_try_recv",
    "channel_recv_timeout"].contains name

/-- The register of a handle; `0` stands for a slot that is missing or holds no register. -/
def handleVreg : Option IRValue → UInt32
  | some (.register id) => UInt32.ofNat id
  | _ => 0

/-- The kind of the event of a call. -/
def callEventKind (name : String) (args : List IRValue) (dst : Option IRValue) :
    Option SessionEventKind :=
  let chVreg := handleVreg args.head?
  let openVreg := handleVreg dst
  if name = "channel_open" then some (.openSession openVreg .ended)
  else if name = "channel_send" ∨ name = "channel_send_cap" then some (.send chVreg "i64")
  else if name = "channel_recv" ∨ name = "channel_recv_proto" ∨ name = "channel_recv_timeout" then
    some (.recv chVreg "i64")
  else if name = "channel_close" then some (.close chVreg)
  else none

/-- The kind of the event of an instruction. -/
def instrEventKind (backend : BackendKind) : IRInstr → Option SessionEventKind
  | .call dst name args _ =>
    if backend = .wasm32 ∧ isWasm32NativeChannelBuiltin name then none
    else callEventKind name args dst
  | _ => none

/-- A channel call, with the indices of its function, block and instruction. -/
structure ChannelCall where
  fi : Nat
  bi : Nat
  ii : Nat
  kind : SessionEventKind
  deriving DecidableEq, Repr

namespace ChannelCall

/-- The number that stands for the place of a call. -/
def atNode (c : ChannelCall) : Nat := c.fi * 10000 + c.bi * 100 + c.ii

/-- The event of a call. -/
def event (c : ChannelCall) : SessionEvent := ⟨c.kind, c.atNode⟩

/-- The lexicographic order of the indices. -/
def Before (c c' : ChannelCall) : Prop :=
  c.fi < c'.fi ∨ c.fi = c'.fi ∧ (c.bi < c'.bi ∨ c.bi = c'.bi ∧ c.ii < c'.ii)

end ChannelCall

/-- The channel calls of a block. -/
def blockCalls (backend : BackendKind) (fi bi : Nat) (b : IRBlock) : List ChannelCall :=
  b.instructions.zipIdx.filterMap fun p => (instrEventKind backend p.1).map (⟨fi, bi, p.2, ·⟩)

/-- The channel calls of a function. -/
def functionCalls (backend : BackendKind) (fi : Nat) (f : IRFunction) : List ChannelCall :=
  f.blocks.zipIdx.flatMap fun p => blockCalls backend fi p.2 p.1

/-- The channel calls of a program. -/
def channelCalls (backend : BackendKind) (program : IRProgram) : List ChannelCall :=
  program.functions.zipIdx.flatMap fun p => functionCalls backend p.2 p.1

/-- `events`. -/
def channelEvents (backend : BackendKind) (program : IRProgram) : List SessionEvent :=
  (channelCalls backend program).map ChannelCall.event

/-- `SessionViolationIR`, by the violation that its message shows. -/
structure SessionViolationIR where
  violation : SessionViolation
  deriving DecidableEq, Repr

def verifySessionTypesFromIrForBackend (it : KeyOrder UInt32) (program : IRProgram)
    (backend : BackendKind) : List SessionViolationIR :=
  (verifySessionTypes it (channelEvents backend program)).map SessionViolationIR.mk

/-! ## The calls stand in the order of the program -/

section

variable {backend : BackendKind}

theorem pairwise_zipIdx {α : Type} (l : List α) (n : Nat) :
    (l.zipIdx n).Pairwise fun p q => p.2 < q.2 := by
  induction l generalizing n with
  | nil => exact .nil
  | cons a l ih =>
    rw [List.zipIdx_cons, List.pairwise_cons]
    refine ⟨?_, ih (n + 1)⟩
    intro p hp
    exact List.le_snd_of_mem_zipIdx hp

theorem fi_of_mem_functionCalls {fi : Nat} {f : IRFunction} {c : ChannelCall}
    (h : c ∈ functionCalls backend fi f) : c.fi = fi := by
  obtain ⟨p, -, hc⟩ := List.mem_flatMap.1 h
  obtain ⟨q, -, hq⟩ := List.mem_filterMap.1 hc
  obtain ⟨kind, -, rfl⟩ := Option.map_eq_some_iff.1 hq
  rfl

theorem indices_of_mem_blockCalls {fi bi : Nat} {b : IRBlock} {c : ChannelCall}
    (h : c ∈ blockCalls backend fi bi b) : c.fi = fi ∧ c.bi = bi := by
  obtain ⟨q, -, hq⟩ := List.mem_filterMap.1 h
  obtain ⟨kind, -, rfl⟩ := Option.map_eq_some_iff.1 hq
  exact ⟨rfl, rfl⟩

theorem pairwise_blockCalls (fi bi : Nat) (b : IRBlock) :
    (blockCalls backend fi bi b).Pairwise ChannelCall.Before := by
  refine List.Pairwise.filterMap _ ?_ (pairwise_zipIdx b.instructions 0)
  intro p q hpq c hc c' hc'
  obtain ⟨kind, -, rfl⟩ := Option.map_eq_some_iff.1 hc
  obtain ⟨kind', -, rfl⟩ := Option.map_eq_some_iff.1 hc'
  exact .inr ⟨rfl, .inr ⟨rfl, hpq⟩⟩

theorem pairwise_functionCalls (fi : Nat) (f : IRFunction) :
    (functionCalls backend fi f).Pairwise ChannelCall.Before := by
  rw [functionCalls, List.pairwise_flatMap]
  refine ⟨fun p _ => pairwise_blockCalls fi p.2 p.1, ?_⟩
  refine (pairwise_zipIdx f.blocks 0).imp ?_
  intro p q hpq c hc c' hc'
  obtain ⟨hfi, hbi⟩ := indices_of_mem_blockCalls hc
  obtain ⟨hfi', hbi'⟩ := indices_of_mem_blockCalls hc'
  right
  exact ⟨by omega, .inl (by omega)⟩

/-- The calls are collected in the lexicographic order of their indices. -/
theorem pairwise_channelCalls (program : IRProgram) :
    (channelCalls backend program).Pairwise ChannelCall.Before := by
  rw [channelCalls, List.pairwise_flatMap]
  refine ⟨fun p _ => pairwise_functionCalls p.2 p.1, ?_⟩
  refine (pairwise_zipIdx program.functions 0).imp ?_
  intro p q hpq c hc c' hc'
  left
  rw [fi_of_mem_functionCalls hc, fi_of_mem_functionCalls hc']
  exact hpq

end

end Vuma.Ive
