import Vuma.IR.Footprint

/-!
# Memories that differ in some bytes

The bytes an instruction reads, and executions in two worlds whose memories may differ and whose
traces may differ in the recorded writes. As long as an instruction reads no byte in which the
memories differ, it has the same effect in both.
-/

namespace Vuma.IR

/-! ## Bytes -/

/-- `n` bytes from an address on. -/
def byteRange (addr : Word) (n : Nat) : Set Word := {a | ∃ k < n, a = addr + BitVec.ofNat 64 k}

theorem Machine.length_encode (M : Machine) (ty : IRType) (v : Word) :
    (M.encode ty v).length = M.accessSize ty := by
  unfold encode lowBytes
  split <;> simp

theorem Machine.load_congr {M : Machine} {ty : IRType} {mem mem' : Mem} {addr : Word}
    (h : ∀ a ∈ byteRange addr (M.accessSize ty), mem a = mem' a) :
    M.load ty mem addr = M.load ty mem' addr := by
  have hbytes : (List.range (M.accessSize ty)).map (fun i => mem (addr + BitVec.ofNat 64 i)) =
      (List.range (M.accessSize ty)).map (fun i => mem' (addr + BitVec.ofNat 64 i)) :=
    List.map_congr_left fun i hi => h _ ⟨i, List.mem_range.mp hi, rfl⟩
  simp only [load, hbytes]

theorem byteRange_succ (addr : Word) (n : Nat) (a : Word) :
    a ∈ byteRange addr (n + 1) ↔ a = addr ∨ a ∈ byteRange (addr + 1) n := by
  constructor
  · rintro ⟨k, hk, rfl⟩
    cases k with
    | zero => exact .inl (by simp)
    | succ k =>
      refine .inr ⟨k, Nat.lt_of_succ_lt_succ hk, ?_⟩
      rw [BitVec.add_assoc, Nat.add_comm k 1, BitVec.ofNat_add]
      rfl
  · rintro (rfl | ⟨k, hk, rfl⟩)
    · exact ⟨0, Nat.succ_pos n, by simp⟩
    · refine ⟨k + 1, Nat.succ_lt_succ hk, ?_⟩
      rw [BitVec.add_assoc, Nat.add_comm k 1, BitVec.ofNat_add]
      rfl

/-- Writing leaves the other bytes alone. -/
theorem World.writeBytes_of_not_mem {mem : Mem} {addr : Word} {bytes : List Byte} {a : Word}
    (h : a ∉ byteRange addr bytes.length) : writeBytes mem addr bytes a = mem a := by
  induction bytes generalizing mem addr with
  | nil => rfl
  | cons b bytes ih =>
    rw [List.length_cons, byteRange_succ, not_or] at h
    rw [writeBytes, ih h.2, Function.update_of_ne h.1]

/-- Writing the same bytes makes two memories equal there and keeps them equal elsewhere. -/
theorem World.writeBytes_agree {mem mem' : Mem} {addr : Word} {bytes : List Byte} {a : Word}
    (h : a ∈ byteRange addr bytes.length ∨ mem a = mem' a) :
    writeBytes mem addr bytes a = writeBytes mem' addr bytes a := by
  induction bytes generalizing mem mem' addr with
  | nil =>
    rcases h with ⟨k, hk, -⟩ | h
    · cases hk
    · exact h
  | cons b bytes ih =>
    rw [List.length_cons, byteRange_succ] at h
    rw [writeBytes, writeBytes]
    refine ih ?_
    by_cases ha : a = addr
    · right
      rw [ha, Function.update_self, Function.update_self]
    · rcases h with (h | h) | h
      · exact absurd h ha
      · exact .inl h
      · right
        rw [Function.update_of_ne ha, Function.update_of_ne ha, h]

/-- The bytes an instruction may read. A call and every other external operation may read all. -/
def IRInstr.readsBytes (M : Machine) (ev : IRValue → Word) : IRInstr → Set Word
  | .load _ addr off ty => byteRange (ev addr + BitVec.ofInt 64 off) (M.accessSize ty)
  | .atomicLoad _ addr ty | .atomicCas _ addr _ _ ty => byteRange (ev addr) (M.accessSize ty)
  | .bulkCopy _ src len => {a | (a - ev src).ult (ev len)}
  | .call .. | .free _ | .syscall .. | .channelOpen .. | .channelSend .. | .channelRecv ..
  | .channelRecvTimeout .. | .channelRecvResult .. | .channelClose _ | .starkProof ..
  | .callIndirect .. => Set.univ
  | _ => ∅

/-- The bytes a `Store` writes. -/
def IRInstr.storeBytes (M : Machine) (ev : IRValue → Word) : IRInstr → Set Word
  | .store _ addr off ty => byteRange (ev addr + BitVec.ofInt 64 off) (M.accessSize ty)
  | _ => ∅

/-- The instruction reads memory, or gives it to a callee or to the environment to read. -/
def IRInstr.readsMemory : IRInstr → Bool
  | .load .. | .atomicLoad .. | .atomicCas .. | .bulkCopy .. | .call .. | .free _ | .syscall ..
  | .channelOpen .. | .channelSend .. | .channelRecv .. | .channelRecvTimeout ..
  | .channelRecvResult .. | .channelClose _ | .starkProof .. | .callIndirect .. => true
  | _ => false

/-- The bytes an instruction may read, with what it finds there. -/
def IRInstr.bytesRead (M : Machine) (ev : IRValue → Word) (mem : Mem) (i : IRInstr) :
    Set (Word × Byte) :=
  {p | p.1 ∈ i.readsBytes M ev ∧ mem p.1 = p.2}

/-- What the instructions that are executed read, in order. -/
def instrReads (M : Machine) (pred : Option String) (edge : Regs) :
    List IRInstr → Regs → World → List (Set (Word × Byte))
  | [], _, _ => []
  | i :: is, σ, w =>
    (if i.readsMemory then [i.bytesRead M (·.eval M σ) w.mem] else []) ++
      match i.effect M (·.eval M σ) (·.eval M edge) pred w with
      | .next ws w' => instrReads M pred edge is (σ.writes ws) w'
      | _ => []

/-- A terminator that calls gives the whole memory to the callee. -/
def IRTerminator.reads (mem : Mem) : IRTerminator → List (Set (Word × Byte))
  | .invoke .. | .tailCall .. => [{p | mem p.1 = p.2}]
  | _ => []

/-- What a block reads. -/
def IRBlock.reads (M : Machine) (b : IRBlock) (pred : Option String) (σ : Regs) (w : World) :
    List (Set (Word × Byte)) :=
  instrReads M pred σ b.instructions σ w ++
    match execInstrs M b.label pred σ b.instructions σ w with
    | .stay _ w' => b.terminator.reads w'.mem
    | .leave _ => []

/-- What a run reads in its next block. -/
def IRFunction.reads (M : Machine) (f : IRFunction) : Config → List (Set (Word × Byte))
  | .enter label pred σ w =>
    match f.blockAt label with
    | some b => b.reads M pred σ w
    | none => []
  | .done _ _ => []

/-! ## Worlds -/

/-- The events of a trace other than writes to memory. -/
def visible (trace : List Event) : List Event :=
  trace.filter fun e =>
    match e with
    | .write .. => false
    | _ => true

/-- The same memory outside `P`, and the same events but for writes. -/
structure World.SameExcept (P : Set Word) (w w' : World) : Prop where
  mem : ∀ a, a ∉ P → w.mem a = w'.mem a
  events : visible w.trace = visible w'.trace

/-- The same memory, and the same events but for writes. -/
def World.Same (w w' : World) : Prop := World.SameExcept ∅ w w'

theorem World.Same.mem_eq {w w' : World} (h : w.Same w') : w.mem = w'.mem :=
  funext fun a => h.mem a (Set.notMem_empty a)

/-- Two calls that end in the same way. -/
inductive CallResult.Same : CallResult → CallResult → Prop where
  | returned (vs : List Word) {w w' : World} (h : w.Same w') : Same (.returned vs w) (.returned vs w')
  | unwound (v : Word) {w w' : World} (h : w.Same w') : Same (.unwound v w) (.unwound v w')
  | stopped (o : Outcome) {w w' : World} (h : w.Same w') : Same (.stopped o w) (.stopped o w')

/-- Callees and the environment learn of a write to memory only from the memory. -/
structure Machine.IgnoresWrites (M : Machine) : Prop where
  call : ∀ {w w'}, w.Same w' → ∀ func args, (M.call w func args).Same (M.call w' func args)
  respond : ∀ {w w'}, w.Same w' → ∀ e, M.respond w e = M.respond w' e

theorem World.SameExcept.bytesRead_eq {P : Set Word} {w w' : World} (h : w.SameExcept P w')
    {M : Machine} {ev : IRValue → Word} {i : IRInstr} (hread : Disjoint (i.readsBytes M ev) P) :
    i.bytesRead M ev w.mem = i.bytesRead M ev w'.mem := by
  ext p
  refine and_congr_right fun hp => ?_
  rw [h.mem p.1 (Set.disjoint_left.mp hread hp)]

/-! ## Effects -/

/-- Effects that write the same registers and go the same way, in worlds that are the same except
in `P`. -/
inductive Effect.SameExcept (P : Set Word) : Effect → Effect → Prop where
  | next (ws : List (IRValue × Word)) {w w' : World} (h : w.SameExcept P w') :
      SameExcept P (.next ws w) (.next ws w')
  | jump (target : String) {w w' : World} (h : w.SameExcept P w') :
      SameExcept P (.jump target w) (.jump target w')
  | ret (vs : List Word) {w w' : World} (h : w.SameExcept P w') :
      SameExcept P (.ret vs w) (.ret vs w')
  | stop (o : Outcome) {w w' : World} (h : w.SameExcept P w') :
      SameExcept P (.stop o w) (.stop o w')

theorem World.SameExcept.store {P : Set Word} {w w' : World} (h : w.SameExcept P w') (addr : Word)
    (bytes : List Byte) : (w.store addr bytes).SameExcept P (w'.store addr bytes) :=
  ⟨fun a ha => writeBytes_agree (.inr (h.mem a ha)), h.events⟩

theorem World.SameExcept.bulkFill {P : Set Word} {w w' : World} (h : w.SameExcept P w')
    (dst : Word) (val : Byte) (len : Word) :
    (w.bulkFill dst val len).SameExcept P (w'.bulkFill dst val len) := by
  refine ⟨fun a ha => ?_, congrArg (Event.bulkFill dst val len :: ·) h.events⟩
  simp only [World.bulkFill, h.mem a ha]

theorem World.SameExcept.bulkCopy {P : Set Word} {w w' : World} (h : w.SameExcept P w')
    {dst src len : Word} (hsrc : Disjoint {a | (a - src).ult len} P) :
    (w.bulkCopy dst src len).SameExcept P (w'.bulkCopy dst src len) := by
  refine ⟨fun a ha => ?_, congrArg (Event.bulkCopy dst src len :: ·) h.events⟩
  simp only [World.bulkCopy, h.mem a ha]
  split
  · next hlt =>
    refine h.mem _ fun hmem => Set.disjoint_left.mp hsrc ?_ hmem
    change ((src + (a - dst)) - src).ult len
    rwa [BitVec.add_comm, BitVec.add_sub_cancel]
  · rfl

section

variable {M : Machine} {P : Set Word} {w w' : World}

theorem Machine.IgnoresWrites.external (hM : M.IgnoresWrites) (h : w.SameExcept P w')
    (hP : Disjoint Set.univ P) (e : Event) (he : visible [e] = [e])
    (k : Reply → List (IRValue × Word)) :
    (M.external w e k).SameExcept P (M.external w' e k) := by
  have hempty : P = ∅ := Set.univ_disjoint.mp hP
  subst hempty
  have hevents : visible (e :: w.trace) = visible (e :: w'.trace) := by
    have happend : ∀ t : List Event, visible (e :: t) = [e] ++ visible t := by
      intro t
      have hsplit : visible ([e] ++ t) = visible [e] ++ visible t := List.filter_append [e] t
      rwa [he] at hsplit
    rw [happend, happend, h.events]
  have hrec : (w.record e).Same (w'.record e) := ⟨h.mem, hevents⟩
  unfold Machine.external
  rw [hM.respond hrec e]
  cases M.respond (w'.record e) e with
  | some r => exact .next _ ⟨fun _ _ => rfl, hevents⟩
  | none => exact .stop _ hrec

/-- An instruction that reads no byte in which the memories differ has the same effect. -/
theorem IRInstr.effect_sameExcept (hM : M.IgnoresWrites) (h : w.SameExcept P w') {i : IRInstr}
    (ev edge : IRValue → Word) (pred : Option String) (hread : Disjoint (i.readsBytes M ev) P) :
    (i.effect M ev edge pred w).SameExcept P (i.effect M ev edge pred w') := by
  have hload : ∀ ty addr, Disjoint (byteRange addr (M.accessSize ty)) P →
      M.load ty w.mem addr = M.load ty w'.mem addr := fun ty addr hdisj =>
    M.load_congr fun a ha => h.mem a (Set.disjoint_left.mp hdisj ha)
  cases i with
  | load dst addr off ty =>
    rw [effect, effect, hload ty _ hread]
    exact .next _ h
  | store value addr off ty => exact .next _ (h.store _ _)
  | binOp op dst lhs rhs ty | div dst lhs rhs ty | transform dst src fromLayout toLayout =>
    simp only [effect]
    split
    · exact .next _ h
    · exact .stop _ h
  | call dst func args ext =>
    obtain rfl : P = ∅ := Set.univ_disjoint.mp hread
    have hcall := hM.call h func (args.map ev)
    simp only [effect]
    generalize M.call w func (args.map ev) = c at hcall
    generalize M.call w' func (args.map ev) = c' at hcall
    cases hcall with
    | returned vs h => exact .next _ h
    | unwound v h => exact .stop _ h
    | stopped o h => exact .stop _ h
  | alloc dst size => cases dst <;> exact .next _ h
  | phi dst incoming =>
    simp only [effect]
    split
    · exact .next _ h
    · exact .next _ h
  | atomicLoad dst addr ty =>
    rw [effect, effect, hload ty _ hread]
    exact .next _ h
  | atomicStore value addr ty => exact .next _ (h.store _ _)
  | atomicCas dst addr expected desired ty =>
    simp only [effect, hload ty _ hread]
    refine .next _ ?_
    split
    · exact h.store _ _
    · exact h
  | ret values => exact .ret _ h
  | branch target => exact .jump _ h
  | condBranch cond t f => exact .jump _ h
  | bulkCopy dst src len => exact .next _ (h.bulkCopy hread)
  | bulkFill dst val len => exact .next _ (h.bulkFill _ _ _)
  | free | syscall | channelOpen | channelSend | channelRecv | channelRecvTimeout
  | channelRecvResult | channelClose | starkProof | callIndirect =>
    exact hM.external h hread _ rfl _
  | _ => exact .next _ h

end

/-! ## Configurations -/

/-- The same point of a run, with the same registers and the same world but for recorded writes. -/
inductive Config.Same : Config → Config → Prop where
  | enter (label : String) (pred : Option String) (regs : Regs) {w w' : World} (h : w.Same w') :
      Same (.enter label pred regs w) (.enter label pred regs w')
  | done (o : Outcome) {w w' : World} (h : w.Same w') : Same (.done o w) (.done o w')

theorem Config.Same.refl (c : Config) : c.Same c := by
  cases c with
  | enter label pred regs w => exact .enter _ _ _ ⟨fun _ _ => rfl, rfl⟩
  | done o w => exact .done _ ⟨fun _ _ => rfl, rfl⟩

theorem Config.Same.outcome_eq {c c' : Config} (h : c.Same c') : c.obs.1 = c'.obs.1 := by
  cases h <;> rfl

theorem Config.Same.mem_eq {c c' : Config} (h : c.Same c') : c.obs.2.1 = c'.obs.2.1 := by
  cases h with
  | enter label pred regs h => exact h.mem_eq
  | done o h => exact h.mem_eq

inductive Flow.Same : Flow → Flow → Prop where
  | stay (regs : Regs) {w w' : World} (h : w.Same w') : Same (.stay regs w) (.stay regs w')
  | leave {c c' : Config} (h : c.Same c') : Same (.leave c) (.leave c')

theorem IRTerminator.exec_same {M : Machine} (hM : M.IgnoresWrites) (t : IRTerminator)
    (label : String) (σ : Regs) {w w' : World} (h : w.Same w') :
    (t.exec M label σ w).Same (t.exec M label σ w') := by
  cases t with
  | jump target => exact .enter _ _ _ h
  | branch cond tb fb => exact .enter _ _ _ h
  | ret values => exact .done _ h
  | unreachable => exact .done _ h
  | switch discr targets default => exact .enter _ _ _ h
  | invoke dst func args normal unwind =>
    have hcall := hM.call h func (args.map (·.eval M σ))
    simp only [exec]
    generalize M.call w func (args.map (·.eval M σ)) = c at hcall
    generalize M.call w' func (args.map (·.eval M σ)) = c' at hcall
    cases hcall with
    | returned vs h => exact .enter _ _ _ h
    | unwound v h => exact .enter _ _ _ h
    | stopped o h => exact .done _ h
  | tailCall func args =>
    have hcall := hM.call h func (args.map (·.eval M σ))
    simp only [exec]
    generalize M.call w func (args.map (·.eval M σ)) = c at hcall
    generalize M.call w' func (args.map (·.eval M σ)) = c' at hcall
    cases hcall with
    | returned vs h => exact .done _ h
    | unwound v h => exact .done _ h
    | stopped o h => exact .done _ h
  | resume value => exact .done _ h

end Vuma.IR
