import Vuma.Codegen.CallingConvCorrect

/-!
# The stack frame

`compute_stack_layout_with_info` of `src/codegen/src/ir.rs` lays the callee-saved registers, the
locals and the outgoing arguments below the frame pointer. Offsets are integers; the code's `i32`
has room for a frame below 2^31 bytes.

The slots follow each other downwards, whatever they are (`computeStackLayout_chain`). Only the
slot of the outgoing arguments does not align the offset it starts from
(`computeStackLayout_wellFormed`).
-/

namespace Vuma.Codegen

open IR

/-! ## The code -/

structure StackSlot where
  name : String
  offset : Int
  size : Nat
  alignment : Nat
  deriving DecidableEq, Repr

structure StackLayout where
  totalSize : Nat
  calleeSaveSlots : List StackSlot
  localSlots : List StackSlot
  outgoingArgsSlot : Option StackSlot
  fpSlot : StackSlot
  lrSlot : StackSlot
  calleeSavesCount : Nat
  deriving DecidableEq, Repr

/-- `x & !(a - 1)` of a two's complement `x` and a power of two `a`. -/
def alignDown (x : Int) (a : Nat) : Int := x / a * a

/-- The alignment of a local of `size` bytes. -/
def localAlign (size : Nat) : Nat := if size ≥ 8 then 8 else size.nextPowerOfTwo

/-- The callee saves from the register `i` on, `n` of them. -/
def calleeSaves (offset : Int) (i : Nat) : Nat → List StackSlot × Int
  | 0 => ([], offset)
  | n + 1 =>
    let slot := { name := s!"callee_save_{i}", offset := offset - 8, size := 8, alignment := 8 }
    let rest := calleeSaves (offset - 8) (i + 1) n
    (slot :: rest.1, rest.2)

/-- The offset of a local below `offset`. -/
def localOffset (offset : Int) (size : Nat) : Int :=
  let align := localAlign size
  alignDown (alignDown (offset - align) align - size) align

/-- The walk over the instructions, `index` being `alloc_index`. -/
def locals (offset : Int) (index : Nat) : List IRInstr → List StackSlot × Int
  | [] => ([], offset)
  | .alloc dst size :: instrs =>
    let name := match dst with
      | .register id => s!"local_%v{id}"
      | _ => s!"local_{index}"
    let start := localOffset offset size
    let slot := { name := name, offset := start, size := size, alignment := localAlign size }
    let rest := locals start (index + 1) instrs
    (slot :: rest.1, rest.2)
  | _ :: instrs => locals offset index instrs

def maxOutgoingStack (callArgTypes : List (List IRType)) : Nat :=
  callArgTypes.foldl (fun m args => max m (computeCallingConv args .void).stackArgsSize) 0

/-- The slot of the outgoing arguments below `offset`. -/
def outgoingSlot (offset : Int) (maxOutgoing : Nat) : Option StackSlot :=
  if maxOutgoing > 0 then
    let size := alignUp maxOutgoing 16
    some { name := "outgoing_args", offset := offset - size, size := size, alignment := 16 }
  else none

def computeStackLayoutWithInfo (func : IRFunction) (calleeSavesCount : Nat)
    (callArgTypes : List (List IRType)) : StackLayout :=
  let saves := calleeSaves 0 0 calleeSavesCount
  let vars := locals saves.2 0 (func.blocks.flatMap (·.instructions))
  let outgoing := outgoingSlot vars.2 (maxOutgoingStack callArgTypes)
  let offset := match outgoing with
    | some slot => slot.offset
    | none => vars.2
  { totalSize := alignUp ((-offset).toNat + 16) 16
    calleeSaveSlots := saves.1
    localSlots := vars.1
    outgoingArgsSlot := outgoing
    fpSlot := { name := "saved_fp", offset := 0, size := 8, alignment := 8 }
    lrSlot := { name := "saved_lr", offset := 8, size := 8, alignment := 8 }
    calleeSavesCount := calleeSavesCount }

/-! ## Well-formed frames -/

/-- The byte `b`, counted from the frame pointer, belongs to the slot. -/
def StackSlot.Has (slot : StackSlot) (b : Int) : Prop :=
  slot.offset ≤ b ∧ b < slot.offset + slot.size

/-- The slots below the frame pointer. -/
def StackLayout.slots (l : StackLayout) : List StackSlot :=
  l.calleeSaveSlots ++ l.localSlots ++ l.outgoingArgsSlot.toList

/-- The stack pointer of the frame, counted from the frame pointer. -/
def StackLayout.sp (l : StackLayout) : Int := 16 - l.totalSize

/-- A well-formed frame. -/
structure StackLayout.WellFormed (l : StackLayout) : Prop where
  disjoint : l.slots.Pairwise fun a b => ∀ byte, a.Has byte → ¬b.Has byte
  below : ∀ slot ∈ l.slots, slot.offset + slot.size ≤ 0
  aligned : ∀ slot ∈ l.slots, (slot.alignment : Int) ∣ slot.offset
  within : ∀ slot ∈ l.slots, l.sp ≤ slot.offset
  total_dvd : 16 ∣ l.totalSize
  outgoing : ∀ slot ∈ l.outgoingArgsSlot, slot.offset = l.sp

/-! ## Rounding down -/

theorem alignDown_le (x : Int) {a : Nat} (ha : 0 < a) : alignDown x a ≤ x :=
  Int.ediv_mul_le x (by omega)

theorem dvd_alignDown (x : Int) (a : Nat) : (a : Int) ∣ alignDown x a := Dvd.intro_left _ rfl

/-- Rounding down below the frame pointer is rounding the distance up. -/
theorem alignDown_neg (p : Nat) {a : Nat} (ha : 0 < a) :
    alignDown (-(p : Int)) a = -(alignUp p a : Int) := by
  have hq := Nat.div_add_mod (p + a - 1) a
  have hlt := Nat.mod_lt (p + a - 1) ha
  have hdiv : (-(p : Int)) / a = -((p + a - 1) / a : Nat) := by
    rw [Int.ediv_eq_iff_of_pos (by omega)]
    generalize (p + a - 1) / a = q at hq ⊢
    have hmul : (a : Int) * q = (a * q : Nat) := by push_cast; rfl
    constructor
    · rw [Int.neg_mul, Int.mul_comm, hmul]
      omega
    · rw [Int.neg_mul, Int.mul_comm, hmul]
      omega
  rw [alignDown, hdiv, alignUp, Int.neg_mul, ← Int.natCast_mul]

theorem localAlign_pos (size : Nat) : 0 < localAlign size := by
  unfold localAlign
  split
  · decide
  · exact Nat.pos_of_isPowerOfTwo (Nat.isPowerOfTwo_nextPowerOfTwo size)

/-! ## Slots below each other -/

/-- The slots follow each other downwards from `top` and end at `bottom`. -/
def Chain (top : Int) : List StackSlot → Int → Prop
  | [], bottom => bottom = top
  | slot :: slots, bottom => slot.offset + slot.size ≤ top ∧ Chain slot.offset slots bottom

namespace Chain

variable {top mid bottom : Int} {slots lower : List StackSlot}

theorem append (h : Chain top slots mid) (h' : Chain mid lower bottom) :
    Chain top (slots ++ lower) bottom := by
  induction slots generalizing top with
  | nil =>
    have hmid : mid = top := h
    exact hmid ▸ h'
  | cons slot slots ih => exact ⟨h.1, ih h.2⟩

theorem bounds (h : Chain top slots bottom) :
    bottom ≤ top ∧ ∀ slot ∈ slots, bottom ≤ slot.offset ∧ slot.offset + slot.size ≤ top := by
  induction slots generalizing top with
  | nil =>
    have hbottom : bottom = top := h
    exact ⟨hbottom.le, by simp⟩
  | cons slot slots ih =>
    obtain ⟨hslot, hrest⟩ := h
    obtain ⟨hle, hin⟩ := ih hrest
    refine ⟨by omega, List.forall_mem_cons.mpr ⟨⟨hle, hslot⟩, fun s hs => ?_⟩⟩
    have := hin s hs
    omega

theorem disjoint (h : Chain top slots bottom) :
    slots.Pairwise fun a b => ∀ byte, a.Has byte → ¬b.Has byte := by
  induction slots generalizing top with
  | nil => exact .nil
  | cons slot slots ih =>
    refine .cons (fun s hs byte hb hb' => ?_) (ih h.2)
    have hbelow := (h.2.bounds.2 s hs).2
    have hlow := hb.1
    have hhigh := hb'.2
    omega

end Chain

/-- The callee saves fill the words below `offset`. -/
theorem calleeSaves_chain {offset : Int} (h : 8 ∣ offset) (i n : Nat) :
    Chain offset (calleeSaves offset i n).1 (calleeSaves offset i n).2 ∧
      (∀ slot ∈ (calleeSaves offset i n).1, (slot.alignment : Int) ∣ slot.offset) ∧
      (calleeSaves offset i n).2 = offset - 8 * n := by
  induction n generalizing offset i with
  | zero => exact ⟨rfl, by simp [calleeSaves], by simp [calleeSaves]⟩
  | succ n ih =>
    have hnext : (8 : Int) ∣ offset - 8 := by omega
    obtain ⟨hchain, haligned, hend⟩ := ih hnext (i + 1)
    refine ⟨⟨?_, hchain⟩, List.forall_mem_cons.mpr ⟨hnext, haligned⟩, ?_⟩
    · simp
    · rw [calleeSaves, hend]
      omega

theorem localOffset_le (offset : Int) (size : Nat) : localOffset offset size + size ≤ offset := by
  have hpos := localAlign_pos size
  have hinner := alignDown_le (offset - localAlign size) hpos
  have houter := alignDown_le (alignDown (offset - localAlign size) (localAlign size) - size) hpos
  unfold localOffset
  dsimp only
  omega

/-- The locals are aligned, each below what was placed before. -/
theorem locals_chain (offset : Int) (index : Nat) (instrs : List IRInstr) :
    Chain offset (locals offset index instrs).1 (locals offset index instrs).2 ∧
      ∀ slot ∈ (locals offset index instrs).1, (slot.alignment : Int) ∣ slot.offset := by
  induction instrs generalizing offset index with
  | nil => exact ⟨rfl, by simp [locals]⟩
  | cons instr instrs ih =>
    cases instr with
    | alloc dst size =>
      obtain ⟨hchain, haligned⟩ := ih (localOffset offset size) (index + 1)
      exact ⟨⟨localOffset_le offset size, hchain⟩,
        List.forall_mem_cons.mpr ⟨dvd_alignDown _ _, haligned⟩⟩
    | _ => exact ih offset index

/-! ## The size of the frame above the outgoing arguments -/

/-- The bytes below the frame pointer after a local of `size` bytes, `used` before it. -/
def withLocal (used size : Nat) : Nat :=
  let align := localAlign size
  alignUp (alignUp (used + align) align + size) align

/-- The sizes of the locals. -/
def localSizes (instrs : List IRInstr) : List Nat :=
  instrs.filterMap fun
    | .alloc _ size => some size
    | _ => none

/-- The bytes that the callee saves and the locals take below the frame pointer. -/
def frameBytes (func : IRFunction) (calleeSavesCount : Nat) : Nat :=
  (localSizes (func.blocks.flatMap (·.instructions))).foldl withLocal (8 * calleeSavesCount)

theorem localOffset_neg (used size : Nat) :
    localOffset (-(used : Int)) size = -(withLocal used size : Int) := by
  have hpos := localAlign_pos size
  have hbefore : -(used : Int) - localAlign size = -((used + localAlign size : Nat) : Int) := by
    omega
  have hafter (n : Nat) : -(n : Int) - size = -((n + size : Nat) : Int) := by
    omega
  unfold localOffset withLocal
  dsimp only
  rw [hbefore, alignDown_neg _ hpos, hafter, alignDown_neg _ hpos]

theorem locals_end (used index : Nat) (instrs : List IRInstr) :
    (locals (-(used : Int)) index instrs).2 =
      -(((localSizes instrs).foldl withLocal used : Nat) : Int) := by
  induction instrs generalizing used index with
  | nil => rfl
  | cons instr instrs ih =>
    cases instr with
    | alloc dst size =>
      have hrest := ih (withLocal used size) (index + 1)
      rw [← localOffset_neg] at hrest
      exact hrest
    | _ => exact ih used index

theorem maxOutgoingStack_eq_zero {callArgTypes : List (List IRType)} :
    maxOutgoingStack callArgTypes = 0 ↔
      ∀ args ∈ callArgTypes, (computeCallingConv args .void).stackArgsSize = 0 := by
  have hfold (calls : List (List IRType)) (m : Nat) :
      calls.foldl (fun m args => max m (computeCallingConv args .void).stackArgsSize) m = 0 ↔
        m = 0 ∧ ∀ args ∈ calls, (computeCallingConv args .void).stackArgsSize = 0 := by
    induction calls generalizing m with
    | nil => simp
    | cons args calls ih =>
      rw [List.foldl_cons, ih, List.forall_mem_cons, ← and_assoc, Nat.max_eq_zero_iff]
  rw [maxOutgoingStack, hfold, and_iff_right rfl]

/-! ## The frame -/

section Frame

variable (func : IRFunction) (calleeSavesCount : Nat) (callArgTypes : List (List IRType))

/-- Where the locals end. -/
theorem locals_frameBytes :
    (locals (calleeSaves 0 0 calleeSavesCount).2 0 (func.blocks.flatMap (·.instructions))).2 =
      -(frameBytes func calleeSavesCount : Int) := by
  have hsaves := (calleeSaves_chain (Int.dvd_zero 8) 0 calleeSavesCount).2.2
  have hused : (calleeSaves 0 0 calleeSavesCount).2 = -((8 * calleeSavesCount : Nat) : Int) := by
    omega
  rw [hused]
  exact locals_end _ 0 _

theorem upperSlots_chain :
    let l := computeStackLayoutWithInfo func calleeSavesCount callArgTypes
    Chain 0 (l.calleeSaveSlots ++ l.localSlots) (-(frameBytes func calleeSavesCount : Int)) ∧
      ∀ slot ∈ l.calleeSaveSlots ++ l.localSlots, (slot.alignment : Int) ∣ slot.offset := by
  obtain ⟨hsaves, hsavesAligned, -⟩ :=
    calleeSaves_chain (Int.dvd_zero 8) 0 calleeSavesCount
  obtain ⟨hlocals, hlocalsAligned⟩ := locals_chain (calleeSaves 0 0 calleeSavesCount).2 0
    (func.blocks.flatMap (·.instructions))
  refine ⟨?_, fun slot hslot => ?_⟩
  · rw [← locals_frameBytes]
    exact hsaves.append hlocals
  · rcases List.mem_append.mp hslot with h | h
    · exact hsavesAligned slot h
    · exact hlocalsAligned slot h

theorem computeStackLayout_chain :
    let l := computeStackLayoutWithInfo func calleeSavesCount callArgTypes
    ∃ bottom, Chain 0 l.slots bottom ∧ l.totalSize = alignUp ((-bottom).toNat + 16) 16 ∧
      match l.outgoingArgsSlot with
      | some slot => maxOutgoingStack callArgTypes ≠ 0 ∧ slot.offset = bottom ∧
          slot.alignment = 16 ∧
          ∃ size : Nat, 16 ∣ size ∧
            bottom = -((frameBytes func calleeSavesCount + size : Nat) : Int)
      | none => maxOutgoingStack callArgTypes = 0 ∧
          bottom = -(frameBytes func calleeSavesCount : Int) := by
  obtain ⟨hupper, -⟩ := upperSlots_chain func calleeSavesCount callArgTypes
  have hend := locals_frameBytes func calleeSavesCount
  intro l
  have hslot : l.outgoingArgsSlot =
      outgoingSlot (-(frameBytes func calleeSavesCount : Int)) (maxOutgoingStack callArgTypes) := by
    rw [← hend]
    rfl
  have htotal : l.totalSize = alignUp ((-(match l.outgoingArgsSlot with
      | some slot => slot.offset
      | none => -(frameBytes func calleeSavesCount : Int))).toNat + 16) 16 := by
    rw [← hend]
    rfl
  by_cases hmax : maxOutgoingStack callArgTypes > 0
  · rw [outgoingSlot, if_pos hmax] at hslot
    rw [hslot] at htotal
    dsimp only at htotal
    refine ⟨_, ?_, htotal, ?_⟩
    · rw [StackLayout.slots, hslot]
      exact hupper.append ⟨by simp, rfl⟩
    · rw [hslot]
      exact ⟨by omega, rfl, rfl, _, dvd_alignUp (maxOutgoingStack callArgTypes) 16, by omega⟩
  · rw [outgoingSlot, if_neg hmax] at hslot
    rw [hslot] at htotal
    refine ⟨_, ?_, htotal, ?_⟩
    · rw [StackLayout.slots, hslot, Option.toList_none, List.append_nil]
      exact hupper
    · rw [hslot]
      exact ⟨by omega, rfl⟩

/-- A frame is well formed iff no call passes arguments on the stack, or what lies above the
outgoing arguments is a multiple of 16 bytes. -/
theorem computeStackLayout_wellFormed :
    (computeStackLayoutWithInfo func calleeSavesCount callArgTypes).WellFormed ↔
      (∀ args ∈ callArgTypes, (computeCallingConv args .void).stackArgsSize = 0) ∨
        16 ∣ frameBytes func calleeSavesCount := by
  obtain ⟨hupper, haligned⟩ := upperSlots_chain func calleeSavesCount callArgTypes
  obtain ⟨bottom, hchain, htotal, hout⟩ :=
    computeStackLayout_chain func calleeSavesCount callArgTypes
  rw [← maxOutgoingStack_eq_zero]
  generalize computeStackLayoutWithInfo func calleeSavesCount callArgTypes = l at *
  generalize frameBytes func calleeSavesCount = used at *
  have hround := le_round16 ((-bottom).toNat + 16)
  have hlow : l.sp ≤ bottom := by
    unfold StackLayout.sp
    omega
  -- all but the alignment and the start of the outgoing slot
  have hrest : (∀ slot ∈ l.outgoingArgsSlot, 16 ∣ slot.offset ∧ slot.alignment = 16 ∧
      slot.offset = l.sp) → l.WellFormed := by
    intro hslot
    refine ⟨hchain.disjoint, fun s hs => (hchain.bounds.2 s hs).2, fun s hs => ?_,
      fun s hs => hlow.trans (hchain.bounds.2 s hs).1, htotal ▸ dvd_alignUp _ 16,
      fun s hs => (hslot s hs).2.2⟩
    rcases List.mem_append.mp hs with hs | hs
    · exact haligned s hs
    · obtain ⟨hdvd, h16, -⟩ := hslot s (Option.mem_toList.mp hs)
      rw [h16]
      exact hdvd
  cases hslot : l.outgoingArgsSlot with
  | none =>
    rw [hslot] at hout
    exact iff_of_true (hrest (by simp [hslot])) (Or.inl hout.1)
  | some slot =>
    rw [hslot] at hout
    obtain ⟨hmax, hoff, h16, size, hsize, hbottom⟩ := hout
    rw [or_iff_right hmax]
    constructor
    · intro hwf
      have hmem : slot ∈ l.slots := List.mem_append_right _ (by simp [hslot])
      have hdvd := hwf.aligned slot hmem
      rw [h16, hoff] at hdvd
      omega
    · intro hused
      refine hrest fun s hs => ?_
      rw [hslot] at hs
      injection hs with hs
      subst hs
      have hexact : alignUp ((-bottom).toNat + 16) 16 = (-bottom).toNat + 16 :=
        alignUp_of_dvd (by omega) (by omega)
      refine ⟨by omega, h16, ?_⟩
      unfold StackLayout.sp
      omega

end Frame

/-- One callee save and a call with nine integer arguments: the outgoing slot starts 24 bytes below
the frame pointer, and the stack pointer is 32 bytes below it. -/
theorem not_computeStackLayout_wellFormed :
    ¬∀ (func : IRFunction) (calleeSavesCount : Nat) (callArgTypes : List (List IRType)),
      (computeStackLayoutWithInfo func calleeSavesCount callArgTypes).totalSize < 2 ^ 31 →
        (computeStackLayoutWithInfo func calleeSavesCount callArgTypes).WellFormed := by
  intro h
  have hframe := h { name := "caller", blocks := [] } 1 [List.replicate 9 .i64] (by decide)
  have hslot := hframe.outgoing ⟨"outgoing_args", -24, 16, 16⟩ (by decide)
  exact absurd hslot (by decide)

end Vuma.Codegen
