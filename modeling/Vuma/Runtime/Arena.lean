import Vuma.Lib.Steps

/-!
# The runtime arena

`Arena` of `runtime/arena.rs`, in a release build without the feature `pmt-runtime-check`, with its
two mirrors `lean_alloc_mirror` and `arena_alloc_verified`. A `usize` is a `u64`, and sums of them
wrap around. A trap is `none`. What the system allocator answers is an argument: the address of the
region, or `none` for a null pointer.

The rounding of a size wraps around at the top of the range: a request of more than `2 ^ 64 - 8`
bytes is rounded to none at all, and is granted.
-/

namespace Vuma.Runtime

open Lib

/-! ## The arena -/

/-- `Arena`, without the layout, which is that of the capacity, and without the thread. -/
structure Arena where
  base : UInt64
  offset : UInt64
  capacity : UInt64
  deriving DecidableEq, Repr

/-- The size, rounded up to a multiple of eight, is at most `isize::MAX`:
`Layout::from_size_align` with alignment eight succeeds. -/
def layoutOk (size : UInt64) : Bool := size.toNat ≤ 2 ^ 63 - 8

def checkedAdd (a b : UInt64) : Option UInt64 :=
  if a.toNat + b.toNat < 2 ^ 64 then some (a + b) else none

namespace Arena

def create (alloc : Option UInt64) (capacity : UInt64) : Option Arena :=
  if layoutOk capacity then alloc.map fun base => ⟨base, 0, capacity⟩ else none

/-- `alloc_raw`: the pointer and the arena after it. -/
def allocRaw (a : Arena) (size : UInt64) : Option (UInt64 × Arena) :=
  let alignedSize := (size + 7) &&& ~~~7
  match checkedAdd a.offset alignedSize with
  | none => none
  | some newOffset =>
    if newOffset > a.capacity then none
    else some (a.base + a.offset, { a with offset := newOffset })

def grow (a : Arena) (realloc : Option UInt64) (minCapacity : UInt64) : Option Arena :=
  if minCapacity ≤ a.capacity then some a
  else if layoutOk minCapacity then
    realloc.map fun base => { a with base := base, capacity := minCapacity }
  else none

end Arena

/-! ## The mirrors

Their `checked_add` on `u128` never fails. -/

def leanAllocMirror (baseAddr capacity used allocId size _align : UInt64) :
    Option (UInt64 × UInt64 × UInt64 × UInt64) :=
  let alignedSize := UInt64.ofBitVec
    (((size.toBitVec.setWidth 128 + 7#128) &&& ~~~7#128).setWidth 64)
  let newUsed := used.toBitVec.setWidth 128 + alignedSize.toBitVec.setWidth 128
  if newUsed ≥ 1#128 <<< 64 then none
  else
    let newUsed := UInt64.ofBitVec (newUsed.setWidth 64)
    if newUsed > capacity then none
    else some (newUsed, allocId + 1, baseAddr + used, allocId)

def arenaAllocVerified (baseAddr capacity used allocId size _align : UInt64) :
    Option (UInt64 × UInt64 × UInt64 × UInt64) :=
  let alignedSize := (size + 7) &&& ~~~7
  let newUsed := used.toBitVec.setWidth 128 + alignedSize.toBitVec.setWidth 128
  if newUsed ≥ 1#128 <<< 64 then none
  else
    let newUsed := UInt64.ofBitVec (newUsed.setWidth 64)
    if newUsed > capacity then none
    else some (newUsed, allocId + 1, baseAddr + used, allocId)

/-- The mirrors agree on all arguments: cutting off the upper half undoes the wider rounding. -/
theorem leanAllocMirror_eq (baseAddr capacity used allocId size align : UInt64) :
    leanAllocMirror baseAddr capacity used allocId size align =
      arenaAllocVerified baseAddr capacity used allocId size align := by
  have halign : UInt64.ofBitVec
      (((size.toBitVec.setWidth 128 + 7#128) &&& ~~~7#128).setWidth 64) =
        (size + 7) &&& ~~~7 := by
    refine UInt64.toBitVec_inj.mp ?_
    rw [BitVec.setWidth_and, BitVec.setWidth_add _ _ (by decide),
      BitVec.setWidth_setWidth_of_le _ (by decide), BitVec.setWidth_eq]
    rfl
  unfold leanAllocMirror arenaAllocVerified
  rw [halign]

/-! ## Runs -/

/-- A call of `alloc_raw` or of `grow`; the latter with what the system allocator answers. -/
inductive ArenaOp where
  | allocRaw (size : UInt64)
  | grow (minCapacity : UInt64) (realloc : Option UInt64)
  deriving DecidableEq, Repr

/-- A range that `alloc_raw` has returned, relative to the base, which `grow` may move. -/
structure Block where
  offset : UInt64
  size : UInt64
  deriving DecidableEq, Repr

/-- An arena and the blocks that it has given out, the last one first. -/
structure ArenaRun where
  arena : Arena
  blocks : List Block := []
  deriving DecidableEq, Repr

/-- One call. -/
def ArenaRun.step (s : ArenaRun) : ArenaOp → Option ArenaRun
  | .allocRaw size =>
    (s.arena.allocRaw size).map fun r => ⟨r.2, ⟨s.arena.offset, size⟩ :: s.blocks⟩
  | .grow minCapacity realloc =>
    (s.arena.grow realloc minCapacity).map fun arena => ⟨arena, s.blocks⟩

/-- The ranges have no address in common. -/
def Block.Disjoint (b c : Block) : Prop :=
  ∀ n, b.offset.toNat ≤ n → n < b.offset.toNat + b.size.toNat → c.offset.toNat ≤ n →
    n < c.offset.toNat + c.size.toNat → False

/-- The blocks are disjoint, start at multiples of eight and lie within the capacity. -/
structure ArenaRun.Ok (s : ArenaRun) : Prop where
  disjoint : s.blocks.Pairwise Block.Disjoint
  aligned : ∀ b ∈ s.blocks, 8 ∣ b.offset.toNat
  inBounds : ∀ b ∈ s.blocks, b.offset.toNat + b.size.toNat ≤ s.arena.capacity.toNat

/-- A size, rounded up to a multiple of eight. -/
def roundUp (size : UInt64) : Nat := (size.toNat + 7) / 8 * 8

/-- `alloc_raw` traps exactly if the rounded block does not fit. -/
def ArenaRun.TrapsExactly (s : ArenaRun) (op : ArenaOp) : Prop :=
  ∀ size, op = .allocRaw size →
    (s.arena.allocRaw size = none ↔
      s.arena.capacity.toNat < s.arena.offset.toNat + roundUp size)

/-- A request whose size can be rounded up. -/
def ArenaOp.Roundable (op : ArenaOp) : Prop :=
  ∀ size, op = .allocRaw size → size.toNat ≤ 2 ^ 64 - 8

/-! ## Rounding -/

theorem and_not_seven (x : BitVec 64) : x &&& ~~~7#64 = (x >>> 3) <<< 3 := by
  refine BitVec.eq_of_getLsbD_eq fun i hi => ?_
  have hseven : (7#64).getLsbD i = decide (i < 3) := by
    change Nat.testBit (2 ^ 3 - 1) i = _
    rw [Nat.testBit_two_pow_sub_one]
  rw [BitVec.getLsbD_and, BitVec.getLsbD_not, hseven, BitVec.getLsbD_shiftLeft,
    BitVec.getLsbD_ushiftRight]
  by_cases hlow : i < 3
  · simp [hlow]
  · have hback : 3 + (i - 3) = i := by omega
    simp [hlow, hi, hback]

theorem toNat_and_not_seven (x : UInt64) : (x &&& ~~~(7 : UInt64)).toNat = x.toNat / 8 * 8 := by
  have hbits : (x &&& ~~~(7 : UInt64)).toNat = (x.toBitVec &&& ~~~7#64).toNat := rfl
  have hlt := x.toNat_lt
  rw [hbits, and_not_seven, BitVec.toNat_shiftLeft, BitVec.toNat_ushiftRight, Nat.shiftLeft_eq,
    Nat.shiftRight_eq_div_pow, UInt64.toNat_toBitVec]
  omega

/-- The size that `alloc_raw` computes. -/
theorem toNat_alignedSize (size : UInt64) :
    ((size + 7) &&& ~~~(7 : UInt64)).toNat = (size.toNat + 7) % 2 ^ 64 / 8 * 8 := by
  rw [toNat_and_not_seven, UInt64.toNat_add]
  rfl

theorem toNat_alignedSize_of_le {size : UInt64} (h : size.toNat ≤ 2 ^ 64 - 8) :
    ((size + 7) &&& ~~~(7 : UInt64)).toNat = roundUp size := by
  rw [toNat_alignedSize, Nat.mod_eq_of_lt (by omega), roundUp]

/-- At the top of the range the rounding wraps around. -/
theorem toNat_alignedSize_of_gt {size : UInt64} (h : 2 ^ 64 - 8 < size.toNat) :
    ((size + 7) &&& ~~~(7 : UInt64)).toNat = 0 := by
  have hlt := size.toNat_lt
  rw [toNat_alignedSize]
  omega

/-! ## What a call does -/

namespace Arena

variable {a a' : Arena} {size : UInt64}

theorem allocRaw_eq_none_iff : a.allocRaw size = none ↔
    a.capacity.toNat < a.offset.toNat + ((size + 7) &&& ~~~(7 : UInt64)).toNat := by
  have hcap := a.capacity.toNat_lt
  unfold allocRaw checkedAdd
  dsimp only
  by_cases hsum : a.offset.toNat + ((size + 7) &&& ~~~(7 : UInt64)).toNat < 2 ^ 64
  · have hfull : a.offset + ((size + 7) &&& ~~~(7 : UInt64)) > a.capacity ↔
        a.capacity.toNat < a.offset.toNat + ((size + 7) &&& ~~~(7 : UInt64)).toNat := by
      rw [gt_iff_lt, UInt64.lt_iff_toNat_lt, UInt64.toNat_add, Nat.mod_eq_of_lt hsum]
    rw [if_pos hsum, ← hfull]
    dsimp only
    split
    · next hgt => exact iff_of_true rfl hgt
    · next hgt => exact iff_of_false nofun hgt
  · rw [if_neg hsum]
    exact iff_of_true rfl (by omega)

theorem allocRaw_eq_some {p : UInt64} (h : a.allocRaw size = some (p, a')) :
    a'.capacity = a.capacity ∧
      a'.offset.toNat = a.offset.toNat + ((size + 7) &&& ~~~(7 : UInt64)).toNat ∧
      a'.offset.toNat ≤ a.capacity.toNat := by
  have hfits : ¬ a.capacity.toNat < a.offset.toNat + ((size + 7) &&& ~~~(7 : UInt64)).toNat := by
    rw [← allocRaw_eq_none_iff, h]
    nofun
  have hcap := a.capacity.toNat_lt
  have hsum : a.offset.toNat + ((size + 7) &&& ~~~(7 : UInt64)).toNat < 2 ^ 64 := by omega
  unfold allocRaw checkedAdd at h
  dsimp only at h
  rw [if_pos hsum] at h
  dsimp only at h
  split at h
  · cases h
  · cases h
    dsimp only
    rw [UInt64.toNat_add, Nat.mod_eq_of_lt hsum]
    exact ⟨rfl, rfl, by omega⟩

theorem grow_eq_some {realloc : Option UInt64} {minCapacity : UInt64}
    (h : a.grow realloc minCapacity = some a') :
    a'.offset = a.offset ∧ a.capacity.toNat ≤ a'.capacity.toNat ∧
      (a'.capacity = a.capacity ∨ layoutOk a'.capacity = true) := by
  unfold grow at h
  split at h
  · cases h
    exact ⟨rfl, le_rfl, .inl rfl⟩
  · next hlt =>
    split at h
    · next hlayout =>
      obtain ⟨base, -, rfl⟩ := Option.map_eq_some_iff.mp h
      rw [UInt64.le_iff_toNat_le, not_le] at hlt
      exact ⟨rfl, hlt.le, .inr hlayout⟩
    · cases h

end Arena

/-! ## What all calls keep -/

/-- Besides what is promised: the blocks lie below the offset, and the capacity below `2 ^ 63`. -/
structure ArenaRun.Inv (s : ArenaRun) : Prop where
  ok : s.Ok
  aligned : 8 ∣ s.arena.offset.toNat
  offset_le : s.arena.offset.toNat ≤ s.arena.capacity.toNat
  below : ∀ b ∈ s.blocks, b.offset.toNat + b.size.toNat ≤ s.arena.offset.toNat
  layout : layoutOk s.arena.capacity = true

namespace ArenaRun

theorem inv_create {alloc : Option UInt64} {capacity : UInt64} {a : Arena}
    (h : Arena.create alloc capacity = some a) : Inv ⟨a, []⟩ := by
  unfold Arena.create at h
  split at h
  · next hlayout =>
    obtain ⟨base, -, rfl⟩ := Option.map_eq_some_iff.mp h
    exact ⟨⟨List.Pairwise.nil, nofun, nofun⟩, Nat.dvd_zero 8, Nat.zero_le _, nofun, hlayout⟩
  · cases h

theorem Inv.step {s s' : ArenaRun} {op : ArenaOp} (h : s.Inv) (hop : op.Roundable)
    (hstep : s.step op = some s') : s'.Inv := by
  cases op with
  | allocRaw size =>
    obtain ⟨⟨p, a⟩, halloc, rfl⟩ := Option.map_eq_some_iff.mp hstep
    obtain ⟨hcap, hoffset, hle⟩ := Arena.allocRaw_eq_some halloc
    rw [toNat_alignedSize_of_le (hop size rfl)] at hoffset
    have hround : size.toNat ≤ roundUp size ∧ 8 ∣ roundUp size :=
      ⟨by unfold roundUp; omega, dvd_mul_left 8 _⟩
    have hbelow : ∀ b ∈ (⟨s.arena.offset, size⟩ : Block) :: s.blocks,
        b.offset.toNat + b.size.toNat ≤ a.offset.toNat := by
      intro b hb
      rcases List.mem_cons.mp hb with rfl | hb
      · dsimp only
        omega
      · have := h.below b hb
        omega
    refine ⟨⟨List.pairwise_cons.mpr ⟨fun b hb n hn _ _ hn' => ?_, h.ok.disjoint⟩,
      fun b hb => ?_, fun b hb => ?_⟩, ?_, ?_, hbelow, ?_⟩
    · -- the new block starts where the others end
      have := h.below b hb
      dsimp only at hn
      omega
    · rcases List.mem_cons.mp hb with rfl | hb
      · exact h.aligned
      · exact h.ok.aligned b hb
    · have := hbelow b hb
      dsimp only
      rw [hcap]
      omega
    · dsimp only
      rw [hoffset]
      exact Nat.dvd_add h.aligned hround.2
    · dsimp only
      rw [hcap]
      exact hle
    · dsimp only
      rw [hcap]
      exact h.layout
  | grow minCapacity realloc =>
    obtain ⟨a, hgrow, rfl⟩ := Option.map_eq_some_iff.mp hstep
    obtain ⟨hoffset, hle, hlayout⟩ := Arena.grow_eq_some hgrow
    refine ⟨⟨h.ok.disjoint, h.ok.aligned, fun b hb => (h.ok.inBounds b hb).trans hle⟩, ?_, ?_,
      fun b hb => ?_, ?_⟩
    · dsimp only
      rw [hoffset]
      exact h.aligned
    · dsimp only
      rw [hoffset]
      exact h.offset_le.trans hle
    · dsimp only
      rw [hoffset]
      exact h.below b hb
    · rcases hlayout with hcap | hlayout
      · dsimp only
        rw [hcap]
        exact h.layout
      · exact hlayout

/-- A size that cannot be rounded up is granted. -/
theorem Inv.trapsExactly_iff {s : ArenaRun} (h : s.Inv) (op : ArenaOp) :
    s.TrapsExactly op ↔ op.Roundable := by
  refine forall_congr' fun size => forall_congr' fun _ => ?_
  rw [Arena.allocRaw_eq_none_iff]
  by_cases hsize : size.toNat ≤ 2 ^ 64 - 8
  · rw [toNat_alignedSize_of_le hsize]
    exact iff_of_true Iff.rfl hsize
  · rw [toNat_alignedSize_of_gt (not_le.mp hsize)]
    refine iff_of_false (fun htraps => ?_) hsize
    have hcap := s.arena.capacity.toNat_lt
    have hle := h.offset_le
    have hfull : s.arena.capacity.toNat < s.arena.offset.toNat + roundUp size := by
      unfold roundUp
      omega
    have := htraps.mpr hfull
    omega

end ArenaRun

/-- In every run on a new arena the blocks are disjoint, aligned and in bounds and requests trap
exactly if they do not fit, if and only if every request that the run reaches can be rounded up;
and the mirrors agree on all arguments. -/
theorem arena_run_iff {alloc : Option UInt64} {capacity : UInt64} {a : Arena}
    (h : Arena.create alloc capacity = some a) (ops : List ArenaOp) :
    ((Steps.Always ArenaRun.step ArenaRun.Ok ⟨a, []⟩ ops ∧
        Steps.Along ArenaRun.step ArenaRun.TrapsExactly ⟨a, []⟩ ops) ↔
      Steps.Along ArenaRun.step (fun _ op => op.Roundable) ⟨a, []⟩ ops) ∧
    ∀ baseAddr capacity used allocId size align,
      leanAllocMirror baseAddr capacity used allocId size align =
        arenaAllocVerified baseAddr capacity used allocId size align := by
  have hinv := ArenaRun.inv_create h
  have hstep : ∀ s op s', ArenaRun.Inv s → op.Roundable → ArenaRun.step s op = some s' →
      ArenaRun.Inv s' := fun _ _ _ hs hop hs' => hs.step hop hs'
  have htraps : Steps.Along ArenaRun.step ArenaRun.TrapsExactly ⟨a, []⟩ ops ↔
      Steps.Along ArenaRun.step (fun _ op => op.Roundable) ⟨a, []⟩ ops :=
    Steps.along_iff hstep (fun s op hs => hs.trapsExactly_iff op) hinv
  refine ⟨⟨fun hgood => htraps.mp hgood.2, fun hround => ⟨?_, htraps.mpr hround⟩⟩,
    leanAllocMirror_eq⟩
  exact (Steps.always_of_along hstep hinv hround).mono fun _ hs => hs.ok

/-- Two blocks, the second of them in a larger arena. -/
theorem arena_run_twoBlocks :
    Steps.Always ArenaRun.step ArenaRun.Ok ⟨⟨4096, 0, 16⟩, []⟩
      [.allocRaw 5, .grow 64 (some 8192), .allocRaw 16] := by
  have hcreate : Arena.create (some 4096) 16 = some ⟨4096, 0, 16⟩ := rfl
  have hiff := (arena_run_iff hcreate [.allocRaw 5, .grow 64 (some 8192), .allocRaw 16]).1
  refine (hiff.mpr ⟨fun size hsize => ?_, fun _ _ => ⟨nofun, fun _ _ =>
    ⟨fun size hsize => ?_, fun _ _ => trivial⟩⟩⟩).1
  · cases hsize
    decide
  · cases hsize
    decide

/-- A request for all bytes there are is granted by an arena of eight. -/
theorem not_arena_run : ¬∀ (alloc : Option UInt64) (capacity : UInt64) (a : Arena),
    Arena.create alloc capacity = some a → ∀ ops,
      Steps.Always ArenaRun.step ArenaRun.Ok ⟨a, []⟩ ops ∧
        Steps.Along ArenaRun.step ArenaRun.TrapsExactly ⟨a, []⟩ ops := by
  intro h
  have hrun := (h (some 4096) 8 _ rfl [.allocRaw 18446744073709551615]).2
  have hgranted : ¬ (⟨4096, 0, 8⟩ : Arena).allocRaw 18446744073709551615 = none := by decide
  exact hgranted ((hrun.1 _ rfl).mpr (by decide))

end Vuma.Runtime
