import Vuma.Ipc.Sha256Correct
import Vuma.Lib.Checked

/-!
# The hash functions, index by index

`hmac_sha256.rs` with its arrays, indices and machine words: a read, a write or a copy outside an
array panics, and so does a sum or a product that does not fit a word and is not a wrapping one. The
loops of the hash functions stay in the range of their arrays and of the machine words, and compute
the standard functions.
-/

namespace Vuma.Ipc.Indexed

open Lib Checked

def sha256Transform (state : ShaState) (block : Bytes) : Checked Empty ShaState := do
  let w ← (List.range' 0 16).foldlM (fun w i => do
    let b₀ ← getAt block (← mul i 4)
    let b₁ ← getAt block (← add (← mul i 4) 1)
    let b₂ ← getAt block (← add (← mul i 4) 2)
    let b₃ ← getAt block (← add (← mul i 4) 3)
    setAt w i (UInt32.ofNat (ofLeBytes [b₃, b₂, b₁, b₀]))) (List.replicate 64 0)
  let w ← (List.range' 16 48).foldlM (fun w i => do
    let w₂ ← getAt w (← sub i 2)
    let w₇ ← getAt w (← sub i 7)
    let w₁₅ ← getAt w (← sub i 15)
    let w₁₆ ← getAt w (← sub i 16)
    setAt w i (ss1 w₂ + w₇ + ss0 w₁₅ + w₁₆)) w
  let r ← (List.range' 0 64).foldlM (fun s i => do
    let k ← getAt roundConstants i
    let wi ← getAt w i
    pure (shaRound s k wi)) state
  pure ⟨state.a + r.a, state.b + r.b, state.c + r.c, state.d + r.d, state.e + r.e, state.f + r.f,
    state.g + r.g, state.h + r.h⟩

/-- `[u32; 8]` as a state. -/
def stateWords (s : ShaState) : List UInt32 := [s.a, s.b, s.c, s.d, s.e, s.f, s.g, s.h]

/-- `(0..len).step_by(step)`. -/
def stepBy (len step : Nat) : List Nat :=
  (List.range' 0 ((len + step - 1) / step)).map (step * ·)

def sha256 (message : Bytes) : Checked Empty Bytes := do
  let msgLen := message.length
  let bitLen ← mul msgLen 8
  let paddedLen ← (if msgLen % 64 < 56 then do mul (← add (msgLen / 64) 1) 64
    else do mul (← add (msgLen / 64) 2) 64)
  let padded := List.replicate paddedLen 0
  let padded ← copyAt padded 0 msgLen message
  let padded ← setAt padded msgLen 0x80
  let padded ← copyAt padded (← sub paddedLen 8) paddedLen (beBytes 8 bitLen)
  let state ← (stepBy paddedLen 64).foldlM (fun state cs => do
    let blk ← slice padded cs (← add cs 64)
    sha256Transform state blk) hInit
  (List.range' 0 8).foldlM (fun digest i => do
    let word ← getAt (stateWords state) i
    copyAt digest (← mul i 4) (← add (← mul i 4) 4) (beBytes 4 word.toNat)) (List.replicate 32 0)

def hmacSha256 (key message : Bytes) : Checked Empty Bytes := do
  let kPadded := List.replicate blockSize 0
  let kPadded ← (if key.length ≤ blockSize then copyAt kPadded 0 key.length key
    else do
      let kh ← sha256 key
      copyAt kPadded 0 32 kh)
  let pads ← (List.range' 0 blockSize).foldlM (fun (pads : Bytes × Bytes) i => do
    let k ← getAt kPadded i
    let ipad ← setAt pads.1 i (k ^^^ 0x36)
    let opad ← setAt pads.2 i (k ^^^ 0x5c)
    pure (ipad, opad)) (List.replicate blockSize 0, List.replicate blockSize 0)
  let _ ← add blockSize message.length
  let innerHash ← sha256 (pads.1 ++ message)
  let outer := List.replicate (blockSize + 32) 0
  let outer ← copyAt outer 0 blockSize pads.2
  let outer ← copyAt outer blockSize outer.length innerHash
  sha256 outer

open Sha256

/-! ## The compression function -/

/-- The word with the number `j` of a byte string. -/
def wordAt (bytes : Bytes) (j : Nat) : UInt32 :=
  UInt32.ofNat (ofLeBytes [bytes.getD (j * 4 + 3) 0, bytes.getD (j * 4 + 2) 0,
    bytes.getD (j * 4 + 1) 0, bytes.getD (j * 4) 0])

theorem blockWords_eq_wordAt (bytes : Bytes) :
    blockWords bytes = (List.range (bytes.length / 4)).map (wordAt bytes) := by
  induction bytes using blockWords.induct with
  | case1 b₀ b₁ b₂ b₃ rest ih =>
    have hcount : (b₀ :: b₁ :: b₂ :: b₃ :: rest).length / 4 = rest.length / 4 + 1 := by
      simp only [List.length_cons]
      omega
    rw [blockWords, ih, hcount, List.range_succ_eq_map, List.map_cons, List.map_map]
    congr 1
    apply List.map_congr_left
    intro j _
    show wordAt rest j = wordAt _ (j + 1)
    have hindex : (j + 1) * 4 = j * 4 + 4 := by omega
    rw [wordAt, wordAt, hindex]
    rfl
  | case2 bytes hshort =>
    rcases bytes with - | ⟨b₀, - | ⟨b₁, - | ⟨b₂, - | ⟨b₃, rest⟩⟩⟩⟩
    · rfl
    · simp [blockWords]
    · simp [blockWords]
    · simp [blockWords]
    · exact (hshort b₀ b₁ b₂ b₃ rest rfl).elim

theorem getAt_getD {xs : Bytes} {i : Nat} (h : i < xs.length) :
    getAt (ε := Empty) xs i = pure (xs.getD i 0) := by
  apply getAt_eq
  rw [List.getD_eq_getElem _ _ h, List.getElem?_eq_getElem h]

section

variable {block : Bytes}

/-- The schedule of a block as a list. -/
def scheduleList (block : Bytes) : List UInt32 := (List.range 64).map (schedule (wordAt block))

theorem length_scheduleList (block : Bytes) : (scheduleList block).length = 64 := by
  rw [scheduleList, List.length_map, List.length_range]

theorem extendSchedule_blockWords (h : block.length = 64) :
    extendSchedule 48 (blockWords block) = scheduleList block := by
  have hfirst : blockWords block = (List.range 16).map (schedule (wordAt block)) := by
    rw [blockWords_eq_wordAt, h]
    apply List.map_congr_left
    intro t ht
    rw [schedule, if_pos (List.mem_range.1 ht)]
  rw [hfirst, extendSchedule_eq _ 48 (by decide)]
  rfl

/-- The array after the words before `i` are written. -/
def scheduleArray (block : Bytes) (i : Nat) : List UInt32 :=
  (scheduleList block).take i ++ List.replicate (64 - i) 0

theorem getElem?_scheduleList {i : Nat} (hi : i < 64) :
    (scheduleList block)[i]? = some (schedule (wordAt block) i) := by
  rw [scheduleList, List.getElem?_map, List.getElem?_range hi]
  rfl

theorem getAt_scheduleArray {i j : Nat} (hj : j < i) (hi : i ≤ 64) :
    getAt (ε := Empty) (scheduleArray block i) j = pure (schedule (wordAt block) j) := by
  apply getAt_eq
  have hlen : ((scheduleList block).take i).length = i := by
    rw [List.length_take, length_scheduleList, Nat.min_eq_left hi]
  rw [scheduleArray, List.getElem?_append_left (by rwa [hlen]), List.getElem?_take_of_lt hj,
    getElem?_scheduleList (by omega)]

/-- Writing the next word of the schedule. -/
theorem setAt_scheduleArray {i : Nat} (hi : i < 64) :
    setAt (ε := Empty) (scheduleArray block i) i (schedule (wordAt block) i) =
      pure (scheduleArray block (i + 1)) := by
  have hlen : ((scheduleList block).take i).length = i := by
    rw [List.length_take, length_scheduleList, Nat.min_eq_left (by omega)]
  have hzeros : 64 - i = 64 - (i + 1) + 1 := by omega
  have hset := setAt_fill (ε := Empty) (z := 0) ((scheduleList block).take i) (64 - (i + 1))
    (schedule (wordAt block) i)
  rw [hlen, ← hzeros] at hset
  rw [scheduleArray, hset, scheduleArray, List.take_add_one, getElem?_scheduleList hi]
  rfl

/-- The working variables before the round `i`. -/
def afterRounds (block : Bytes) (state : ShaState) (i : Nat) : ShaState :=
  ((roundConstants.zip (scheduleList block)).take i).foldl (fun s kw => shaRound s kw.1 kw.2) state

/-- The compression of a block stays in its arrays. -/
theorem sha256Transform_eq (state : ShaState) (h : block.length = 64) :
    sha256Transform state block = pure (Ipc.sha256Transform state block) := by
  have hbound : usizeBound = 2 ^ 64 := rfl
  have hread : (List.range' 0 16).foldlM (fun w i => do
      let b₀ ← getAt block (← mul i 4)
      let b₁ ← getAt block (← add (← mul i 4) 1)
      let b₂ ← getAt block (← add (← mul i 4) 2)
      let b₃ ← getAt block (← add (← mul i 4) 3)
      setAt (ε := Empty) w i (UInt32.ofNat (ofLeBytes [b₃, b₂, b₁, b₀]))) (scheduleArray block 0) =
        pure (scheduleArray block 16) := by
    apply foldlM_range'_eq
    intro i _ hi
    have hword : UInt32.ofNat (ofLeBytes [block.getD (i * 4 + 3) 0, block.getD (i * 4 + 2) 0,
        block.getD (i * 4 + 1) 0, block.getD (i * 4) 0]) = schedule (wordAt block) i := by
      rw [schedule, if_pos (by omega)]
      rfl
    rw [mul_eq (by omega)]
    simp only [pure_bind]
    rw [add_eq (by omega), add_eq (by omega), add_eq (by omega)]
    simp only [pure_bind]
    rw [getAt_getD (by omega), getAt_getD (by omega), getAt_getD (by omega), getAt_getD (by omega)]
    simp only [pure_bind]
    rw [hword, setAt_scheduleArray (by omega)]
  have hextend : (List.range' 16 48).foldlM (fun w i => do
      let w₂ ← getAt w (← sub i 2)
      let w₇ ← getAt w (← sub i 7)
      let w₁₅ ← getAt w (← sub i 15)
      let w₁₆ ← getAt w (← sub i 16)
      setAt (ε := Empty) w i (ss1 w₂ + w₇ + ss0 w₁₅ + w₁₆)) (scheduleArray block 16) =
        pure (scheduleArray block 64) := by
    apply foldlM_range'_eq
    intro i hlo hi
    have hword : ss1 (schedule (wordAt block) (i - 2)) + schedule (wordAt block) (i - 7) +
        ss0 (schedule (wordAt block) (i - 15)) + schedule (wordAt block) (i - 16) =
          schedule (wordAt block) i := by
      rw [schedule.eq_def _ i, if_neg (by omega)]
      rfl
    rw [sub_eq (by omega), sub_eq (by omega), sub_eq (by omega), sub_eq (by omega)]
    simp only [pure_bind]
    rw [getAt_scheduleArray (by omega) (by omega), getAt_scheduleArray (by omega) (by omega),
      getAt_scheduleArray (by omega) (by omega), getAt_scheduleArray (by omega) (by omega)]
    simp only [pure_bind]
    rw [hword, setAt_scheduleArray (by omega)]
  have hrounds : (List.range' 0 64).foldlM (fun s i => do
      let k ← getAt roundConstants i
      let wi ← getAt (scheduleArray block 64) i
      pure (shaRound s k wi)) state =
        (pure ((roundConstants.zip (scheduleList block)).foldl
          (fun s kw => shaRound s kw.1 kw.2) state) : Checked Empty ShaState) := by
    have hlen : (roundConstants.zip (scheduleList block)).length = 64 := by
      rw [List.length_zip, length_scheduleList]
      rfl
    have hloop : (List.range' 0 64).foldlM (fun s i => do
        let k ← getAt roundConstants i
        let wi ← getAt (scheduleArray block 64) i
        pure (shaRound s k wi)) (afterRounds block state 0) =
          (pure (afterRounds block state (0 + 64)) : Checked Empty ShaState) := by
      apply foldlM_range'_eq
      intro i _ hi
      have hk : roundConstants[i]? = some (roundConstants.getD i 0) := by
        have hi' : i < roundConstants.length := by
          show i < 64
          omega
        rw [List.getD_eq_getElem _ _ hi', List.getElem?_eq_getElem hi']
      have hnext : (roundConstants.zip (scheduleList block))[i]? =
          some (roundConstants.getD i 0, schedule (wordAt block) i) :=
        List.getElem?_zip_eq_some.2 ⟨hk, getElem?_scheduleList (by omega)⟩
      rw [getAt_eq hk, pure_bind, getAt_scheduleArray (by omega) (by omega), pure_bind,
        afterRounds, afterRounds, List.take_add_one, hnext, List.foldl_append]
      rfl
    rw [afterRounds, afterRounds, List.take_of_length_le hlen.le] at hloop
    exact hloop
  have hzeros : List.replicate 64 0 = scheduleArray block 0 := rfl
  rw [sha256Transform, hzeros, hread, pure_bind, hextend, pure_bind, hrounds, pure_bind,
    ← extendSchedule_blockWords h]
  rfl

end

/-! ## The hash -/

/-- The length that the padding aims at. -/
def paddedLen (n : Nat) : Nat := if n % 64 < 56 then (n / 64 + 1) * 64 else (n / 64 + 2) * 64

theorem paddedLen_bounds (n : Nat) : n + 9 ≤ paddedLen n ∧ paddedLen n ≤ n + 72 ∧
    paddedLen n % 64 = 0 := by
  rw [paddedLen]
  split <;> omega

/-- The three copies that make the padded message. -/
theorem copyAt_padMessage (message : Bytes) (bitLen : Nat) :
    ∃ p p' : Bytes,
      copyAt (ε := Empty) (List.replicate (paddedLen message.length) 0) 0 message.length message =
        pure p ∧
      setAt (ε := Empty) p message.length 0x80 = pure p' ∧
      copyAt (ε := Empty) p' (paddedLen message.length - 8) (paddedLen message.length)
        (beBytes 8 bitLen) =
        pure (padTo (paddedLen message.length - 8) (message ++ [0x80]) ++ beBytes 8 bitLen) := by
  obtain ⟨hge, -, -⟩ := paddedLen_bounds message.length
  obtain ⟨z, hz⟩ : ∃ z, paddedLen message.length = message.length + (z + 8 + 1) :=
    ⟨paddedLen message.length - message.length - 9, by omega⟩
  have hcopy : copyAt (ε := Empty) (List.replicate (message.length + (z + 8 + 1)) 0) 0
      message.length message = pure (message ++ List.replicate (z + 8 + 1) 0) := by
    have hfill := copyAt_fill (ε := Empty) (z := (0 : UInt8)) [] message (z + 8 + 1)
    rwa [List.length_nil, Nat.zero_add, List.nil_append, List.nil_append] at hfill
  have hset : setAt (ε := Empty) (message ++ List.replicate (z + 8 + 1) 0) message.length 0x80 =
      pure (message ++ [0x80] ++ List.replicate (z + 8) 0) := setAt_fill message (z + 8) 0x80
  have hpadTo : padTo (message.length + 1 + z) (message ++ [0x80]) =
      message ++ [0x80] ++ List.replicate z 0 := by
    rw [padTo, List.length_append, List.length_singleton, Nat.add_sub_cancel_left]
  have hlen : (message ++ [0x80] ++ List.replicate z 0).length = message.length + 1 + z := by
    rw [List.length_append, List.length_append, List.length_singleton, List.length_replicate]
  have hlast : copyAt (ε := Empty) (message ++ [0x80] ++ List.replicate (z + 8) 0)
      (message.length + 1 + z) (message.length + (z + 8 + 1)) (beBytes 8 bitLen) =
        pure (message ++ [0x80] ++ List.replicate z 0 ++ beBytes 8 bitLen) := by
    have hfill := copyAt_fill (ε := Empty) (z := (0 : UInt8))
      (message ++ [0x80] ++ List.replicate z 0) (beBytes 8 bitLen) 0
    have hend : message.length + 1 + z + 8 = message.length + (z + 8 + 1) := by omega
    rwa [hlen, length_beBytes, List.append_assoc _ (List.replicate z 0),
      List.replicate_append_replicate, Nat.add_zero, List.replicate_zero, List.append_nil,
      hend] at hfill
  have hstart : message.length + (z + 8 + 1) - 8 = message.length + 1 + z := by omega
  rw [hz, hstart, hpadTo]
  exact ⟨_, _, hcopy, hset, hlast⟩

/-- The state after `n` blocks. -/
def afterBlocks (padded : Bytes) (n : Nat) : ShaState :=
  (List.range n).foldl (fun s i => Ipc.sha256Transform s ((padded.drop (64 * i)).take 64)) hInit

theorem foldlM_blocks (padded : Bytes) (hmod : padded.length % 64 = 0)
    (hlt : padded.length < usizeBound) :
    (stepBy padded.length 64).foldlM (fun state cs => do
      let blk ← slice padded cs (← add cs 64)
      sha256Transform state blk) hInit =
    (pure (afterBlocks padded (padded.length / 64)) : Checked Empty ShaState) := by
  have hcount : (padded.length + 64 - 1) / 64 = padded.length / 64 := by omega
  have hloop : (List.range' 0 (padded.length / 64)).foldlM (fun state i => do
      let blk ← slice padded (64 * i) (← add (64 * i) 64)
      sha256Transform state blk) (afterBlocks padded 0) =
        (pure (afterBlocks padded (0 + padded.length / 64)) : Checked Empty ShaState) := by
    apply foldlM_range'_eq
    intro i _ hi
    have hend : 64 * i + 64 ≤ padded.length := by omega
    have hslice : slice (ε := Empty) padded (64 * i) (64 * i + 64) =
        pure ((padded.drop (64 * i)).take 64) := by
      rw [slice, if_pos ⟨by omega, hend⟩, List.drop_take, Nat.add_sub_cancel_left]
    have hlen : ((padded.drop (64 * i)).take 64).length = 64 := by
      rw [List.length_take, List.length_drop]
      omega
    rw [add_eq (by omega), pure_bind, hslice, pure_bind, sha256Transform_eq _ hlen, afterBlocks,
      afterBlocks, List.range_succ, List.foldl_append]
    rfl
  rw [stepBy, hcount, List.foldlM_map]
  rwa [Nat.zero_add] at hloop

/-- The digest when `i` words are written. -/
def digestArray (s : ShaState) (i : Nat) : Bytes :=
  ((stateWords s).take i).flatMap (fun word => beBytes 4 word.toNat) ++
    List.replicate (32 - i * 4) 0

theorem length_flatMap_beBytes (words : List UInt32) :
    (words.flatMap fun word => beBytes 4 word.toNat).length = words.length * 4 := by
  induction words with
  | nil => rfl
  | cons w words ih =>
    rw [List.flatMap_cons, List.length_append, ih, length_beBytes, List.length_cons]
    omega

theorem foldlM_digest (s : ShaState) :
    (List.range' 0 8).foldlM (fun digest i => do
      let word ← getAt (stateWords s) i
      copyAt digest (← mul i 4) (← add (← mul i 4) 4) (beBytes 4 word.toNat)) (digestArray s 0) =
    (pure (digestArray s (0 + 8)) : Checked Empty Bytes) := by
  apply foldlM_range'_eq
  intro i _ hi
  have hwords : (stateWords s).length = 8 := rfl
  have hbound : usizeBound = 2 ^ 64 := rfl
  obtain ⟨word, hword⟩ : ∃ word, (stateWords s)[i]? = some word :=
    ⟨_, List.getElem?_eq_getElem (by omega)⟩
  have hlen : (((stateWords s).take i).flatMap fun word => beBytes 4 word.toNat).length =
      i * 4 := by
    rw [length_flatMap_beBytes, List.length_take, hwords, Nat.min_eq_left (by omega)]
  have hfill := copyAt_fill (ε := Empty) (z := (0 : UInt8))
    (((stateWords s).take i).flatMap fun word => beBytes 4 word.toNat) (beBytes 4 word.toNat)
    (32 - (i + 1) * 4)
  have hzeros : 4 + (32 - (i + 1) * 4) = 32 - i * 4 := by omega
  rw [hlen, length_beBytes, hzeros] at hfill
  rw [getAt_eq hword, pure_bind, mul_eq (by omega)]
  simp only [pure_bind]
  rw [add_eq (by omega), pure_bind, digestArray, hfill, digestArray, List.take_add_one, hword,
    List.flatMap_append]
  simp only [Option.toList_some, List.flatMap_singleton]

theorem digestArray_eight (s : ShaState) : digestArray s 8 =
    beBytes 4 s.a.toNat ++ beBytes 4 s.b.toNat ++ beBytes 4 s.c.toNat ++ beBytes 4 s.d.toNat ++
      beBytes 4 s.e.toNat ++ beBytes 4 s.f.toNat ++ beBytes 4 s.g.toNat ++ beBytes 4 s.h.toNat := by
  simp only [digestArray, stateWords, List.take_succ_cons, List.take_nil, List.flatMap_cons,
    List.flatMap_nil, List.append_nil, List.append_assoc]
  rfl

/-- The hash does not panic on a message whose length in bits is a machine word. -/
theorem sha256_eq {message : Bytes} (h : message.length < 2 ^ 61) :
    sha256 message = pure (Ipc.sha256 message).toList := by
  have hbound : usizeBound = 2 ^ 64 := rfl
  obtain ⟨hge, hle, hmod⟩ := paddedLen_bounds message.length
  have hpaddedLen : (if message.length % 64 < 56 then do mul (← add (message.length / 64) 1) 64
      else do mul (← add (message.length / 64) 2) 64) =
        (pure (paddedLen message.length) : Checked Empty Nat) := by
    rw [paddedLen]
    split
    · rw [add_eq (by omega), pure_bind, mul_eq (by omega)]
    · rw [add_eq (by omega), pure_bind, mul_eq (by omega)]
  have hpad : padTo (paddedLen message.length - 8) (message ++ [0x80]) ++
      beBytes 8 (message.length * 8) = padMessage message := by
    rw [padMessage, Nat.mod_eq_of_lt (show message.length * 8 < 2 ^ 64 by omega)]
    rfl
  have hlen : (padMessage message).length = paddedLen message.length := length_padMessage message
  have hblocks := foldlM_blocks (padMessage message) (by rw [hlen, hmod]) (by rw [hlen]; omega)
  rw [hlen] at hblocks
  have hzeros : List.replicate 32 0 = digestArray (afterBlocks (padMessage message)
      (paddedLen message.length / 64)) 0 := rfl
  obtain ⟨p, p', hcopy, hset, hlast⟩ := copyAt_padMessage message (message.length * 8)
  rw [hpad] at hlast
  unfold sha256
  dsimp only
  rw [mul_eq (by omega), pure_bind, hpaddedLen, pure_bind, hcopy, pure_bind, hset, pure_bind,
    sub_eq (by omega), pure_bind, hlast, pure_bind, hblocks, pure_bind, hzeros, foldlM_digest,
    digestArray_eight]
  simp only [Ipc.sha256, hlen, Vector.toList_mk]
  rfl

/-! ## The keyed hash -/

/-- The two pads when `i` bytes are written. -/
def padArrays (k : Bytes) (i : Nat) : Bytes × Bytes :=
  ((k.take i).map (· ^^^ 0x36) ++ List.replicate (blockSize - i) 0,
    (k.take i).map (· ^^^ 0x5c) ++ List.replicate (blockSize - i) 0)

theorem setAt_map {k : Bytes} {i : Nat} (hk : k.length = blockSize) (hi : i < blockSize)
    (c : UInt8) :
    setAt (ε := Empty) ((k.take i).map (· ^^^ c) ++ List.replicate (blockSize - i) 0) i
      (k.getD i 0 ^^^ c) =
        pure ((k.take (i + 1)).map (· ^^^ c) ++ List.replicate (blockSize - (i + 1)) 0) := by
  have hlen : ((k.take i).map (· ^^^ c)).length = i := by
    rw [List.length_map, List.length_take, hk, Nat.min_eq_left (by omega)]
  have hset := setAt_fill (ε := Empty) (z := (0 : UInt8)) ((k.take i).map (· ^^^ c))
    (blockSize - (i + 1)) (k.getD i 0 ^^^ c)
  have hzeros : blockSize - (i + 1) + 1 = blockSize - i := by omega
  rw [hlen, hzeros] at hset
  rw [hset, List.take_add_one, List.getElem?_eq_getElem (by omega),
    List.getD_eq_getElem _ _ (by omega), List.map_append]
  rfl

theorem foldlM_pads {k : Bytes} (hk : k.length = blockSize) :
    (List.range' 0 blockSize).foldlM (fun (pads : Bytes × Bytes) i => do
      let b ← getAt k i
      let ipad ← setAt pads.1 i (b ^^^ 0x36)
      let opad ← setAt pads.2 i (b ^^^ 0x5c)
      pure (ipad, opad)) (padArrays k 0) =
    (pure (padArrays k (0 + blockSize)) : Checked Empty (Bytes × Bytes)) := by
  apply foldlM_range'_eq
  intro i _ hi
  have hi' : i < blockSize := by omega
  rw [getAt_getD (by omega), pure_bind]
  show (do
    let ipad ← setAt ((k.take i).map (· ^^^ 0x36) ++ List.replicate (blockSize - i) 0) i
      (k.getD i 0 ^^^ 0x36)
    let opad ← setAt ((k.take i).map (· ^^^ 0x5c) ++ List.replicate (blockSize - i) 0) i
      (k.getD i 0 ^^^ 0x5c)
    pure (ipad, opad)) = _
  rw [setAt_map hk hi', pure_bind, setAt_map hk hi', pure_bind]
  rfl

/-- A copy to the beginning of an array of zeros. -/
theorem copyAt_zeros (src : Bytes) (n : Nat) :
    copyAt (ε := Empty) (List.replicate (src.length + n) 0) 0 src.length src =
      pure (src ++ List.replicate n 0) := by
  have hfill := copyAt_fill (ε := Empty) (z := (0 : UInt8)) [] src n
  rwa [List.length_nil, Nat.zero_add, List.nil_append, List.nil_append] at hfill

theorem copyAt_padTo {src : Bytes} (h : src.length ≤ blockSize) :
    copyAt (ε := Empty) (List.replicate blockSize 0) 0 src.length src =
      pure (padTo blockSize src) := by
  have hcopy := copyAt_zeros src (blockSize - src.length)
  rwa [Nat.add_sub_cancel' h] at hcopy

/-- The copies that make the outer message. -/
theorem copyAt_outer {opad digest : Bytes} (hopad : opad.length = blockSize)
    (hdigest : digest.length = 32) :
    copyAt (ε := Empty) (List.replicate (blockSize + 32) 0) 0 blockSize opad =
        pure (opad ++ List.replicate 32 0) ∧
      copyAt (ε := Empty) (opad ++ List.replicate 32 0) blockSize
        (opad ++ List.replicate 32 0).length digest = pure (opad ++ digest) := by
  constructor
  · have hcopy := copyAt_zeros opad 32
    rwa [hopad] at hcopy
  · have hfill := copyAt_fill (ε := Empty) (z := (0 : UInt8)) opad digest 0
    rw [hdigest, Nat.add_zero, List.replicate_zero, List.append_nil, hopad] at hfill
    rw [List.length_append, List.length_replicate, hopad]
    exact hfill

/-- The key of the block length that the code makes of a key. -/
def blockKey (key : Bytes) : Bytes :=
  if key.length ≤ blockSize then padTo blockSize key
  else padTo blockSize (Ipc.sha256 key).toList

theorem length_blockKey (key : Bytes) : (blockKey key).length = blockSize := by
  rw [blockKey]
  split
  next hle => exact length_padTo hle
  next => exact length_padTo (by rw [Vector.length_toList]; decide)

/-- What is left of the keyed hash after the pads. -/
theorem hmacSha256_inner {key message : Bytes} (hkey : key.length < 2 ^ 61)
    (hmessage : blockSize + message.length < usizeBound) :
    hmacSha256 key message = (do
      let innerHash ← sha256 ((blockKey key).map (· ^^^ 0x36) ++ message)
      let outer ← copyAt (List.replicate (blockSize + 32) 0) 0 blockSize
        ((blockKey key).map (· ^^^ 0x5c))
      let outer ← copyAt outer blockSize outer.length innerHash
      sha256 outer) := by
  have hkPadded : (if key.length ≤ blockSize
      then copyAt (List.replicate blockSize 0) 0 key.length key
      else do
        let kh ← sha256 key
        copyAt (List.replicate blockSize 0) 0 32 kh) =
      (pure (blockKey key) : Checked Empty Bytes) := by
    rw [blockKey]
    split
    next hle => exact copyAt_padTo hle
    next =>
      have hkh : (Ipc.sha256 key).toList.length = 32 := Vector.length_toList
      have hcopy : copyAt (ε := Empty) (List.replicate blockSize 0) 0
          (Ipc.sha256 key).toList.length (Ipc.sha256 key).toList = _ :=
        copyAt_padTo (by rw [hkh]; decide)
      rw [sha256_eq hkey, pure_bind]
      rwa [hkh] at hcopy
  have hzeros : (List.replicate blockSize 0, List.replicate blockSize 0) =
      padArrays (blockKey key) 0 := rfl
  have hpads : padArrays (blockKey key) (0 + blockSize) =
      ((blockKey key).map (· ^^^ 0x36), (blockKey key).map (· ^^^ 0x5c)) := by
    rw [padArrays, Nat.zero_add, List.take_of_length_le (length_blockKey key).le, Nat.sub_self,
      List.replicate_zero, List.append_nil, List.append_nil]
  unfold hmacSha256
  dsimp only
  rw [hkPadded, pure_bind, hzeros, foldlM_pads (length_blockKey key), pure_bind, hpads,
    add_eq hmessage, pure_bind]

theorem hmacSha256_eq {key message : Bytes} (hkey : key.length < 2 ^ 61)
    (hmessage : message.length + blockSize < 2 ^ 61) :
    hmacSha256 key message = pure (Ipc.hmacSha256 key message).toList := by
  have hbound : usizeBound = 2 ^ 64 := rfl
  have hblock : blockSize = 64 := rfl
  have hinner : ((blockKey key).map (· ^^^ 0x36) ++ message).length < 2 ^ 61 := by
    rw [List.length_append, List.length_map, length_blockKey]
    omega
  have hopad : ((blockKey key).map (· ^^^ (0x5c : UInt8))).length = blockSize := by
    rw [List.length_map, length_blockKey]
  have hdigest : (Ipc.sha256 ((blockKey key).map (· ^^^ 0x36) ++ message)).toList.length = 32 :=
    Vector.length_toList
  have houter : ((blockKey key).map (· ^^^ 0x5c) ++
      (Ipc.sha256 ((blockKey key).map (· ^^^ 0x36) ++ message)).toList).length < 2 ^ 61 := by
    rw [List.length_append, hopad, hdigest]
    omega
  obtain ⟨hcopy, hcopy'⟩ := copyAt_outer hopad hdigest
  rw [hmacSha256_inner hkey (by omega), sha256_eq hinner, pure_bind, hcopy, pure_bind, hcopy',
    pure_bind, sha256_eq houter]
  rfl

/-! ## The standard functions -/

/-- Up to the length that the standard allows, the hash functions panic on no message, and compute
SHA-256 and HMAC-SHA-256. -/
theorem hash_standard :
    (∀ message : Bytes, message.length < 2 ^ 61 →
      (sha256 message).run = some (.ok (Sha256.hash message)) ∧
        bitsOfBytes (Sha256.hash message) = Sha256.digest (bitsOfBytes message)) ∧
    ∀ key message : Bytes, key.length < 2 ^ 61 → message.length + blockSize < 2 ^ 61 →
      (hmacSha256 key message).run = some (.ok (hmac blockSize Sha256.hash key message)) := by
  constructor
  · intro message h
    rw [sha256_eq h, ← sha256_eq_hash h]
    exact ⟨rfl, bitsOfBytes_sha256 h⟩
  · intro key message hkey hmessage
    rw [hmacSha256_eq hkey hmessage, hmacSha256_eq_hmac hkey hmessage]
    rfl

/-- A message and a key, with the hash of the one and the keyed hash of both. -/
theorem hash_standard_short :
    (sha256 [0x61, 0x62, 0x63]).run = some (.ok (Sha256.hash [0x61, 0x62, 0x63])) ∧
      (hmacSha256 (List.replicate 20 0x0b) [0x48, 0x69]).run =
        some (.ok (hmac blockSize Sha256.hash (List.replicate 20 0x0b) [0x48, 0x69])) :=
  ⟨(hash_standard.1 [0x61, 0x62, 0x63] (by decide)).1,
    hash_standard.2 (List.replicate 20 0x0b) [0x48, 0x69] (by decide) (by decide)⟩

theorem sha256_abort {message : Bytes} (h : 2 ^ 61 ≤ message.length) :
    (sha256 message).run = none := by
  have hmul : mul (ε := Empty) message.length 8 = abort := if_neg (by
    have hbound : usizeBound = 2 ^ 64 := rfl
    omega)
  unfold sha256
  dsimp only
  rw [hmul]
  rfl

/-- A message that is short enough to be hashed may be too long to be hashed with the pad before
it. -/
theorem not_hash_standard_long :
    ¬ ∀ key message : Bytes, key.length < 2 ^ 61 → message.length < 2 ^ 61 →
      (hmacSha256 key message).run = some (.ok (hmac blockSize Sha256.hash key message)) := by
  intro h
  have hlen : (List.replicate (2 ^ 61 - 1) (0 : UInt8)).length = 2 ^ 61 - 1 :=
    List.length_replicate
  have hblock : blockSize = 64 := rfl
  have hbound : usizeBound = 2 ^ 64 := rfl
  have hrun := h [] (List.replicate (2 ^ 61 - 1) 0) (by decide) (by rw [hlen]; omega)
  rw [hmacSha256_inner (by decide) (by rw [hlen]; omega), ExceptT.run_bind, sha256_abort] at hrun
  · cases hrun
  · rw [List.length_append, hlen, List.length_map, length_blockKey]
    omega

end Vuma.Ipc.Indexed
