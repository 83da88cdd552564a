import Vuma.Lib.Codec

/-!
# Cyclic redundancy checks

A register of 32 bits takes in a bit string, the low bit first. Taking in is linear for the
exclusive or and loses nothing of a string of at most 32 bits, so that a burst of errors of that
length is seen in the register, wherever it is. Read with its low bit as the highest coefficient,
the register is the remainder of the string by a polynomial over the field with two elements.
-/

namespace Vuma.Lib.Crc

open Polynomial

/-! ## Bits of words -/

/-- A bit of a word. -/
def bit (w : UInt32) (i : Nat) : Bool := w.toBitVec.getLsbD i

theorem eq_of_bit {a b : UInt32} (h : ∀ i < 32, bit a i = bit b i) : a = b := by
  apply UInt32.toBitVec_inj.1
  exact BitVec.eq_of_getLsbD_eq fun i hi => h i hi

theorem bit_of_ge (w : UInt32) {i : Nat} (h : 32 ≤ i) : bit w i = false :=
  BitVec.getLsbD_of_ge _ _ h

@[simp] theorem bit_zero (i : Nat) : bit 0 i = false := BitVec.getLsbD_zero

@[simp] theorem bit_xor (a b : UInt32) (i : Nat) : bit (a ^^^ b) i = (bit a i ^^ bit b i) := by
  rw [bit, UInt32.toBitVec_xor, BitVec.getLsbD_xor]
  rfl

theorem bit_shiftRight (w : UInt32) (i : Nat) : bit (w >>> 1) i = bit w (i + 1) := by
  rw [bit, UInt32.toBitVec_shiftRight, bit]
  show (w.toBitVec >>> 1).getLsbD i = _
  rw [BitVec.getLsbD_ushiftRight, Nat.add_comm]

theorem bit_shiftLeft (w : UInt32) {i : Nat} (h : i < 31) : bit (w <<< 1) (i + 1) = bit w i := by
  rw [bit, UInt32.toBitVec_shiftLeft, bit]
  show (w.toBitVec <<< 1).getLsbD (i + 1) = _
  rw [BitVec.getLsbD_shiftLeft]
  simp
  omega

theorem bit_shiftLeft_zero (w : UInt32) : bit (w <<< 1) 0 = false := by
  rw [bit, UInt32.toBitVec_shiftLeft]
  show (w.toBitVec <<< 1).getLsbD 0 = _
  rw [BitVec.getLsbD_shiftLeft]
  simp

theorem and_one_eq_zero_iff (w : UInt32) : w &&& 1 = 0 ↔ bit w 0 = false := by
  constructor
  · intro h
    have hbit : bit (w &&& 1) 0 = false := by rw [h, bit_zero]
    rw [bit, UInt32.toBitVec_and, BitVec.getLsbD_and] at hbit
    simpa [bit] using hbit
  · intro h
    apply eq_of_bit
    intro i hi
    rw [bit, UInt32.toBitVec_and, BitVec.getLsbD_and]
    cases i with
    | zero =>
      rw [bit] at h
      rw [h, Bool.false_and, bit_zero]
    | succ i =>
      have hone : (1 : UInt32).toBitVec.getLsbD (i + 1) = false := by
        show (1#32).getLsbD (i + 1) = false
        simp
      rw [hone, Bool.and_false, bit_zero]

/-- The word of a single bit. -/
def ofBit (b : Bool) : UInt32 := if b then 1 else 0

theorem bit_ofBit (b : Bool) (i : Nat) : bit (ofBit b) i = (b && decide (i = 0)) := by
  cases b with
  | false => simp [ofBit]
  | true =>
    show (1#32).getLsbD i = _
    simp

/-- The word of some bits, the low bit first. -/
def word (bits : List Bool) : UInt32 := bits.foldr (fun b w => (w <<< 1) ^^^ ofBit b) 0

theorem bit_word (bits : List Bool) {i : Nat} (h : i < 32) :
    bit (word bits) i = bits.getD i false := by
  induction bits generalizing i with
  | nil => simp [word]
  | cons b bits ih =>
    show bit ((word bits <<< 1) ^^^ ofBit b) i = _
    rw [bit_xor, bit_ofBit]
    cases i with
    | zero =>
      rw [bit_shiftLeft_zero]
      simp
    | succ i =>
      rw [bit_shiftLeft _ (by omega), ih (by omega)]
      simp

/-! ## The register -/

section

variable (g : UInt32)

/-- The step of the register. -/
def reduceBit (w : UInt32) : UInt32 := if w &&& 1 ≠ 0 then (w >>> 1) ^^^ g else w >>> 1

theorem bit_reduceBit (w : UInt32) (i : Nat) :
    bit (reduceBit g w) i = (bit w (i + 1) ^^ (bit w 0 && bit g i)) := by
  rw [reduceBit]
  split_ifs with h
  · have h0 : bit w 0 = true := by
      rw [← Bool.not_eq_false, ← and_one_eq_zero_iff]
      exact h
    rw [bit_xor, bit_shiftRight, h0, Bool.true_and]
  · rw [ne_eq, not_not, and_one_eq_zero_iff] at h
    rw [bit_shiftRight, h, Bool.false_and, Bool.xor_false]

theorem reduceBit_xor (a b : UInt32) : reduceBit g (a ^^^ b) = reduceBit g a ^^^ reduceBit g b := by
  apply eq_of_bit
  intro i _
  simp only [bit_reduceBit, bit_xor]
  cases bit a (i + 1) <;> cases bit b (i + 1) <;> cases bit a 0 <;> cases bit b 0 <;>
    cases bit g i <;> rfl

theorem reduceBit_zero : reduceBit g 0 = 0 := rfl

/-- The step loses nothing when the polynomial has its constant coefficient. -/
theorem eq_zero_of_reduceBit {g : UInt32} (hg : bit g 31) {w : UInt32} (h : reduceBit g w = 0) :
    w = 0 := by
  have hbit : ∀ i, (bit w (i + 1) ^^ (bit w 0 && bit g i)) = false := by
    intro i
    rw [← bit_reduceBit, h, bit_zero]
  have h0 : bit w 0 = false := by
    have h31 := hbit 31
    rw [bit_of_ge w (Nat.le_refl 32), hg, Bool.and_true, Bool.false_xor] at h31
    exact h31
  apply eq_of_bit
  intro i _
  cases i with
  | zero => rw [h0, bit_zero]
  | succ i =>
    have hi := hbit i
    rw [h0, Bool.false_and, Bool.xor_false] at hi
    rw [hi, bit_zero]

theorem eq_zero_of_iterate_reduceBit {g : UInt32} (hg : bit g 31) {n : Nat} {w : UInt32}
    (h : (reduceBit g)^[n] w = 0) : w = 0 := by
  induction n generalizing w with
  | zero => exact h
  | succ n ih =>
    rw [Function.iterate_succ_apply] at h
    exact eq_zero_of_reduceBit hg (ih h)

/-- A word that is shifted up is shifted down again. -/
theorem reduceBit_shiftLeft {w : UInt32} (h : bit w 31 = false) : reduceBit g (w <<< 1) = w := by
  apply eq_of_bit
  intro i hi
  rw [bit_reduceBit, bit_shiftLeft_zero, Bool.false_and, Bool.xor_false]
  by_cases hlast : i = 31
  · subst hlast
    rw [h, bit_of_ge _ (Nat.le_refl 32)]
  · exact bit_shiftLeft w (by omega)

/-- The register after some bits. -/
def foldBits (s : UInt32) (bits : List Bool) : UInt32 :=
  bits.foldl (fun s b => reduceBit g (s ^^^ ofBit b)) s

theorem foldBits_cons (s : UInt32) (b : Bool) (bits : List Bool) :
    foldBits g s (b :: bits) = foldBits g (reduceBit g (s ^^^ ofBit b)) bits := rfl

theorem foldBits_append (s : UInt32) (bits bits' : List Bool) :
    foldBits g s (bits ++ bits') = foldBits g (foldBits g s bits) bits' :=
  List.foldl_append

/-- At most 32 bits can be taken in at once. -/
theorem foldBits_eq_iterate {bits : List Bool} (h : bits.length ≤ 32) (s : UInt32) :
    foldBits g s bits = (reduceBit g)^[bits.length] (s ^^^ word bits) := by
  induction bits generalizing s with
  | nil =>
    show s = s ^^^ 0
    rw [UInt32.xor_zero]
  | cons b bits ih =>
    rw [List.length_cons] at h
    have hlast : bit (word bits) 31 = false := by
      rw [bit_word bits (by omega), List.getD_eq_default _ _ (by omega)]
    have hword : s ^^^ word (b :: bits) = (s ^^^ ofBit b) ^^^ (word bits <<< 1) := by
      show s ^^^ ((word bits <<< 1) ^^^ ofBit b) = _
      rw [UInt32.xor_comm (word bits <<< 1), UInt32.xor_assoc]
    rw [foldBits_cons, ih (by omega), List.length_cons, Function.iterate_succ_apply, hword,
      reduceBit_xor g (s ^^^ ofBit b), reduceBit_shiftLeft g hlast]

theorem foldBits_replicate (s : UInt32) (n : Nat) :
    foldBits g s (List.replicate n false) = (reduceBit g)^[n] s := by
  induction n generalizing s with
  | zero => rfl
  | succ n ih =>
    rw [List.replicate_succ, foldBits_cons, ih, Function.iterate_succ_apply]
    show (reduceBit g)^[n] (reduceBit g (s ^^^ 0)) = _
    rw [UInt32.xor_zero]

theorem iterate_reduceBit_zero (n : Nat) : (reduceBit g)^[n] 0 = 0 :=
  Function.iterate_fixed (reduceBit_zero g) n

/-- Registers and bits are added. -/
theorem foldBits_xor {bits bits' : List Bool} (h : bits.length = bits'.length) (s s' : UInt32) :
    foldBits g (s ^^^ s') (List.zipWith xor bits bits') =
      foldBits g s bits ^^^ foldBits g s' bits' := by
  induction bits generalizing bits' s s' with
  | nil =>
    cases bits' with
    | nil => rfl
    | cons b' bits' => cases h
  | cons b bits ih =>
    cases bits' with
    | nil => cases h
    | cons b' bits' =>
      have hbit : ofBit (b ^^ b') = ofBit b ^^^ ofBit b' := by cases b <;> cases b' <;> rfl
      have hsum : s ^^^ s' ^^^ (ofBit b ^^^ ofBit b') = (s ^^^ ofBit b) ^^^ (s' ^^^ ofBit b') := by
        ac_rfl
      rw [List.zipWith_cons_cons, foldBits_cons, foldBits_cons, foldBits_cons, hbit, hsum,
        reduceBit_xor]
      exact ih (Nat.succ.inj h) _ _

/-- Whether two strings of one length leave the same register does not depend on the one before. -/
theorem foldBits_eq_iff {bits bits' : List Bool} (h : bits.length = bits'.length) (s : UInt32) :
    foldBits g s bits = foldBits g s bits' ↔ foldBits g 0 (List.zipWith xor bits bits') = 0 := by
  have hsum := foldBits_xor g h s s
  rw [UInt32.xor_self] at hsum
  rw [hsum, UInt32.xor_eq_zero_iff]

end

/-- Some bits with all ones among at most 32 consecutive ones of them. -/
def IsBurst (bits : List Bool) : Prop :=
  ∃ k burst n, bits = List.replicate k false ++ burst ++ List.replicate n false ∧
    burst.length ≤ 32 ∧ true ∈ burst

theorem word_ne_zero {bits : List Bool} (h : bits.length ≤ 32) (hone : true ∈ bits) :
    word bits ≠ 0 := by
  intro hzero
  obtain ⟨i, hi, heq⟩ := List.getElem_of_mem hone
  have hbit := bit_word bits (i := i) (by omega)
  rw [hzero, bit_zero, List.getD_eq_getElem _ _ hi, heq] at hbit
  cases hbit

/-- A burst is seen in the register. -/
theorem foldBits_ne_zero {g : UInt32} (hg : bit g 31) {bits : List Bool} (h : IsBurst bits) :
    foldBits g 0 bits ≠ 0 := by
  obtain ⟨k, burst, n, rfl, hlen, hone⟩ := h
  intro hzero
  rw [foldBits_append, foldBits_append, foldBits_replicate, foldBits_replicate,
    iterate_reduceBit_zero, foldBits_eq_iterate g hlen, UInt32.zero_xor] at hzero
  exact word_ne_zero hlen hone
    (eq_zero_of_iterate_reduceBit hg (eq_zero_of_iterate_reduceBit hg hzero))

/-! ## Bytes -/

/-- The bits of a byte, the low bit first. -/
def bitsOfByte (b : UInt8) : List Bool := (List.range 8).map fun i => b.toBitVec.getLsbD i

/-- The bits of a byte string. -/
def bitsOf (data : Bytes) : List Bool := data.flatMap bitsOfByte

theorem length_bitsOfByte (b : UInt8) : (bitsOfByte b).length = 8 := by
  rw [bitsOfByte, List.length_map, List.length_range]

theorem bitsOf_replicate_zero (n : Nat) :
    bitsOf (List.replicate n 0) = List.replicate (8 * n) false := by
  induction n with
  | zero => rfl
  | succ n ih =>
    show bitsOfByte 0 ++ bitsOf (List.replicate n 0) = _
    rw [ih]
    show List.replicate 8 false ++ _ = _
    rw [List.replicate_append_replicate, Nat.mul_succ, Nat.add_comm]

theorem length_bitsOf (data : Bytes) : (bitsOf data).length = 8 * data.length := by
  induction data with
  | nil => rfl
  | cons b data ih =>
    show (bitsOfByte b ++ bitsOf data).length = _
    rw [List.length_append, ih, length_bitsOfByte, List.length_cons]
    omega

theorem bitsOf_cons (b : UInt8) (data : Bytes) : bitsOf (b :: data) = bitsOfByte b ++ bitsOf data :=
  rfl

theorem word_bitsOfByte (b : UInt8) : word (bitsOfByte b) = b.toUInt32 := by
  apply eq_of_bit
  intro i hi
  have hright : bit b.toUInt32 i = b.toBitVec.getLsbD i := by
    rw [bit, UInt8.toBitVec_toUInt32, BitVec.getLsbD_setWidth]
    simp [hi]
  rw [bit_word _ hi, hright]
  by_cases h8 : i < 8
  · have hlen : i < (bitsOfByte b).length := by rwa [length_bitsOfByte]
    rw [List.getD_eq_getElem _ _ hlen]
    simp [bitsOfByte]
  · rw [List.getD_eq_default _ _ (by rw [length_bitsOfByte]; omega)]
    exact (BitVec.getLsbD_of_ge _ _ (by omega)).symm

/-- A byte is taken in at once. -/
theorem foldBits_bitsOf (g s : UInt32) (data : Bytes) :
    foldBits g s (bitsOf data) =
      data.foldl (fun crc byte => (reduceBit g)^[8] (crc ^^^ byte.toUInt32)) s := by
  induction data generalizing s with
  | nil => rfl
  | cons b data ih =>
    have hlen : (bitsOfByte b).length ≤ 32 := by
      rw [length_bitsOfByte]
      omega
    rw [bitsOf_cons, foldBits_append, ih, foldBits_eq_iterate g hlen, word_bitsOfByte,
      length_bitsOfByte]
    rfl

/-- The exclusive or of two byte strings. -/
def xorBytes (data e : Bytes) : Bytes := List.zipWith (· ^^^ ·) data e

theorem bitsOf_xorBytes {data e : Bytes} (h : data.length = e.length) :
    bitsOf (xorBytes data e) = List.zipWith xor (bitsOf data) (bitsOf e) := by
  induction data generalizing e with
  | nil =>
    cases e with
    | nil => rfl
    | cons c e => cases h
  | cons b data ih =>
    cases e with
    | nil => cases h
    | cons c e =>
      have hbyte : bitsOfByte (b ^^^ c) = List.zipWith xor (bitsOfByte b) (bitsOfByte c) := by
        apply List.ext_getElem
        · simp [length_bitsOfByte]
        · intro i _ _
          simp [bitsOfByte]
      show bitsOfByte (b ^^^ c) ++ bitsOf (xorBytes data e) = _
      rw [ih (Nat.succ.inj h), hbyte, bitsOf_cons, bitsOf_cons, List.zipWith_append]
      rw [length_bitsOfByte, length_bitsOfByte]

theorem length_xorBytes {data e : Bytes} (h : data.length = e.length) :
    (xorBytes data e).length = data.length := by
  rw [xorBytes, List.length_zipWith, h, Nat.min_self]

theorem xorBytes_append {a a' b b' : Bytes} (h : a.length = a'.length) :
    xorBytes (a ++ b) (a' ++ b') = xorBytes a a' ++ xorBytes b b' :=
  List.zipWith_append h

theorem xorBytes_zero (data : Bytes) : xorBytes data (List.replicate data.length 0) = data := by
  induction data with
  | nil => rfl
  | cons b data ih =>
    show (b ^^^ 0) :: xorBytes data (List.replicate data.length 0) = _
    rw [ih, UInt8.xor_zero]

theorem xorBytes_ne {data e : Bytes} (h : data.length = e.length) (he : ∃ b ∈ e, b ≠ 0) :
    xorBytes data e ≠ data := by
  induction data generalizing e with
  | nil =>
    obtain ⟨b, hb, -⟩ := he
    rw [List.length_eq_zero_iff.1 h.symm] at hb
    cases hb
  | cons c data ih =>
    cases e with
    | nil => cases h
    | cons d e =>
      intro heq
      obtain ⟨hhead, htail⟩ := List.cons.inj heq
      have hd : d = 0 := by
        have hcancel := congrArg (c ^^^ ·) hhead
        simpa only [← UInt8.xor_assoc, UInt8.xor_self, UInt8.zero_xor] using hcancel
      obtain ⟨b, hb, hne⟩ := he
      rcases List.mem_cons.1 hb with rfl | hb
      · exact hne hd
      · exact ih (Nat.succ.inj h) ⟨b, hb, hne⟩ htail

/-- `data` with the bit `b` changed, the low bit of a byte first. -/
def flipBit (data : Bytes) (b : Nat) : Bytes :=
  data.modify (b / 8) (· ^^^ (1 : UInt8) <<< UInt8.ofNat (b % 8))

theorem length_flipBit (data : Bytes) (b : Nat) : (flipBit data b).length = data.length :=
  List.length_modify ..

theorem flipBit_append_left {x : Bytes} (y : Bytes) {b : Nat} (h : b < 8 * x.length) :
    flipBit (x ++ y) b = flipBit x b ++ y := by
  have hlt : b / 8 < x.length := by omega
  rw [flipBit, flipBit, List.modify_eq_take_cons_drop (by rw [List.length_append]; omega),
    List.modify_eq_take_cons_drop hlt, List.take_append_of_le_length (by omega),
    List.drop_append_of_le_length hlt, List.getElem_append_left hlt, List.append_assoc,
    List.cons_append]

theorem flipBit_append_right (x y : Bytes) {b : Nat} (h : 8 * x.length ≤ b) :
    flipBit (x ++ y) b = x ++ flipBit y (b - 8 * x.length) := by
  induction x generalizing b with
  | nil => rfl
  | cons c x ih =>
    rw [List.length_cons] at h
    have hdiv : b / 8 = (b - 8) / 8 + 1 := by omega
    have hmod : (b - 8) % 8 = b % 8 := by omega
    have hstep : flipBit (c :: x ++ y) b = c :: flipBit (x ++ y) (b - 8) := by
      rw [flipBit, hdiv, flipBit, hmod]
      rfl
    have hsub : b - 8 - 8 * x.length = b - 8 * (c :: x).length := by
      rw [List.length_cons]
      omega
    rw [hstep, ih (by omega), hsub]
    rfl

/-- A changed bit is a burst. -/
theorem flipBit_eq_xorBytes {data : Bytes} {b : Nat} (h : b < 8 * data.length) :
    ∃ e : Bytes, data.length = e.length ∧ (∃ c ∈ e, c ≠ 0) ∧ IsBurst (bitsOf e) ∧
      flipBit data b = xorBytes data e := by
  have hmasks : ∀ j < 8, (1 : UInt8) <<< UInt8.ofNat j ≠ 0 ∧
      true ∈ bitsOfByte ((1 : UInt8) <<< UInt8.ofNat j) := by decide
  have hmask := hmasks (b % 8) (Nat.mod_lt _ (by decide))
  unfold flipBit
  generalize (1 : UInt8) <<< UInt8.ofNat (b % 8) = mask at hmask ⊢
  obtain ⟨hne, hone⟩ := hmask
  obtain ⟨l, c, r, hdata, -, hflip⟩ :=
    List.exists_of_modify (· ^^^ mask) (show b / 8 < data.length by omega)
  refine ⟨List.replicate l.length 0 ++ mask :: List.replicate r.length 0, ?_,
    ⟨mask, List.mem_append_right _ List.mem_cons_self, hne⟩, ?_, ?_⟩
  · simp [hdata]
  · refine ⟨8 * l.length, bitsOfByte mask, 8 * r.length, ?_, ?_, hone⟩
    · rw [bitsOf, List.flatMap_append, List.flatMap_cons]
      show bitsOf (List.replicate l.length 0) ++ (_ ++ bitsOf (List.replicate r.length 0)) = _
      rw [bitsOf_replicate_zero, bitsOf_replicate_zero, List.append_assoc]
    · rw [length_bitsOfByte]
      omega
  · rw [hflip, hdata, xorBytes_append (List.length_replicate ..).symm, xorBytes_zero]
    show _ = l ++ (c ^^^ mask) :: xorBytes r (List.replicate r.length 0)
    rw [xorBytes_zero]

theorem flipBit_ne {data : Bytes} {b : Nat} (h : b < 8 * data.length) : flipBit data b ≠ data := by
  obtain ⟨e, hlen, hne, -, heq⟩ := flipBit_eq_xorBytes h
  rw [heq]
  exact xorBytes_ne hlen hne

/-- Two strings that differ by a burst leave different registers. -/
theorem foldBits_xorBytes_ne {g : UInt32} (hg : bit g 31) {data e : Bytes}
    (h : data.length = e.length) (he : IsBurst (bitsOf e)) (s : UInt32) :
    foldBits g s (bitsOf (xorBytes data e)) ≠ foldBits g s (bitsOf data) := by
  intro heq
  have hlen : (bitsOf data).length = (bitsOf e).length := by
    rw [length_bitsOf, length_bitsOf, h]
  have hsum := foldBits_xor g hlen s 0
  rw [← bitsOf_xorBytes h, UInt32.xor_zero, heq] at hsum
  apply foldBits_ne_zero hg he
  have hcancel := congrArg (foldBits g s (bitsOf data) ^^^ ·) hsum
  simp only [← UInt32.xor_assoc, UInt32.xor_self, UInt32.zero_xor] at hcancel
  exact hcancel.symm

/-! ## Remainders -/

/-- A bit as an element of the field with two elements. -/
def coeffOf (b : Bool) : ZMod 2 := if b then 1 else 0

theorem coeffOf_xor (a b : Bool) : coeffOf (a ^^ b) = coeffOf a + coeffOf b := by
  cases a <;> cases b <;> decide

theorem coeffOf_and (a b : Bool) : coeffOf (a && b) = coeffOf a * coeffOf b := by
  cases a <;> cases b <;> decide

/-- A word as a polynomial; its low bit is the highest coefficient. -/
noncomputable def reflected (w : UInt32) : (ZMod 2)[X] :=
  ∑ i ∈ Finset.range 32, C (coeffOf (bit w i)) * X ^ (31 - i)

/-- The polynomial of a reflected word, with its leading coefficient. -/
noncomputable def generator (g : UInt32) : (ZMod 2)[X] := X ^ 32 + reflected g

/-- A bit string as a polynomial; the first bit is the highest coefficient. -/
noncomputable def messagePoly (bits : List Bool) : (ZMod 2)[X] :=
  bits.foldl (fun p b => p * X + C (coeffOf b)) 0

theorem degree_reflected (w : UInt32) : (reflected w).degree < 32 := by
  apply lt_of_le_of_lt (degree_sum_le _ _)
  rw [Finset.sup_lt_iff (by exact bot_lt_iff_ne_bot.2 (by decide))]
  intro i hi
  apply lt_of_le_of_lt (degree_C_mul_X_pow_le _ _)
  exact_mod_cast (by omega : 31 - i < 32)

theorem monic_generator (g : UInt32) : (generator g).Monic :=
  monic_X_pow_add (degree_reflected g)

theorem degree_generator (g : UInt32) : (generator g).degree = 32 := by
  rw [generator, degree_add_eq_left_of_degree_lt, degree_X_pow]
  · rfl
  · rw [degree_X_pow]
    exact degree_reflected g

theorem reflected_xor (a b : UInt32) : reflected (a ^^^ b) = reflected a + reflected b := by
  simp only [reflected, bit_xor, coeffOf_xor, C_add, add_mul, Finset.sum_add_distrib]

/-- One step multiplies by the variable and takes the generator off. -/
theorem reflected_reduceBit (g w : UInt32) :
    reflected (reduceBit g w) = X * reflected w + C (coeffOf (bit w 0)) * generator g := by
  have hshift : X * reflected w = C (coeffOf (bit w 0)) * X ^ 32 +
      ∑ i ∈ Finset.range 32, C (coeffOf (bit w (i + 1))) * X ^ (31 - i) := by
    have hlast : ∑ i ∈ Finset.range 32, C (coeffOf (bit w (i + 1))) * X ^ (31 - i) =
        ∑ i ∈ Finset.range 31, C (coeffOf (bit w (i + 1))) * X ^ (31 - i) := by
      apply (Finset.sum_range_succ _ 31).trans
      rw [bit_of_ge w (Nat.le_refl 32)]
      simp [coeffOf]
    have hfirst : reflected w =
        ∑ i ∈ Finset.range 31, C (coeffOf (bit w (i + 1))) * X ^ (31 - (i + 1)) +
          C (coeffOf (bit w 0)) * X ^ (31 - 0) :=
      Finset.sum_range_succ' (fun i => C (coeffOf (bit w i)) * X ^ (31 - i)) 31
    rw [hlast, hfirst, mul_add, Finset.mul_sum]
    refine (add_comm _ _).trans (congrArg₂ (· + ·) ?_ ?_)
    · ring
    · apply Finset.sum_congr rfl
      intro i hi
      rw [Finset.mem_range] at hi
      have hexp : 31 - i = 31 - (i + 1) + 1 := by omega
      rw [hexp]
      ring
  have hcancel : C (coeffOf (bit w 0)) * X ^ 32 + C (coeffOf (bit w 0)) * X ^ 32 = 0 := by
    rw [← two_mul]
    have htwo : (2 : (ZMod 2)[X]) = 0 := CharP.cast_eq_zero (ZMod 2)[X] 2
    rw [htwo, zero_mul]
  have hsum : reflected (reduceBit g w) =
      (∑ i ∈ Finset.range 32, C (coeffOf (bit w (i + 1))) * X ^ (31 - i)) +
        C (coeffOf (bit w 0)) * reflected g := by
    rw [reflected, reflected, Finset.mul_sum, ← Finset.sum_add_distrib]
    apply Finset.sum_congr rfl
    intro i _
    rw [bit_reduceBit, coeffOf_xor, coeffOf_and, C_add, C_mul]
    ring
  rw [hsum, hshift, generator, mul_add]
  linear_combination -hcancel

theorem foldl_messagePoly (bits : List Bool) (p : (ZMod 2)[X]) :
    bits.foldl (fun p b => p * X + C (coeffOf b)) p = p * X ^ bits.length + messagePoly bits := by
  induction bits generalizing p with
  | nil => simp [messagePoly]
  | cons b bits ih =>
    rw [messagePoly, List.foldl_cons, List.foldl_cons, ih, ih, List.length_cons]
    ring

theorem messagePoly_cons (b : Bool) (bits : List Bool) :
    messagePoly (b :: bits) = C (coeffOf b) * X ^ bits.length + messagePoly bits := by
  rw [messagePoly, List.foldl_cons, foldl_messagePoly]
  ring

theorem reflected_ofBit (b : Bool) : reflected (ofBit b) = C (coeffOf b) * X ^ 31 := by
  rw [reflected, Finset.sum_eq_single 0]
  · simp [bit_ofBit]
  · intro i _ hne
    simp [bit_ofBit, hne, coeffOf]
  · intro h
    exact absurd (Finset.mem_range.2 (by omega)) h

/-- The register is a remainder by the generator. -/
theorem exists_quotient (g s : UInt32) (bits : List Bool) :
    ∃ q, reflected (foldBits g s bits) + generator g * q =
      X ^ bits.length * reflected s + X ^ 32 * messagePoly bits := by
  induction bits generalizing s with
  | nil => exact ⟨0, by simp [foldBits, messagePoly]⟩
  | cons b bits ih =>
    obtain ⟨q, hq⟩ := ih (reduceBit g (s ^^^ ofBit b))
    refine ⟨q - C (coeffOf (bit (s ^^^ ofBit b) 0)) * X ^ bits.length, ?_⟩
    rw [foldBits_cons, mul_sub, ← add_sub_assoc, hq, reflected_reduceBit, reflected_xor,
      reflected_ofBit, messagePoly_cons, List.length_cons]
    ring

theorem reflected_foldBits (g s : UInt32) (bits : List Bool) :
    reflected (foldBits g s bits) =
      (X ^ bits.length * reflected s + X ^ 32 * messagePoly bits) %ₘ generator g := by
  obtain ⟨q, hq⟩ := exists_quotient g s bits
  have hdegree : (reflected (foldBits g s bits)).degree < (generator g).degree := by
    rw [degree_generator]
    exact degree_reflected _
  exact (div_modByMonic_unique q _ (monic_generator g) ⟨hq, hdegree⟩).2.symm

end Vuma.Lib.Crc
