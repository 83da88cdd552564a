import Vuma.Ipc.FrameCorrect
import Vuma.Lib.Crc

/-!
# Corrupted frames

The checksum of a frame is the remainder of a polynomial division. A burst of errors in front of
it and a change of the checksum alone are both seen: the length of the frame stays, so that
whatever the fields of the header say afterwards, the checksum is taken of the same bytes, or the
frame is refused before that.
-/

namespace Vuma.Ipc

open Lib Crc Polynomial

/-- The polynomial of the checksum, reflected. -/
def crcPolynomial : UInt32 := 0xEDB88320

theorem bit_crcPolynomial : bit crcPolynomial 31 = true := by decide

/-- The checksum is the register at the end, complemented. -/
theorem crc32_eq (data : Bytes) :
    crc32 data = ~~~foldBits crcPolynomial 0xFFFFFFFF (bitsOf data) := by
  rw [foldBits_bitsOf]
  rfl

theorem not_inj {a b : UInt32} (h : ~~~a = ~~~b) : a = b := by
  have hnot := congrArg (~~~ ·) h
  simpa only [UInt32.not_not] using hnot

/-- The checksum of what differs by a burst is another one. -/
theorem crc32_xorBytes_ne {data e : Bytes} (h : data.length = e.length)
    (he : IsBurst (bitsOf e)) : crc32 (xorBytes data e) ≠ crc32 data := by
  rw [crc32_eq, crc32_eq]
  exact fun heq => foldBits_xorBytes_ne bit_crcPolynomial h he _ (not_inj heq)

/-- The checksum is a remainder, with all bits of the register set at the beginning and complemented
at the end. -/
theorem reflected_crc32 (data : Bytes) :
    reflected (crc32 data) + reflected 0xFFFFFFFF =
      (X ^ (8 * data.length) * reflected 0xFFFFFFFF + X ^ 32 * messagePoly (bitsOf data)) %ₘ
        generator crcPolynomial := by
  have hnot : crc32 data ^^^ 0xFFFFFFFF = foldBits crcPolynomial 0xFFFFFFFF (bitsOf data) := by
    rw [crc32_eq]
    apply UInt32.toBitVec_inj.1
    rw [UInt32.toBitVec_xor, UInt32.toBitVec_not]
    show ~~~_ ^^^ BitVec.allOnes 32 = _
    rw [BitVec.xor_allOnes, BitVec.not_not]
  rw [← reflected_xor, hnot, reflected_foldBits, length_bitsOf]

/-! ## Changed frames -/

/-- A frame whose checksum is not that of what comes before it is refused with an error. -/
theorem deframeMessage_append_error (utf8Error : Bytes → String) {body checksum : Bytes}
    (hlen : checksum.length = crc32Size)
    (h : UInt32.ofNat (ofLeBytes checksum) ≠ crc32 body) :
    ∃ err, (deframeMessage utf8Error (body ++ checksum)).run = some (.error err) := by
  obtain ⟨r, hr, hok⟩ := safe_deframeMessage utf8Error (body ++ checksum)
  cases r with
  | error err => exact ⟨err, hr⟩
  | ok msg =>
    have hbody : (body ++ checksum).length - crc32Size = body.length := by
      rw [List.length_append, hlen, Nat.add_sub_cancel]
    have hchecksum := hok msg rfl
    rw [hbody, List.drop_left, List.take_left] at hchecksum
    exact absurd hchecksum h

theorem ofLeBytes_crc32 (crc : UInt32) : UInt32.ofNat (ofLeBytes (leBytes 4 crc.toNat)) = crc := by
  rw [ofLeBytes_leBytes crc.toNat_lt, UInt32.ofNat_toNat]

theorem ofLeBytes_inj {a b : Bytes} (hlen : a.length = b.length) (h : ofLeBytes a = ofLeBytes b) :
    a = b := by
  induction a generalizing b with
  | nil => exact (List.length_eq_zero_iff.1 hlen.symm).symm
  | cons x a ih =>
    cases b with
    | nil => cases hlen
    | cons y b =>
      rw [ofLeBytes, ofLeBytes] at h
      have hx := x.toNat_lt
      have hy := y.toNat_lt
      have hhead : x.toNat = y.toNat := by omega
      rw [UInt8.toNat_inj.1 hhead, ih (Nat.succ.inj hlen) (by omega)]

theorem ofLeBytes_lt (a : Bytes) : ofLeBytes a < 256 ^ a.length := by
  induction a with
  | nil => exact Nat.one_pos
  | cons x a ih =>
    have hx := x.toNat_lt
    rw [ofLeBytes, List.length_cons, Nat.pow_succ]
    omega

/-- Four bytes are those of the word that is read from them. -/
theorem eq_leBytes_of_ofLeBytes {bs : Bytes} {w : UInt32} (hlen : bs.length = crc32Size)
    (h : UInt32.ofNat (ofLeBytes bs) = w) : bs = leBytes 4 w.toNat := by
  have hlt : ofLeBytes bs < 2 ^ 32 := by
    have hlt' := ofLeBytes_lt bs
    rwa [hlen] at hlt'
  apply ofLeBytes_inj (hlen.trans (length_leBytes 4 _).symm)
  rw [ofLeBytes_leBytes w.toNat_lt, ← h, UInt32.toNat_ofNat', Nat.mod_eq_of_lt hlt]

/-- Corruption is detected: a burst of errors before the checksum and any change of the checksum
make a frame refused; and the checksum is the remainder that it should be. -/
theorem deframeMessage_detects :
    (∀ (utf8Error : Bytes → String) (msg : EncapsulatedMessage) (e : Bytes),
      msg.payload.length ≤ maxPayloadSize.toNat → e.length = (frameBody msg).length →
      IsBurst (bitsOf e) →
      ∃ err, (deframeMessage utf8Error
        (xorBytes (frameMessage msg) (e ++ List.replicate crc32Size 0))).run =
          some (.error err)) ∧
    (∀ (utf8Error : Bytes → String) (msg : EncapsulatedMessage) (e : Bytes),
      msg.payload.length ≤ maxPayloadSize.toNat → e.length = crc32Size → (∃ b ∈ e, b ≠ 0) →
      ∃ err, (deframeMessage utf8Error
        (xorBytes (frameMessage msg) (List.replicate (frameBody msg).length 0 ++ e))).run =
          some (.error err)) ∧
    ∀ data, reflected (crc32 data) + reflected 0xFFFFFFFF =
      (X ^ (8 * data.length) * reflected 0xFFFFFFFF + X ^ 32 * messagePoly (bitsOf data)) %ₘ
        generator crcPolynomial := by
  have hlen : ∀ crc : UInt32, (leBytes 4 crc.toNat).length = crc32Size :=
    fun crc => length_leBytes 4 _
  refine ⟨?_, ?_, reflected_crc32⟩
  · intro utf8Error msg e _ he hburst
    have hzero : xorBytes (leBytes 4 (crc32 (frameBody msg)).toNat) (List.replicate crc32Size 0) =
        leBytes 4 (crc32 (frameBody msg)).toNat := by
      rw [← hlen (crc32 (frameBody msg))]
      exact xorBytes_zero _
    rw [frameMessage, xorBytes_append he.symm, hzero]
    apply deframeMessage_append_error utf8Error (hlen _)
    rw [ofLeBytes_crc32]
    exact (crc32_xorBytes_ne he.symm hburst).symm
  · intro utf8Error msg e _ he hne
    have hcrc := hlen (crc32 (frameBody msg))
    rw [frameMessage, xorBytes_append (List.length_replicate ..).symm, xorBytes_zero]
    have hlen' : (xorBytes (leBytes 4 (crc32 (frameBody msg)).toNat) e).length = crc32Size := by
      rw [length_xorBytes (hcrc.trans he.symm), hcrc]
    apply deframeMessage_append_error utf8Error hlen'
    intro heq
    apply xorBytes_ne (hcrc.trans he.symm) hne
    exact eq_leBytes_of_ofLeBytes hlen' heq

/-- A change of the first bit is a burst. -/
theorem isBurst_one (n : Nat) : IsBurst (bitsOf (1 :: List.replicate n 0)) :=
  ⟨0, [true], 7 + 8 * n, by
    show bitsOfByte 1 ++ bitsOf (List.replicate n 0) = _
    rw [bitsOf_replicate_zero, ← List.replicate_append_replicate]
    rfl, by decide, by decide⟩

/-- A message whose first byte is changed, and one whose checksum is. -/
theorem deframeMessage_corrupted :
    (∃ err, (deframeMessage (fun _ => "") (xorBytes (frameMessage greeting)
      ((1 :: List.replicate 205 0) ++ List.replicate crc32Size 0))).run = some (.error err)) ∧
    ∃ err, (deframeMessage (fun _ => "") (xorBytes (frameMessage greeting)
      (List.replicate 206 0 ++ [0, 0, 0, 0x80]))).run = some (.error err) := by
  have hlen : (frameBody greeting).length = 206 := length_frameBody greeting
  refine ⟨deframeMessage_detects.1 _ greeting _ (by decide) ?_ (isBurst_one 205), ?_⟩
  · rw [hlen, List.length_cons, List.length_replicate]
  · rw [← hlen]
    exact deframeMessage_detects.2.1 _ greeting [0, 0, 0, 0x80] (by decide) rfl
      ⟨0x80, by decide, by decide⟩

end Vuma.Ipc
