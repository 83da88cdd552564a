import Vuma.Ipc.Workers
import Vuma.Ipc.FrameCorruption

/-!
# Encrypted frames

`CryptoState` and `NoiseChannel` of `ipc.rs`: a stream of key bytes and nonce bytes, a counter that
gives the nonces, and a checksum of the ciphertext.

Frames are decrypted to what was encrypted, and the nonces of one state differ for as long as the
counter does not wrap. The checksum covers the ciphertext and not the nonce: a changed nonce is
accepted and gives another plaintext. A channel starts a new state for each message, so that all its
messages have the nonce 0.
-/

namespace Vuma.Ipc

open Lib Checked Crc

structure CryptoState where
  key : Vector UInt8 32
  nonceCounter : UInt64
  deriving DecidableEq

namespace CryptoState

def new (key : Vector UInt8 32) : CryptoState := ⟨key, 0⟩

def keyStream (s : CryptoState) (len : Nat) (nonce : Vector UInt8 8) : Bytes :=
  (List.range len).map fun i =>
    s.key.get ⟨i % 32, Nat.mod_lt _ (by decide)⟩ ^^^ nonce.get ⟨i % 8, Nat.mod_lt _ (by decide)⟩

/-- `nonce_counter.to_le_bytes()`. -/
def nonce (s : CryptoState) : Vector UInt8 8 :=
  ⟨(leBytes 8 s.nonceCounter.toNat).toArray, length_leBytes 8 _⟩

def encrypt (s : CryptoState) (plaintext : Bytes) : Bytes × CryptoState :=
  let keyStream := s.keyStream plaintext.length s.nonce
  let ciphertext := xorBytes plaintext keyStream
  let tag := leBytes 4 (crc32 ciphertext).toNat
  (s.nonce.toList ++ ciphertext ++ tag, { s with nonceCounter := s.nonceCounter + 1 })

def decrypt (s : CryptoState) (ciphertext : Bytes) : Checked IpcError Bytes := do
  if ciphertext.length < 12 then throw .deserializationError
  let nonceBytes ← slice ciphertext 0 8
  let ctEnd ← sub ciphertext.length 4
  let ct ← slice ciphertext 8 ctEnd
  let tagBytes ← slice ciphertext ctEnd ciphertext.length
  let nonce ← toVector 8 nonceBytes
  let expected := crc32 ct
  let b0 ← byteAt tagBytes 0
  let b1 ← byteAt tagBytes 1
  let b2 ← byteAt tagBytes 2
  let b3 ← byteAt tagBytes 3
  let actual := UInt32.ofNat (ofLeBytes [b0, b1, b2, b3])
  if expected ≠ actual then throw (.crcMismatch expected actual)
  let keyStream := s.keyStream ct.length nonce
  pure (xorBytes ct keyStream)

/-- The frames of a sequence of plaintexts. -/
def encryptAll (s : CryptoState) : List Bytes → List Bytes
  | [] => []
  | p :: ps => (s.encrypt p).1 :: (s.encrypt p).2.encryptAll ps

end CryptoState

structure NoiseChannel where
  localStaticKey : Vector UInt8 32
  remoteStaticKey : Option (Vector UInt8 32)
  handshakeComplete : Bool
  cipherKey : Vector UInt8 32

namespace NoiseChannel

def new (localKey : Vector UInt8 32) : NoiseChannel :=
  ⟨localKey, none, false, Vector.replicate 32 0⟩

def initiate (c : NoiseChannel) (_remoteAddr : String) : Except IpcError Unit × NoiseChannel :=
  (.ok (), { c with handshakeComplete := true })

def send (c : NoiseChannel) (msg : Bytes) : Except IpcError Bytes × NoiseChannel :=
  if !c.handshakeComplete then (.error .permissionDenied, c)
  else (.ok ((CryptoState.new c.cipherKey).encrypt msg).1, c)

/-- A call on a channel. -/
inductive Call where
  | initiate (remoteAddr : String)
  | send (msg : Bytes)

/-- The frames that a sequence of calls gives. -/
def sendAll (c : NoiseChannel) : List Call → List Bytes
  | [] => []
  | .initiate remoteAddr :: calls => (c.initiate remoteAddr).2.sendAll calls
  | .send msg :: calls =>
    match (c.send msg).1 with
    | .error _ => (c.send msg).2.sendAll calls
    | .ok frame => frame :: (c.send msg).2.sendAll calls

end NoiseChannel

/-! ## What the encrypted frames protect -/

namespace CryptoState

variable {s : CryptoState}

theorem length_keyStream (len : Nat) (nonce : Vector UInt8 8) :
    (s.keyStream len nonce).length = len := by
  rw [keyStream, List.length_map, List.length_range]

theorem length_encrypt (p : Bytes) : (s.encrypt p).1.length = 8 + p.length + 4 := by
  have hnonce : s.nonce.toList.length = 8 := by simp
  show (s.nonce.toList ++ xorBytes p _ ++ leBytes 4 _).length = _
  rw [List.length_append, List.length_append, hnonce,
    length_xorBytes (length_keyStream ..).symm, length_leBytes]

/-- What `decrypt` does with a nonce, a ciphertext and a tag. -/
theorem run_decrypt (nonce : Vector UInt8 8) (ct : Bytes) {tag : Bytes} (htag : tag.length = 4) :
    (s.decrypt (nonce.toList ++ ct ++ tag)).run =
      some (if crc32 ct = UInt32.ofNat (ofLeBytes tag)
        then .ok (xorBytes ct (s.keyStream ct.length nonce))
        else .error (.crcMismatch (crc32 ct) (UInt32.ofNat (ofLeBytes tag)))) := by
  have hnonce : nonce.toList.length = 8 := by simp
  have hlen : (nonce.toList ++ ct ++ tag).length = 8 + ct.length + 4 := by
    rw [List.length_append, List.length_append, hnonce, htag]
  have a₀ : At (nonce.toList ++ ct ++ tag) 0 (nonce.toList ++ (ct ++ tag)) :=
    .of_eq (List.append_assoc ..)
  have a₁ : At (nonce.toList ++ ct ++ tag) 8 (ct ++ tag) := a₀.next (by rw [hnonce])
  have a₂ : At (nonce.toList ++ ct ++ tag) (8 + ct.length) (tag ++ []) := by
    rw [List.append_nil]
    exact a₁.next rfl
  have hsub : Checked.sub (ε := IpcError) (8 + ct.length + 4) 4 = pure (8 + ct.length) :=
    if_pos (by omega)
  have hnonceSlice : slice (ε := IpcError) (nonce.toList ++ ct ++ tag) 0 8 = pure nonce.toList :=
    a₀.slice (by rw [hnonce])
  have htagSlice : slice (ε := IpcError) (nonce.toList ++ ct ++ tag) (8 + ct.length)
      (8 + ct.length + 4) = pure tag := a₂.slice (by rw [htag])
  match tag, htag with
  | [b0, b1, b2, b3], _ =>
    have hbyte0 : byteAt (ε := IpcError) [b0, b1, b2, b3] 0 = pure b0 := rfl
    have hbyte1 : byteAt (ε := IpcError) [b0, b1, b2, b3] 1 = pure b1 := rfl
    have hbyte2 : byteAt (ε := IpcError) [b0, b1, b2, b3] 2 = pure b2 := rfl
    have hbyte3 : byteAt (ε := IpcError) [b0, b1, b2, b3] 3 = pure b3 := rfl
    rw [decrypt, hlen, if_neg (by omega)]
    simp only [hnonceSlice, hsub, a₁.slice rfl, htagSlice, toVector_toList,
      hbyte0, hbyte1, hbyte2, hbyte3, pure_bind]
    by_cases hcrc : crc32 ct = UInt32.ofNat (ofLeBytes [b0, b1, b2, b3])
    · rw [if_neg (not_not.2 hcrc), if_pos hcrc]
      rfl
    · rw [if_pos hcrc, if_neg hcrc]
      rfl

theorem xorBytes_xorBytes {data e : Bytes} (h : data.length = e.length) :
    xorBytes (xorBytes data e) e = data := by
  induction data generalizing e with
  | nil => rfl
  | cons b data ih =>
    cases e with
    | nil => cases h
    | cons c e =>
      show (b ^^^ c ^^^ c) :: xorBytes (xorBytes data e) e = _
      rw [ih (Nat.succ.inj h), UInt8.xor_assoc, UInt8.xor_self, UInt8.xor_zero]

/-- A frame is decrypted to its plaintext, whatever the counter is by then. -/
theorem run_decrypt_encrypt (n : UInt64) (p : Bytes) :
    (CryptoState.decrypt ⟨s.key, n⟩ (s.encrypt p).1).run = some (.ok p) := by
  have hlen : p.length = (s.keyStream p.length s.nonce).length := (length_keyStream ..).symm
  show (CryptoState.decrypt _ (s.nonce.toList ++ _ ++ leBytes 4 _)).run = _
  rw [run_decrypt _ _ (length_leBytes 4 _), ofLeBytes_crc32, if_pos rfl, length_xorBytes hlen]
  exact congrArg (fun q => some (Except.ok q)) (xorBytes_xorBytes hlen)

theorem decrypt_flipBit {p : Bytes} {b : Nat} (h : b < 8 * (s.encrypt p).1.length) :
    (∃ err, (s.decrypt (flipBit (s.encrypt p).1 b)).run = some (.error err)) ↔ 64 ≤ b := by
  have hnonce : s.nonce.toList.length = 8 := by simp
  obtain ⟨ct, hct⟩ : ∃ ct, (s.encrypt p).1 = s.nonce.toList ++ ct ++ leBytes 4 (crc32 ct).toNat :=
    ⟨_, rfl⟩
  rw [hct] at h ⊢
  rw [List.length_append, List.length_append, hnonce, length_leBytes] at h
  rcases Nat.lt_or_ge b 64 with hb | hb
  · obtain ⟨nonce, hflip⟩ : ∃ nonce : Vector UInt8 8, flipBit s.nonce.toList b = nonce.toList :=
      ⟨⟨(flipBit s.nonce.toList b).toArray, by
        rw [List.size_toArray, length_flipBit, hnonce]⟩, rfl⟩
    rw [List.append_assoc, flipBit_append_left _ (by rw [hnonce]; omega), hflip,
      ← List.append_assoc, run_decrypt _ _ (length_leBytes 4 _), ofLeBytes_crc32, if_pos rfl]
    constructor
    · rintro ⟨err, herr⟩
      cases Option.some.inj herr
    · intro hge
      omega
  · refine iff_of_true ?_ hb
    rcases Nat.lt_or_ge b (64 + 8 * ct.length) with hb' | hb'
    · have hlt : b - 8 * 8 < 8 * ct.length := by omega
      obtain ⟨e, hlen, -, hburst, hflip⟩ := flipBit_eq_xorBytes hlt
      rw [List.append_assoc, flipBit_append_right _ _ (by rw [hnonce]; omega), hnonce,
        flipBit_append_left _ hlt, ← List.append_assoc, run_decrypt _ _ (length_leBytes 4 _),
        ofLeBytes_crc32, hflip, if_neg (crc32_xorBytes_ne hlen hburst)]
      exact ⟨_, rfl⟩
    · have hlen : (s.nonce.toList ++ ct).length = 8 + ct.length := by
        rw [List.length_append, hnonce]
      rw [flipBit_append_right _ _ (by rw [hlen]; omega), hlen,
        run_decrypt _ _ (by rw [length_flipBit, length_leBytes]), if_neg ?_]
      · exact ⟨_, rfl⟩
      · intro hcrc
        have hlt : b - 8 * (8 + ct.length) < 8 * (leBytes 4 (crc32 ct).toNat).length := by
          rw [length_leBytes]
          omega
        apply flipBit_ne hlt
        exact eq_leBytes_of_ofLeBytes (by rw [length_flipBit, length_leBytes]; rfl) hcrc.symm

theorem forall₂_encryptAll (ps : List Bytes) :
    List.Forall₂ (fun p frame => ∃ n, frame = (CryptoState.encrypt ⟨s.key, n⟩ p).1) ps
      (s.encryptAll ps) := by
  induction ps generalizing s with
  | nil => exact .nil
  | cons p ps ih => exact .cons ⟨s.nonceCounter, rfl⟩ (ih (s := (s.encrypt p).2))

theorem getElem?_encryptAll {ps : List Bytes} {i : Nat} {p : Bytes} (h : ps[i]? = some p) :
    ∃ n, (s.encryptAll ps)[i]? = some (CryptoState.encrypt ⟨s.key, n⟩ p).1 := by
  obtain ⟨hlen, hget⟩ := List.forall₂_iff_get.1 (s.forall₂_encryptAll ps)
  obtain ⟨hi, rfl⟩ := List.getElem?_eq_some_iff.1 h
  obtain ⟨n, hn⟩ := hget i hi (hlen ▸ hi)
  rw [List.get_eq_getElem, List.get_eq_getElem] at hn
  exact ⟨n, by rw [List.getElem?_eq_getElem (hlen ▸ hi), hn]⟩

/-! ## Nonces -/

/-- The nonce of a frame. -/
def nonceOf (frame : Bytes) : Bytes := frame.take 8

theorem nonceOf_encrypt (p : Bytes) :
    nonceOf (s.encrypt p).1 = leBytes 8 s.nonceCounter.toNat := by
  show (leBytes 8 s.nonceCounter.toNat ++ _ ++ _).take 8 = _
  rw [List.append_assoc, List.take_append_of_le_length (length_leBytes 8 _).ge,
    List.take_of_length_le (length_leBytes 8 _).le]

/-- The nonces are the values that the counter takes. -/
theorem nonces_encryptAll (ps : List Bytes) :
    (s.encryptAll ps).map nonceOf =
      (List.range ps.length).map fun k => leBytes 8 (s.nonceCounter + UInt64.ofNat k).toNat := by
  induction ps generalizing s with
  | nil => rfl
  | cons p ps ih =>
    rw [encryptAll, List.map_cons, ih, nonceOf_encrypt, List.length_cons, List.range_succ_eq_map,
      List.map_cons, List.map_map]
    congr 1
    · exact congrArg (leBytes 8 ·.toNat) (UInt64.add_zero _).symm
    · apply List.map_congr_left
      intro k _
      show leBytes 8 (s.nonceCounter + 1 + UInt64.ofNat k).toNat =
        leBytes 8 (s.nonceCounter + UInt64.ofNat (k + 1)).toNat
      rw [UInt64.ofNat_add, UInt64.add_assoc, UInt64.add_comm 1]
      rfl

theorem leBytes_toNat_inj {a b : UInt64} (h : leBytes 8 a.toNat = leBytes 8 b.toNat) : a = b := by
  have hof := congrArg ofLeBytes h
  rw [ofLeBytes_leBytes a.toNat_lt, ofLeBytes_leBytes b.toNat_lt] at hof
  exact UInt64.toNat_inj.1 hof

theorem nodup_nonces_encryptAll {ps : List Bytes} (h : ps.length ≤ 2 ^ 64) :
    ((s.encryptAll ps).map nonceOf).Nodup := by
  rw [nonces_encryptAll]
  apply List.Nodup.map_on _ List.nodup_range
  intro i hi j hj heq
  rw [List.mem_range] at hi hj
  have hof : UInt64.ofNat i = UInt64.ofNat j := by
    have hadd := leBytes_toNat_inj heq
    exact (UInt64.add_right_inj _).1 hadd
  have hnat := congrArg UInt64.toNat hof
  rw [UInt64.toNat_ofNat', UInt64.toNat_ofNat', Nat.mod_eq_of_lt (by omega),
    Nat.mod_eq_of_lt (by omega)] at hnat
  exact hnat

end CryptoState

namespace NoiseChannel

/-- The messages that are sent once the handshake is complete. -/
def readyMessages : Bool → List Call → List Bytes
  | _, [] => []
  | _, .initiate _ :: calls => readyMessages true calls
  | true, .send msg :: calls => msg :: readyMessages true calls
  | false, .send _ :: calls => readyMessages false calls

theorem nonces_sendAll (c : NoiseChannel) (calls : List Call) :
    (c.sendAll calls).map CryptoState.nonceOf =
      List.replicate (readyMessages c.handshakeComplete calls).length (leBytes 8 0) := by
  induction calls generalizing c with
  | nil => cases c.handshakeComplete <;> rfl
  | cons call calls ih =>
    cases call with
    | initiate remoteAddr =>
      have hready : readyMessages c.handshakeComplete (.initiate remoteAddr :: calls) =
          readyMessages true calls := by cases c.handshakeComplete <;> rfl
      rw [hready]
      exact ih (c.initiate remoteAddr).2
    | send msg =>
      cases hready : c.handshakeComplete with
      | false =>
        have hsend : c.send msg = (.error .permissionDenied, c) := by
          rw [send, hready]
          rfl
        rw [sendAll, hsend, readyMessages, ← hready]
        exact ih c
      | true =>
        have hsend : c.send msg = (.ok ((CryptoState.new c.cipherKey).encrypt msg).1, c) := by
          rw [send, hready]
          rfl
        rw [sendAll, hsend, readyMessages, List.length_cons, List.replicate_succ]
        show CryptoState.nonceOf _ :: (c.sendAll calls).map CryptoState.nonceOf = _
        rw [ih c, hready, CryptoState.nonceOf_encrypt]
        rfl

theorem nodup_nonces_sendAll_iff (c : NoiseChannel) (calls : List Call) :
    ((c.sendAll calls).map CryptoState.nonceOf).Nodup ↔
      (readyMessages c.handshakeComplete calls).length ≤ 1 := by
  rw [nonces_sendAll, List.nodup_replicate]

end NoiseChannel

/-! ## The law -/

/-- The plaintexts `ps` are encrypted and all frames decrypted, the bit `b` of the frame `i` is
changed, and the calls are made on the channel `c`. -/
structure FramesProtected (s : CryptoState) (ps : List Bytes) (i b : Nat) (c : NoiseChannel)
    (calls : List NoiseChannel.Call) : Prop where
  roundTrips : List.Forall₂ (fun p frame => ∀ n,
    (CryptoState.decrypt ⟨s.key, n⟩ frame).run = some (.ok p)) ps (s.encryptAll ps)
  noncesDiffer : ps.length ≤ 2 ^ 64 → ((s.encryptAll ps).map CryptoState.nonceOf).Nodup
  tamperingSeen : ∀ p frame, ps[i]? = some p → (s.encryptAll ps)[i]? = some frame → p ≠ [] →
    b < 8 * frame.length → ∃ err, (s.decrypt (flipBit frame b)).run = some (.error err)
  noiseNoncesDiffer : ((c.sendAll calls).map CryptoState.nonceOf).Nodup

theorem FramesProtected.bit {s : CryptoState} {ps : List Bytes} {i b : Nat} {c : NoiseChannel}
    {calls : List NoiseChannel.Call} (h : FramesProtected s ps i b c calls) {p : Bytes}
    (hp : ps[i]? = some p) (hne : p ≠ []) : 64 ≤ b := by
  obtain ⟨n, hframe⟩ := s.getElem?_encryptAll hp
  by_contra hb
  have hlt : b < 8 * (CryptoState.encrypt ⟨s.key, n⟩ p).1.length := by
    have hnonce := CryptoState.length_encrypt (s := ⟨s.key, n⟩) p
    omega
  exact hb ((CryptoState.decrypt_flipBit hlt).1 (h.tamperingSeen p _ hp hframe hne hlt))

/-- The frames are protected exactly if the changed bit is none of the nonce, or the frame is that
of an empty plaintext, and at most one message is sent on the channel after the handshake. -/
theorem framesProtected_iff (s : CryptoState) (ps : List Bytes) (i b : Nat) (c : NoiseChannel)
    (calls : List NoiseChannel.Call) :
    FramesProtected s ps i b c calls ↔
      (∀ p, ps[i]? = some p → p ≠ [] → 64 ≤ b) ∧
        (NoiseChannel.readyMessages c.handshakeComplete calls).length ≤ 1 := by
  constructor
  · intro h
    exact ⟨fun p hp hne => h.bit hp hne, (c.nodup_nonces_sendAll_iff calls).1 h.noiseNoncesDiffer⟩
  · rintro ⟨hbit, hready⟩
    constructor
    · apply s.forall₂_encryptAll ps |>.imp
      rintro p _ ⟨n, rfl⟩ m
      exact CryptoState.run_decrypt_encrypt (s := ⟨s.key, n⟩) m p
    · exact CryptoState.nodup_nonces_encryptAll
    · intro p frame hp hframe hne hlt
      obtain ⟨n, hframe'⟩ := s.getElem?_encryptAll hp
      obtain rfl := Option.some.inj (hframe.symm.trans hframe')
      exact (CryptoState.decrypt_flipBit (s := ⟨s.key, n⟩) hlt).2 (hbit p hp hne)
    · exact (c.nodup_nonces_sendAll_iff calls).2 hready

/-- A changed bit of a nonce is accepted, and so are two messages with one nonce. -/
theorem not_framesProtected_nonce :
    ¬ FramesProtected (.new (Vector.replicate 32 7)) [[1, 2, 3]] 0 0
        (.new (Vector.replicate 32 0)) [] ∧
      ¬ FramesProtected (.new (Vector.replicate 32 7)) [] 0 64 (.new (Vector.replicate 32 0))
        [.initiate "10.0.0.5:4242", .send [1], .send [2]] := by
  constructor
  · intro h
    have hbit := h.bit rfl (by decide)
    omega
  · intro h
    have hready := (NoiseChannel.nodup_nonces_sendAll_iff _ _).1 h.noiseNoncesDiffer
    exact absurd hready (by decide)

end Vuma.Ipc
