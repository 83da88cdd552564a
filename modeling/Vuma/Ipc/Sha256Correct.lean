import Vuma.Ipc.HmacSha256
import Vuma.Lib.Sha256

/-!
# The hash functions are the standard ones

`sha256` and `hmac_sha256` compute SHA-256 and HMAC-SHA-256 of every message that is short enough
for its length in bits to fit the padding.
-/

namespace Vuma.Ipc

open Lib Sha256

/-! ## Constants -/

theorem roundConstants_roots : ∀ t < 64, ∃ i < 7,
    (i * 2 ^ 32 + (roundConstants.getD t 0).toNat) ^ 3 ≤ primes.getD t 0 * 2 ^ (32 * 3) ∧
      primes.getD t 0 * 2 ^ (32 * 3) < (i * 2 ^ 32 + (roundConstants.getD t 0).toNat + 1) ^ 3 := by
  decide +kernel

theorem ofNat_mul_add (i : Nat) (k : UInt32) : UInt32.ofNat (i * 2 ^ 32 + k.toNat) = k := by
  apply UInt32.toNat_inj.1
  have hk := k.toNat_lt
  rw [UInt32.toNat_ofNat']
  omega

theorem getElem?_primes {t : Nat} (ht : t < 64) : primes[t]? = some (primes.getD t 0) := by
  rw [List.getD_eq_getElem?_getD, List.getElem?_eq_getElem (show t < primes.length from ht)]
  rfl

theorem constant_eq {t : Nat} (ht : t < 64) : constant t = roundConstants.getD t 0 := by
  obtain ⟨i, -, hle, hlt⟩ := roundConstants_roots t ht
  rw [constant, prime_eq (getElem?_primes ht), rootFraction_eq (by decide) hle hlt, ofNat_mul_add]

theorem roundConstants_eq : roundConstants = (List.range 64).map constant := by
  apply List.ext_getElem
  · rw [List.length_map, List.length_range]
    rfl
  · intro t ht _
    rw [List.getElem_map, List.getElem_range, constant_eq (by exact ht),
      List.getD_eq_getElem _ _ ht]

/-- The words of a state. -/
def ShaState.words (s : ShaState) : Words := ⟨s.a, s.b, s.c, s.d, s.e, s.f, s.g, s.h⟩

theorem rootFraction_two {t : Nat} {k : UInt32} {i : Nat} (ht : t < 64)
    (hle : (i * 2 ^ 32 + k.toNat) ^ 2 ≤ primes.getD t 0 * 2 ^ (32 * 2))
    (hlt : primes.getD t 0 * 2 ^ (32 * 2) < (i * 2 ^ 32 + k.toNat + 1) ^ 2) :
    rootFraction 2 (prime t) = k := by
  rw [prime_eq (getElem?_primes ht), rootFraction_eq (by decide) hle hlt, ofNat_mul_add]

theorem words_hInit : hInit.words = initial := by
  have h0 : rootFraction 2 (prime 0) = 0x6a09e667 :=
    rootFraction_two (i := 1) (by decide) (by decide) (by decide)
  have h1 : rootFraction 2 (prime 1) = 0xbb67ae85 :=
    rootFraction_two (i := 1) (by decide) (by decide) (by decide)
  have h2 : rootFraction 2 (prime 2) = 0x3c6ef372 :=
    rootFraction_two (i := 2) (by decide) (by decide) (by decide)
  have h3 : rootFraction 2 (prime 3) = 0xa54ff53a :=
    rootFraction_two (i := 2) (by decide) (by decide) (by decide)
  have h4 : rootFraction 2 (prime 4) = 0x510e527f :=
    rootFraction_two (i := 3) (by decide) (by decide) (by decide)
  have h5 : rootFraction 2 (prime 5) = 0x9b05688c :=
    rootFraction_two (i := 3) (by decide) (by decide) (by decide)
  have h6 : rootFraction 2 (prime 6) = 0x1f83d9ab :=
    rootFraction_two (i := 4) (by decide) (by decide) (by decide)
  have h7 : rootFraction 2 (prime 7) = 0x5be0cd19 :=
    rootFraction_two (i := 4) (by decide) (by decide) (by decide)
  rw [initial, h0, h1, h2, h3, h4, h5, h6, h7]
  rfl

/-! ## Compression -/

/-- The schedule is extended by words of the schedule. -/
theorem extendSchedule_eq (block : Nat → UInt32) (n : Nat) {m : Nat} (hm : 16 ≤ m) :
    extendSchedule n ((List.range m).map (schedule block)) =
      (List.range (m + n)).map (schedule block) := by
  induction n generalizing m with
  | zero => rfl
  | succ n ih =>
    have hlen : ((List.range m).map (schedule block)).length = m := by
      rw [List.length_map, List.length_range]
    have hget : ∀ i < m, ((List.range m).map (schedule block)).getD i 0 = schedule block i := by
      intro i hi
      rw [List.getD_eq_getElem _ _ (by rwa [hlen]), List.getElem_map, List.getElem_range]
    have hword : schedule block m = sigma₁ (schedule block (m - 2)) + schedule block (m - 7) +
        sigma₀ (schedule block (m - 15)) + schedule block (m - 16) := by
      rw [schedule, if_neg (by omega)]
    rw [extendSchedule, hlen, hget _ (by omega), hget _ (by omega), hget _ (by omega),
      hget _ (by omega)]
    have hsnoc : (List.range m).map (schedule block) ++ [schedule block m] =
        (List.range (m + 1)).map (schedule block) := by
      rw [List.range_succ, List.map_append]
      rfl
    rw [hword] at hsnoc
    show extendSchedule n (_ ++ [sigma₁ _ + _ + sigma₀ _ + _]) = _
    rw [hsnoc, ih (by omega)]
    congr 2
    omega

theorem words_sha256Transform (s : ShaState) {bytes : Bytes} {block : Nat → UInt32}
    (h : blockWords bytes = (List.range 16).map block) :
    (sha256Transform s bytes).words = compress s.words block := by
  have hfirst : (List.range 16).map block = (List.range 16).map (schedule block) := by
    apply List.map_congr_left
    intro t ht
    rw [schedule, if_pos (List.mem_range.1 ht)]
  have hzip : roundConstants.zip (extendSchedule 48 (blockWords bytes)) =
      (List.range 64).map fun t => (constant t, schedule block t) := by
    rw [h, hfirst, extendSchedule_eq block 48 (by decide), roundConstants_eq]
    exact List.zip_map' ..
  have hfold : ∀ (ts : List Nat) (v : ShaState),
      ((ts.map fun t => (constant t, schedule block t)).foldl
        (fun s kw => shaRound s kw.1 kw.2) v).words =
        ts.foldl (fun v t => round v (constant t) (schedule block t)) v.words := by
    intro ts
    induction ts with
    | nil => exact fun _ => rfl
    | cons t ts ih => exact fun v => ih _
  rw [sha256Transform, compress, ← hfold (List.range 64) s, ← hzip]
  simp only [ShaState.words, UInt32.add_comm]

/-! ## Blocks -/

theorem natOfBits_four (b₀ b₁ b₂ b₃ : UInt8) :
    natOfBits (bitsOfBytes [b₀, b₁, b₂, b₃]) = ofLeBytes [b₃, b₂, b₁, b₀] := by
  have h₀ := b₀.toNat_lt
  have h₁ := b₁.toNat_lt
  have h₂ := b₂.toNat_lt
  have h₃ := b₃.toNat_lt
  have hnil : natOfBits (bitsOfBytes []) = 0 := rfl
  simp only [bitsOfBytes_cons, natOfBits_append, natOfBits_bitsOfNat, length_bitsOfBytes, hnil,
    List.length_nil, List.length_append, length_bitsOfNat, ofLeBytes]
  omega

theorem blockWords_eq (bytes : Bytes) :
    blockWords bytes = (List.range (bytes.length / 4)).map fun j =>
      UInt32.ofNat (natOfBits (((bitsOfBytes bytes).drop (32 * j)).take 32)) := by
  induction bytes using blockWords.induct with
  | case1 b₀ b₁ b₂ b₃ rest ih =>
    have hsplit : bitsOfBytes (b₀ :: b₁ :: b₂ :: b₃ :: rest) =
        bitsOfBytes [b₀, b₁, b₂, b₃] ++ bitsOfBytes rest := bitsOfBytes_append [b₀, b₁, b₂, b₃] rest
    have hlen : (bitsOfBytes [b₀, b₁, b₂, b₃]).length = 32 := length_bitsOfBytes _
    have hcount : (b₀ :: b₁ :: b₂ :: b₃ :: rest).length / 4 = rest.length / 4 + 1 := by
      simp only [List.length_cons]
      omega
    rw [blockWords, ih, hcount, List.range_succ_eq_map, List.map_cons, List.map_map, hsplit]
    -- The other words agree by computation: 32 bits are dropped one by one.
    congr 1
    rw [Nat.mul_zero, List.drop_zero, List.take_left' hlen, natOfBits_four]
  | case2 bytes hshort =>
    match bytes, hshort with
    | [], _ => rfl
    | [_], _ => simp [blockWords]
    | [_, _], _ => simp [blockWords]
    | [_, _, _], _ => simp [blockWords]
    | b₀ :: b₁ :: b₂ :: b₃ :: rest, hshort => exact (hshort b₀ b₁ b₂ b₃ rest rfl).elim

theorem blockWords_slice {padded : Bytes} {i : Nat} (hi : 64 * i + 64 ≤ padded.length) :
    blockWords ((padded.drop (64 * i)).take 64) =
      (List.range 16).map (blockWord (bitsOfBytes padded) i) := by
  have hlen : ((padded.drop (64 * i)).take 64).length = 64 := by
    rw [List.length_take, List.length_drop]
    omega
  rw [blockWords_eq, hlen]
  apply List.map_congr_left
  intro j hj
  have hj' : j < 16 := List.mem_range.1 hj
  have hbits : ((bitsOfBytes ((padded.drop (64 * i)).take 64)).drop (32 * j)).take 32 =
      ((bitsOfBytes padded).drop (512 * i + 32 * j)).take 32 := by
    have hmul : 8 * (64 * i) = 512 * i := by omega
    rw [bitsOfBytes_take, bitsOfBytes_drop, hmul, List.drop_take, List.drop_drop, List.take_take,
      Nat.min_eq_left (by omega)]
  rw [hbits, blockWord]

/-! ## Padding -/

theorem bitsOfBytes_beBytes (n v : Nat) : bitsOfBytes (beBytes n v) = bitsOfNat (8 * n) v := by
  induction n generalizing v with
  | zero => rfl
  | succ n ih =>
    have hsnoc : beBytes (n + 1) v = beBytes n (v / 256) ++ [UInt8.ofNat v] := List.reverse_cons ..
    have hlast : bitsOfBytes [UInt8.ofNat v] = bitsOfNat 8 v := by
      rw [bitsOfBytes_cons, UInt8.toNat_ofNat', bitsOfNat_mod]
      exact List.append_nil _
    rw [hsnoc, bitsOfBytes_append, ih, hlast, Nat.mul_succ, bitsOfNat_add]
    rfl

theorem paddingLength_eq {l k : Nat} (hk : (l + 1 + k) % 512 = 448) (hlt : k < 512) :
    paddingLength l = k := by
  rw [paddingLength, Nat.find_eq_iff]
  refine ⟨hk, fun m hm hmod => ?_⟩
  omega

theorem length_padMessage (message : Bytes) :
    (padMessage message).length =
      if message.length % 64 < 56 then (message.length / 64 + 1) * 64
      else (message.length / 64 + 2) * 64 := by
  rw [padMessage, List.length_append, length_beBytes, length_padTo]
  · split <;> omega
  · rw [List.length_append, List.length_singleton]
    split <;> omega

theorem bitsOfBytes_padMessage {message : Bytes} (h : message.length < 2 ^ 61) :
    bitsOfBytes (padMessage message) = pad (bitsOfBytes message) := by
  obtain ⟨z, hz, hzeros⟩ : ∃ z, padMessage message =
      message ++ [0x80] ++ List.replicate z 0 ++ beBytes 8 (message.length * 8 % 2 ^ 64) ∧
        z < 64 ∧ (message.length + 1 + z) % 64 = 56 := by
    refine ⟨_, rfl, ?_⟩
    rw [List.length_append, List.length_singleton]
    constructor
    · split <;> omega
    · split <;> omega
  have hpadding : paddingLength (8 * message.length) = 7 + 8 * z :=
    paddingLength_eq (by omega) (by omega)
  have hone : bitsOfBytes [0x80] = true :: List.replicate 7 false := by decide
  have hlen : message.length * 8 % 2 ^ 64 = 8 * message.length := by omega
  rw [hz, bitsOfBytes_append, bitsOfBytes_append, bitsOfBytes_append, hone,
    bitsOfBytes_replicate_zero, bitsOfBytes_beBytes, hlen, pad, length_bitsOfBytes, hpadding,
    ← List.replicate_append_replicate, List.append_assoc (bitsOfBytes message)]
  rfl

/-! ## The hash functions -/

theorem words_foldl {padded : Bytes} {n : Nat} (hn : 64 * n ≤ padded.length) :
    ((List.range n).foldl (fun s i => sha256Transform s ((padded.drop (64 * i)).take 64))
      hInit).words = hashValue (bitsOfBytes padded) n := by
  induction n with
  | zero => exact words_hInit
  | succ n ih =>
    rw [List.range_succ, List.foldl_append, List.foldl_cons, List.foldl_nil,
      words_sha256Transform _ (blockWords_slice (by omega)), ih (by omega), hashValue]

/-- The hash is that of the standard. -/
theorem bitsOfBytes_sha256 {message : Bytes} (h : message.length < 2 ^ 61) :
    bitsOfBytes (sha256 message).toList = digest (bitsOfBytes message) := by
  have hcount : (pad (bitsOfBytes message)).length / 512 = (padMessage message).length / 64 := by
    rw [← bitsOfBytes_padMessage h, length_bitsOfBytes]
    omega
  have hwords := words_foldl (Nat.mul_div_le (padMessage message).length 64)
  rw [digest, hcount, ← bitsOfBytes_padMessage h, ← hwords]
  simp only [sha256, Vector.toList_mk, bitsOfBytes_append, bitsOfBytes_beBytes, ShaState.words]

theorem sha256_eq_hash {message : Bytes} (h : message.length < 2 ^ 61) :
    (sha256 message).toList = Sha256.hash message := by
  rw [Sha256.hash, ← bitsOfBytes_sha256 h, bytesOfBits_bitsOfBytes]

theorem map_xor_eq_zipWith {k : Bytes} {n : Nat} (h : k.length = n) (c : UInt8) :
    k.map (· ^^^ c) = List.zipWith (· ^^^ ·) k (List.replicate n c) := by
  subst h
  induction k with
  | nil => rfl
  | cons b k ih => exact congrArg ((b ^^^ c) :: ·) ih

theorem hmacSha256_eq_hmac {key message : Bytes} (hkey : key.length < 2 ^ 61)
    (hmessage : message.length + blockSize < 2 ^ 61) :
    (hmacSha256 key message).toList = hmac blockSize Sha256.hash key message := by
  have hblock : blockSize = 64 := rfl
  have hshort : ∀ k : Bytes, padTo blockSize k = k ++ List.replicate (blockSize - k.length) 0 :=
    fun _ => rfl
  have hpadded : (if key.length ≤ blockSize then padTo blockSize key
      else padTo blockSize (sha256 key).toList) =
      padTo blockSize (if blockSize < key.length then Sha256.hash key else key) := by
    rcases Nat.lt_or_ge blockSize key.length with hlt | hge
    · rw [if_neg (by omega), if_pos hlt, sha256_eq_hash hkey]
    · rw [if_pos hge, if_neg (by omega)]
  obtain ⟨k, hk⟩ : ∃ k, padTo blockSize
      (if blockSize < key.length then Sha256.hash key else key) = k := ⟨_, rfl⟩
  have hlen : k.length = blockSize := by
    rw [← hk, ← hpadded]
    split
    next hle => exact length_padTo hle
    next => exact length_padTo (by rw [Vector.length_toList]; omega)
  have hpad : ∀ c : UInt8, (k.map (· ^^^ c)).length = 64 := fun c => by
    rw [List.length_map, hlen, hblock]
  have hinner : (sha256 (k.map (· ^^^ 0x36) ++ message)).toList =
      Sha256.hash (k.map (· ^^^ 0x36) ++ message) :=
    sha256_eq_hash (by rw [List.length_append, hpad]; omega)
  unfold hmacSha256 hmac
  dsimp only
  rw [hpadded, ← hshort, hk, hinner, sha256_eq_hash, map_xor_eq_zipWith hlen,
    map_xor_eq_zipWith hlen]
  rw [← hinner, List.length_append, hpad, Vector.length_toList]
  omega

end Vuma.Ipc
