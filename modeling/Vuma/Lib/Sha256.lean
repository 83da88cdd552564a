import Vuma.Lib.Codec

/-!
# SHA-256 and HMAC

The hash function of FIPS 180-4 on bit strings, the high bit of a byte first, and the keyed hash of
RFC 2104 on byte strings. The constants are what the standard says that they are: the first bits of
the fractional parts of roots of the first primes.
-/

namespace Vuma.Lib.Sha256

/-! ## Functions and constants -/

def rotr (n x : UInt32) : UInt32 := (x >>> n) ||| (x <<< (32 - n))

def shr (n x : UInt32) : UInt32 := x >>> n

/-- `Ch`. -/
def choose (x y z : UInt32) : UInt32 := (x &&& y) ^^^ (~~~x &&& z)

/-- `Maj`. -/
def majority (x y z : UInt32) : UInt32 := (x &&& y) ^^^ (x &&& z) ^^^ (y &&& z)

/-- `Σ₀`. -/
def bigSigma₀ (x : UInt32) : UInt32 := rotr 2 x ^^^ rotr 13 x ^^^ rotr 22 x

/-- `Σ₁`. -/
def bigSigma₁ (x : UInt32) : UInt32 := rotr 6 x ^^^ rotr 11 x ^^^ rotr 25 x

/-- `σ₀`. -/
def sigma₀ (x : UInt32) : UInt32 := rotr 7 x ^^^ rotr 18 x ^^^ shr 3 x

/-- `σ₁`. -/
def sigma₁ (x : UInt32) : UInt32 := rotr 17 x ^^^ rotr 19 x ^^^ shr 10 x

/-- The first 32 bits of the fractional part of the root of degree `n` of `p`: of the integer part
of `2 ^ 32` times the root, those bits that a word has. -/
def rootFraction (n p : Nat) : UInt32 :=
  UInt32.ofNat (Nat.findGreatest (fun r => r ^ n ≤ p * 2 ^ (32 * n)) (p * 2 ^ (32 * n)))

/-- The prime with the number `t`, counted from 0. -/
noncomputable def prime (t : Nat) : Nat := Nat.nth Nat.Prime t

/-- `K`: the cube roots of the first 64 primes. -/
noncomputable def constant (t : Nat) : UInt32 := rootFraction 3 (prime t)

/-- Eight words. -/
structure Words where
  a : UInt32
  b : UInt32
  c : UInt32
  d : UInt32
  e : UInt32
  f : UInt32
  g : UInt32
  h : UInt32
  deriving DecidableEq

/-- The initial value: the square roots of the first eight primes. -/
noncomputable def initial : Words :=
  ⟨rootFraction 2 (prime 0), rootFraction 2 (prime 1), rootFraction 2 (prime 2),
    rootFraction 2 (prime 3), rootFraction 2 (prime 4), rootFraction 2 (prime 5),
    rootFraction 2 (prime 6), rootFraction 2 (prime 7)⟩

/-! ## Preprocessing -/

/-- The last `n` bits of a number, the high bit first. -/
def bitsOfNat (n v : Nat) : List Bool := (List.range n).map fun i => v.testBit (n - 1 - i)

/-- The number with these bits. -/
def natOfBits (bits : List Bool) : Nat := bits.foldl (fun v b => 2 * v + b.toNat) 0

theorem exists_padding (l : Nat) : ∃ k, (l + 1 + k) % 512 = 448 :=
  ⟨(960 - (l + 1) % 512) % 512, by omega⟩

/-- The number of zeros in the padding of a message of `l` bits. -/
def paddingLength (l : Nat) : Nat := Nat.find (exists_padding l)

/-- The padded message. -/
def pad (message : List Bool) : List Bool :=
  message ++ true :: List.replicate (paddingLength message.length) false ++
    bitsOfNat 64 message.length

/-- A word of a block of the padded message. -/
def blockWord (padded : List Bool) (i j : Nat) : UInt32 :=
  UInt32.ofNat (natOfBits ((padded.drop (512 * i + 32 * j)).take 32))

/-! ## Hash computation -/

/-- The message schedule. -/
def schedule (block : Nat → UInt32) (t : Nat) : UInt32 :=
  if t < 16 then block t
  else sigma₁ (schedule block (t - 2)) + schedule block (t - 7) + sigma₀ (schedule block (t - 15)) +
    schedule block (t - 16)

/-- A round, with a constant and a word of the schedule. -/
def round (v : Words) (k w : UInt32) : Words :=
  let t₁ := v.h + bigSigma₁ v.e + choose v.e v.f v.g + k + w
  let t₂ := bigSigma₀ v.a + majority v.a v.b v.c
  ⟨t₁ + t₂, v.a, v.b, v.c, v.d + t₁, v.e, v.f, v.g⟩

/-- The next hash value. -/
noncomputable def compress (h : Words) (block : Nat → UInt32) : Words :=
  let v := (List.range 64).foldl (fun v t => round v (constant t) (schedule block t)) h
  ⟨v.a + h.a, v.b + h.b, v.c + h.c, v.d + h.d, v.e + h.e, v.f + h.f, v.g + h.g, v.h + h.h⟩

/-- The hash value after `n` blocks. -/
noncomputable def hashValue (padded : List Bool) : Nat → Words
  | 0 => initial
  | n + 1 => compress (hashValue padded n) (blockWord padded n)

/-- The message digest. -/
noncomputable def digest (message : List Bool) : List Bool :=
  let v := hashValue (pad message) ((pad message).length / 512)
  bitsOfNat 32 v.a.toNat ++ bitsOfNat 32 v.b.toNat ++ bitsOfNat 32 v.c.toNat ++
    bitsOfNat 32 v.d.toNat ++ bitsOfNat 32 v.e.toNat ++ bitsOfNat 32 v.f.toNat ++
    bitsOfNat 32 v.g.toNat ++ bitsOfNat 32 v.h.toNat

/-! ## Bytes -/

/-- The bits of a byte string. -/
def bitsOfBytes (bytes : Bytes) : List Bool := bytes.flatMap fun b => bitsOfNat 8 b.toNat

/-- The byte string with these bits. -/
def bytesOfBits : List Bool → Bytes
  | b₀ :: b₁ :: b₂ :: b₃ :: b₄ :: b₅ :: b₆ :: b₇ :: bits =>
    UInt8.ofNat (natOfBits [b₀, b₁, b₂, b₃, b₄, b₅, b₆, b₇]) :: bytesOfBits bits
  | _ => []

/-- SHA-256 of a byte string. -/
noncomputable def hash (message : Bytes) : Bytes := bytesOfBits (digest (bitsOfBytes message))

/-- HMAC with the hash function `hash` for blocks of `blockSize` bytes. -/
def hmac (blockSize : Nat) (hash : Bytes → Bytes) (key text : Bytes) : Bytes :=
  let shortKey := if blockSize < key.length then hash key else key
  let k := shortKey ++ List.replicate (blockSize - shortKey.length) 0
  let ipad := List.replicate blockSize 0x36
  let opad := List.replicate blockSize 0x5c
  hash (List.zipWith (· ^^^ ·) k opad ++ hash (List.zipWith (· ^^^ ·) k ipad ++ text))

/-! ## Constants -/

/-- The primes below 312. -/
def primes : List Nat :=
  [2, 3, 5, 7, 11, 13, 17, 19, 23, 29, 31, 37, 41, 43, 47, 53, 59, 61, 67, 71, 73, 79, 83, 89, 97,
    101, 103, 107, 109, 113, 127, 131, 137, 139, 149, 151, 157, 163, 167, 173, 179, 181, 191, 193,
    197, 199, 211, 223, 227, 229, 233, 239, 241, 251, 257, 263, 269, 271, 277, 281, 283, 293, 307,
    311]

theorem filter_prime : (List.range 312).filter (fun n => n.Prime) = primes := by decide +kernel

theorem length_filter_range (p : Nat → Prop) [DecidablePred p] (n : Nat) :
    ((List.range n).filter fun i => p i).length = Nat.count p n := by
  induction n with
  | zero => rfl
  | succ n ih =>
    rw [List.range_succ, List.filter_append, List.length_append, ih, Nat.count_succ,
      List.filter_singleton]
    by_cases hn : p n <;> simp [hn]

/-- The numbers with a property, in their order. -/
theorem nth_eq_of_filter_range (p : Nat → Prop) [DecidablePred p] {n t q : Nat}
    (h : ((List.range n).filter fun i => p i)[t]? = some q) : Nat.nth p t = q := by
  induction n with
  | zero => cases h
  | succ n ih =>
    rw [List.range_succ, List.filter_append] at h
    rcases Nat.lt_or_ge t ((List.range n).filter fun i => p i).length with hlt | hge
    · rw [List.getElem?_append_left hlt] at h
      exact ih h
    · rw [List.getElem?_append_right hge, length_filter_range] at h
      rw [length_filter_range] at hge
      by_cases hn : p n
      · rw [List.filter_singleton, decide_eq_true hn] at h
        obtain ⟨hidx, rfl⟩ := List.getElem?_eq_some_iff.1 h
        have ht : t = Nat.count p n := Nat.le_antisymm (Nat.sub_eq_zero_iff_le.1 (by
          simpa using hidx)) hge
        simp only [ht, Nat.nth_count hn, Nat.sub_self]
        rfl
      · rw [List.filter_singleton, decide_eq_false hn] at h
        cases h

theorem prime_eq {t q : Nat} (h : primes[t]? = some q) : prime t = q :=
  nth_eq_of_filter_range Nat.Prime (by rw [filter_prime, h])

/-- An integer between whose power and the next one the number lies. -/
theorem rootFraction_eq {n p r : Nat} (hn : n ≠ 0) (hle : r ^ n ≤ p * 2 ^ (32 * n))
    (hlt : p * 2 ^ (32 * n) < (r + 1) ^ n) : rootFraction n p = UInt32.ofNat r := by
  have hroot : Nat.findGreatest (fun r => r ^ n ≤ p * 2 ^ (32 * n)) (p * 2 ^ (32 * n)) = r := by
    rw [Nat.findGreatest_eq_iff]
    refine ⟨(Nat.le_self_pow hn r).trans hle, fun _ => hle, fun m hm _ hpow => ?_⟩
    have hmono : (r + 1) ^ n ≤ m ^ n := Nat.pow_le_pow_left hm n
    omega
  rw [rootFraction, hroot]

/-! ## Bits and bytes -/

theorem length_bitsOfNat (n v : Nat) : (bitsOfNat n v).length = n := by
  rw [bitsOfNat, List.length_map, List.length_range]

theorem bitsOfNat_succ (n v : Nat) : bitsOfNat (n + 1) v = v.testBit n :: bitsOfNat n v := by
  rw [bitsOfNat, List.range_succ_eq_map, List.map_cons, List.map_map]
  congr 1
  apply List.map_congr_left
  intro i _
  show v.testBit (n + 1 - 1 - (i + 1)) = v.testBit (n - 1 - i)
  congr 1
  omega

/-- The high bits and the low bits of a number. -/
theorem bitsOfNat_add (m n v : Nat) :
    bitsOfNat (m + n) v = bitsOfNat m (v / 2 ^ n) ++ bitsOfNat n v := by
  induction m with
  | zero =>
    rw [Nat.zero_add]
    rfl
  | succ m ih =>
    rw [Nat.add_right_comm, bitsOfNat_succ, ih, bitsOfNat_succ, Nat.testBit_div_two_pow]
    rfl

theorem bitsOfNat_mod (n v : Nat) : bitsOfNat n (v % 2 ^ n) = bitsOfNat n v := by
  apply List.map_congr_left
  intro i hi
  have hlt : n - 1 - i < n := by
    have hi' := List.mem_range.1 hi
    omega
  rw [Nat.testBit_mod_two_pow, decide_eq_true hlt, Bool.true_and]

theorem natOfBits_cons (b : Bool) (bits : List Bool) :
    natOfBits (b :: bits) = b.toNat * 2 ^ bits.length + natOfBits bits := by
  have hfold : ∀ v, bits.foldl (fun v b => 2 * v + b.toNat) v =
      v * 2 ^ bits.length + natOfBits bits := by
    induction bits with
    | nil =>
      intro v
      show v = v * 1 + 0
      omega
    | cons c bits ih =>
      intro v
      have hc : natOfBits (c :: bits) = c.toNat * 2 ^ bits.length + natOfBits bits := by
        show bits.foldl _ (2 * 0 + c.toNat) = _
        rw [ih, Nat.mul_zero, Nat.zero_add]
      rw [List.foldl_cons, ih, hc, List.length_cons, Nat.pow_succ]
      ring
  show bits.foldl _ (2 * 0 + b.toNat) = _
  rw [hfold, Nat.mul_zero, Nat.zero_add]

theorem natOfBits_append (bits bits' : List Bool) :
    natOfBits (bits ++ bits') = natOfBits bits * 2 ^ bits'.length + natOfBits bits' := by
  induction bits with
  | nil =>
    show natOfBits bits' = 0 * _ + natOfBits bits'
    omega
  | cons b bits ih =>
    rw [List.cons_append, natOfBits_cons, ih, natOfBits_cons, List.length_append, Nat.pow_add]
    ring

theorem natOfBits_bitsOfNat (n v : Nat) : natOfBits (bitsOfNat n v) = v % 2 ^ n := by
  induction n with
  | zero =>
    rw [Nat.pow_zero, Nat.mod_one]
    rfl
  | succ n ih =>
    rw [bitsOfNat_succ, natOfBits_cons, ih, length_bitsOfNat, Nat.mod_pow_succ,
      Nat.toNat_testBit, Nat.mul_comm, Nat.add_comm]

theorem bitsOfBytes_cons (b : UInt8) (bytes : Bytes) :
    bitsOfBytes (b :: bytes) = bitsOfNat 8 b.toNat ++ bitsOfBytes bytes := rfl

theorem bitsOfBytes_append (bytes bytes' : Bytes) :
    bitsOfBytes (bytes ++ bytes') = bitsOfBytes bytes ++ bitsOfBytes bytes' :=
  List.flatMap_append

theorem length_bitsOfBytes (bytes : Bytes) : (bitsOfBytes bytes).length = 8 * bytes.length := by
  induction bytes with
  | nil => rfl
  | cons b bytes ih =>
    rw [bitsOfBytes_cons, List.length_append, ih, length_bitsOfNat, List.length_cons]
    omega

theorem bitsOfBytes_replicate_zero (n : Nat) :
    bitsOfBytes (List.replicate n 0) = List.replicate (8 * n) false := by
  induction n with
  | zero => rfl
  | succ n ih =>
    rw [List.replicate_succ, bitsOfBytes_cons, ih]
    show List.replicate 8 false ++ _ = _
    rw [List.replicate_append_replicate, Nat.mul_succ, Nat.add_comm]

theorem bitsOfBytes_drop (n : Nat) (bytes : Bytes) :
    bitsOfBytes (bytes.drop n) = (bitsOfBytes bytes).drop (8 * n) := by
  induction n generalizing bytes with
  | zero => rfl
  | succ n ih =>
    cases bytes with
    | nil => rw [List.drop_nil]; exact List.drop_nil.symm
    | cons b bytes =>
      rw [List.drop_succ_cons, ih, bitsOfBytes_cons, Nat.mul_succ, Nat.add_comm, ← List.drop_drop]
      rw [List.drop_left' (length_bitsOfNat 8 _)]

theorem bitsOfBytes_take (n : Nat) (bytes : Bytes) :
    bitsOfBytes (bytes.take n) = (bitsOfBytes bytes).take (8 * n) := by
  rcases Nat.le_total n bytes.length with h | h
  · have hsplit : bitsOfBytes bytes = bitsOfBytes (bytes.take n) ++ bitsOfBytes (bytes.drop n) := by
      rw [← bitsOfBytes_append, List.take_append_drop]
    rw [hsplit, List.take_left']
    rw [length_bitsOfBytes, List.length_take, Nat.min_eq_left h]
  · rw [List.take_of_length_le h, List.take_of_length_le]
    rw [length_bitsOfBytes]
    omega

theorem bytesOfBits_bitsOfBytes (bytes : Bytes) : bytesOfBits (bitsOfBytes bytes) = bytes := by
  induction bytes with
  | nil => rfl
  | cons b bytes ih =>
    have hb : UInt8.ofNat (natOfBits (bitsOfNat 8 b.toNat)) = b := by
      rw [natOfBits_bitsOfNat, Nat.mod_eq_of_lt b.toNat_lt, UInt8.ofNat_toNat]
    show UInt8.ofNat (natOfBits (bitsOfNat 8 b.toNat)) :: bytesOfBits (bitsOfBytes bytes) = _
    rw [hb, ih]

end Vuma.Lib.Sha256
