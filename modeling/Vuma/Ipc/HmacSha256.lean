import Vuma.Lib.Codec

/-!
# HMAC-SHA-256

`hmac_sha256.rs`: the compression function, the padded message and the keyed hash.
-/

namespace Vuma.Ipc

open Lib

def rotateRight (x n : UInt32) : UInt32 := (x >>> n) ||| (x <<< (32 - n))

def ch (x y z : UInt32) : UInt32 := (x &&& y) ^^^ (~~~x &&& z)

def maj (a b c : UInt32) : UInt32 := (a &&& b) ^^^ (a &&& c) ^^^ (b &&& c)

def bs0 (x : UInt32) : UInt32 := rotateRight x 2 ^^^ rotateRight x 13 ^^^ rotateRight x 22

def bs1 (x : UInt32) : UInt32 := rotateRight x 6 ^^^ rotateRight x 11 ^^^ rotateRight x 25

def ss0 (x : UInt32) : UInt32 := rotateRight x 7 ^^^ rotateRight x 18 ^^^ (x >>> 3)

def ss1 (x : UInt32) : UInt32 := rotateRight x 17 ^^^ rotateRight x 19 ^^^ (x >>> 10)

/-- The eight words of the state, and the working variables of the compression. -/
structure ShaState where
  a : UInt32
  b : UInt32
  c : UInt32
  d : UInt32
  e : UInt32
  f : UInt32
  g : UInt32
  h : UInt32
  deriving DecidableEq

def hInit : ShaState :=
  ⟨0x6a09e667, 0xbb67ae85, 0x3c6ef372, 0xa54ff53a, 0x510e527f, 0x9b05688c, 0x1f83d9ab, 0x5be0cd19⟩

/-- `K`. -/
def roundConstants : List UInt32 :=
  [0x428a2f98, 0x71374491, 0xb5c0fbcf, 0xe9b5dba5, 0x3956c25b, 0x59f111f1, 0x923f82a4, 0xab1c5ed5,
    0xd807aa98, 0x12835b01, 0x243185be, 0x550c7dc3, 0x72be5d74, 0x80deb1fe, 0x9bdc06a7, 0xc19bf174,
    0xe49b69c1, 0xefbe4786, 0x0fc19dc6, 0x240ca1cc, 0x2de92c6f, 0x4a7484aa, 0x5cb0a9dc, 0x76f988da,
    0x983e5152, 0xa831c66d, 0xb00327c8, 0xbf597fc7, 0xc6e00bf3, 0xd5a79147, 0x06ca6351, 0x14292967,
    0x27b70a85, 0x2e1b2138, 0x4d2c6dfc, 0x53380d13, 0x650a7354, 0x766a0abb, 0x81c2c92e, 0x92722c85,
    0xa2bfe8a1, 0xa81a664b, 0xc24b8b70, 0xc76c51a3, 0xd192e819, 0xd6990624, 0xf40e3585, 0x106aa070,
    0x19a4c116, 0x1e376c08, 0x2748774c, 0x34b0bcb5, 0x391c0cb3, 0x4ed8aa4a, 0x5b9cca4f, 0x682e6ff3,
    0x748f82ee, 0x78a5636f, 0x84c87814, 0x8cc70208, 0x90befffa, 0xa4506ceb, 0xbef9a3f7, 0xc67178f2]

/-- The first 16 words of the schedule, big-endian. -/
def blockWords : Bytes → List UInt32
  | b₀ :: b₁ :: b₂ :: b₃ :: rest => UInt32.ofNat (ofLeBytes [b₃, b₂, b₁, b₀]) :: blockWords rest
  | _ => []

/-- `n` more words of the schedule. -/
def extendSchedule : Nat → List UInt32 → List UInt32
  | 0, w => w
  | n + 1, w =>
    let i := w.length
    extendSchedule n (w ++ [ss1 (w.getD (i - 2) 0) + w.getD (i - 7) 0 + ss0 (w.getD (i - 15) 0) +
      w.getD (i - 16) 0])

/-- One round of the compression. -/
def shaRound (s : ShaState) (k w : UInt32) : ShaState :=
  let t1 := s.h + bs1 s.e + ch s.e s.f s.g + k + w
  let t2 := bs0 s.a + maj s.a s.b s.c
  ⟨t1 + t2, s.a, s.b, s.c, s.d + t1, s.e, s.f, s.g⟩

def sha256Transform (s : ShaState) (block : Bytes) : ShaState :=
  let w := extendSchedule 48 (blockWords block)
  let r := (roundConstants.zip w).foldl (fun s kw => shaRound s kw.1 kw.2) s
  ⟨s.a + r.a, s.b + r.b, s.c + r.c, s.d + r.d, s.e + r.e, s.f + r.f, s.g + r.g, s.h + r.h⟩

/-- `to_be_bytes`. -/
def beBytes (n v : Nat) : Bytes := (leBytes n v).reverse

theorem length_beBytes (n v : Nat) : (beBytes n v).length = n := by
  rw [beBytes, List.length_reverse, length_leBytes]

/-- The message with its padding. -/
def padMessage (message : Bytes) : Bytes :=
  let msgLen := message.length
  let paddedLen := if msgLen % 64 < 56 then (msgLen / 64 + 1) * 64 else (msgLen / 64 + 2) * 64
  padTo (paddedLen - 8) (message ++ [0x80]) ++ beBytes 8 (msgLen * 8 % 2 ^ 64)

def sha256 (message : Bytes) : Vector UInt8 32 :=
  let padded := padMessage message
  let s := (List.range (padded.length / 64)).foldl
    (fun s i => sha256Transform s ((padded.drop (64 * i)).take 64)) hInit
  ⟨(beBytes 4 s.a.toNat ++ beBytes 4 s.b.toNat ++ beBytes 4 s.c.toNat ++ beBytes 4 s.d.toNat ++
      beBytes 4 s.e.toNat ++ beBytes 4 s.f.toNat ++ beBytes 4 s.g.toNat ++
      beBytes 4 s.h.toNat).toArray, by simp [length_beBytes]⟩

def blockSize : Nat := 64

def hmacSha256 (key message : Bytes) : Vector UInt8 32 :=
  let kPadded :=
    if key.length ≤ blockSize then padTo blockSize key else padTo blockSize (sha256 key).toList
  let ipad := kPadded.map (· ^^^ 0x36)
  let opad := kPadded.map (· ^^^ 0x5c)
  sha256 (opad ++ (sha256 (ipad ++ message)).toList)

end Vuma.Ipc
