import Mathlib

/-!
# Binary readers

A reader takes a value from the front of a byte string or fails. `Encodes` says that some bytes are
an encoding of a value for a reader, whatever comes after them; encodings of parts compose to an
encoding of the whole the way the readers do.
-/

namespace Vuma.Lib

abbrev Bytes := List UInt8

/-- A reader consumes bytes from the front of its input, or fails with an error. -/
abbrev Reader (ε : Type) := StateT Bytes (Except ε)

section

variable {ε α β : Type}

/-- Read from the front of any input, the bytes give the value and leave what comes after them. -/
def Encodes (r : Reader ε α) (bs : Bytes) (a : α) : Prop := ∀ t, r.run (bs ++ t) = .ok (a, t)

theorem Encodes.pure (a : α) : Encodes (pure a : Reader ε α) [] a := fun _ => rfl

theorem Encodes.bind {r : Reader ε α} {k : α → Reader ε β} {bs cs : Bytes} {a : α} {b : β}
    (h : Encodes r bs a) (h' : Encodes (k a) cs b) : Encodes (r >>= k) (bs ++ cs) b := by
  intro t
  rw [StateT.run_bind, List.append_assoc, h]
  exact h' t

/-- Nothing is read after the value. -/
theorem Encodes.bind_nil {r : Reader ε α} {k : α → Reader ε β} {bs : Bytes} {a : α} {b : β}
    (h : Encodes r bs a) (h' : Encodes (k a) [] b) : Encodes (r >>= k) bs b := by
  have := h.bind h'
  rwa [List.append_nil] at this

theorem Encodes.bind_pure {r : Reader ε α} {k : α → β} {bs : Bytes} {a : α} (h : Encodes r bs a) :
    Encodes (r >>= fun a => Pure.pure (k a)) bs (k a) := h.bind_nil (.pure (k a))

/-! ## Fixed numbers of bytes -/

/-- The next `n` bytes; `e` is the error when there are not so many. -/
def takeBytes (e : ε) (n : Nat) : Reader ε Bytes := fun s =>
  if n ≤ s.length then .ok (s.take n, s.drop n) else .error e

theorem encodes_takeBytes (e : ε) (bs : Bytes) : Encodes (takeBytes e bs.length) bs bs := by
  intro t
  simp [takeBytes, StateT.run]

/-- The `n` low bytes of a number, the least significant first. -/
def leBytes : Nat → Nat → Bytes
  | 0, _ => []
  | n + 1, v => UInt8.ofNat v :: leBytes n (v / 256)

def ofLeBytes : Bytes → Nat
  | [] => 0
  | b :: bs => b.toNat + 256 * ofLeBytes bs

theorem length_leBytes (n v : Nat) : (leBytes n v).length = n := by
  induction n generalizing v with
  | zero => rfl
  | succ n ih => rw [leBytes, List.length_cons, ih]

theorem ofLeBytes_leBytes {n v : Nat} (h : v < 256 ^ n) : ofLeBytes (leBytes n v) = v := by
  induction n generalizing v with
  | zero =>
    have : v = 0 := by simpa using h
    simp [leBytes, ofLeBytes, this]
  | succ n ih =>
    have hdiv : v / 256 < 256 ^ n := Nat.div_lt_of_lt_mul (by rwa [pow_succ, mul_comm] at h)
    rw [leBytes, ofLeBytes, ih hdiv, UInt8.toNat_ofNat']
    exact Nat.mod_add_div v 256

/-- The bytes followed by zeros up to `n` bytes. -/
def padTo (n : Nat) (bs : Bytes) : Bytes := bs ++ List.replicate (n - bs.length) 0

theorem length_padTo {n : Nat} {bs : Bytes} (h : bs.length ≤ n) : (padTo n bs).length = n := by
  rw [padTo, List.length_append, List.length_replicate]
  omega

/-- The number in the next `n` bytes. -/
def readLe (e : ε) (n : Nat) : Reader ε Nat := do
  let bs ← takeBytes e n
  pure (ofLeBytes bs)

theorem encodes_readLe (e : ε) {n v : Nat} (h : v < 256 ^ n) :
    Encodes (readLe e n) (leBytes n v) v := by
  have hread := (encodes_takeBytes e (leBytes n v)).bind_pure (k := ofLeBytes)
  rwa [length_leBytes, ofLeBytes_leBytes h] at hread

/-! ## Repetition -/

/-- Read `n` values. -/
def readTimes (r : Reader ε α) : Nat → Reader ε (List α)
  | 0 => pure []
  | n + 1 => do
    let a ← r
    let as ← readTimes r n
    pure (a :: as)

theorem encodes_readTimes {r : Reader ε α} {w : β → Bytes} {g : β → α} {bs : List β}
    (h : ∀ b ∈ bs, Encodes r (w b) (g b)) :
    Encodes (readTimes r bs.length) (bs.flatMap w) (bs.map g) := by
  induction bs with
  | nil => exact .pure []
  | cons b bs ih =>
    have htail := ih fun c hc => h c (List.mem_cons_of_mem b hc)
    exact (h b List.mem_cons_self).bind htail.bind_pure

end

end Vuma.Lib
