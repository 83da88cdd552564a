import Mathlib

/-!
# Putting a word together from bits

A word that is built by setting one bit after the other has exactly the bits that were set.
-/

namespace Vuma.Lib

/-- The bit of a word at a position, as a word. -/
def bitOf (x : UInt64) (i : Nat) : UInt64 := (x >>> .ofNat i) &&& 1

variable {ι : Type}

theorem toNat_ofNat_mod {i : Nat} (h : i < 64) : (UInt64.ofNat i).toNat % 64 = i := by
  rw [UInt64.toNat_ofNat']
  omega

theorem toNat_bitOf {x : UInt64} {i : Nat} (h : i < 64) :
    (bitOf x i).toNat = (x.toNat.testBit i).toNat := by
  rw [bitOf, UInt64.toNat_and, UInt64.toNat_shiftRight, toNat_ofNat_mod h, Nat.toNat_testBit,
    Nat.shiftRight_eq_div_pow]
  exact Nat.and_one_is_mod _

/-- A word with one bit more. -/
theorem testBit_or_bitOf (r x : UInt64) {i j : Nat} (hi : i < 64) (hj : j < 64) (p : Nat) :
    (r ||| bitOf x i <<< .ofNat j).toNat.testBit p =
      (r.toNat.testBit p || (x.toNat.testBit i && j == p)) := by
  have hlt : (x.toNat.testBit i).toNat <<< j < 2 ^ 64 := by
    have hpow := Nat.pow_lt_pow_right (a := 2) (by decide) hj
    have hbit := Nat.mul_le_mul_right (2 ^ j) (Bool.toNat_le (x.toNat.testBit i))
    rw [Nat.shiftLeft_eq]
    omega
  rw [UInt64.toNat_or, UInt64.toNat_shiftLeft, toNat_ofNat_mod hj, toNat_bitOf hi,
    Nat.mod_eq_of_lt hlt, Nat.testBit_or]
  cases x.toNat.testBit i with
  | false => rw [Bool.toNat_false, Nat.zero_shiftLeft, Nat.zero_testBit, Bool.false_and]
  | true =>
    rw [Bool.toNat_true, Nat.one_shiftLeft, Nat.testBit_two_pow, Bool.true_and]
    rfl

/-- A word after some bits are set. -/
theorem testBit_foldl_or (l : List ι) (x : ι → UInt64) {i j : ι → Nat}
    (hi : ∀ a ∈ l, i a < 64) (hj : ∀ a ∈ l, j a < 64) (r : UInt64) (p : Nat) :
    (l.foldl (fun r a => r ||| bitOf (x a) (i a) <<< .ofNat (j a)) r).toNat.testBit p =
      (r.toNat.testBit p || l.any fun a => (x a).toNat.testBit (i a) && j a == p) := by
  induction l generalizing r with
  | nil => rw [List.foldl_nil, List.any_nil, Bool.or_false]
  | cons a l ih =>
    rw [List.forall_mem_cons] at hi hj
    rw [List.foldl_cons, ih hi.2 hj.2, testBit_or_bitOf _ _ hi.1 hj.1, List.any_cons, Bool.or_assoc]

theorem eq_of_testBit {x y : UInt64} (h : ∀ p, x.toNat.testBit p = y.toNat.testBit p) : x = y :=
  UInt64.toNat_inj.mp (Nat.eq_of_testBit_eq h)

end Vuma.Lib
