import Mathlib

/-!
# The Hilbert curve

The curve through a square of side `2 ^ k` runs through four squares of half the side, the first and
the last of them mirrored. A point and its place on the curve determine each other, and the curve
goes from each point to one next to it.
-/

namespace Vuma.Lib.Hilbert

/-- The number of a quadrant on the curve. -/
def digit (rx ry : Bool) : ℕ :=
  match rx, ry with
  | false, false => 0
  | false, true => 1
  | true, true => 2
  | true, false => 3

/-- How a quadrant of side `s` lies in the whole. -/
def rotate (s : ℕ) (rx ry : Bool) (p : ℕ × ℕ) : ℕ × ℕ :=
  match rx, ry with
  | false, false => (p.2, p.1)
  | true, false => (s - 1 - p.2, s - 1 - p.1)
  | _, true => p

/-- The place of a point in a square of side `2 ^ k`. -/
def index : ℕ → ℕ × ℕ → ℕ
  | 0, _ => 0
  | k + 1, p =>
    digit (p.1.testBit k) (p.2.testBit k) * 4 ^ k +
      index k (rotate (2 ^ k) (p.1.testBit k) (p.2.testBit k) (p.1 % 2 ^ k, p.2 % 2 ^ k))

/-- The point of a quadrant from its place in the quadrant. -/
def inQuadrant (s : ℕ) (rx ry : Bool) (p : ℕ × ℕ) : ℕ × ℕ :=
  let (x, y) := rotate s rx ry p
  (x + s * rx.toNat, y + s * ry.toNat)

/-- The point at a place. -/
def point : ℕ → ℕ → ℕ × ℕ
  | 0, _ => (0, 0)
  | k + 1, d =>
    let t := d / 4 ^ k
    inQuadrant (2 ^ k) (t.testBit 1) (t.testBit 0 ^^ t.testBit 1) (point k (d % 4 ^ k))

theorem digit_lt (rx ry : Bool) : digit rx ry < 4 := by
  cases rx <;> cases ry <;> decide

theorem index_lt (k : ℕ) (p : ℕ × ℕ) : index k p < 4 ^ k := by
  induction k generalizing p with
  | zero => exact Nat.one_pos
  | succ k ih =>
    have hd := digit_lt (p.1.testBit k) (p.2.testBit k)
    have hrest := ih (rotate (2 ^ k) (p.1.testBit k) (p.2.testBit k) (p.1 % 2 ^ k, p.2 % 2 ^ k))
    have hmul := Nat.mul_le_mul_right (4 ^ k) (Nat.le_of_lt_succ hd)
    rw [index, Nat.pow_succ]
    omega

theorem rotate_rotate {s : ℕ} (rx ry : Bool) {p : ℕ × ℕ} (h₁ : p.1 < s) (h₂ : p.2 < s) :
    rotate s rx ry (rotate s rx ry p) = p := by
  obtain ⟨x, y⟩ := p
  cases rx <;> cases ry <;> simp [rotate] at *
  omega

theorem rotate_lt {s : ℕ} (rx ry : Bool) {p : ℕ × ℕ} (h₁ : p.1 < s) (h₂ : p.2 < s) :
    (rotate s rx ry p).1 < s ∧ (rotate s rx ry p).2 < s := by
  cases rx <;> cases ry <;> simp only [rotate] <;> omega

theorem point_lt (k d : ℕ) : (point k d).1 < 2 ^ k ∧ (point k d).2 < 2 ^ k := by
  induction k generalizing d with
  | zero => exact ⟨Nat.one_pos, Nat.one_pos⟩
  | succ k ih =>
    obtain ⟨h₁, h₂⟩ := ih (d % 4 ^ k)
    have hquadrant : ∀ (b : Bool) {n : ℕ}, n < 2 ^ k → n + 2 ^ k * b.toNat < 2 ^ (k + 1) := by
      intro b n hn
      cases b <;> simp only [Bool.toNat_false, Bool.toNat_true, Nat.pow_succ] <;> omega
    obtain ⟨h₁, h₂⟩ := rotate_lt ((d / 4 ^ k).testBit 1)
      ((d / 4 ^ k).testBit 0 ^^ (d / 4 ^ k).testBit 1) h₁ h₂
    exact ⟨hquadrant _ h₁, hquadrant _ h₂⟩

/-- A turn of a large square turns the small squares that it is made of. -/
theorem rotate_mod {o k : ℕ} (hk : k ≤ o) (rx ry : Bool) {p : ℕ × ℕ} (h₁ : p.1 < 2 ^ o)
    (h₂ : p.2 < 2 ^ o) :
    ((rotate (2 ^ o) rx ry p).1 % 2 ^ k, (rotate (2 ^ o) rx ry p).2 % 2 ^ k) =
      rotate (2 ^ k) rx ry (p.1 % 2 ^ k, p.2 % 2 ^ k) := by
  have hmirror : ∀ {x : ℕ}, x < 2 ^ o → (2 ^ o - 1 - x) % 2 ^ k = 2 ^ k - 1 - x % 2 ^ k := by
    intro x hx
    obtain ⟨e, rfl⟩ := Nat.exists_eq_add_of_le hk
    rw [Nat.pow_add] at hx ⊢
    have hlow := Nat.mod_lt x (Nat.two_pow_pos k)
    have hsplit := Nat.div_add_mod x (2 ^ k)
    have hdiv : x / 2 ^ k < 2 ^ e := Nat.div_lt_of_lt_mul hx
    obtain ⟨m, hm⟩ := Nat.exists_eq_add_of_le (Nat.succ_le_of_lt hdiv)
    have hwhole : 2 ^ k * 2 ^ e - 1 - x = 2 ^ k * m + (2 ^ k - 1 - x % 2 ^ k) := by
      rw [hm, Nat.mul_add, Nat.mul_succ]
      omega
    rw [hwhole, Nat.mul_add_mod, Nat.mod_eq_of_lt (by omega)]
  cases rx <;> cases ry
  · rfl
  · rfl
  · exact Prod.ext (hmirror h₂) (hmirror h₁)
  · rfl

theorem testBit_digit (rx ry : Bool) : (digit rx ry).testBit 1 = rx ∧
    ((digit rx ry).testBit 0 ^^ (digit rx ry).testBit 1) = ry := by
  cases rx <;> cases ry <;> decide

theorem mod_add_testBit {x k : ℕ} (h : x < 2 ^ (k + 1)) :
    x % 2 ^ k + 2 ^ k * (x.testBit k).toNat = x := by
  rw [Nat.toNat_testBit, ← Nat.mod_pow_succ, Nat.mod_eq_of_lt h]

/-- The point at the place of a point is the point. -/
theorem point_index {k : ℕ} {p : ℕ × ℕ} (h₁ : p.1 < 2 ^ k) (h₂ : p.2 < 2 ^ k) :
    point k (index k p) = p := by
  induction k generalizing p with
  | zero =>
    apply Prod.ext
    · change 0 = p.1
      omega
    · change 0 = p.2
      omega
  | succ k ih =>
    have hpos : 0 < 4 ^ k := Nat.pow_pos (by decide)
    have hlow₁ : p.1 % 2 ^ k < 2 ^ k := Nat.mod_lt _ (Nat.two_pow_pos k)
    have hlow₂ : p.2 % 2 ^ k < 2 ^ k := Nat.mod_lt _ (Nat.two_pow_pos k)
    obtain ⟨hrot₁, hrot₂⟩ := rotate_lt (p := (p.1 % 2 ^ k, p.2 % 2 ^ k)) (p.1.testBit k)
      (p.2.testBit k) hlow₁ hlow₂
    have hrest := index_lt k
      (rotate (2 ^ k) (p.1.testBit k) (p.2.testBit k) (p.1 % 2 ^ k, p.2 % 2 ^ k))
    obtain ⟨hrx, hry⟩ := testBit_digit (p.1.testBit k) (p.2.testBit k)
    rw [index, point]
    rw [Nat.mul_comm, Nat.mul_add_div hpos, Nat.div_eq_of_lt hrest, Nat.add_zero,
      Nat.mul_add_mod, Nat.mod_eq_of_lt hrest, hry, hrx, ih hrot₁ hrot₂, inQuadrant,
      rotate_rotate _ _ hlow₁ hlow₂]
    apply Prod.ext
    · exact mod_add_testBit h₁
    · exact mod_add_testBit h₂

/-- Two points next to each other. -/
def Adjacent (p q : ℕ × ℕ) : Prop := Nat.dist p.1 q.1 + Nat.dist p.2 q.2 = 1

theorem point_zero (k : ℕ) : point k 0 = (0, 0) := by
  induction k with
  | zero => rfl
  | succ k ih => simp [point, ih, inQuadrant, rotate]

/-- The curve ends in the corner below which it began. -/
theorem point_last (k : ℕ) : point k (4 ^ k - 1) = (2 ^ k - 1, 0) := by
  induction k with
  | zero => rfl
  | succ k ih =>
    have h₂ := Nat.two_pow_pos k
    have h₄ : 0 < 4 ^ k := Nat.pow_pos (by decide)
    obtain ⟨hdiv, hmod⟩ : (4 ^ (k + 1) - 1) / 4 ^ k = 3 ∧ (4 ^ (k + 1) - 1) % 4 ^ k = 4 ^ k - 1 := by
      rw [Nat.div_mod_unique h₄, Nat.pow_succ]
      omega
    rw [point, hdiv, hmod, ih]
    change inQuadrant (2 ^ k) true false _ = _
    simp [inQuadrant, rotate, Nat.pow_succ]
    omega

theorem adjacent_inQuadrant {s : ℕ} (rx ry : Bool) {p q : ℕ × ℕ} (hp : p.1 < s ∧ p.2 < s)
    (hq : q.1 < s ∧ q.2 < s) (h : Adjacent p q) :
    Adjacent (inQuadrant s rx ry p) (inQuadrant s rx ry q) := by
  cases rx <;> cases ry <;> simp only [Adjacent, inQuadrant, rotate, Nat.dist] at * <;> omega

/-- The curve goes from each point to one next to it. -/
theorem adjacent_point {k d : ℕ} (h : d + 1 < 4 ^ k) : Adjacent (point k d) (point k (d + 1)) := by
  induction k generalizing d with
  | zero => omega
  | succ k ih =>
    have h₄ : 0 < 4 ^ k := Nat.pow_pos (by decide)
    have hsplit := Nat.mod_add_div d (4 ^ k)
    rw [point, point]
    rcases Nat.lt_or_eq_of_le (Nat.succ_le_of_lt (Nat.mod_lt d h₄)) with hlt | heq
    · -- both points are in one quadrant
      obtain ⟨hdiv, hmod⟩ : (d + 1) / 4 ^ k = d / 4 ^ k ∧ (d + 1) % 4 ^ k = d % 4 ^ k + 1 := by
        rw [Nat.div_mod_unique h₄]
        omega
      rw [hdiv, hmod]
      exact adjacent_inQuadrant _ _ (point_lt _ _) (point_lt _ _) (ih hlt)
    · -- the curve leaves a quadrant where it ends and enters the next one where that begins
      obtain ⟨hdiv, hmod⟩ : (d + 1) / 4 ^ k = d / 4 ^ k + 1 ∧ (d + 1) % 4 ^ k = 0 := by
        rw [Nat.div_mod_unique h₄, Nat.mul_succ]
        omega
      have hquadrant : d / 4 ^ k < 3 := by
        rw [Nat.pow_succ] at h
        have hlt := Nat.div_lt_of_lt_mul h
        rw [hdiv] at hlt
        omega
      have h₂ := Nat.two_pow_pos k
      have hlast : d % 4 ^ k = 4 ^ k - 1 := Nat.eq_sub_of_add_eq heq
      rw [hdiv, hmod, hlast, point_last, point_zero]
      have hbits : Nat.testBit 1 1 = false ∧ Nat.testBit 2 1 ∧ Nat.testBit 3 1 := by decide
      interval_cases d / 4 ^ k <;> simp [Adjacent, inQuadrant, rotate, Nat.dist, hbits] <;> omega

end Vuma.Lib.Hilbert
