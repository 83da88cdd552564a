import Vuma.Bd.Descriptor
import Vuma.Lib.Bits
import Vuma.Lib.Hilbert

/-!
# Space-filling curves

`manifold.rs`: the place of a cell in memory, by the Z-order curve, the Hilbert curve or row by row.
Sums and products of `u64` wrap around. The decoders undo the encoders, so that no two points have
the same place on a curve. Along the Hilbert curve each cell is next to the one before.
-/

namespace Vuma.Bd

open Vuma.Lib

/-! ## The Z-order curve -/

namespace ZOrderCurve

def encode2d (x y : UInt64) : UInt64 :=
  (List.range 32).foldl (fun result i =>
    result ||| bitOf x i <<< .ofNat (2 * i) ||| bitOf y i <<< .ofNat (2 * i + 1)) 0

def encode3d (x y z : UInt64) : UInt64 :=
  (List.range 21).foldl (fun result i =>
    result ||| bitOf x i <<< .ofNat (3 * i) ||| bitOf y i <<< .ofNat (3 * i + 1) |||
      bitOf z i <<< .ofNat (3 * i + 2)) 0

def encodeNd (coords : List UInt64) : UInt64 :=
  let n := coords.length
  if n = 0 then 0
  else
    let bitsPerDim := 64 / n
    (List.range bitsPerDim).foldl (fun result bit =>
      coords.zipIdx.foldl (fun result (coord, dim) =>
        result ||| bitOf coord bit <<< .ofNat (n * bit + dim)) result) 0

/-- `decode_nd`; the source panics for no dimension. -/
def decodeNd (index : UInt64) (n : Nat) : List UInt64 :=
  let bitsPerDim := 64 / n
  (List.range bitsPerDim).foldl (fun coords bit =>
    coords.mapIdx fun dim coord => coord ||| bitOf index (n * bit + dim) <<< .ofNat bit)
    (List.replicate n 0)

end ZOrderCurve

/-! ## The Hilbert curve -/

namespace HilbertCurve

/-- How both loops turn a quadrant of a square of side `n`. -/
def turn (n rx ry x y : UInt64) : UInt64 × UInt64 :=
  if ry = 0 then if rx = 1 then (n - 1 - y, n - 1 - x) else (y, x) else (x, y)

/-- The loop of `encode_2d`, at most `fuel` rounds: `s` is halved until it is zero. -/
def encodeLoop (n : UInt64) : Nat → UInt64 → UInt64 → UInt64 → UInt64 → UInt64
  | 0, _, _, _, d => d
  | fuel + 1, s, x, y, d =>
    if s > 0 then
      let rx : UInt64 := if x &&& s > 0 then 1 else 0
      let ry : UInt64 := if y &&& s > 0 then 1 else 0
      let d := d + s * s * ((3 * rx) ^^^ ry)
      let (x, y) := turn n rx ry x y
      encodeLoop n fuel (s / 2) x y d
    else d

def encode2d (x y : UInt64) (order : UInt32) : UInt64 :=
  let n : UInt64 := 1 <<< order.toUInt64
  encodeLoop n 64 (n / 2) x y 0

/-- The loop of `decode_2d`, at most `fuel` rounds: `s` is doubled until it is `n`. -/
def decodeLoop (n : UInt64) : Nat → UInt64 → UInt64 → UInt64 → UInt64 → UInt64 × UInt64
  | 0, _, _, x, y => (x, y)
  | fuel + 1, s, t, x, y =>
    if s < n then
      let rx := 1 &&& (t / 2)
      let ry := 1 &&& (t ^^^ rx)
      let (x, y) := turn s rx ry x y
      decodeLoop n fuel (s * 2) (t / 4) (x + s * rx) (y + s * ry)
    else (x, y)

def decode2d (d : UInt64) (order : UInt32) : UInt64 × UInt64 :=
  let n : UInt64 := 1 <<< order.toUInt64
  decodeLoop n 64 1 d 0 0

end HilbertCurve

/-! ## Offsets -/

/-- The loop for `RowMajor`; it panics if there are fewer sizes than coordinates. -/
def rowMajor : List UInt64 → List UInt64 → UInt64 → Option UInt64
  | [], _, linear => some linear
  | _ :: _, [], _ => none
  | coord :: coords, size :: dimSizes, linear => rowMajor coords dimSizes (linear * size + coord)

/-- The index of a cell in `physical_offset`. -/
def curveIndex (curve : SpaceFillingCurve) (coords dimSizes : List UInt64) (order : UInt32) :
    Option UInt64 :=
  match curve, coords with
  | .zOrder, [x, y] => some (ZOrderCurve.encode2d x y)
  | .zOrder, [x, y, z] => some (ZOrderCurve.encode3d x y z)
  | .zOrder, coords => some (ZOrderCurve.encodeNd coords)
  | .hilbert, [x, y] => some (HilbertCurve.encode2d x y order)
  | .hilbert, coords => some (ZOrderCurve.encodeNd coords)
  | .rowMajor, coords => rowMajor coords dimSizes 0

def physicalOffset (curve : SpaceFillingCurve) (coords dimSizes : List UInt64)
    (elementSize : UInt64) (order : UInt32) : Option UInt64 :=
  (curveIndex curve coords dimSizes order).map (· * elementSize)

/-! ## Places on the Z-order curve -/

namespace ZOrderCurve

theorem encode2d_eq (x y : UInt64) : encode2d x y = encodeNd [x, y] := by
  rw [encode2d, encodeNd]
  simp only [List.length_cons, List.length_nil, List.zipIdx_cons, List.zipIdx_nil,
    List.foldl_cons, List.foldl_nil, Nat.add_zero]
  rfl

theorem encode3d_eq (x y z : UInt64) : encode3d x y z = encodeNd [x, y, z] := by
  rw [encode3d, encodeNd]
  simp only [List.length_cons, List.length_nil, List.zipIdx_cons, List.zipIdx_nil,
    List.foldl_cons, List.foldl_nil, Nat.add_zero]
  rfl

variable {coords : List UInt64}

theorem position_lt {n bit dim : Nat} (hbit : bit < 64 / n) (hdim : dim < n) :
    n * bit + dim < 64 := by
  have h₁ := Nat.mul_le_mul_left n (Nat.succ_le_of_lt hbit)
  have h₂ := Nat.mul_div_le 64 n
  rw [Nat.mul_succ] at h₁
  omega

theorem bit_lt {n bit : Nat} (hbit : bit < 64 / n) : bit < 64 :=
  hbit.trans_le (Nat.div_le_self 64 n)

theorem position_inj {n bit dim bit' dim' : Nat} (hdim : dim < n) (hdim' : dim' < n)
    (h : n * bit + dim = n * bit' + dim') : bit = bit' ∧ dim = dim' := by
  have hdiv : ∀ {b d : Nat}, d < n → (n * b + d) / n = b := by
    intro b d hd
    rw [Nat.mul_add_div (by omega), Nat.div_eq_of_lt hd, Nat.add_zero]
  have hbit : bit = bit' := by rw [← hdiv (b := bit) hdim, h, hdiv hdim']
  subst hbit
  exact ⟨rfl, by omega⟩

/-- The bits of the index are the bits of the coordinates, each at its own position. -/
theorem testBit_encodeNd {bit dim : Nat} (hbit : bit < 64 / coords.length)
    (hdim : dim < coords.length) :
    (encodeNd coords).toNat.testBit (coords.length * bit + dim) =
      coords[dim].toNat.testBit bit := by
  have hn : coords.length ≠ 0 := by omega
  rw [encodeNd]
  dsimp only
  rw [if_neg hn]
  have hflat : ∀ r : UInt64, (List.range (64 / coords.length)).foldl (fun result bit =>
      coords.zipIdx.foldl (fun result (coord, dim) =>
        result ||| bitOf coord bit <<< .ofNat (coords.length * bit + dim)) result) r =
      ((List.range (64 / coords.length)).flatMap fun bit =>
        coords.zipIdx.map fun cd => (bit, cd)).foldl (fun r a =>
          r ||| bitOf a.2.1 a.1 <<< .ofNat (coords.length * a.1 + a.2.2)) r := by
    intro r
    rw [List.foldl_flatMap]
    simp only [List.foldl_map]
  have hmem : ∀ a : Nat × UInt64 × Nat, (a ∈ (List.range (64 / coords.length)).flatMap fun bit =>
      coords.zipIdx.map fun cd => (bit, cd)) ↔
        a.1 < 64 / coords.length ∧ coords[a.2.2]? = some a.2.1 := by
    rintro ⟨b, c, d⟩
    simp [List.mem_flatMap, List.mem_zipIdx_iff_getElem?]
  rw [hflat, testBit_foldl_or _ _ (fun a ha => bit_lt ((hmem a).mp ha).1) fun a ha =>
    position_lt ((hmem a).mp ha).1 (List.getElem?_eq_some_iff.mp ((hmem a).mp ha).2).1,
    UInt64.toNat_zero, Nat.zero_testBit, Bool.false_or, Bool.eq_iff_iff, List.any_eq_true]
  constructor
  · rintro ⟨⟨b, c, d⟩, ha, hbits⟩
    obtain ⟨hb, hd⟩ := (hmem _).mp ha
    obtain ⟨hd, hc⟩ := List.getElem?_eq_some_iff.mp hd
    rw [Bool.and_eq_true, beq_iff_eq] at hbits
    obtain ⟨rfl, rfl⟩ := position_inj hd hdim hbits.2
    rw [← hbits.1]
    exact congrArg (fun c : UInt64 => c.toNat.testBit b) hc
  · intro hset
    refine ⟨(bit, coords[dim], dim), (hmem _).mpr ⟨hbit, List.getElem?_eq_getElem hdim⟩, ?_⟩
    rw [Bool.and_eq_true, beq_iff_eq]
    exact ⟨hset, rfl⟩

theorem getElem?_foldl_mapIdx {α β : Type} (f : β → Nat → α → α) (l : List β) (cs : List α)
    (i : Nat) : (l.foldl (fun cs b => cs.mapIdx (f b)) cs)[i]? =
      cs[i]?.map fun c => l.foldl (fun c b => f b i c) c := by
  induction l generalizing cs with
  | nil => simp
  | cons b l ih =>
    rw [List.foldl_cons, ih, List.getElem?_mapIdx, Option.map_map]
    rfl

theorem decodeNd_encodeNd (h : ∀ c ∈ coords, c.toNat < 2 ^ (64 / coords.length)) :
    decodeNd (encodeNd coords) coords.length = coords := by
  apply List.ext_getElem?
  intro dim
  rw [decodeNd, getElem?_foldl_mapIdx, List.getElem?_replicate]
  split
  · next hdim =>
    rw [List.getElem?_eq_getElem hdim, Option.map_some]
    congr 1
    apply eq_of_testBit
    intro p
    rw [testBit_foldl_or (i := fun bit => coords.length * bit + dim) (j := fun bit => bit) _
      (fun _ => encodeNd coords) (fun bit hbit => position_lt (List.mem_range.mp hbit) hdim)
      fun bit hbit => bit_lt (List.mem_range.mp hbit), UInt64.toNat_zero, Nat.zero_testBit,
      Bool.false_or, Bool.eq_iff_iff, List.any_eq_true]
    constructor
    · rintro ⟨bit, hbit, hset⟩
      rw [Bool.and_eq_true, beq_iff_eq] at hset
      obtain ⟨hset, rfl⟩ := hset
      rwa [testBit_encodeNd (List.mem_range.mp hbit) hdim] at hset
    · intro hset
      have hp : p < 64 / coords.length := by
        by_contra hle
        have hpow := Nat.pow_le_pow_right (n := 2) (by decide) (not_lt.mp hle)
        have hclear := Nat.testBit_lt_two_pow ((h _ (List.getElem_mem hdim)).trans_le hpow)
        rw [hset] at hclear
        cases hclear
      refine ⟨p, List.mem_range.mpr hp, ?_⟩
      rw [Bool.and_eq_true, beq_iff_eq, testBit_encodeNd hp hdim]
      exact ⟨hset, rfl⟩
  · next hdim => rw [List.getElem?_eq_none (by omega), Option.map_none]

end ZOrderCurve

/-! ## Places on the Hilbert curve -/

namespace HilbertCurve

/-- A bit as a word. -/
def ofBool (b : Bool) : UInt64 := if b then 1 else 0

theorem toNat_ofBool (b : Bool) : (ofBool b).toNat = b.toNat := by
  cases b <;> rfl

theorem toNat_digit (rx ry : Bool) :
    ((3 * ofBool rx) ^^^ ofBool ry).toNat = Hilbert.digit rx ry := by
  cases rx <;> cases ry <;> rfl

theorem toNat_turn {n x y : UInt64} (rx ry : Bool) (hx : x < n) (hy : y < n) :
    ((turn n (ofBool rx) (ofBool ry) x y).1.toNat, (turn n (ofBool rx) (ofBool ry) x y).2.toNat) =
      Hilbert.rotate n.toNat rx ry (x.toNat, y.toNat) := by
  rw [UInt64.lt_iff_toNat_lt] at hx hy
  have hone : (1 : UInt64).toNat = 1 := rfl
  have hlt := n.toNat_lt
  have hmirror : ∀ z : UInt64, z.toNat < n.toNat → (n - 1 - z).toNat = n.toNat - 1 - z.toNat := by
    intro z hz
    rw [UInt64.toNat_sub, UInt64.toNat_sub, hone]
    omega
  cases rx <;> cases ry
  · rfl
  · rfl
  · exact Prod.ext (hmirror y hy) (hmirror x hx)
  · rfl

/-- The bit that is tested with a mask. -/
theorem masked_eq {x s : UInt64} {k : Nat} (hs : s.toNat = 2 ^ k) :
    (if x &&& s > 0 then 1 else 0) = ofBool (x.toNat.testBit k) := by
  have hmask : x &&& s > 0 ↔ x.toNat.testBit k = true := by
    rw [gt_iff_lt, UInt64.lt_iff_toNat_lt, UInt64.toNat_and, hs, UInt64.toNat_zero,
      Nat.and_two_pow]
    cases x.toNat.testBit k <;> simp
  rw [ofBool]
  simp only [hmask]

theorem encodeLoop_spec {n s x y d : UInt64} {order k fuel : Nat} (hn : n.toNat = 2 ^ order)
    (hk : k ≤ order) (hfuel : k ≤ fuel) (hs : s.toNat = 2 ^ k / 2) (hx : x < n) (hy : y < n)
    (hd : d.toNat + 4 ^ k ≤ 2 ^ 64) :
    (encodeLoop n fuel s x y d).toNat =
      d.toNat + Hilbert.index k (x.toNat % 2 ^ k, y.toNat % 2 ^ k) := by
  induction k generalizing fuel s x y d with
  | zero =>
    have hzero : s = 0 := UInt64.toNat_inj.mp hs
    subst hzero
    cases fuel <;> rfl
  | succ k ih =>
    obtain ⟨fuel, rfl⟩ : ∃ m, fuel = m + 1 := Nat.exists_eq_add_one.mpr (by omega)
    have hs' : s.toNat = 2 ^ k := by
      rw [hs, Nat.pow_succ]
      omega
    have hpos : s > 0 := by
      rw [gt_iff_lt, UInt64.lt_iff_toNat_lt, hs']
      exact Nat.two_pow_pos k
    have hxn := UInt64.lt_iff_toNat_lt.mp hx
    have hyn := UInt64.lt_iff_toNat_lt.mp hy
    rw [encodeLoop, if_pos hpos]
    simp only [masked_eq hs']
    generalize hrx : x.toNat.testBit k = rx
    generalize hry : y.toNat.testBit k = ry
    have hturn := toNat_turn rx ry hx hy
    have hdigit := Nat.mul_le_mul_right (4 ^ k) (Nat.le_of_lt_succ (Hilbert.digit_lt rx ry))
    rw [Nat.pow_succ] at hd
    have hadd : (d + s * s * ((3 * ofBool rx) ^^^ ofBool ry)).toNat =
        d.toNat + Hilbert.digit rx ry * 4 ^ k := by
      have hsquare : 2 ^ k * 2 ^ k = 4 ^ k := by rw [← Nat.mul_pow]
      have hpos := Nat.pow_pos (a := 4) (n := k) (by decide)
      have hprod : (s * s * ((3 * ofBool rx) ^^^ ofBool ry)).toNat =
          Hilbert.digit rx ry * 4 ^ k := by
        rw [UInt64.toNat_mul, UInt64.toNat_mul, hs', hsquare, toNat_digit,
          Nat.mod_eq_of_lt (show 4 ^ k < 2 ^ 64 by omega), Nat.mul_comm (4 ^ k),
          Nat.mod_eq_of_lt (by omega)]
      rw [UInt64.toNat_add, hprod, Nat.mod_eq_of_lt (by omega)]
    obtain ⟨hturn₁, hturn₂⟩ := Prod.ext_iff.mp hturn
    dsimp only at hturn₁ hturn₂
    have hlt := Hilbert.rotate_lt rx ry (p := (x.toNat, y.toNat)) hxn hyn
    rw [ih (by omega) (by omega) (by rw [UInt64.toNat_div, hs']; rfl)
      (by rw [UInt64.lt_iff_toNat_lt, hturn₁]; exact hlt.1)
      (by rw [UInt64.lt_iff_toNat_lt, hturn₂]; exact hlt.2) (by omega), hadd, hturn₁, hturn₂]
    rw [hn] at hxn hyn ⊢
    have hlow : ∀ z : Nat, z % 2 ^ (k + 1) % 2 ^ k = z % 2 ^ k := fun z =>
      Nat.mod_mod_of_dvd z (Nat.pow_dvd_pow 2 (Nat.le_succ k))
    have hbit : ∀ z : Nat, (z % 2 ^ (k + 1)).testBit k = z.testBit k := fun z => by
      rw [Nat.testBit_mod_two_pow, decide_eq_true (Nat.lt_succ_self k), Bool.true_and]
    rw [Hilbert.rotate_mod (by omega) rx ry hxn hyn, Hilbert.index, hbit, hbit, hlow, hlow, hrx,
      hry, Nat.add_assoc]

theorem bits_eq (t : UInt64) : 1 &&& (t / 2) = ofBool (t.toNat.testBit 1) ∧
    1 &&& (t ^^^ ofBool (t.toNat.testBit 1)) =
      ofBool (t.toNat.testBit 0 ^^ t.toNat.testBit 1) := by
  have hone : (1 : UInt64).toNat = 1 := rfl
  have htwo : (2 : UInt64).toNat = 2 := rfl
  constructor
  · rw [← UInt64.toNat_inj, UInt64.toNat_and, UInt64.toNat_div, toNat_ofBool, hone, htwo,
      Nat.one_and_eq_mod_two, Nat.toNat_testBit]
  · rw [← UInt64.toNat_inj, UInt64.toNat_and, UInt64.toNat_xor, toNat_ofBool, toNat_ofBool, hone,
      Nat.one_and_eq_mod_two, ← Nat.div_one (t.toNat ^^^ _), ← Nat.pow_zero 2,
      ← Nat.toNat_testBit, Nat.testBit_xor, Nat.testBit_bool_toNat, decide_eq_true rfl,
      Bool.true_and]

theorem decodeLoop_spec {n s t x y : UInt64} {d order j fuel : Nat} (hn : n.toNat = 2 ^ order)
    (hj : j ≤ order) (hfuel : order ≤ j + fuel) (hs : s.toNat = 2 ^ j) (ht : t.toNat = d / 4 ^ j)
    (hxy : (x.toNat, y.toNat) = Hilbert.point j (d % 4 ^ j)) (hd : d < 4 ^ order) :
    ((decodeLoop n fuel s t x y).1.toNat, (decodeLoop n fuel s t x y).2.toNat) =
      Hilbert.point order d := by
  induction fuel generalizing j s t x y with
  | zero =>
    obtain rfl : j = order := by omega
    rwa [Nat.mod_eq_of_lt hd] at hxy
  | succ fuel ih =>
    have hlt := n.toNat_lt
    rw [decodeLoop]
    rcases Nat.lt_or_eq_of_le hj with hj | rfl
    · have hs' : s < n := by
        rw [UInt64.lt_iff_toNat_lt, hs, hn]
        exact Nat.pow_lt_pow_right (by decide) hj
      have hpow : 2 ^ (j + 1) ≤ n.toNat := by
        rw [hn]
        exact Nat.pow_le_pow_right (by decide) hj
      obtain ⟨hrx, hry⟩ := bits_eq t
      rw [if_pos hs', hrx]
      simp only [hry]
      obtain ⟨hx, hy⟩ := Hilbert.point_lt j (d % 4 ^ j)
      rw [← hxy] at hx hy
      have hturn := toNat_turn (t.toNat.testBit 1) (t.toNat.testBit 0 ^^ t.toNat.testBit 1)
        (UInt64.lt_iff_toNat_lt.mpr (hx.trans_eq hs.symm))
        (UInt64.lt_iff_toNat_lt.mpr (hy.trans_eq hs.symm))
      rw [hs] at hturn
      have hrot := Hilbert.rotate_lt (t.toNat.testBit 1)
        (t.toNat.testBit 0 ^^ t.toNat.testBit 1) hx hy
      rw [← hturn] at hrot
      rw [Nat.pow_succ] at hpow
      have hadd : ∀ (z : UInt64) (b : Bool), z.toNat < 2 ^ j →
          (z + s * ofBool b).toNat = z.toNat + 2 ^ j * b.toNat := by
        intro z b hz
        rw [UInt64.toNat_add, UInt64.toNat_mul, hs, toNat_ofBool]
        cases b <;> simp only [Bool.toNat_false, Bool.toNat_true] <;> omega
      apply ih
      · exact hj
      · omega
      · rw [UInt64.toNat_mul, hs, Nat.pow_succ]
        change 2 ^ j * 2 % 2 ^ 64 = 2 ^ j * 2
        exact Nat.mod_eq_of_lt (by omega)
      · rw [UInt64.toNat_div, ht, Nat.div_div_eq_div_mul]
        rfl
      · have hlow : d % 4 ^ (j + 1) % 4 ^ j = d % 4 ^ j :=
          Nat.mod_mod_of_dvd d (Nat.pow_dvd_pow 4 (Nat.le_succ j))
        have hhigh : d % 4 ^ (j + 1) / 4 ^ j = t.toNat % 2 ^ 2 := by
          rw [Nat.pow_succ, Nat.mod_mul_right_div_self, ← ht]
          rfl
        have hbit : ∀ i < 2, (t.toNat % 2 ^ 2).testBit i = t.toNat.testBit i := fun i hi => by
          rw [Nat.testBit_mod_two_pow, decide_eq_true hi, Bool.true_and]
        rw [hadd _ _ hrot.1, hadd _ _ hrot.2, Hilbert.point, hlow, hhigh, hbit 1 (by decide),
          hbit 0 (by decide), Hilbert.inQuadrant, ← hxy, ← hturn]
    · have hs' : ¬ s < n := by
        rw [UInt64.lt_iff_toNat_lt, hs, hn]
        exact lt_irrefl _
      rw [if_neg hs']
      rwa [Nat.mod_eq_of_lt hd] at hxy

theorem toNat_side {order : UInt32} (h : order.toNat < 64) :
    ((1 : UInt64) <<< order.toUInt64).toNat = 2 ^ order.toNat := by
  have hone : (1 : UInt64).toNat = 1 := rfl
  rw [UInt64.toNat_shiftLeft, UInt32.toNat_toUInt64, Nat.mod_eq_of_lt h, hone, Nat.one_shiftLeft,
    Nat.mod_eq_of_lt (Nat.pow_lt_pow_right (by decide) h)]

/-- The place of a cell is its place on the Hilbert curve. -/
theorem toNat_encode2d {x y : UInt64} {order : UInt32} (h : order.toNat ≤ 31)
    (hx : x.toNat < 2 ^ order.toNat) (hy : y.toNat < 2 ^ order.toNat) :
    (encode2d x y order).toNat = Hilbert.index order.toNat (x.toNat, y.toNat) := by
  have hpow := Nat.pow_le_pow_right (n := 4) (by decide) h
  have hside := toNat_side (h.trans_lt (by decide))
  rw [← hside, ← UInt64.lt_iff_toNat_lt] at hx hy
  rw [encode2d, encodeLoop_spec hside (Nat.le_refl _) (by omega) (by
    rw [UInt64.toNat_div, hside]; rfl) hx hy (by rw [UInt64.toNat_zero]; omega)]
  rw [UInt64.lt_iff_toNat_lt, hside] at hx hy
  rw [Nat.mod_eq_of_lt hx, Nat.mod_eq_of_lt hy, UInt64.toNat_zero, Nat.zero_add]

theorem toNat_decode2d {d : UInt64} {order : UInt32} (h : order.toNat < 64)
    (hd : d.toNat < 4 ^ order.toNat) :
    ((decode2d d order).1.toNat, (decode2d d order).2.toNat) =
      Hilbert.point order.toNat d.toNat :=
  decodeLoop_spec (j := 0) (toNat_side h) (Nat.zero_le _) (show order.toNat ≤ 0 + 64 by omega) rfl
    (by rw [Nat.pow_zero, Nat.div_one]) rfl hd

theorem decode2d_encode2d {x y : UInt64} {order : UInt32} (h : order.toNat ≤ 31)
    (hx : x.toNat < 2 ^ order.toNat) (hy : y.toNat < 2 ^ order.toNat) :
    decode2d (encode2d x y order) order = (x, y) := by
  have hindex := toNat_encode2d h hx hy
  have hpoint := toNat_decode2d (d := encode2d x y order) (h.trans_lt (by decide)) (by
    rw [hindex]
    exact Hilbert.index_lt _ _)
  rw [hindex, Hilbert.point_index hx hy] at hpoint
  obtain ⟨h₁, h₂⟩ := Prod.ext_iff.mp hpoint
  exact Prod.ext (UInt64.toNat_inj.mp h₁) (UInt64.toNat_inj.mp h₂)

/-- The curve goes through a square from each cell to one next to it. -/
theorem decode2d_adjacent {d : UInt64} {order : UInt32} (h : order.toNat < 64)
    (hd : d.toNat + 1 < 4 ^ order.toNat) (hlt : d.toNat + 1 < 2 ^ 64) :
    Nat.dist (decode2d d order).1.toNat (decode2d (d + 1) order).1.toNat +
      Nat.dist (decode2d d order).2.toNat (decode2d (d + 1) order).2.toNat = 1 := by
  have hsucc : (d + 1).toNat = d.toNat + 1 := by
    rw [UInt64.toNat_add]
    exact Nat.mod_eq_of_lt hlt
  have hadjacent := Hilbert.adjacent_point hd
  rwa [← hsucc, ← toNat_decode2d h (Nat.lt_of_succ_lt hd),
    ← toNat_decode2d h (hsucc.trans_lt hd)] at hadjacent

/-- The step over the middle of a square of side 16. -/
theorem decode2d_adjacent_middle : Nat.dist (decode2d 127 4).1.toNat (decode2d (127 + 1) 4).1.toNat +
    Nat.dist (decode2d 127 4).2.toNat (decode2d (127 + 1) 4).2.toNat = 1 :=
  decode2d_adjacent (by decide) (by decide) (by decide)

end HilbertCurve

/-! ## Row by row -/

/-- The coordinates of a cell are below the sizes. -/
def Inside (coords sizes : List UInt64) : Prop := List.Forall₂ (· < ·) coords sizes

/-- The index of a cell, row by row, if numbers have no bound. -/
def rowIndex : List UInt64 → List UInt64 → Nat → Nat
  | coord :: coords, size :: sizes, linear =>
    rowIndex coords sizes (linear * size.toNat + coord.toNat)
  | _, _, linear => linear

theorem prod_pos_of_inside {coords sizes : List UInt64} (h : Inside coords sizes) :
    0 < (sizes.map UInt64.toNat).prod := by
  induction h with
  | nil => exact Nat.one_pos
  | cons hlt _ ih =>
    rw [UInt64.lt_iff_toNat_lt] at hlt
    rw [List.map_cons, List.prod_cons]
    exact Nat.mul_pos (by omega) ih

theorem rowMajor_eq {coords sizes : List UInt64} (h : Inside coords sizes) {linear : UInt64}
    (hfit : (linear.toNat + 1) * (sizes.map UInt64.toNat).prod ≤ 2 ^ 64) :
    ∃ r, rowMajor coords sizes linear = some r ∧ r.toNat = rowIndex coords sizes linear.toNat := by
  induction h generalizing linear with
  | nil => exact ⟨linear, rfl, rfl⟩
  | @cons coord size coords sizes hlt hrest ih =>
    rw [UInt64.lt_iff_toNat_lt] at hlt
    have hpos := prod_pos_of_inside hrest
    have hnext : linear.toNat * size.toNat + coord.toNat + 1 ≤ (linear.toNat + 1) * size.toNat := by
      rw [Nat.add_mul]
      omega
    rw [List.map_cons, List.prod_cons, ← Nat.mul_assoc] at hfit
    have hbound := (Nat.mul_le_mul_right _ hnext).trans hfit
    have hlt64 := (Nat.le_mul_of_pos_right _ hpos).trans hbound
    have hstep : (linear * size + coord).toNat = linear.toNat * size.toNat + coord.toNat := by
      rw [UInt64.toNat_add, UInt64.toNat_mul, Nat.mod_add_mod, Nat.mod_eq_of_lt (by omega)]
    obtain ⟨r, hr, heq⟩ := @ih (linear * size + coord) (by rwa [hstep])
    refine ⟨r, hr, ?_⟩
    rw [heq, hstep, rowIndex]

theorem rowIndex_inj {coords coords' sizes : List UInt64} (h : Inside coords sizes)
    (h' : Inside coords' sizes) {l l' : Nat}
    (heq : rowIndex coords sizes l = rowIndex coords' sizes l') : l = l' ∧ coords = coords' := by
  induction h generalizing coords' l l' with
  | nil =>
    cases h'
    exact ⟨heq, rfl⟩
  | @cons coord size coords sizes hlt _ ih =>
    cases h' with
    | @cons coord' _ coords' _ hlt' hrest =>
      rw [rowIndex, rowIndex] at heq
      obtain ⟨hl, rfl⟩ := ih hrest heq
      rw [UInt64.lt_iff_toNat_lt] at hlt hlt'
      rw [Nat.mul_comm l, Nat.mul_comm l'] at hl
      obtain ⟨rfl, hcoord⟩ := ZOrderCurve.position_inj hlt hlt' hl
      rw [UInt64.toNat_inj.mp hcoord]
      exact ⟨rfl, rfl⟩

/-! ## No two cells share an address -/

/-- The sizes up to which the Z-order curve has a bit for every bit of a coordinate. -/
def ZOrderSizes (sizes : List UInt64) : Prop := ∀ d ∈ sizes, d.toNat ≤ 2 ^ (64 / sizes.length)

/-- The sizes of a square of side `2 ^ order`, in every direction. -/
def HilbertSizes (sizes : List UInt64) (order : UInt32) : Prop :=
  order.toNat ≤ 31 ∧ ∀ d ∈ sizes, d.toNat ≤ 2 ^ order.toNat

/-- Limits that name a curve by its name. -/
def StatedLimits (curve : SpaceFillingCurve) (sizes : List UInt64) (order : UInt32) : Prop :=
  match curve with
  | .hilbert => HilbertSizes sizes order
  | _ => ZOrderSizes sizes

/-- Limits of the curve that is used: the Hilbert curve is one of two dimensions, and every other
number of dimensions falls back to the Z-order curve. -/
def Limits (curve : SpaceFillingCurve) (sizes : List UInt64) (order : UInt32) : Prop :=
  match curve with
  | .hilbert => HilbertSizes sizes order ∧ (sizes.length ≠ 2 → ZOrderSizes sizes)
  | _ => ZOrderSizes sizes

/-- No offset wraps around. -/
def NoOverflow (curve : SpaceFillingCurve) (sizes : List UInt64) (elementSize : UInt64)
    (order : UInt32) : Prop :=
  ∀ coords, Inside coords sizes → ∀ index, curveIndex curve coords sizes order = some index →
    index.toNat * elementSize.toNat < 2 ^ 64

/-- Every cell has an offset, and no two cells have the same. -/
def OffsetsApart (curve : SpaceFillingCurve) (sizes : List UInt64) (elementSize : UInt64)
    (order : UInt32) : Prop :=
  (∀ coords, Inside coords sizes →
    (physicalOffset curve coords sizes elementSize order).isSome) ∧
  ∀ coords coords', Inside coords sizes → Inside coords' sizes →
    physicalOffset curve coords sizes elementSize order =
      physicalOffset curve coords' sizes elementSize order → coords = coords'

theorem inside_lt {coords sizes : List UInt64} {b : Nat} (h : Inside coords sizes)
    (hsizes : ∀ d ∈ sizes, d.toNat ≤ b) : ∀ c ∈ coords, c.toNat < b := by
  induction h with
  | nil => nofun
  | cons hlt _ ih =>
    rw [List.forall_mem_cons] at hsizes ⊢
    exact ⟨(UInt64.lt_iff_toNat_lt.mp hlt).trans_le hsizes.1, ih hsizes.2⟩

theorem encodeNd_inj {coords coords' sizes : List UInt64} (hsizes : ZOrderSizes sizes)
    (h : Inside coords sizes) (h' : Inside coords' sizes)
    (heq : ZOrderCurve.encodeNd coords = ZOrderCurve.encodeNd coords') : coords = coords' := by
  rw [ZOrderSizes] at hsizes
  have hlt := inside_lt h hsizes
  have hlt' := inside_lt h' hsizes
  rw [← h.length_eq] at hlt
  rw [← h'.length_eq] at hlt'
  rw [← ZOrderCurve.decodeNd_encodeNd hlt, heq, h.length_eq, ← h'.length_eq,
    ZOrderCurve.decodeNd_encodeNd hlt']

/-- The index that the Z-order curve gives is that of the general encoder. -/
theorem curveIndex_zOrder (coords sizes : List UInt64) (order : UInt32) :
    curveIndex .zOrder coords sizes order = some (ZOrderCurve.encodeNd coords) := by
  rcases coords with _ | ⟨x, _ | ⟨y, _ | ⟨z, _ | ⟨w, coords⟩⟩⟩⟩
  · rfl
  · rfl
  · exact congrArg some (ZOrderCurve.encode2d_eq x y)
  · exact congrArg some (ZOrderCurve.encode3d_eq x y z)
  · rfl

theorem curveIndex_hilbert {coords : List UInt64} (sizes : List UInt64) (order : UInt32)
    (h : coords.length ≠ 2) :
    curveIndex .hilbert coords sizes order = some (ZOrderCurve.encodeNd coords) := by
  rcases coords with _ | ⟨x, _ | ⟨y, _ | ⟨z, coords⟩⟩⟩
  · rfl
  · rfl
  · exact absurd rfl h
  · rfl

theorem prod_le_of_zOrderSizes {sizes : List UInt64} (h : ZOrderSizes sizes) :
    (sizes.map UInt64.toNat).prod ≤ 2 ^ 64 := by
  have hle := List.prod_le_pow_card (sizes.map UInt64.toNat) (2 ^ (64 / sizes.length))
    (List.forall_mem_map.mpr h)
  rw [List.length_map, ← Nat.pow_mul] at hle
  exact hle.trans (Nat.pow_le_pow_right (by decide) (Nat.div_mul_le_self 64 sizes.length))

/-- What one cell gives, and that no other cell gives it. -/
theorem curveIndex_spec {curve : SpaceFillingCurve} {sizes : List UInt64} {order : UInt32}
    (hlimits : Limits curve sizes order) {coords : List UInt64} (h : Inside coords sizes) :
    ∃ index, curveIndex curve coords sizes order = some index ∧
      ∀ coords', Inside coords' sizes → curveIndex curve coords' sizes order = some index →
        coords = coords' := by
  cases curve with
  | zOrder =>
    refine ⟨_, curveIndex_zOrder _ _ _, fun coords' h' heq => ?_⟩
    rw [curveIndex_zOrder] at heq
    exact encodeNd_inj hlimits h h' (Option.some.inj heq).symm
  | hilbert =>
    by_cases htwo : sizes.length = 2
    · obtain ⟨⟨horder, hsizes⟩, -⟩ := hlimits
      have hlt := inside_lt h hsizes
      obtain ⟨x, y, rfl⟩ := List.length_eq_two.mp (h.length_eq.trans htwo)
      refine ⟨_, rfl, fun coords' h' heq => ?_⟩
      have hlt' := inside_lt h' hsizes
      obtain ⟨x', y', rfl⟩ := List.length_eq_two.mp (h'.length_eq.trans htwo)
      simp only [List.forall_mem_cons] at hlt hlt'
      have hpair : (x, y) = (x', y') := by
        rw [← HilbertCurve.decode2d_encode2d horder hlt.1 hlt.2.1,
          ← HilbertCurve.decode2d_encode2d horder hlt'.1 hlt'.2.1]
        exact congrArg (HilbertCurve.decode2d · order) (Option.some.inj heq).symm
      cases hpair
      rfl
    · refine ⟨_, curveIndex_hilbert _ _ (h.length_eq ▸ htwo), fun coords' h' heq => ?_⟩
      rw [curveIndex_hilbert _ _ (h'.length_eq ▸ htwo)] at heq
      exact encodeNd_inj (hlimits.2 htwo) h h' (Option.some.inj heq).symm
  | rowMajor =>
    have hfit := prod_le_of_zOrderSizes hlimits
    rw [← Nat.one_mul (List.prod _)] at hfit
    obtain ⟨index, hindex, hrow⟩ := @rowMajor_eq _ _ h 0 hfit
    refine ⟨index, hindex, fun coords' h' heq => ?_⟩
    obtain ⟨index', hindex', hrow'⟩ := @rowMajor_eq _ _ h' 0 hfit
    obtain rfl := Option.some.inj (hindex'.symm.trans heq)
    exact (rowIndex_inj h h' (hrow.symm.trans hrow')).2

/-- The decoders undo the encoders; and within the limits of the curve that is used, cells that
take up room have offsets of their own. -/
theorem curves_injective :
    (∀ (order : UInt32) (x y : UInt64), order.toNat ≤ 31 → x.toNat < 2 ^ order.toNat →
      y.toNat < 2 ^ order.toNat →
        HilbertCurve.decode2d (HilbertCurve.encode2d x y order) order = (x, y) ∧
          (HilbertCurve.encode2d x y order).toNat < 4 ^ order.toNat) ∧
    (∀ coords : List UInt64, 1 ≤ coords.length →
      (∀ c ∈ coords, c.toNat < 2 ^ (64 / coords.length)) →
        ZOrderCurve.decodeNd (ZOrderCurve.encodeNd coords) coords.length = coords) ∧
    ∀ curve sizes elementSize order, Limits curve sizes order → 1 ≤ elementSize →
      NoOverflow curve sizes elementSize order → OffsetsApart curve sizes elementSize order := by
  refine ⟨fun order x y h hx hy => ⟨HilbertCurve.decode2d_encode2d h hx hy, ?_⟩,
    fun coords _ h => ZOrderCurve.decodeNd_encodeNd h,
    fun curve sizes elementSize order hlimits hsize hoverflow => ⟨fun coords h => ?_,
      fun coords coords' h h' heq => ?_⟩⟩
  · rw [HilbertCurve.toNat_encode2d h hx hy]
    exact Hilbert.index_lt _ _
  · obtain ⟨index, hindex, -⟩ := curveIndex_spec hlimits h
    rw [physicalOffset, hindex]
    rfl
  · obtain ⟨index, hindex, hunique⟩ := curveIndex_spec hlimits h
    obtain ⟨index', hindex', -⟩ := curveIndex_spec hlimits h'
    rw [physicalOffset, physicalOffset, hindex, hindex', Option.map_some, Option.map_some,
      Option.some_inj, ← UInt64.toNat_inj, UInt64.toNat_mul, UInt64.toNat_mul,
      Nat.mod_eq_of_lt (hoverflow _ h _ hindex), Nat.mod_eq_of_lt (hoverflow _ h' _ hindex')] at heq
    have hpos : 0 < elementSize.toNat := UInt64.le_iff_toNat_le.mp hsize
    obtain rfl := UInt64.toNat_inj.mp (Nat.eq_of_mul_eq_mul_right hpos heq)
    exact hunique coords' h' hindex'

/-- A square of side 4 along the Hilbert curve. -/
theorem curves_injective_square :
    HilbertCurve.decode2d (HilbertCurve.encode2d 3 1 2) 2 = (3, 1) ∧
      ZOrderCurve.decodeNd (ZOrderCurve.encodeNd [5, 6, 7]) 3 = [5, 6, 7] ∧
      OffsetsApart .hilbert [4, 4] 8 2 := by
  have horder : (2 : UInt32).toNat = 2 := rfl
  have hlimits : Limits .hilbert [4, 4] 2 := ⟨⟨by decide, by simp⟩, fun h => absurd rfl h⟩
  have hsize : (1 : UInt64) ≤ 8 := by decide
  have hoverflow : NoOverflow .hilbert [4, 4] 8 2 := by
    intro coords h index hindex
    obtain ⟨x, _, hx, hrest, rfl⟩ := List.forall₂_cons_right_iff.mp h
    obtain ⟨y, _, hy, hnil, rfl⟩ := List.forall₂_cons_right_iff.mp hrest
    obtain rfl := List.forall₂_nil_right_iff.mp hnil
    obtain rfl := Option.some.inj hindex
    have hx' : x.toNat < 4 := UInt64.lt_iff_toNat_lt.mp hx
    have hy' : y.toNat < 4 := UInt64.lt_iff_toNat_lt.mp hy
    have hlt := (curves_injective.1 2 x y (by decide) (by rwa [horder]) (by rwa [horder])).2
    rw [horder] at hlt
    have helem : (8 : UInt64).toNat = 8 := rfl
    rw [helem]
    omega
  exact ⟨(curves_injective.1 2 3 1 (by decide) (by decide) (by decide)).1,
    curves_injective.2.1 [5, 6, 7] (by decide) (by simp),
    curves_injective.2.2 .hilbert [4, 4] 8 2 hlimits hsize hoverflow⟩

/-- Elements of size zero all lie at one address, and a Hilbert curve in three dimensions leaves out
the bits that the Z-order curve has no place for. -/
theorem not_offsetsApart :
    (¬ ∀ curve sizes elementSize order, StatedLimits curve sizes order →
      NoOverflow curve sizes elementSize order → OffsetsApart curve sizes elementSize order) ∧
    ¬ ∀ curve sizes elementSize order, StatedLimits curve sizes order → 1 ≤ elementSize →
      NoOverflow curve sizes elementSize order → OffsetsApart curve sizes elementSize order := by
  constructor
  · intro h
    have hapart := (h .rowMajor [2] 0 0 (by
      intro d hd
      obtain rfl := List.mem_singleton.mp hd
      decide) (fun _ _ _ _ => Nat.two_pow_pos 64)).2 [0] [1] (.cons (by decide) .nil)
      (.cons (by decide) .nil) (by decide)
    exact absurd hapart (by decide)
  · intro h
    have hapart := (h .hilbert [4194304, 1, 1] 1 22 (by
      refine ⟨by decide, ?_⟩
      rw [List.forall_mem_cons, List.forall_mem_cons, List.forall_mem_singleton]
      decide) (by decide) (fun _ _ i _ => by
        rw [show (1 : UInt64).toNat = 1 from rfl, Nat.mul_one]
        exact i.toNat_lt)).2 [2097152, 0, 0] [0, 0, 0]
      (.cons (by decide) (.cons (by decide) (.cons (by decide) .nil)))
      (.cons (by decide) (.cons (by decide) (.cons (by decide) .nil))) (by decide)
    exact absurd hapart (by decide)

end Vuma.Bd
