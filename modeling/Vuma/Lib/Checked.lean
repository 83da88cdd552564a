import Vuma.Lib.Codec

/-!
# Computations that may panic

A computation ends with a value, ends with an error, or panics. Slices of a byte string and sums of
machine words panic when they are out of range. `Safe` says that a computation does not panic and
that its value has a property; it is proved along the computation.
-/

namespace Vuma.Lib

/-- A computation with errors in `ε` that may panic. -/
abbrev Checked (ε α : Type) := ExceptT ε Option α

namespace Checked

section

variable {ε α β : Type}

/-- Panic. -/
def abort : Checked ε α := ExceptT.mk none

/-- No panic, and the value, if any, satisfies `P`. -/
def Safe (x : Checked ε α) (P : α → Prop) : Prop := ∃ r, x.run = some r ∧ ∀ a, r = .ok a → P a

theorem Safe.pure {P : α → Prop} {a : α} (h : P a) : Safe (pure a : Checked ε α) P :=
  ⟨.ok a, rfl, fun _ hb => by cases hb; exact h⟩

theorem Safe.throw {P : α → Prop} (e : ε) : Safe (throw e : Checked ε α) P :=
  ⟨.error e, rfl, fun _ hb => by cases hb⟩

theorem Safe.bind {x : Checked ε α} {f : α → Checked ε β} {Q : α → Prop} {P : β → Prop}
    (hx : Safe x Q) (hf : ∀ a, Q a → Safe (f a) P) : Safe (x >>= f) P := by
  obtain ⟨r, hr, hQ⟩ := hx
  cases r with
  | error e =>
    refine ⟨.error e, ?_, fun _ hb => by cases hb⟩
    rw [ExceptT.run_bind, hr]
    rfl
  | ok a =>
    obtain ⟨r', hr', hP⟩ := hf a (hQ a rfl)
    refine ⟨r', ?_, hP⟩
    rw [ExceptT.run_bind, hr]
    exact hr'

/-- `if c { return Err(e); }` and what comes after it. -/
theorem Safe.guard {c : Prop} [Decidable c] {e : ε} {k : Unit → Checked ε α} {P : α → Prop}
    (h : ¬ c → Safe (k ()) P) :
    Safe (if c then (MonadExcept.throw e : Checked ε Unit) >>= k else k ()) P := by
  split
  · exact (Safe.throw (P := fun _ => False) e).bind fun _ hf => hf.elim
  next hc => exact h hc

theorem Safe.ite {c : Prop} [Decidable c] {x y : Checked ε α} {P : α → Prop}
    (hx : c → Safe x P) (hy : ¬ c → Safe y P) : Safe (if c then x else y) P := by
  split
  next hc => exact hx hc
  next hc => exact hy hc

theorem Safe.isSome {x : Checked ε α} {P : α → Prop} (h : Safe x P) : x.run.isSome := by
  obtain ⟨r, hr, -⟩ := h
  rw [hr]
  rfl

/-! ## Slices -/

/-- `data[lo..hi]`. -/
def slice (data : Bytes) (lo hi : Nat) : Checked ε Bytes :=
  if lo ≤ hi ∧ hi ≤ data.length then pure ((data.take hi).drop lo) else abort

/-- `data[i]`. -/
def byteAt (data : Bytes) (i : Nat) : Checked ε UInt8 :=
  match data[i]? with
  | some b => pure b
  | none => abort

/-- `bs.try_into().unwrap()` for an array of `n` bytes. -/
def toVector (n : Nat) (bs : Bytes) : Checked ε (Vector UInt8 n) :=
  if h : bs.length = n then pure ⟨bs.toArray, by simpa using h⟩ else abort

/-- `from_le_bytes(data[lo..hi].try_into().unwrap())` for a number of `n` bytes. -/
def leAt (n : Nat) (data : Bytes) (lo hi : Nat) : Checked ε Nat := do
  let bs ← slice data lo hi
  let v ← toVector n bs
  pure (ofLeBytes v.toList)

/-- From the position `lo` on, the bytes are `rest`. -/
structure At (data : Bytes) (lo : Nat) (rest : Bytes) : Prop where
  le : lo ≤ data.length
  drop : data.drop lo = rest

theorem At.zero (data : Bytes) : At data 0 data := ⟨Nat.zero_le _, rfl⟩

theorem At.of_eq {data rest : Bytes} (h : data = rest) : At data 0 rest := h ▸ .zero data

theorem At.length {data rest : Bytes} {lo : Nat} (h : At data lo rest) :
    data.length = lo + rest.length := by
  have hle := h.le
  rw [← h.drop, List.length_drop]
  omega

/-- After some bytes come the others. -/
theorem At.next {data b c : Bytes} {lo hi : Nat} (h : At data lo (b ++ c))
    (hhi : hi = lo + b.length) : At data hi c := by
  subst hhi
  constructor
  · rw [h.length, List.length_append]
    omega
  · rw [← List.drop_drop, h.drop, List.drop_left]

theorem At.slice {data b c : Bytes} {lo hi : Nat} (h : At data lo (b ++ c))
    (hhi : hi = lo + b.length) : slice (ε := ε) data lo hi = pure b := by
  subst hhi
  have hlen := h.length
  rw [List.length_append] at hlen
  rw [Checked.slice, if_pos (by omega), List.drop_take, h.drop, Nat.add_sub_cancel_left,
    List.take_left]

theorem At.byte {data c : Bytes} {b : UInt8} {i : Nat} (h : At data i (b :: c)) :
    byteAt (ε := ε) data i = pure b := by
  have hget : data[i]? = some b := by
    rw [← List.head?_drop, h.drop]
    rfl
  rw [byteAt, hget]

theorem Safe.slice {data : Bytes} {lo hi : Nat} (h : lo ≤ hi) (h' : hi ≤ data.length) :
    Safe (slice (ε := ε) data lo hi) fun bs => bs.length = hi - lo := by
  rw [Checked.slice, if_pos ⟨h, h'⟩]
  refine .pure ?_
  rw [List.length_drop, List.length_take, min_eq_left h']

theorem Safe.byteAt {data : Bytes} {i : Nat} (h : i < data.length) :
    Safe (byteAt (ε := ε) data i) fun _ => True := by
  rw [Checked.byteAt, List.getElem?_eq_getElem h]
  exact .pure trivial

theorem toVector_toList {n : Nat} (v : Vector UInt8 n) :
    toVector (ε := ε) n v.toList = pure v := by
  have h : v.toList.length = n := by simp
  rw [toVector, dif_pos h]
  rfl

theorem Safe.toVector {n : Nat} {bs : Bytes} (h : bs.length = n) :
    Safe (toVector (ε := ε) n bs) fun _ => True := by
  rw [Checked.toVector, dif_pos h]
  exact .pure trivial

theorem At.le_eq {data c : Bytes} {n v lo hi : Nat} (h : At data lo (leBytes n v ++ c))
    (hhi : hi = lo + n) (hv : v < 256 ^ n) : leAt (ε := ε) n data lo hi = pure v := by
  have hlen := length_leBytes n v
  rw [leAt, h.slice (by rw [hlen, hhi]), pure_bind, toVector, dif_pos hlen, pure_bind]
  exact congrArg pure (ofLeBytes_leBytes hv)

theorem Safe.leAt {n : Nat} {data : Bytes} {lo hi : Nat} (hn : hi = lo + n)
    (h : hi ≤ data.length) : Safe (leAt (ε := ε) n data lo hi) fun _ => True := by
  refine (Safe.slice (by omega) h).bind fun bs hbs => ?_
  exact (Safe.toVector (by omega)).bind fun _ _ => .pure trivial

/-! ## Machine words -/

/-- The largest `usize` and one. -/
def usizeBound : Nat := 2 ^ 64

def checkedAdd (a b : Nat) : Option Nat := if a + b < usizeBound then some (a + b) else none

def checkedMul (a b : Nat) : Option Nat := if a * b < usizeBound then some (a * b) else none

/-- `a + b`, with overflow checks. -/
def add (a b : Nat) : Checked ε Nat := if a + b < usizeBound then pure (a + b) else abort

/-- `a - b`, with overflow checks. -/
def sub (a b : Nat) : Checked ε Nat := if b ≤ a then pure (a - b) else abort

/-- `ok_or(e)?`. -/
def okOr (e : ε) : Option α → Checked ε α
  | some a => pure a
  | none => throw e

/-- `map_err(f)?`. -/
def mapErr {ε' : Type} (f : ε → ε') (x : Checked ε α) : Checked ε' α :=
  ExceptT.mk (x.run.map fun r => r.mapError f)

theorem Safe.add {a b : Nat} (h : a + b < usizeBound) :
    Safe (add (ε := ε) a b) fun n => n = a + b := by
  rw [Checked.add, if_pos h]
  exact .pure rfl

theorem Safe.sub {a b : Nat} (h : b ≤ a) : Safe (sub (ε := ε) a b) fun n => n = a - b := by
  rw [Checked.sub, if_pos h]
  exact .pure rfl

theorem Safe.okOr {e : ε} {o : Option α} {P : α → Prop} (h : ∀ a, o = some a → P a) :
    Safe (okOr e o) P := by
  cases o with
  | none => exact .throw e
  | some a => exact .pure (h a rfl)

theorem Safe.mapErr {ε' : Type} {f : ε → ε'} {x : Checked ε α} {P : α → Prop} (h : Safe x P) :
    Safe (mapErr f x) P := by
  obtain ⟨r, hr, hP⟩ := h
  refine ⟨r.mapError f, ?_, ?_⟩
  · simp only [Checked.mapErr, ExceptT.run_mk, hr, Option.map_some]
  · intro a ha
    cases r with
    | error e => cases ha
    | ok b => exact hP a (by cases ha; rfl)

end

end Checked

end Vuma.Lib

/-!
# Loops over arrays that may panic

Reading and writing a list at an index panics outside its range. A loop over a range of numbers
takes the value of an invariant at the beginning to that at the end, if each step does.
-/

namespace Vuma.Lib.Checked

variable {ε α β : Type}

/-- `xs[i]`. -/
def getAt (xs : List α) (i : Nat) : Checked ε α :=
  match xs[i]? with
  | some a => pure a
  | none => abort

/-- `xs[i] = a`. -/
def setAt (xs : List α) (i : Nat) (a : α) : Checked ε (List α) :=
  if i < xs.length then pure (xs.set i a) else abort

/-- `xs[lo..hi].copy_from_slice(src)`. -/
def copyAt (xs : List α) (lo hi : Nat) (src : List α) : Checked ε (List α) :=
  if lo ≤ hi ∧ hi ≤ xs.length ∧ src.length = hi - lo then
    pure (xs.take lo ++ src ++ xs.drop hi)
  else abort

/-- `a * b`, with overflow checks. -/
def mul (a b : Nat) : Checked ε Nat := if a * b < usizeBound then pure (a * b) else abort

theorem getAt_eq {xs : List α} {i : Nat} {a : α} (h : xs[i]? = some a) :
    getAt (ε := ε) xs i = pure a := by
  rw [getAt, h]

theorem add_eq {a b : Nat} (h : a + b < usizeBound) : add (ε := ε) a b = pure (a + b) := if_pos h

theorem sub_eq {a b : Nat} (h : b ≤ a) : sub (ε := ε) a b = pure (a - b) := if_pos h

theorem mul_eq {a b : Nat} (h : a * b < usizeBound) : mul (ε := ε) a b = pure (a * b) := if_pos h

/-- A write behind what is written already, in an array of zeros. -/
theorem setAt_fill {z : α} (xs : List α) (n : Nat) (a : α) :
    setAt (ε := ε) (xs ++ List.replicate (n + 1) z) xs.length a =
      pure (xs ++ [a] ++ List.replicate n z) := by
  rw [setAt, if_pos (by rw [List.length_append, List.length_replicate]; omega),
    List.set_append_right _ _ (Nat.le_refl _), Nat.sub_self, List.replicate_succ,
    List.set_cons_zero, List.append_assoc]
  rfl

theorem copyAt_fill {z : α} (xs src : List α) (n : Nat) :
    copyAt (ε := ε) (xs ++ List.replicate (src.length + n) z) xs.length (xs.length + src.length)
      src = pure (xs ++ src ++ List.replicate n z) := by
  have hdrop : (xs ++ List.replicate (src.length + n) z).drop (xs.length + src.length) =
      List.replicate n z := by
    rw [← List.drop_drop, List.drop_left, List.drop_replicate, Nat.add_sub_cancel_left]
  rw [copyAt, if_pos ⟨by omega, by rw [List.length_append, List.length_replicate]; omega, by omega⟩,
    List.take_left, hdrop]

/-- A loop from `lo`, by its invariant. -/
theorem foldlM_range'_eq {step : β → Nat → Checked ε β} {inv : Nat → β} {lo n : Nat}
    (h : ∀ i, lo ≤ i → i < lo + n → step (inv i) i = pure (inv (i + 1))) :
    (List.range' lo n).foldlM step (inv lo) = pure (inv (lo + n)) := by
  induction n generalizing lo with
  | zero => rfl
  | succ n ih =>
    rw [List.range'_succ, List.foldlM_cons, h lo (Nat.le_refl lo) (by omega), pure_bind,
      ih fun i hi hi' => h i (by omega) (by omega)]
    congr 2
    omega

end Vuma.Lib.Checked
