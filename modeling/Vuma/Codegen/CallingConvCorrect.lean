import Vuma.Codegen.CallingConv

/-!
# Where the calling convention overlaps

An argument takes what lies between the counters before and after it, with one exception: an
integer value of 9 to 16 bytes needs two X registers or two stack words, and the counter passes one.
It then shares the second with the next argument of its kind. `Fits` says for one argument when this
and the alignment of its stack offset do no harm, and `computeCallingConv_wellPlaced` that a
signature is well placed exactly when every argument fits.
-/

namespace Vuma.Codegen

open IR

/-! ## The condition -/

/-- The next argument that goes to the stack when no X register is left and `v` V registers are
taken. -/
def nextStacked (v : Nat) : List IRType → Option IRType
  | [] => none
  | t :: ts =>
    if classifyArg t = .fp ∧ v + members t ≤ 8 then nextStacked (v + members t) ts else some t

/-- Where an argument starts on the stack, `s` bytes being taken: only a floating-point scalar is
aligned. -/
def stackStart (s : Nat) (t : IRType) : Nat :=
  if classifyArg t = .fp ∧ hfaInfo t = none then alignUp s t.alignment else s

/-- The counters before `t` and the arguments after it leave room for `t`.
- An integer value in a register has at most 8 bytes, or the next register is one of X0–X7 and the
  next argument that is not a floating-point one needs none.
- An integer value on the stack is aligned, and has at most 8 bytes or ends before the next
  argument on the stack, or without one before the rounded end.
- A spilled aggregate and a pointer on the stack are aligned. -/
def Fits (c : Counters) (t : IRType) (rest : List IRType) : Prop :=
  match classifyArg t with
  | .integer =>
    if c.xRegIdx < 8 then
      t.size ≤ 8 ∨ c.xRegIdx < 7 ∧ ∀ u ∈ rest.find? (classifyArg · ≠ .fp), regsNeeded u = 0
    else
      t.alignment ∣ c.stackOffset ∧
        (t.size ≤ 8 ∨
          match nextStacked c.vRegIdx rest with
          | none => c.stackOffset + t.size ≤ alignUp (c.stackOffset + 8) 16
          | some u =>
            passedSize u = 0 ∨ c.stackOffset + t.size ≤ stackStart (c.stackOffset + 8) u)
  | .fp =>
    match hfaInfo t with
    | some (elem, count) => c.vRegIdx + count ≤ 8 ∨ elem.alignment ∣ c.stackOffset
    | none => True
  | .indirect => c.xRegIdx < 8 ∨ 8 ∣ c.stackOffset
  | .stack => True

/-- Every argument fits, the counters being those the arguments before it leave. -/
def AllFit : Counters → List IRType → Prop
  | _, [] => True
  | c, t :: ts => Fits c t ts ∧ AllFit (placeArg c 0 t).2 ts

/-! ## Sizes and alignments -/

theorem le_alignUp {n a : Nat} (ha : 0 < a) : n ≤ alignUp n a := by
  have hmod := Nat.div_add_mod (n + a - 1) a
  have hlt := Nat.mod_lt (n + a - 1) ha
  rw [Nat.mul_comm] at hmod
  unfold alignUp
  omega

theorem dvd_alignUp (n a : Nat) : a ∣ alignUp n a := Dvd.intro_left _ rfl

theorem alignUp_of_dvd {n a : Nat} (ha : 0 < a) (h : a ∣ n) : alignUp n a = n := by
  obtain ⟨k, rfl⟩ := h
  have hdiv : (a * k + a - 1) / a = k := by
    rw [Nat.add_sub_assoc ha, Nat.mul_add_div ha, Nat.div_eq_of_lt (by omega), Nat.add_zero]
  rw [alignUp, hdiv, Nat.mul_comm]

theorem classifyArg_ne_stack (t : IRType) : classifyArg t ≠ .stack := by
  unfold classifyArg
  split <;> try simp
  all_goals split_ifs <;> simp

/-- An integer value has at most 16 bytes. -/
theorem size_le_of_integer {t : IRType} (h : classifyArg t = .integer) : t.size ≤ 16 := by
  cases t with
  | struct n fields | array e count | taggedUnion n tag p v =>
    by_contra hlt
    simp only [classifyArg, if_neg hlt] at h
    split at h <;> cases h
  | channel e => simp [IRType.size, sizeOfType]
  | _ => decide

/-- A member of an aggregate is as large as its alignment. -/
theorem isFloat_size {e : IRType} (h : e.isFloat = true) :
    e.size = e.alignment ∧ 0 < e.alignment := by
  cases e <;> first | decide | cases h

theorem structEnd_replicate {e : IRType} (h : e.isFloat = true) (k m : Nat) :
    structEnd 8 (List.replicate k e) (m * e.size) = (m + k) * e.size := by
  obtain ⟨hsize, hpos⟩ := isFloat_size h
  induction k generalizing m with
  | zero => rfl
  | succ k ih =>
    have hup : alignUp (m * e.size) (alignmentOf 8 e) = m * e.size :=
      alignUp_of_dvd hpos (hsize ▸ Dvd.intro_left m rfl)
    have hnext : m * e.size + e.size = (m + 1) * e.size := (Nat.succ_mul m e.size).symm
    rw [List.replicate_succ, structEnd, hup]
    change structEnd 8 _ (m * e.size + e.size) = _
    rw [hnext, ih, Nat.add_assoc, Nat.add_comm 1 k]

theorem alignmentOfFields_replicate (e : IRType) (k : Nat) :
    alignmentOfFields 8 (List.replicate (k + 1) e) = e.alignment := by
  induction k with
  | zero => simp [alignmentOfFields, IRType.alignment]
  | succ k ih =>
    rw [List.replicate_succ, alignmentOfFields, ih]
    exact Nat.max_self _

/-- An aggregate of floating-point members is its members and nothing else. -/
theorem hfaInfo_size {t e : IRType} {count : Nat} (h : hfaInfo t = some (e, count)) :
    e.isFloat = true ∧ 0 < count ∧ t.size = count * e.size ∧ t.alignment = e.alignment := by
  have hhfa : isHfa t = true := by
    by_contra hnot
    simp [hfaInfo, hnot] at h
  cases t with
  | struct n fields =>
    cases fields with
    | nil => cases hhfa
    | cons first fields =>
      simp only [hfaInfo, if_pos hhfa, Option.some.injEq, Prod.mk.injEq] at h
      obtain ⟨rfl, hcount⟩ := h
      simp only [isHfa, Bool.and_eq_true, decide_eq_true_eq, List.all_eq_true] at hhfa
      obtain ⟨⟨-, hfloat⟩, hall⟩ := hhfa
      obtain ⟨hsize, hpos⟩ := isFloat_size hfloat
      have hfields : first :: fields = List.replicate count first :=
        List.eq_replicate_iff.mpr ⟨hcount, hall⟩
      have halign : (IRType.struct n (first :: fields)).alignment = first.alignment := by
        change alignmentOfFields 8 (first :: fields) = _
        obtain ⟨k, rfl⟩ : ∃ k, count = k + 1 := ⟨fields.length, hcount.symm⟩
        rw [hfields, alignmentOfFields_replicate]
      have hend := structEnd_replicate hfloat count 0
      rw [Nat.zero_mul, Nat.zero_add, ← hfields] at hend
      refine ⟨hfloat, hcount ▸ Nat.succ_pos _, ?_, halign⟩
      have hup : (IRType.struct n (first :: fields)).size =
          alignUp (structEnd 8 (first :: fields) 0)
            (IRType.struct n (first :: fields)).alignment := by
        rw [IRType.size, sizeOfType, IRType.alignment]
      rw [hup, hend, halign]
      exact alignUp_of_dvd hpos (hsize ▸ Dvd.intro_left count rfl)
  | array element c =>
    simp only [hfaInfo, if_pos hhfa, Option.some.injEq, Prod.mk.injEq] at h
    obtain ⟨rfl, rfl⟩ := h
    simp only [isHfa, Bool.and_eq_true, decide_eq_true_eq] at hhfa
    refine ⟨hhfa.2, Nat.pos_of_ne_zero hhfa.1.1, ?_, ?_⟩
    · rw [IRType.size, sizeOfType, Nat.mul_comm]
      rfl
    · rw [IRType.alignment, alignmentOf]
      rfl
  | _ => cases hhfa

/-- The members of an aligned aggregate follow each other without a gap. -/
theorem hfaEnd_of_dvd {e : IRType} (h : e.isFloat = true) {off : Nat} (hoff : e.alignment ∣ off)
    (count : Nat) : hfaEnd e count off = off + count * e.size := by
  obtain ⟨hsize, hpos⟩ := isFloat_size h
  induction count generalizing off with
  | zero => simp [hfaEnd]
  | succ count ih =>
    rw [hfaEnd, alignUp_of_dvd hpos hoff, ih (Nat.dvd_add hoff (hsize ▸ Nat.dvd_refl _)),
      Nat.succ_mul]
    omega

theorem le_hfaEnd {e : IRType} (h : e.isFloat = true) (count off : Nat) :
    off ≤ hfaEnd e count off := by
  obtain ⟨-, hpos⟩ := isFloat_size h
  induction count generalizing off with
  | zero => exact Nat.le_refl _
  | succ count ih =>
    have hup := le_alignUp (n := off) hpos
    have hrest := ih (alignUp off e.alignment + e.size)
    rw [hfaEnd]
    omega

theorem scalar_alignment {t : IRType} (h : classifyArg t = .fp) (hhfa : hfaInfo t = none) :
    t.size = t.alignment ∧ 0 < t.alignment := by
  have hnot : isHfa t = true → False := by
    intro ht
    cases t with
    | struct n fields =>
      cases fields with
      | nil => cases ht
      | cons first fields => simp [hfaInfo, if_pos ht] at hhfa
    | array e count => simp [hfaInfo, if_pos ht] at hhfa
    | _ => cases ht
  cases t with
  | f32 => decide
  | f64 => decide
  | struct n fields | array e count | taggedUnion n tag p v =>
    simp only [classifyArg] at h
    split_ifs at h with hs
    exact (hnot hs).elim
  | _ => cases h

/-! ## What one round does -/

/-- The rounds of the loop, one case for each way an argument is passed. -/
inductive Placed (c : Counters) (i : Nat) (t : IRType) : ArgLocation → Counters → Prop
  | integerReg (hcls : classifyArg t = .integer) (hx : c.xRegIdx < 8) :
    Placed c i t ⟨i, .integer, some (.x, c.xRegIdx), none⟩ { c with xRegIdx := c.xRegIdx + 1 }
  | integerStack (hcls : classifyArg t = .integer) (hx : 8 ≤ c.xRegIdx) :
    Placed c i t ⟨i, .stack, none, some c.stackOffset⟩ { c with stackOffset := c.stackOffset + 8 }
  | fpReg (hcls : classifyArg t = .fp) (hv : c.vRegIdx + members t ≤ 8) :
    Placed c i t ⟨i, .fp, some (.v, c.vRegIdx), none⟩
      { c with vRegIdx := c.vRegIdx + members t }
  | hfaStack (e : IRType) (count : Nat) (hcls : classifyArg t = .fp)
    (hhfa : hfaInfo t = some (e, count)) (hv : ¬c.vRegIdx + members t ≤ 8) :
    Placed c i t ⟨i, .stack, none, some c.stackOffset⟩
      { c with stackOffset := hfaEnd e count c.stackOffset }
  | scalarStack (hcls : classifyArg t = .fp) (hhfa : hfaInfo t = none)
    (hv : ¬c.vRegIdx + members t ≤ 8) :
    Placed c i t ⟨i, .stack, none, some (alignUp c.stackOffset t.alignment)⟩
      { c with stackOffset := alignUp c.stackOffset t.alignment + t.size }
  | pointerReg (hcls : classifyArg t = .indirect) (hx : c.xRegIdx < 8) :
    Placed c i t ⟨i, .indirect, some (.x, c.xRegIdx), none⟩ { c with xRegIdx := c.xRegIdx + 1 }
  | pointerStack (hcls : classifyArg t = .indirect) (hx : 8 ≤ c.xRegIdx) :
    Placed c i t ⟨i, .stack, none, some c.stackOffset⟩ { c with stackOffset := c.stackOffset + 8 }

theorem placeArg_placed (c : Counters) (i : Nat) (t : IRType) :
    Placed c i t (placeArg c i t).1 (placeArg c i t).2 := by
  unfold placeArg
  split
  case h_1 hcls =>
    split
    · exact .integerReg hcls ‹_›
    · exact .integerStack hcls (by omega)
  case h_2 hcls =>
    split
    · rename_i e count hhfa
      have hmem : members t = count := by rw [members, hhfa]
      split
      · exact hmem ▸ .fpReg hcls (hmem ▸ ‹_›)
      · exact .hfaStack e count hcls hhfa (hmem ▸ ‹_›)
    · rename_i hhfa
      have hmem : members t = 1 := by rw [members, hhfa]
      split
      · have hv : c.vRegIdx + members t ≤ 8 := by omega
        exact hmem ▸ .fpReg hcls hv
      · have hv : ¬c.vRegIdx + members t ≤ 8 := by omega
        exact .scalarStack hcls hhfa hv
  case h_3 hcls =>
    split
    · exact .pointerReg hcls ‹_›
    · exact .pointerStack hcls (by omega)
  case h_4 hcls => exact absurd hcls (classifyArg_ne_stack t)

/-- The counters after a round do not depend on the index. -/
theorem placeArg_counters (c : Counters) (i j : Nat) (t : IRType) :
    (placeArg c i t).2 = (placeArg c j t).2 := by
  unfold placeArg
  split
  · split <;> rfl
  · split <;> split <;> rfl
  · split <;> rfl
  · rfl

/-- No counter of `c` is past that of `d`. -/
structure Counters.Le (c d : Counters) : Prop where
  x : c.xRegIdx ≤ d.xRegIdx
  v : c.vRegIdx ≤ d.vRegIdx
  stack : c.stackOffset ≤ d.stackOffset

theorem Counters.Le.refl (c : Counters) : c.Le c := ⟨Nat.le_refl _, Nat.le_refl _, Nat.le_refl _⟩

theorem Counters.Le.trans {c d e : Counters} (h : c.Le d) (h' : d.Le e) : c.Le e :=
  ⟨h.x.trans h'.x, h.v.trans h'.v, h.stack.trans h'.stack⟩

theorem Placed.le {c d : Counters} {i : Nat} {t : IRType} {loc : ArgLocation}
    (h : Placed c i t loc d) : c.Le d := by
  cases h with
  | hfaStack e count hcls hhfa hv =>
    exact ⟨Nat.le_refl _, Nat.le_refl _, le_hfaEnd (hfaInfo_size hhfa).1 _ _⟩
  | scalarStack hcls hhfa hv =>
    have hup := le_alignUp (n := c.stackOffset) (scalar_alignment hcls hhfa).2
    exact ⟨Nat.le_refl _, Nat.le_refl _, Nat.le_add_right_of_le hup⟩
  | _ => exact ⟨by simp, by simp, by simp⟩

theorem placeArgs_le (c : Counters) (i : Nat) (ts : List IRType) : c.Le (placeArgs c i ts).2 := by
  induction ts generalizing c i with
  | nil => exact .refl c
  | cons t ts ih => exact (placeArg_placed c i t).le.trans (ih _ _)

/-- The registers and bytes of `a` lie at or beyond the counters. -/
structure From (c : Counters) (a : IRType × ArgLocation) : Prop where
  x : ∀ n, (.x, n) ∈ a.2.regs a.1 → c.xRegIdx ≤ n
  v : ∀ n, (.v, n) ∈ a.2.regs a.1 → c.vRegIdx ≤ n
  stack : ∀ b ∈ a.2.bytes a.1, c.stackOffset ≤ b

theorem From.mono {c d : Counters} {a : IRType × ArgLocation} (hle : c.Le d) (h : From d a) :
    From c a :=
  ⟨fun n hn => hle.x.trans (h.x n hn), fun n hn => hle.v.trans (h.v n hn),
    fun b hb => hle.stack.trans (h.stack b hb)⟩

@[simp] theorem regs_some (t : IRType) (i : Nat) (cls : ArgClass) (r : RegisterClass) (n : Nat)
    (off : Option Nat) : ArgLocation.regs t ⟨i, cls, some (r, n), off⟩ =
      {r} ×ˢ Finset.Ico n (n + regsNeeded t) := rfl

@[simp] theorem regs_none (t : IRType) (i : Nat) (cls : ArgClass) (off : Option Nat) :
    ArgLocation.regs t ⟨i, cls, none, off⟩ = ∅ := rfl

@[simp] theorem bytes_some (t : IRType) (i : Nat) (cls : ArgClass)
    (r : Option (RegisterClass × Nat)) (off : Nat) :
    ArgLocation.bytes t ⟨i, cls, r, some off⟩ = Finset.Ico off (off + passedSize t) := rfl

@[simp] theorem bytes_none (t : IRType) (i : Nat) (cls : ArgClass)
    (r : Option (RegisterClass × Nat)) : ArgLocation.bytes t ⟨i, cls, r, none⟩ = ∅ := rfl

theorem Placed.from {c d : Counters} {i : Nat} {t : IRType} {loc : ArgLocation}
    (h : Placed c i t loc d) : From c (t, loc) := by
  cases h with
  | scalarStack hcls hhfa hv =>
    have hup := le_alignUp (n := c.stackOffset) (scalar_alignment hcls hhfa).2
    refine ⟨by simp, by simp, fun b hb => hup.trans ?_⟩
    exact (Finset.mem_Ico.mp hb).1
  | _ => exact ⟨by simp; try omega, by simp; try omega, by simp; try omega⟩

/-- The argument list beside its locations. -/
def located (c : Counters) (i : Nat) (ts : List IRType) : List (IRType × ArgLocation) :=
  ts.zip (placeArgs c i ts).1

theorem located_cons (c : Counters) (i : Nat) (t : IRType) (ts : List IRType) :
    located c i (t :: ts) = (t, (placeArg c i t).1) :: located (placeArg c i t).2 (i + 1) ts := rfl

theorem located_from (c : Counters) (i : Nat) (ts : List IRType) :
    ∀ a ∈ located c i ts, From c a := by
  induction ts generalizing c i with
  | nil => simp [located]
  | cons t ts ih =>
    intro a ha
    rw [located_cons] at ha
    have hround := placeArg_placed c i t
    rcases List.mem_cons.mp ha with rfl | ha
    · exact hround.from
    · exact (ih _ _ a ha).mono hround.le

/-! ## The next argument of the kind -/

section Round

variable {c d : Counters} {i : Nat} {t : IRType} {loc : ArgLocation}

/-- While X registers are left, only floating-point arguments take none of them. -/
theorem Placed.x_regs (h : Placed c i t loc d) (hcls : classifyArg t ≠ .fp) (hx : c.xRegIdx < 8) :
    loc.regs t = {.x} ×ˢ Finset.Ico c.xRegIdx (c.xRegIdx + regsNeeded t) ∧
      d.xRegIdx = c.xRegIdx + 1 := by
  cases h with
  | integerReg _ _ => exact ⟨rfl, rfl⟩
  | pointerReg _ _ => exact ⟨rfl, rfl⟩
  | integerStack _ h => omega
  | pointerStack _ h => omega
  | fpReg h _ => exact absurd h hcls
  | hfaStack _ _ h _ _ => exact absurd h hcls
  | scalarStack h _ _ => exact absurd h hcls

theorem Placed.fp_x (h : Placed c i t loc d) (hcls : classifyArg t = .fp) :
    (∀ n, (.x, n) ∉ loc.regs t) ∧ d.xRegIdx = c.xRegIdx := by
  cases h with
  | fpReg _ _ => exact ⟨by simp, rfl⟩
  | hfaStack _ _ _ _ _ => exact ⟨by simp, rfl⟩
  | scalarStack _ _ _ => exact ⟨by simp, rfl⟩
  | integerReg h _ | pointerReg h _ | integerStack h _ | pointerStack h _ =>
    exact absurd (h.symm.trans hcls) (by decide)

theorem Placed.v_regs (h : Placed c i t loc d) (hcls : classifyArg t = .fp)
    (hv : c.vRegIdx + members t ≤ 8) :
    loc.bytes t = ∅ ∧ d = { c with vRegIdx := c.vRegIdx + members t } := by
  cases h with
  | fpReg _ _ => exact ⟨rfl, rfl⟩
  | hfaStack _ _ _ _ h => exact absurd hv h
  | scalarStack _ _ h => exact absurd hv h
  | integerReg h _ | pointerReg h _ | integerStack h _ | pointerStack h _ =>
    exact absurd (h.symm.trans hcls) (by decide)

theorem Placed.stacked (h : Placed c i t loc d) (hx : 8 ≤ c.xRegIdx)
    (hfp : ¬(classifyArg t = .fp ∧ c.vRegIdx + members t ≤ 8)) :
    loc.bytes t = Finset.Ico (stackStart c.stackOffset t)
        (stackStart c.stackOffset t + passedSize t) ∧
      stackStart c.stackOffset t ≤ d.stackOffset ∧
      (passedSize t = 0 → c.stackOffset + 8 ≤ d.stackOffset) := by
  cases h with
  | integerReg _ h => omega
  | pointerReg _ h => omega
  | fpReg h hv => exact absurd ⟨h, hv⟩ hfp
  | integerStack h _ => simp [stackStart, h]
  | pointerStack h _ => simp [stackStart, h]
  | hfaStack e count hcls hhfa _ =>
    obtain ⟨hfloat, hcount, hsize, -⟩ := hfaInfo_size hhfa
    obtain ⟨hesize, hpos⟩ := isFloat_size hfloat
    have hne : passedSize t ≠ 0 := by
      have := Nat.mul_pos hcount (hesize ▸ hpos)
      simp only [passedSize, hcls, reduceCtorEq, if_false]
      omega
    have hstart : stackStart c.stackOffset t = c.stackOffset := by simp [stackStart, hhfa]
    rw [hstart]
    exact ⟨rfl, le_hfaEnd hfloat count _, fun h => absurd h hne⟩
  | scalarStack hcls hhfa _ =>
    obtain ⟨hsize, hpos⟩ := scalar_alignment hcls hhfa
    simp [stackStart, hcls, hhfa, passedSize]
    omega

end Round

theorem nextReg_free {c : Counters} (hx : c.xRegIdx < 8) (i : Nat) (ts : List IRType) :
    (∀ a ∈ located c i ts, (.x, c.xRegIdx) ∉ a.2.regs a.1) ↔
      ∀ u ∈ ts.find? (classifyArg · ≠ .fp), regsNeeded u = 0 := by
  induction ts generalizing c i with
  | nil => simp [located]
  | cons t ts ih =>
    rw [located_cons, List.forall_mem_cons]
    have hround := placeArg_placed c i t
    by_cases hcls : classifyArg t = .fp
    · obtain ⟨hfree, hsame⟩ := hround.fp_x hcls
      have hrest := ih (c := (placeArg c i t).2) (hsame ▸ hx) (i + 1)
      rw [hsame] at hrest
      rw [List.find?_cons_of_neg (by simpa using hcls), hrest]
      exact and_iff_right (hfree _)
    · obtain ⟨hregs, hnext⟩ := hround.x_regs hcls hx
      have hlater : ∀ a ∈ located (placeArg c i t).2 (i + 1) ts,
          (.x, c.xRegIdx) ∉ a.2.regs a.1 := by
        intro a ha hmem
        have := (located_from _ _ ts a ha).x _ hmem
        omega
      rw [List.find?_cons_of_pos (by simpa using hcls), hregs, and_iff_left hlater]
      simp

/-- Nothing more goes to the stack. -/
theorem nextStacked_none {c : Counters} (hx : 8 ≤ c.xRegIdx) (i : Nat) {ts : List IRType}
    (h : nextStacked c.vRegIdx ts = none) :
    (∀ a ∈ located c i ts, a.2.bytes a.1 = ∅) ∧
      (placeArgs c i ts).2.stackOffset = c.stackOffset := by
  induction ts generalizing c i with
  | nil => exact ⟨by simp [located], rfl⟩
  | cons t ts ih =>
    rw [nextStacked] at h
    split at h
    · rename_i hfp
      obtain ⟨hbytes, hnext⟩ := (placeArg_placed c i t).v_regs hfp.1 hfp.2
      rw [located_cons, List.forall_mem_cons, placeArgs, hnext]
      obtain ⟨hrest, hend⟩ := ih (c := { c with vRegIdx := c.vRegIdx + members t }) hx (i + 1) h
      exact ⟨⟨hbytes, hrest⟩, hend⟩
    · cases h

theorem nextStacked_some {c : Counters} (hx : 8 ≤ c.xRegIdx) (i : Nat) {ts : List IRType}
    {u : IRType} (h : nextStacked c.vRegIdx ts = some u) :
    (∃ a ∈ located c i ts, a.2.bytes a.1 = Finset.Ico (stackStart c.stackOffset u)
        (stackStart c.stackOffset u + passedSize u)) ∧
      (∀ a ∈ located c i ts, ∀ b ∈ a.2.bytes a.1, stackStart c.stackOffset u ≤ b) ∧
      stackStart c.stackOffset u ≤ (placeArgs c i ts).2.stackOffset ∧
      (passedSize u = 0 → c.stackOffset + 8 ≤ (placeArgs c i ts).2.stackOffset ∧
        ∀ a ∈ located c i ts, ∀ b ∈ a.2.bytes a.1, c.stackOffset + 8 ≤ b) := by
  induction ts generalizing c i with
  | nil => cases h
  | cons t ts ih =>
    have hround := placeArg_placed c i t
    rw [nextStacked] at h
    split at h
    · rename_i hfp
      obtain ⟨hbytes, hnext⟩ := hround.v_regs hfp.1 hfp.2
      rw [located_cons, placeArgs, hnext]
      obtain ⟨⟨a, ha, hat⟩, hbeyond, hend, hempty⟩ :=
        ih (c := { c with vRegIdx := c.vRegIdx + members t }) hx (i + 1) h
      refine ⟨⟨a, List.mem_cons_of_mem _ ha, hat⟩, ?_, hend, fun h0 => ⟨(hempty h0).1, ?_⟩⟩
      · exact List.forall_mem_cons.mpr ⟨by simp [hbytes], hbeyond⟩
      · exact List.forall_mem_cons.mpr ⟨by simp [hbytes], (hempty h0).2⟩
    · rename_i hfp
      injection h with h
      subst h
      obtain ⟨hbytes, hle, hword⟩ := hround.stacked hx hfp
      have hend := (placeArgs_le (placeArg c i t).2 (i + 1) ts).stack
      have hlater := located_from (placeArg c i t).2 (i + 1) ts
      rw [located_cons, placeArgs]
      refine ⟨⟨_, List.mem_cons_self, hbytes⟩, ?_, hle.trans hend, fun h0 => ?_⟩
      · refine List.forall_mem_cons.mpr ⟨fun b hb => ?_, fun a ha b hb => ?_⟩
        · rw [hbytes] at hb
          exact (Finset.mem_Ico.mp hb).1
        · exact hle.trans ((hlater a ha).stack b hb)
      · refine ⟨(hword h0).trans hend, List.forall_mem_cons.mpr ⟨?_, fun a ha b hb => ?_⟩⟩
        · simp [hbytes, h0]
        · exact (hword h0).trans ((hlater a ha).stack b hb)

/-! ## One argument against the later ones -/

/-- `t` is within bounds and apart from every argument after it. -/
def HeadPlaced (total : Nat) (a : IRType × ArgLocation) (rest : List (IRType × ArgLocation)) :
    Prop :=
  (∀ q ∈ rest, Apart a q) ∧ InBounds total a

theorem le_round16 (n : Nat) : n ≤ alignUp n 16 := le_alignUp (by omega)

section Head

variable {c d : Counters} {i total : Nat} {t : IRType} {loc : ArgLocation}
  {rest : List (IRType × ArgLocation)}

/-- A register argument that takes no more registers than the counter passes. -/
theorem headPlaced_of_regs (hrest : ∀ q ∈ rest, From d q) (hbytes : loc.stackOffset = none)
    (hx : ∀ n, (.x, n) ∈ loc.regs t → n < d.xRegIdx ∧ n < 8)
    (hv : ∀ n, (.v, n) ∈ loc.regs t → n < d.vRegIdx ∧ n < 8) : HeadPlaced total (t, loc) rest := by
  refine ⟨fun q hq => ⟨?_, ?_⟩, ?_, by simp [hbytes]⟩
  · refine Finset.disjoint_left.mpr fun r hr hr' => ?_
    obtain ⟨cls, n⟩ := r
    cases cls with
    | x =>
      have := (hrest q hq).x n hr'
      have := (hx n hr).1
      omega
    | v =>
      have := (hrest q hq).v n hr'
      have := (hv n hr).1
      omega
  · simp [ArgLocation.bytes, hbytes]
  · intro r hr
    obtain ⟨cls, n⟩ := r
    cases cls with
    | x => exact (hx n hr).2
    | v => exact (hv n hr).2

theorem headPlaced_of_bytes {off : Nat} (hrest : ∀ q ∈ rest, From d q) (hregs : loc.register = none)
    (hoff : loc.stackOffset = some off) (hend : off + passedSize t ≤ d.stackOffset)
    (htotal : d.stackOffset ≤ total) : HeadPlaced total (t, loc) rest ↔ passedAlign t ∣ off := by
  have hbytes : loc.bytes t = Finset.Ico off (off + passedSize t) := by
    rw [ArgLocation.bytes, hoff]
  have hnone : loc.regs t = ∅ := by rw [ArgLocation.regs, hregs]
  have hbounds : InBounds total (t, loc) ↔ passedAlign t ∣ off := by
    simp [InBounds, hnone, hoff]
    omega
  rw [HeadPlaced, hbounds]
  refine and_iff_right fun q hq => ⟨by simp [hnone], ?_⟩
  refine Finset.disjoint_left.mpr fun b hb hb' => ?_
  have := (hrest q hq).stack b hb'
  rw [hbytes] at hb
  have := (Finset.mem_Ico.mp hb).2
  omega

end Head

theorem headPlaced_pair_regs {c : Counters} (i total : Nat) {t : IRType} (ts : List IRType)
    (hcls : classifyArg t = .integer) (hx : c.xRegIdx < 8) (hsize : ¬t.size ≤ 8) :
    HeadPlaced total (t, ⟨i, .integer, some (.x, c.xRegIdx), none⟩)
        (located { c with xRegIdx := c.xRegIdx + 1 } (i + 1) ts) ↔
      c.xRegIdx < 7 ∧ ∀ u ∈ ts.find? (classifyArg · ≠ .fp), regsNeeded u = 0 := by
  have htwo : regsNeeded t = 2 := by
    have := size_le_of_integer hcls
    simp only [regsNeeded, hcls]
    omega
  have hmem : ∀ r, r ∈ ArgLocation.regs t ⟨i, .integer, some (.x, c.xRegIdx), none⟩ ↔
      r = (.x, c.xRegIdx) ∨ r = (.x, c.xRegIdx + 1) := by
    rintro ⟨cls, n⟩
    have hn : c.xRegIdx ≤ n ∧ n < c.xRegIdx + 2 ↔ n = c.xRegIdx ∨ n = c.xRegIdx + 1 := by omega
    simp only [regs_some, htwo, Finset.mem_product, Finset.mem_singleton, Finset.mem_Ico, hn,
      and_or_left, Prod.mk.injEq]
  have hbounds : InBounds total (t, ⟨i, .integer, some (.x, c.xRegIdx), none⟩) ↔
      c.xRegIdx < 7 := by
    simp only [InBounds, hmem]
    simp
    omega
  rw [HeadPlaced, hbounds, and_comm]
  refine and_congr_right fun hx7 => ?_
  have hlater := located_from { c with xRegIdx := c.xRegIdx + 1 } (i + 1) ts
  rw [← nextReg_free (c := { c with xRegIdx := c.xRegIdx + 1 }) (by simp; omega) (i + 1) ts]
  refine forall₂_congr fun q hq => ⟨fun h hin => ?_, fun h => ⟨?_, by simp⟩⟩
  · exact Finset.disjoint_left.mp h.1 ((hmem _).mpr (Or.inr rfl)) hin
  · refine Finset.disjoint_left.mpr fun r hr hr' => ?_
    rcases (hmem r).mp hr with rfl | rfl
    · have := (hlater q hq).x _ hr'
      simp at this
    · exact h hr'

theorem le_stackStart (s : Nat) (t : IRType) : s ≤ stackStart s t := by
  unfold stackStart
  split
  · rename_i h
    exact le_alignUp (scalar_alignment h.1 h.2).2
  · exact Nat.le_refl s

theorem headPlaced_pair_bytes {c : Counters} (i : Nat) {t : IRType} (ts : List IRType)
    (hcls : classifyArg t = .integer) (hx : 8 ≤ c.xRegIdx) (hsize : ¬t.size ≤ 8) :
    HeadPlaced
        (alignUp
          (placeArgs { c with stackOffset := c.stackOffset + 8 } (i + 1) ts).2.stackOffset 16)
        (t, ⟨i, .stack, none, some c.stackOffset⟩)
        (located { c with stackOffset := c.stackOffset + 8 } (i + 1) ts) ↔
      t.alignment ∣ c.stackOffset ∧
        match nextStacked c.vRegIdx ts with
        | none => c.stackOffset + t.size ≤ alignUp (c.stackOffset + 8) 16
        | some u =>
          passedSize u = 0 ∨ c.stackOffset + t.size ≤ stackStart (c.stackOffset + 8) u := by
  have hsmall := size_le_of_integer hcls
  have hpassed : passedSize t = t.size := by simp [passedSize, hcls]
  have halign : passedAlign t = t.alignment := by simp [passedAlign, hcls]
  generalize hd : { c with stackOffset := c.stackOffset + 8 } = d
  have hds : d.stackOffset = c.stackOffset + 8 := by rw [← hd]
  have hdv : d.vRegIdx = c.vRegIdx := by rw [← hd]
  have hdx : 8 ≤ d.xRegIdx := by rw [← hd]; exact hx
  have hlater := located_from d (i + 1) ts
  have hend := le_round16 (placeArgs d (i + 1) ts).2.stackOffset
  simp only [HeadPlaced, Apart, InBounds, regs_none, bytes_some, hpassed, halign]
  simp only [Option.mem_def, Option.some.injEq, forall_eq', Finset.disjoint_empty_left, true_and,
    Finset.notMem_empty, false_imp_iff, implies_true]
  rw [← and_assoc, and_comm (a := ∀ q ∈ _, _), and_assoc]
  refine and_congr_right fun _ => ?_
  cases hnext : nextStacked c.vRegIdx ts with
  | none =>
    obtain ⟨hempty, hsame⟩ := nextStacked_none hdx (i + 1) (hdv ▸ hnext)
    rw [hsame, hds]
    exact and_iff_right fun q hq => by rw [hempty q hq]; exact Finset.disjoint_empty_right _
  | some u =>
    obtain ⟨⟨q, hq, hat⟩, hbeyond, hafter, hword⟩ := nextStacked_some hdx (i + 1) (hdv ▸ hnext)
    rw [hds] at hbeyond hafter hword hat
    dsimp only
    constructor
    · rintro ⟨hapart, -⟩
      by_cases h0 : passedSize u = 0
      · exact Or.inl h0
      · have hdisj := hapart q hq
        rw [hat, Finset.disjoint_left] at hdisj
        have hnot := @hdisj (stackStart (c.stackOffset + 8) u)
        have hle := le_stackStart (c.stackOffset + 8) u
        simp only [Finset.mem_Ico] at hnot
        omega
    · rintro (h0 | hbefore)
      · obtain ⟨htotal, hwords⟩ := hword h0
        refine ⟨fun q hq => Finset.disjoint_left.mpr fun b hb hb' => ?_, by omega⟩
        have := hwords q hq b hb'
        have := (Finset.mem_Ico.mp hb).2
        omega
      · refine ⟨fun q hq => Finset.disjoint_left.mpr fun b hb hb' => ?_, by omega⟩
        have := hbeyond q hq b hb'
        have := (Finset.mem_Ico.mp hb).2
        omega

/-! ## The whole signature -/

theorem fits_iff {c : Counters} (i : Nat) (t : IRType) (ts : List IRType) :
    HeadPlaced (alignUp (placeArgs c i (t :: ts)).2.stackOffset 16) (t, (placeArg c i t).1)
        (located (placeArg c i t).2 (i + 1) ts) ↔ Fits c t ts := by
  have hround := placeArg_placed c i t
  have hend : (placeArg c i t).2.stackOffset ≤
      alignUp (placeArgs c i (t :: ts)).2.stackOffset 16 :=
    (placeArgs_le (placeArg c i t).2 (i + 1) ts).stack.trans (le_round16 _)
  have hlater := located_from (placeArg c i t).2 (i + 1) ts
  have htotal : (placeArgs c i (t :: ts)).2 = (placeArgs (placeArg c i t).2 (i + 1) ts).2 := rfl
  rw [htotal] at hend ⊢
  generalize (placeArg c i t).1 = loc, (placeArg c i t).2 = d at hround hend hlater ⊢
  cases hround with
  | integerReg hcls hx =>
    simp only [Fits, hcls, if_pos hx]
    by_cases hsize : t.size ≤ 8
    · refine iff_of_true (headPlaced_of_regs hlater rfl ?_ (by simp)) (Or.inl hsize)
      have hone : regsNeeded t ≤ 1 := by
        simp only [regsNeeded, hcls]
        omega
      intro n hn
      simp at hn ⊢
      omega
    · rw [or_iff_right hsize]
      exact headPlaced_pair_regs i _ ts hcls hx hsize
  | integerStack hcls hx =>
    simp only [Fits, hcls, if_neg (not_lt.mpr hx)]
    by_cases hsize : t.size ≤ 8
    · rw [and_iff_left (Or.inl hsize)]
      have hpassed : passedSize t = t.size := by simp [passedSize, hcls]
      have halign : passedAlign t = t.alignment := by simp [passedAlign, hcls]
      rw [headPlaced_of_bytes hlater rfl rfl (by rw [hpassed]; simp; omega) hend, halign]
    · rw [or_iff_right hsize]
      exact headPlaced_pair_bytes i ts hcls hx hsize
  | fpReg hcls hv =>
    have hfits : Fits c t ts := by
      simp only [Fits, hcls]
      split
      · rename_i e count hhfa
        rw [members, hhfa] at hv
        exact Or.inl hv
      · trivial
    refine iff_of_true (headPlaced_of_regs hlater rfl (by simp) fun n hn => ?_) hfits
    have hneeded : regsNeeded t = members t := by simp [regsNeeded, hcls]
    simp [hneeded] at hn ⊢
    omega
  | hfaStack e count hcls hhfa hv =>
    obtain ⟨hfloat, hcount, hsize, halign⟩ := hfaInfo_size hhfa
    have hpassed : passedSize t = t.size := by simp [passedSize, hcls]
    have hpassedAlign : passedAlign t = e.alignment := by simp [passedAlign, hcls, halign]
    rw [members, hhfa] at hv
    simp only [Fits, hcls, hhfa]
    rw [or_iff_right hv]
    refine ⟨fun h => hpassedAlign ▸ (h.2.2 _ rfl).1, fun h => ?_⟩
    have hstop := hfaEnd_of_dvd hfloat h count
    have hfit : c.stackOffset + passedSize t ≤ hfaEnd e count c.stackOffset := by
      rw [hpassed, hstop, hsize]
    exact (headPlaced_of_bytes hlater rfl rfl hfit hend).mpr (hpassedAlign ▸ h)
  | scalarStack hcls hhfa hv =>
    have hfits : Fits c t ts := by simp only [Fits, hcls, hhfa]
    have hpassed : passedSize t = t.size := by simp [passedSize, hcls]
    have halign : passedAlign t = t.alignment := by simp [passedAlign, hcls]
    rw [headPlaced_of_bytes hlater rfl rfl (by rw [hpassed]) hend, halign]
    exact iff_of_true (dvd_alignUp _ _) hfits
  | pointerReg hcls hx =>
    have hfits : Fits c t ts := by
      simp only [Fits, hcls]
      exact Or.inl hx
    refine iff_of_true (headPlaced_of_regs hlater rfl (fun n hn => ?_) (by simp)) hfits
    have hneeded : regsNeeded t = 1 := by simp [regsNeeded, hcls]
    simp [hneeded] at hn ⊢
    omega
  | pointerStack hcls hx =>
    have hpassed : passedSize t = 8 := by simp [passedSize, hcls]
    have halign : passedAlign t = 8 := by simp [passedAlign, hcls]
    simp only [Fits, hcls]
    rw [headPlaced_of_bytes hlater rfl rfl (by rw [hpassed]) hend, halign,
      or_iff_right (not_lt.mpr hx)]

theorem located_wellPlaced (c : Counters) (i : Nat) (ts : List IRType) :
    WellPlaced (alignUp (placeArgs c i ts).2.stackOffset 16) (located c i ts) ↔ AllFit c ts := by
  induction ts generalizing c i with
  | nil => exact iff_of_true ⟨.nil, by simp [located]⟩ trivial
  | cons t ts ih =>
    rw [AllFit, ← fits_iff i, placeArg_counters c 0 i, ← ih (placeArg c i t).2 (i + 1),
      located_cons]
    constructor
    · rintro ⟨hapart, hin⟩
      obtain ⟨hhead, htail⟩ := List.pairwise_cons.mp hapart
      obtain ⟨hheadIn, htailIn⟩ := List.forall_mem_cons.mp hin
      exact ⟨⟨hhead, hheadIn⟩, ⟨htail, htailIn⟩⟩
    · rintro ⟨⟨hhead, hheadIn⟩, ⟨htail, htailIn⟩⟩
      exact ⟨.cons hhead htail, List.forall_mem_cons.mpr ⟨hheadIn, htailIn⟩⟩

theorem placeArgs_length (c : Counters) (i : Nat) (ts : List IRType) :
    (placeArgs c i ts).1.length = ts.length := by
  induction ts generalizing c i with
  | nil => rfl
  | cons t ts ih => rw [placeArgs, List.length_cons, List.length_cons, ih]

/-- Every argument has a location, and the locations are as they should be exactly for the
signatures in which every argument fits. -/
theorem computeCallingConv_wellPlaced (args : List IRType) (ret : IRType) :
    (computeCallingConv args ret).argLocations.length = args.length ∧
      (WellPlaced (computeCallingConv args ret).stackArgsSize
          (args.zip (computeCallingConv args ret).argLocations) ↔ AllFit ⟨0, 0, 0⟩ args) :=
  ⟨placeArgs_length _ _ _, located_wellPlaced _ _ _⟩

/-- A 16-byte structure in X0 and X1, and a word in X1. -/
theorem not_computeCallingConv_wellPlaced :
    ¬∀ (args : List IRType) (ret : IRType),
      WellPlaced (computeCallingConv args ret).stackArgsSize
        (args.zip (computeCallingConv args ret).argLocations) := by
  intro h
  obtain ⟨hapart, -⟩ := h [.struct "Pair" [.i64, .i64], .i64] .void
  have hhead := (List.pairwise_cons.mp hapart).1 _ List.mem_cons_self
  exact absurd hhead.1 (by decide)

end Vuma.Codegen
