import Vuma.Codegen.TripCount
import Vuma.IR.Frame

/-!
# Counted loops

A counted loop has an induction variable: a phi of the header with a constant on entry, to which
the latch adds a constant or from which it subtracts one. A comparison with a constant decides, in
the latch or in the header, whether the loop goes on. Its other instructions and blocks are
arbitrary, but for the three registers of the induction variable and the comparison.
-/

namespace Vuma.Codegen.LoopUnroll

open IR

/-- The constants and the comparison of a counted loop, and where its test stands. -/
structure LoopShape where
  start : Word
  isSub : Bool
  amount : Word
  stepTy : Option IRType
  kind : CmpKind
  bound : Word
  cmpTy : Option IRType
  /-- The bound is the left operand of the comparison. -/
  boundLeft : Bool
  /-- The comparison is of the value of the next pass, and not of this one. -/
  testsNext : Bool
  /-- The loop goes on if the comparison holds, and not if it fails. -/
  onTrue : Bool
  /-- The test stands in the header, and not in the latch. -/
  atTop : Bool
  /-- The loop is left after the test only. -/
  onlyExit : Bool

namespace LoopShape

variable (p : LoopShape)

/-- The operation that adds or subtracts the constant. -/
def stepInstr (iv next : VReg) : IRInstr :=
  .binOp (if p.isSub then .sub else .add) (.register next) (.register iv) (.immediate p.amount)
    p.stepTy

/-- The comparison. -/
def testInstr (iv next cond : VReg) : IRInstr :=
  let x := IRValue.register (if p.testsNext then next else iv)
  .cmp p.kind (.register cond) (if p.boundLeft then .immediate p.bound else x)
    (if p.boundLeft then x else .immediate p.bound) p.cmpTy

/-- The branch that goes on to `inside` or leaves the loop. -/
def branch (cond : VReg) (inside exit : String) : IRTerminator :=
  if p.onTrue then .branch (.register cond) inside exit else .branch (.register cond) exit inside

/-- The constant that a pass adds. -/
def step : Word := if p.isSub then -p.amount else p.amount

/-- The negation of the constant overflows. -/
def negOverflows : Bool := p.isSub && decide (p.amount = BitVec.intMin 64)

/-- What a pass makes of the induction variable. -/
def advance (M : Machine) (v : Word) : Word :=
  (M.binOp (if p.isSub then .sub else .add) p.stepTy v p.amount).getD 0

/-- The induction variable after `k` passes. -/
def value (M : Machine) (k : Nat) : Word := (p.advance M)^[k] p.start

/-- The loop goes on with this value. -/
def goesOn (M : Machine) (v : Word) : Prop := M.cmp p.kind p.cmpTy v p.bound ≠ 0 ↔ p.onTrue = true

end LoopShape

/-- A counted loop of a function. -/
structure CountedLoop (p : LoopShape) (f : IRFunction) (L : LoopInfo) where
  header : IRBlock
  latch : IRBlock
  iv : VReg
  next : VReg
  cond : VReg
  entry : String
  exit : String
  incoming : List (IRValue × String)
  /-- The header after the phi. -/
  rest : List IRInstr
  /-- The latch before and after the step. -/
  before : List IRInstr
  behind : List IRInstr
  /-- What stands around the test, behind the phi or the step. -/
  between : List IRInstr
  after : List IRInstr
  header_at : f.blockAt L.header = some header
  latch_at : f.blockAt L.latch = some latch
  header_mem : L.header ∈ L.blocks
  latch_mem : L.latch ∈ L.blocks
  entry_not_mem : entry ∉ L.blocks
  exit_not_mem : exit ∉ L.blocks
  incoming_eq : incoming = [(.immediate p.start, entry), (.register next, L.latch)] ∨
    incoming = [(.register next, L.latch), (.immediate p.start, entry)]
  header_eq : header.instructions = .phi (.register iv) incoming :: rest
  latch_eq : latch.instructions = before ++ p.stepInstr iv next :: behind
  latch_straight : ∀ i ∈ latch.instructions, i.isControl = false
  bottom : p.atTop = false → behind = between ++ p.testInstr iv next cond :: after ∧
    latch.terminator = p.branch cond L.header exit ∧
    ∀ i ∈ before ++ p.stepInstr iv next :: between ++ after, cond ∉ i.definedRegs
  top : p.atTop = true → rest = between ++ p.testInstr iv next cond :: after ∧
    (∃ inside ∈ L.blocks, header.terminator = p.branch cond inside exit) ∧
    latch.terminator = .jump L.header ∧ L.header ≠ L.latch
  iv_once : (∀ i ∈ rest, iv ∉ i.definedRegs) ∧ ∀ label ∈ L.blocks, label ≠ L.header →
    ∀ b, f.blockAt label = some b → iv ∉ b.definedRegs
  iv_terminator : iv ∉ header.terminator.definedRegs
  next_once : ∀ i ∈ before ++ behind, next ∉ i.definedRegs
  /-- The header is entered again from the latch only. -/
  backEdge : ∀ label ∈ L.blocks, ∀ b, f.blockAt label = some b → L.header ∈ b.targets →
    label = L.latch
  closed : p.onlyExit = true → ∀ label ∈ L.blocks, label ≠ (if p.atTop then L.header else L.latch) →
    ∀ b, f.blockAt label = some b → ∀ target ∈ b.targets, target ∈ L.blocks

/-! ## What the analysis finds -/

namespace CountedLoop

variable {p : LoopShape} {f : IRFunction} {L : LoopInfo} (l : CountedLoop p f L)

theorem entry_ne_latch : l.entry ≠ L.latch := fun h => l.entry_not_mem (h ▸ l.latch_mem)

theorem headerPhi_eq : headerPhi L l.header = some (l.iv, p.start) := by
  have hentry : (l.entry != L.latch) = true := bne_iff_ne.2 l.entry_ne_latch
  have hlatch : (L.latch != L.latch) = false := bne_self_eq_false ..
  have hlen : l.incoming.length = 2 := by
    rcases l.incoming_eq with h | h <;> rw [h] <;> rfl
  have hfind : l.incoming.find? (fun e => e.2 != L.latch) = some (.immediate p.start, l.entry) := by
    rcases l.incoming_eq with h | h
    · rw [h, List.find?_cons, hentry]
    · rw [h, List.find?_cons, hlatch, List.find?_cons, hentry]
  rw [headerPhi, l.header_eq]
  show (if l.incoming.length = 2 then _ else none) = _
  rw [if_pos hlen, hfind]
  rfl

/-- No instruction of the latch but the phi writes the induction variable. -/
theorem iv_not_mem_latch {i : IRInstr} (hi : i ∈ l.latch.instructions)
    (hphi : i.isPhi = false) : l.iv ∉ i.definedRegs := by
  by_cases hlabel : L.header = L.latch
  · have hblock : l.header = l.latch := by
      have hat := l.header_at
      rw [hlabel, l.latch_at] at hat
      exact (Option.some.inj hat).symm
    rw [← hblock, l.header_eq] at hi
    rcases List.mem_cons.1 hi with rfl | hi
    · cases hphi
    · exact l.iv_once.1 i hi
  · intro hd
    apply l.iv_once.2 L.latch l.latch_mem (Ne.symm hlabel) l.latch l.latch_at
    exact List.mem_append_left _ (List.mem_flatMap.2 ⟨i, hi, hd⟩)

theorem mem_latchStep {phi : VReg} {instructions : List IRInstr} {s : Word} {o : Bool} {d : VReg}
    (h : latchStep phi instructions = some (s, o, d)) :
    ∃ (op : BinOpKind) (c : Word) (ty : Option IRType),
      IRInstr.binOp op (.register d) (.register phi) (.immediate c) ty ∈ instructions ∧
      (op = .add ∧ s = c ∧ o = false ∨
        op = .sub ∧ s = -c ∧ o = decide (c = BitVec.intMin 64)) := by
  obtain ⟨i, hi, hsome⟩ := List.exists_of_findSome?_eq_some h
  split at hsome
  next d' l' c ty =>
    split at hsome
    next heq =>
      simp only [Option.some.injEq, Prod.mk.injEq] at hsome
      obtain ⟨rfl, rfl, rfl⟩ := hsome
      exact ⟨.add, c, ty, heq ▸ hi, .inl ⟨rfl, rfl, rfl⟩⟩
    next => cases hsome
  next d' l' c ty =>
    split at hsome
    next heq =>
      simp only [Option.some.injEq, Prod.mk.injEq] at hsome
      obtain ⟨rfl, rfl, rfl⟩ := hsome
      exact ⟨.sub, c, ty, heq ▸ hi, .inr ⟨rfl, rfl, rfl⟩⟩
    next => cases hsome
  next => cases hsome

theorem mem_latchCmp {cond next : VReg} {instructions : List IRInstr} {kind : CmpKind}
    {rhs : IRValue} (h : latchCmp cond next instructions = some (kind, rhs)) :
    ∃ ty, IRInstr.cmp kind (.register cond) (.register next) rhs ty ∈ instructions := by
  obtain ⟨i, hi, hsome⟩ := List.exists_of_findSome?_eq_some h
  split at hsome
  next kind' d' l' rhs' ty =>
    split at hsome
    next heq =>
      cases hsome
      exact ⟨ty, heq.1 ▸ heq.2 ▸ hi⟩
    next => cases hsome
  next => cases hsome

theorem of_exitTest {d : VReg} {kind : CmpKind} {bound : Word}
    (h : exitTest L l.latch d = some (kind, bound)) :
    p.atTop = false ∧
      ∃ ty, IRInstr.cmp kind (.register l.cond) (.register d) (.immediate bound) ty =
        p.testInstr l.iv l.next l.cond := by
  obtain ⟨cond', hcond, h⟩ := Option.bind_eq_some_iff.1 h
  obtain ⟨⟨kind', rhs⟩, hcmp, h⟩ := Option.bind_eq_some_iff.1 h
  obtain ⟨bound', hrhs, h⟩ := Option.bind_eq_some_iff.1 h
  cases h
  have himm : rhs = .immediate bound := by
    cases rhs <;> cases hrhs
    rfl
  cases htop : p.atTop with
  | true =>
    obtain ⟨-, -, hjump, -⟩ := l.top htop
    rw [hjump] at hcond
    cases hcond
  | false =>
    obtain ⟨hbehind, hterm, hother⟩ := l.bottom htop
    have hcond' : cond' = l.cond := by
      rw [hterm, LoopShape.branch] at hcond
      split at hcond
      · rw [latchCond, if_pos (.inl rfl)] at hcond
        exact (Option.some.inj hcond).symm
      · rw [latchCond, if_pos (.inr rfl)] at hcond
        exact (Option.some.inj hcond).symm
    obtain ⟨ty, hmem⟩ := mem_latchCmp hcmp
    rw [hcond', himm, l.latch_eq, hbehind] at hmem
    refine ⟨rfl, ty, ?_⟩
    by_contra hne
    have hcondDef : l.cond ∈ (IRInstr.cmp kind (.register l.cond) (.register d)
        (.immediate bound) ty).definedRegs := List.mem_singleton_self l.cond
    apply hother _ _ hcondDef
    simp only [List.mem_append, List.mem_cons, hne, false_or] at hmem ⊢
    tauto

theorem of_latchStep {s : Word} {o : Bool} {d : VReg}
    (h : latchStep l.iv l.latch.instructions = some (s, o, d)) :
    d ≠ l.iv ∧ (d = l.next → s = p.step ∧ o = p.negOverflows) := by
  obtain ⟨op, c, ty, hmem, hop⟩ := mem_latchStep h
  constructor
  · intro hd
    have hivDef : l.iv ∈ (IRInstr.binOp op (.register d) (.register l.iv)
        (.immediate c) ty).definedRegs := by
      rw [hd]
      exact List.mem_singleton_self l.iv
    exact l.iv_not_mem_latch hmem rfl hivDef
  · rintro rfl
    have hstep : IRInstr.binOp op (.register l.next) (.register l.iv) (.immediate c) ty =
        p.stepInstr l.iv l.next := by
      by_contra hne
      rw [l.latch_eq] at hmem
      have hnextDef : l.next ∈ (IRInstr.binOp op (.register l.next) (.register l.iv)
          (.immediate c) ty).definedRegs := List.mem_singleton_self l.next
      apply l.next_once _ _ hnextDef
      simp only [List.mem_append, List.mem_cons, hne, false_or] at hmem ⊢
      exact hmem
    rw [LoopShape.stepInstr] at hstep
    injection hstep with hop' _ _ hc _
    injection hc with hc
    subst hc
    rw [LoopShape.step, LoopShape.negOverflows]
    cases hsub : p.isSub with
    | false =>
      rw [hsub] at hop'
      rcases hop with ⟨-, rfl, rfl⟩ | ⟨rfl, -, -⟩
      · exact ⟨rfl, rfl⟩
      · cases hop'
    | true =>
      rw [hsub] at hop'
      rcases hop with ⟨rfl, -, -⟩ | ⟨-, rfl, rfl⟩
      · cases hop'
      · exact ⟨rfl, rfl⟩

theorem analyzeTripCount_eq : analyzeTripCount f L =
    match latchStep l.iv l.latch.instructions with
    | none => (.unknown, false)
    | some (step, overflow, iNext) =>
      if step = 0 then (.unknown, overflow)
      else
        match exitTest L l.latch iNext with
        | none => (.unknown, overflow)
        | some (kind, bound) =>
          ((countTrips kind p.start bound step).1,
            overflow || (countTrips kind p.start bound step).2) := by
  rw [analyzeTripCount, l.header_at, l.latch_at]
  dsimp only
  exact l.headerPhi_eq ▸ rfl

theorem of_analyze (l : CountedLoop p f L) {n : Nat} (h : (analyzeTripCount f L).1 = .known n) :
    p.atTop = false ∧ p.boundLeft = false ∧ p.testsNext = true ∧ p.step ≠ 0 ∧
      analyzeTripCount f L = ((countTrips p.kind p.start p.bound p.step).1,
        p.negOverflows || (countTrips p.kind p.start p.bound p.step).2) := by
  rw [l.analyzeTripCount_eq] at h ⊢
  cases hstep : latchStep l.iv l.latch.instructions with
  | none => rw [hstep] at h; cases h
  | some found =>
    obtain ⟨s, o, d⟩ := found
    rw [hstep] at h
    simp only at h ⊢
    by_cases hs : s = 0
    · rw [if_pos hs] at h
      cases h
    · rw [if_neg hs] at h ⊢
      cases htest : exitTest L l.latch d with
      | none => rw [htest] at h; cases h
      | some test =>
        obtain ⟨kind, bound⟩ := test
        obtain ⟨htop, ty, hcmp⟩ := l.of_exitTest htest
        obtain ⟨hd, hnext⟩ := l.of_latchStep hstep
        rw [LoopShape.testInstr] at hcmp
        injection hcmp with hkind _ hlhs hrhs _
        cases hleft : p.boundLeft with
        | true =>
          rw [hleft] at hlhs
          cases hlhs
        | false =>
          rw [hleft] at hlhs hrhs
          cases htests : p.testsNext with
          | false =>
            rw [htests] at hlhs
            injection hlhs with hlhs
            exact absurd hlhs hd
          | true =>
            rw [htests] at hlhs
            injection hlhs with hlhs
            injection hrhs with hrhs
            obtain ⟨rfl, rfl⟩ := hnext hlhs
            exact ⟨htop, rfl, rfl, hs, by rw [hkind, hrhs]⟩

end CountedLoop

end Vuma.Codegen.LoopUnroll
