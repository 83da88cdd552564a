import Vuma.Codegen.CountedLoop

/-!
# When the trip count is exact

A counted loop runs its body until its test fails, and at least once, since the test stands at the
end. The count of the analysis is the number of steps from the start to the bound. Both agree
exactly if the bound lies ahead of the start, and the test lets the loop go on before the bound and
ends it there.
-/

namespace Vuma.Codegen.LoopUnroll

open IR

/-- The block that is entered next. -/
def labelOf : Config → Option String
  | .enter label _ _ _ => some label
  | .done _ _ => none

/-- The configuration is one of the loop. -/
def InLoop (L : LoopInfo) (c : Config) : Prop := ∃ label ∈ L.blocks, labelOf c = some label

/-- How often the latch is among the first `m` blocks from `c` on. -/
def passes (M : Machine) (f : IRFunction) (L : LoopInfo) (c : Config) (m : Nat) : Nat :=
  Nat.count (fun j => labelOf ((f.step M)^[j] c) = some L.latch) m

/-- From the configuration `c` on, the body runs `n` times: never more often, and as often when the
loop is left. -/
def RunsBody (M : Machine) (f : IRFunction) (L : LoopInfo) (c : Config) (n : Nat) : Prop :=
  ∀ m, (∀ j < m, InLoop L ((f.step M)^[j] c)) → passes M f L c m ≤ n ∧
    ∀ label ∉ L.blocks, labelOf ((f.step M)^[m] c) = some label → passes M f L c m = n

namespace LoopShape

variable (p : LoopShape)

/-- From the start to the bound. -/
def diff : Int := (p.bound - p.start).toInt

/-- The bound lies ahead of the start in the direction of the step. -/
def Ahead : Prop := (0 < p.step.toInt → 0 < p.diff) ∧ (p.step.toInt < 0 → p.diff < 0)

/-- The comparison is one that is counted; for `!=`, the steps meet the bound. -/
def Counts : Prop :=
  match p.kind with
  | .slt | .ult | .sle | .ule => True
  | .ne => p.step.toInt.natAbs ∣ p.diff.natAbs
  | _ => False

/-- How far the bound is away, and one more if it is inclusive. -/
def limit : Nat :=
  match p.kind with
  | .sle | .ule => p.diff.natAbs + 1
  | _ => p.diff.natAbs

/-- The analysis gives no count. -/
def GivesUp : Prop :=
  p.atTop = true ∨ p.boundLeft = true ∨ p.testsNext = false ∨ p.step = 0 ∨ p.Ahead ∧ ¬ p.Counts

/-- The test lets the loop go on for as long as the bound is not reached, and ends it then. -/
structure Paced : Prop where
  onlyExit : p.onlyExit = true
  negates : p.negOverflows = false
  subtracts : p.diff = p.bound.toInt - p.start.toInt
  ahead : p.Ahead
  goesOn : ∀ M k, 1 ≤ k → k * p.step.toInt.natAbs < p.limit → p.goesOn M (p.value M k)
  stops : ∀ M k, k * p.step.toInt.natAbs < p.limit → p.limit ≤ (k + 1) * p.step.toInt.natAbs →
    ¬ p.goesOn M (p.value M (k + 1))

end LoopShape

/-! ## The count -/

theorem lt_divCeil {a b k : Nat} (hb : 0 < b) : k < divCeil a b ↔ k * b < a := by
  rw [divCeil, Nat.lt_div_iff_mul_lt hb]
  omega

section

variable {p : LoopShape}

theorem step_toInt_ne_zero (h : p.step ≠ 0) : p.step.toInt ≠ 0 := fun hzero =>
  h (BitVec.eq_of_toInt_eq (hzero.trans BitVec.toInt_zero.symm))

theorem LoopShape.Ahead.limit_pos (h : p.Ahead) (hstep : p.step.toInt ≠ 0) : 0 < p.limit := by
  rw [LoopShape.Ahead] at h
  have hpos : 0 < p.diff.natAbs := by omega
  rw [LoopShape.limit]
  cases p.kind <;> first | exact hpos | exact Nat.succ_pos _

theorem countTrips_eq (h : p.step ≠ 0) :
    ((countTrips p.kind p.start p.bound p.step).2 = false ↔
      p.diff = p.bound.toInt - p.start.toInt) ∧
    (¬ p.Ahead → (countTrips p.kind p.start p.bound p.step).1 = .known 0) ∧
    (p.Ahead → p.Counts → (countTrips p.kind p.start p.bound p.step).1 =
      .known (divCeil p.limit p.step.toInt.natAbs)) ∧
    (p.Ahead → ¬ p.Counts → (countTrips p.kind p.start p.bound p.step).1 = .unknown) := by
  have hne := step_toInt_ne_zero h
  have hdiff : (p.bound - p.start).toInt = p.diff := rfl
  have hoverflow : (countTrips p.kind p.start p.bound p.step).2 =
      decide (p.diff ≠ p.bound.toInt - p.start.toInt) := by
    simp only [countTrips, hdiff]
    split
    · rfl
    · split
      · rfl
      · cases p.kind <;> first | rfl | (dsimp only; split <;> rfl)
  have hbehind : ¬ p.Ahead → (countTrips p.kind p.start p.bound p.step).1 = .known 0 := by
    intro hahead
    simp only [countTrips, hdiff]
    by_cases hup : 0 < p.step.toInt ∧ p.diff ≤ 0
    · rw [if_pos hup]
    · rw [if_neg hup, if_pos]
      rw [LoopShape.Ahead] at hahead
      omega
  have hcount : p.Ahead → (countTrips p.kind p.start p.bound p.step).1 =
      match p.kind with
      | .slt | .ult => .known (divCeil p.diff.natAbs p.step.toInt.natAbs)
      | .sle | .ule => .known (divCeil (p.diff.natAbs + 1) p.step.toInt.natAbs)
      | .ne => if p.diff.natAbs % p.step.toInt.natAbs ≠ 0 then .unknown
        else .known (p.diff.natAbs / p.step.toInt.natAbs)
      | _ => .unknown := by
    intro hahead
    rw [LoopShape.Ahead] at hahead
    simp only [countTrips, hdiff]
    rw [if_neg (by omega), if_neg (by omega)]
    cases p.kind <;> first | rfl | (dsimp only; split <;> rfl)
  refine ⟨?_, hbehind, ?_, ?_⟩
  · rw [hoverflow, decide_eq_false_iff_not, not_not]
  · intro hahead hcounts
    rw [hcount hahead, LoopShape.limit]
    rw [LoopShape.Counts] at hcounts
    cases hkind : p.kind <;> rw [hkind] at hcounts <;> dsimp only at hcounts ⊢
    rw [if_neg (not_not.2 (Nat.mod_eq_zero_of_dvd hcounts)), divCeil]
    obtain ⟨q, hq⟩ := hcounts
    have hpos : 0 < p.step.toInt.natAbs := Int.natAbs_pos.2 hne
    rw [hq, Nat.mul_div_cancel_left _ hpos]
    congr 1
    symm
    rw [Nat.div_eq_iff hpos]
    rw [Nat.mul_comm]
    omega
  · intro hahead hcounts
    rw [hcount hahead]
    rw [LoopShape.Counts] at hcounts
    cases hkind : p.kind <;> rw [hkind] at hcounts <;> dsimp only at hcounts ⊢ <;>
      try exact (hcounts trivial).elim
    rw [if_pos fun hmod => hcounts (Nat.dvd_of_mod_eq_zero hmod)]

end

/-! ## Runs of a loop -/

namespace CountedLoop

variable {p : LoopShape} {f : IRFunction} {L : LoopInfo} (l : CountedLoop p f L) {M : Machine}

/-- After `k` passes, a block of the loop is entered with the value of the induction variable: on an
edge to the header, as the operand of the phi, and elsewhere in its register. -/
structure At (M : Machine) (k : Nat) (label : String) (pred : Option String) (σ : Regs) : Prop where
  edge : label = L.header → k = 0 ∧ pred = some l.entry ∨
    0 < k ∧ pred = some L.latch ∧ σ l.next = p.value M k
  register : label ≠ L.header → σ l.iv = p.value M k

theorem value_succ (k : Nat) : p.value M (k + 1) = p.advance M (p.value M k) :=
  Function.iterate_succ_apply' ..

/-- The phi gives the induction variable its value. -/
theorem execInstrs_phi {k : Nat} {pred : Option String} {σ : Regs} (h : l.At M k L.header pred σ)
    (is : List IRInstr) (w : World) :
    execInstrs M L.header pred σ (.phi (.register l.iv) l.incoming :: is) σ w =
      execInstrs M L.header pred σ is (Function.update σ l.iv (p.value M k)) w := by
  have hentry : (some l.entry == some L.latch) = false :=
    beq_eq_false_iff_ne.2 fun heq => l.entry_ne_latch (Option.some.inj heq)
  have hlatch : (some L.latch == some l.entry) = false :=
    beq_eq_false_iff_ne.2 fun heq => l.entry_ne_latch (Option.some.inj heq).symm
  have hself : ∀ x : String, (some x == some x) = true := fun x => beq_self_eq_true _
  have heffect : (IRInstr.phi (.register l.iv) l.incoming).effect M (·.eval M σ) (·.eval M σ) pred
      w = .next [(.register l.iv, p.value M k)] w := by
    rcases h.edge rfl with ⟨rfl, rfl⟩ | ⟨-, rfl, hnext⟩
    · rcases l.incoming_eq with hin | hin
      · simp only [IRInstr.effect, hin, List.find?_cons, hself]
        rfl
      · simp only [IRInstr.effect, hin, List.find?_cons, hself, hlatch]
        rfl
    · rcases l.incoming_eq with hin | hin
      · simp only [IRInstr.effect, hin, List.find?_cons, hself, hentry]
        rw [← hnext]
        rfl
      · simp only [IRInstr.effect, hin, List.find?_cons, hself]
        rw [← hnext]
        rfl
  rw [execInstrs_cons, heffect]
  rfl

/-- A block of the loop other than the latch leads to another block of the loop, and the header is
not the next one; or the run ends. -/
theorem step_inside (htop : p.atTop = false) (honly : p.onlyExit = true) {k : Nat} {label : String}
    {pred : Option String} {σ : Regs} (hmem : label ∈ L.blocks) (hlatch : label ≠ L.latch)
    (h : l.At M k label pred σ) (w : World) :
    (∃ o w', f.step M (.enter label pred σ w) = .done o w') ∨
      ∃ target τ w', f.step M (.enter label pred σ w) = .enter target (some label) τ w' ∧
        target ∈ L.blocks ∧ l.At M k target (some label) τ := by
  cases hb : f.blockAt label with
  | none =>
    left
    exact ⟨.noBlock, w, by rw [IRFunction.step, hb]⟩
  | some b =>
    have hstep : f.step M (.enter label pred σ w) = b.exec M pred σ w := by
      rw [IRFunction.step, hb]
    have hlabel : b.label = label := f.label_of_blockAt hb
    rw [hstep]
    cases hexec : b.exec M pred σ w with
    | done o w' => exact .inl ⟨o, w', rfl⟩
    | enter target pred' τ w' =>
      obtain ⟨htarget, hpred⟩ := IRBlock.exec_enter hexec
      rw [hlabel] at hpred
      have hheader : target ≠ L.header := fun heq =>
        hlatch (l.backEdge label hmem b hb (heq ▸ htarget))
      have hclosed : target ∈ L.blocks := by
        apply l.closed honly label hmem _ b hb target htarget
        rwa [htop]
      refine .inr ⟨target, τ, w', by rw [hpred], hclosed, fun heq => absurd heq hheader, ?_⟩
      intro _
      by_cases hhead : label = L.header
      · subst hhead
        obtain rfl : l.header = b := Option.some.inj (l.header_at.symm.trans hb)
        rw [IRBlock.exec, l.header_eq, hlabel, l.execInstrs_phi h] at hexec
        rw [finish_frame hexec l.iv_once.1 l.iv_terminator, Function.update_self]
      · rw [IRBlock.exec_frame hexec (l.iv_once.2 label hmem hhead b hb)]
        exact h.register hhead

theorem register_before {k : Nat} {pred : Option String} {σ τ : Regs} {w w' : World}
    (h : l.At M k L.latch pred σ)
    (hrun : execInstrs M L.latch pred σ l.before σ w = .stay τ w') : τ l.iv = p.value M k := by
  by_cases hhead : L.latch = L.header
  · have hblock : l.header = l.latch := by
      have hat := l.latch_at
      rw [hhead, l.header_at] at hat
      exact Option.some.inj hat
    have heq : .phi (.register l.iv) l.incoming :: l.rest =
        l.before ++ p.stepInstr l.iv l.next :: l.behind := by
      rw [← l.header_eq, hblock, l.latch_eq]
    cases hbefore : l.before with
    | nil =>
      rw [hbefore] at heq
      cases (List.cons.inj heq).1
    | cons i before =>
      rw [hbefore, List.cons_append] at heq
      obtain ⟨rfl, hrest⟩ := List.cons.inj heq
      rw [hhead] at h
      rw [hbefore, hhead, l.execInstrs_phi h] at hrun
      rw [execInstrs_frame (.inl hrun), Function.update_self]
      intro i hi
      apply l.iv_once.1
      rw [hrest]
      exact List.mem_append_left _ hi
  · rw [execInstrs_frame (.inl hrun)]
    · exact h.register hhead
    · intro i hi hd
      apply l.iv_once.2 L.latch l.latch_mem hhead l.latch l.latch_at
      rw [IRBlock.definedRegs, l.latch_eq]
      exact List.mem_append_left _ (List.mem_flatMap.2 ⟨i, List.mem_append_left _ hi, hd⟩)

theorem binOp_isSome (op : BinOpKind) (hop : op = .add ∨ op = .sub) (ty : Option IRType)
    (a b : Word) : M.binOp op ty a b = some ((M.binOp op ty a b).getD 0) := by
  rcases hop with rfl | rfl
  · cases ty with
    | none => rfl
    | some ty => cases ty <;> rfl
  · cases ty with
    | none => rfl
    | some ty => cases ty <;> rfl

theorem execInstrs_step {pred : Option String} {edge σ : Regs} {k : Nat} {w : World}
    (h : σ l.iv = p.value M k) (label : String) (is : List IRInstr) :
    execInstrs M label pred edge (p.stepInstr l.iv l.next :: is) σ w =
      execInstrs M label pred edge is (Function.update σ l.next (p.value M (k + 1))) w := by
  have hop : (if p.isSub = true then BinOpKind.sub else .add) = .add ∨
      (if p.isSub = true then BinOpKind.sub else .add) = .sub := by
    split
    · exact .inr rfl
    · exact .inl rfl
  have heffect : (p.stepInstr l.iv l.next).effect M (·.eval M σ) (·.eval M edge) pred w =
      .next [(.register l.next, p.value M (k + 1))] w := by
    rw [value_succ, LoopShape.advance, ← h]
    simp only [LoopShape.stepInstr, IRInstr.effect, IRValue.eval]
    rw [binOp_isSome _ hop]
    rfl
  rw [execInstrs_cons, heffect]
  rfl

theorem execInstrs_test (hleft : p.boundLeft = false) (htests : p.testsNext = true)
    {pred : Option String} {edge σ : Regs} {v : Word} {w : World} (h : σ l.next = v)
    (label : String) (is : List IRInstr) :
    execInstrs M label pred edge (p.testInstr l.iv l.next l.cond :: is) σ w =
      execInstrs M label pred edge is
        (Function.update σ l.cond (M.cmp p.kind p.cmpTy v p.bound)) w := by
  have heffect : (p.testInstr l.iv l.next l.cond).effect M (·.eval M σ) (·.eval M edge) pred w =
      .next [(.register l.cond, M.cmp p.kind p.cmpTy v p.bound)] w := by
    rw [← h]
    simp only [LoopShape.testInstr, hleft, htests]
    rfl
  rw [execInstrs_cons, heffect]
  rfl

theorem exec_branch {cond : VReg} (inside exit label : String) {σ : Regs} {v : Word}
    (h : σ cond = M.cmp p.kind p.cmpTy v p.bound) (w : World) :
    p.goesOn M v ∧ (p.branch cond inside exit).exec M label σ w = .enter inside (some label) σ w ∨
      ¬ p.goesOn M v ∧
        (p.branch cond inside exit).exec M label σ w = .enter exit (some label) σ w := by
  have hexec : ∀ tb fb, (IRTerminator.branch (.register cond) tb fb).exec M label σ w =
      .enter (if σ cond = 0 then fb else tb) (some label) σ w := fun _ _ => rfl
  rw [LoopShape.goesOn, ← h, LoopShape.branch]
  by_cases hcond : σ cond = 0
  · cases p.onTrue with
    | true => exact .inr ⟨fun hgoes => hgoes.2 rfl hcond, by rw [if_pos rfl, hexec, if_pos hcond]⟩
    | false =>
      refine .inl ⟨⟨fun hne => absurd hcond hne, (absurd · Bool.false_ne_true)⟩, ?_⟩
      rw [if_neg Bool.false_ne_true, hexec, if_pos hcond]
  · cases p.onTrue with
    | true => exact .inl ⟨⟨fun _ => rfl, fun _ => hcond⟩, by rw [if_pos rfl, hexec, if_neg hcond]⟩
    | false =>
      refine .inr ⟨fun hgoes => Bool.false_ne_true (hgoes.1 hcond), ?_⟩
      rw [if_neg Bool.false_ne_true, hexec, if_neg hcond]

theorem step_latch (htop : p.atTop = false) (hleft : p.boundLeft = false)
    (htests : p.testsNext = true) {k : Nat} {pred : Option String} {σ : Regs}
    (h : l.At M k L.latch pred σ) (w : World) :
    (∃ o w', f.step M (.enter L.latch pred σ w) = .done o w') ∨
      (∃ τ w', f.step M (.enter L.latch pred σ w) = .enter L.header (some L.latch) τ w' ∧
        p.goesOn M (p.value M (k + 1)) ∧ τ l.next = p.value M (k + 1)) ∨
      ∃ τ w', f.step M (.enter L.latch pred σ w) = .enter l.exit (some L.latch) τ w' ∧
        ¬ p.goesOn M (p.value M (k + 1)) := by
  obtain ⟨hbehind, hterm, hcond⟩ := l.bottom htop
  have hstraight := l.latch_straight
  have hlabel : l.latch.label = L.latch := f.label_of_blockAt l.latch_at
  have hstep : f.step M (.enter L.latch pred σ w) = l.latch.exec M pred σ w := by
    rw [IRFunction.step, l.latch_at]
  rw [hstep, IRBlock.exec, hlabel, hterm]
  rw [l.latch_eq, hbehind] at hstraight ⊢
  have hnext : ∀ i ∈ l.between ++ p.testInstr l.iv l.next l.cond :: l.after,
      l.next ∉ i.definedRegs := by
    intro i hi
    apply l.next_once
    rw [hbehind]
    exact List.mem_append_right _ hi
  rw [execInstrs_append]
  have hbefore : ∀ i ∈ l.before, i.isControl = false := fun i hi =>
    hstraight i (List.mem_append_left _ hi)
  have hbetween : ∀ i ∈ l.between, i.isControl = false := fun i hi => hstraight i (by simp [hi])
  have hafter : ∀ i ∈ l.after, i.isControl = false := fun i hi => hstraight i (by simp [hi])
  rcases execInstrs_straight M L.latch pred σ hbefore σ w with ⟨τ₁, w₁, h₁⟩ | ⟨o, w₁, h₁⟩
  swap
  · rw [h₁]
    exact .inl ⟨o, w₁, rfl⟩
  rw [h₁]
  simp only [Flow.andThen]
  rw [l.execInstrs_step (l.register_before h h₁), execInstrs_append]
  rcases execInstrs_straight M L.latch pred σ hbetween
      (Function.update τ₁ l.next (p.value M (k + 1))) w₁
    with ⟨τ₂, w₂, h₂⟩ | ⟨o, w₂, h₂⟩
  swap
  · rw [h₂]
    exact .inl ⟨o, w₂, rfl⟩
  have hvalue : τ₂ l.next = p.value M (k + 1) := by
    rw [execInstrs_frame (.inl h₂) fun i hi => hnext i (List.mem_append_left _ hi),
      Function.update_self]
  rw [h₂]
  simp only [Flow.andThen]
  rw [l.execInstrs_test hleft htests hvalue]
  rcases execInstrs_straight M L.latch pred σ hafter
    (Function.update τ₂ l.cond (M.cmp p.kind p.cmpTy (p.value M (k + 1)) p.bound)) w₂
    with ⟨τ₃, w₃, h₃⟩ | ⟨o, w₃, h₃⟩
  swap
  · rw [h₃]
    exact .inl ⟨o, w₃, rfl⟩
  have htest : τ₃ l.cond = M.cmp p.kind p.cmpTy (p.value M (k + 1)) p.bound := by
    rw [execInstrs_frame (.inl h₃) fun i hi => hcond i (by simp [hi]), Function.update_self]
  have hkept : τ₃ l.next = p.value M (k + 1) := by
    have hne : l.next ≠ l.cond := by
      intro heq
      apply hnext _ (List.mem_append_right _ List.mem_cons_self)
      rw [heq]
      exact List.mem_singleton_self l.cond
    rw [execInstrs_frame (.inl h₃) fun i hi => hnext i (by simp [hi]), Function.update_of_ne hne,
      hvalue]
  rw [h₃]
  simp only [Flow.finish]
  rcases exec_branch L.header l.exit L.latch htest w₃ with
    ⟨hgoes, hexec⟩ | ⟨hgoes, hexec⟩
  · exact .inr (.inl ⟨τ₃, w₃, hexec, hgoes, hkept⟩)
  · exact .inr (.inr ⟨τ₃, w₃, hexec, hgoes⟩)

/-- What is known after `k` visits of the latch: inside the loop, after it, and at the end of the
run. -/
inductive Progress (M : Machine) (k : Nat) : Config → Prop
  | inside {label : String} {pred : Option String} {σ : Regs} {w : World} (hmem : label ∈ L.blocks)
      (hat : l.At M k label pred σ)
      (hgoes : ∀ j, 1 ≤ j → j ≤ k → p.goesOn M (p.value M j)) : Progress M k (.enter label pred σ w)
  | left {pred : Option String} {σ : Regs} {w : World} (hpos : 1 ≤ k)
      (hgoes : ∀ j, 1 ≤ j → j < k → p.goesOn M (p.value M j))
      (hstops : ¬ p.goesOn M (p.value M k)) : Progress M k (.enter l.exit pred σ w)
  | ended {o : Outcome} {w : World}
      (hgoes : ∀ j, 1 ≤ j → j < k → p.goesOn M (p.value M j)) : Progress M k (.done o w)

/-- One block of the loop. -/
theorem progress_step (htop : p.atTop = false) (hleft : p.boundLeft = false)
    (htests : p.testsNext = true) (honly : p.onlyExit = true) {k : Nat} {c : Config}
    (h : l.Progress M k c) (hin : InLoop L c) :
    l.Progress M (if labelOf c = some L.latch then k + 1 else k) (f.step M c) := by
  cases h with
  | left hpos hgoes hstops =>
    obtain ⟨label, hmem, hlabel⟩ := hin
    cases hlabel
    exact absurd hmem l.exit_not_mem
  | ended hgoes =>
    obtain ⟨label, -, hlabel⟩ := hin
    cases hlabel
  | @inside label pred σ w hmem hat hgoes =>
    have hlt : ∀ j, 1 ≤ j → j < k + 1 → p.goesOn M (p.value M j) := fun j hj hjk =>
      hgoes j hj (by omega)
    by_cases hlatch : label = L.latch
    · subst hlatch
      rw [labelOf, if_pos rfl]
      rcases l.step_latch htop hleft htests hat w with
        ⟨o, w', hstep⟩ | ⟨τ, w', hstep, hgo, hnext⟩ | ⟨τ, w', hstep, hgo⟩
      · rw [hstep]
        exact .ended hlt
      · rw [hstep]
        refine .inside l.header_mem ⟨fun _ => .inr ⟨k.succ_pos, rfl, hnext⟩, fun hne => ?_⟩ ?_
        · exact absurd rfl hne
        · intro j hj hjk
          rcases Nat.lt_or_eq_of_le hjk with hlt' | rfl
          · exact hlt j hj hlt'
          · exact hgo
      · rw [hstep]
        exact .left k.succ_pos hlt hgo
    · have hne : ¬ labelOf (.enter label pred σ w) = some L.latch := fun heq =>
        hlatch (Option.some.inj heq)
      rw [if_neg hne]
      rcases l.step_inside htop honly hmem hlatch hat w with
        ⟨o, w', hstep⟩ | ⟨target, τ, w', hstep, htarget, hat'⟩
      · rw [hstep]
        exact .ended fun j hj hjk => hgoes j hj (by omega)
      · rw [hstep]
        exact .inside htarget hat' hgoes

theorem progress_iterate (htop : p.atTop = false) (hleft : p.boundLeft = false)
    (htests : p.testsNext = true) (honly : p.onlyExit = true) (σ : Regs) (w : World) {m : Nat}
    (hin : ∀ j < m, InLoop L ((f.step M)^[j] (.enter L.header (some l.entry) σ w))) :
    l.Progress M (passes M f L (.enter L.header (some l.entry) σ w) m)
      ((f.step M)^[m] (.enter L.header (some l.entry) σ w)) := by
  induction m with
  | zero =>
    refine .inside l.header_mem ⟨fun _ => .inl ⟨rfl, rfl⟩, fun hne => absurd rfl hne⟩ ?_
    intro j hj hjk
    have hzero : passes M f L (.enter L.header (some l.entry) σ w) 0 = 0 := Nat.count_zero _
    omega
  | succ m ih =>
    have hstep := l.progress_step htop hleft htests honly
      (ih fun j hj => hin j (by omega)) (hin m (by omega))
    rw [Function.iterate_succ_apply', passes, Nat.count_succ]
    split
    next heq => rwa [if_pos heq] at hstep
    next hne => rwa [if_neg hne] at hstep

theorem runsBody (htop : p.atTop = false) (hleft : p.boundLeft = false)
    (htests : p.testsNext = true) (honly : p.onlyExit = true) {n : Nat}
    (hgoes : ∀ k, 1 ≤ k → k < n → p.goesOn M (p.value M k)) (hpos : 1 ≤ n)
    (hstops : ¬ p.goesOn M (p.value M n)) (σ : Regs) (w : World) :
    RunsBody M f L (.enter L.header (some l.entry) σ w) n := by
  intro m hin
  have hprogress := l.progress_iterate htop hleft htests honly σ w hin
  generalize passes M f L (.enter L.header (some l.entry) σ w) m = k at hprogress ⊢
  generalize (f.step M)^[m] (.enter L.header (some l.entry) σ w) = c at hprogress ⊢
  cases hprogress with
  | @inside label pred σ' w' hmem hat hgo =>
    refine ⟨?_, fun label' hnot hlabel => ?_⟩
    · by_contra hlt
      exact hstops (hgo n hpos (by omega))
    · cases hlabel
      exact absurd hmem hnot
  | left hkpos hgo hstop =>
    have hle : k ≤ n := by
      by_contra hlt
      exact hstops (hgo n hpos (by omega))
    refine ⟨hle, fun _ _ _ => ?_⟩
    by_contra hne
    exact hstop (hgoes k hkpos (by omega))
  | ended hgo =>
    refine ⟨?_, fun _ _ hlabel => by cases hlabel⟩
    by_contra hlt
    exact hstops (hgo n hpos (by omega))

end CountedLoop

/-! ## Loops of a shape -/

section Shapes

variable (p : LoopShape)

/-- The block of a loop that is its own latch. -/
def loopBlock : IRBlock where
  label := "loop"
  instructions := [.phi (.register 0) [(.immediate p.start, "entry"), (.register 1, "loop")],
    p.stepInstr 0 1, p.testInstr 0 1 2]
  terminator := p.branch 2 "loop" "exit"

/-- The smallest loop of the shape. -/
def selfLoop : IRFunction where
  name := "count"
  blocks := [⟨"entry", [], .jump "loop", [], []⟩, loopBlock p, ⟨"exit", [], .ret [], [], []⟩]

/-- The header of a loop that is left before the latch. -/
def leavingBlock : IRBlock where
  label := "head"
  instructions := [.phi (.register 0) [(.immediate p.start, "entry"), (.register 1, "loop")]]
  terminator := .branch (.immediate 1) "exit" "loop"

def latchBlock : IRBlock where
  label := "loop"
  instructions := [p.stepInstr 0 1, p.testInstr 0 1 2]
  terminator := p.branch 2 "head" "exit"

/-- A loop that is left from its header. -/
def leavingLoop : IRFunction where
  name := "leave"
  blocks := [⟨"entry", [], .jump "head", [], []⟩, leavingBlock p, latchBlock p,
    ⟨"exit", [], .ret [], [], []⟩]

def selfInfo : LoopInfo := ⟨"loop", "loop", {"loop"}, 1⟩

def leavingInfo : LoopInfo := ⟨"head", "loop", {"head", "loop"}, 1⟩

variable {p}

theorem definedRegs_step (iv next : VReg) : (p.stepInstr iv next).definedRegs = [next] := rfl

theorem definedRegs_test (iv next cond : VReg) : (p.testInstr iv next cond).definedRegs = [cond] :=
  rfl

theorem definedRegs_branch (cond : VReg) (inside exit : String) :
    (p.branch cond inside exit).definedRegs = [] := by
  rw [LoopShape.branch]
  split <;> rfl

/-- The smallest loop as a counted loop. -/
def selfCounted (htop : p.atTop = false) : CountedLoop p (selfLoop p) selfInfo where
  header := loopBlock p
  latch := loopBlock p
  iv := 0
  next := 1
  cond := 2
  entry := "entry"
  exit := "exit"
  incoming := [(.immediate p.start, "entry"), (.register 1, "loop")]
  rest := [p.stepInstr 0 1, p.testInstr 0 1 2]
  before := [.phi (.register 0) [(.immediate p.start, "entry"), (.register 1, "loop")]]
  behind := [p.testInstr 0 1 2]
  between := []
  after := []
  header_at := rfl
  latch_at := rfl
  header_mem := by decide
  latch_mem := by decide
  entry_not_mem := by decide
  exit_not_mem := by decide
  incoming_eq := .inl rfl
  header_eq := rfl
  latch_eq := rfl
  latch_straight := by
    intro i hi
    simp only [loopBlock, List.mem_cons, List.not_mem_nil, or_false] at hi
    rcases hi with rfl | rfl | rfl <;> rfl
  bottom := by
    intro _
    refine ⟨rfl, rfl, fun i hi => ?_⟩
    simp only [List.nil_append, List.append_nil, List.cons_append, List.mem_cons, List.not_mem_nil,
      or_false] at hi
    rcases hi with rfl | rfl
    · show (2 : VReg) ∉ [0]
      decide
    · rw [definedRegs_step]
      decide
  top := fun h => by rw [htop] at h; cases h
  iv_once := by
    constructor
    · intro i hi
      simp only [List.mem_cons, List.not_mem_nil, or_false] at hi
      rcases hi with rfl | rfl
      · rw [definedRegs_step]
        decide
      · rw [definedRegs_test]
        decide
    · intro label hmem hne
      exact absurd (Finset.mem_singleton.1 hmem) hne
  iv_terminator := by
    show _ ∉ (p.branch 2 "loop" "exit").definedRegs
    rw [definedRegs_branch]
    exact List.not_mem_nil
  next_once := by
    intro i hi
    simp only [List.cons_append, List.nil_append, List.mem_cons, List.not_mem_nil, or_false] at hi
    rcases hi with rfl | rfl
    · show (1 : VReg) ∉ [0]
      decide
    · rw [definedRegs_test]
      decide
  backEdge := fun label hmem _ _ _ => Finset.mem_singleton.1 hmem
  closed := by
    intro _ label hmem hne
    rw [htop] at hne
    exact absurd (Finset.mem_singleton.1 hmem) hne

/-- A loop that may be left elsewhere is left from its header. -/
def leavingCounted (htop : p.atTop = false) (honly : p.onlyExit = false) :
    CountedLoop p (leavingLoop p) leavingInfo where
  header := leavingBlock p
  latch := latchBlock p
  iv := 0
  next := 1
  cond := 2
  entry := "entry"
  exit := "exit"
  incoming := [(.immediate p.start, "entry"), (.register 1, "loop")]
  rest := []
  before := []
  behind := [p.testInstr 0 1 2]
  between := []
  after := []
  header_at := rfl
  latch_at := rfl
  header_mem := by decide
  latch_mem := by decide
  entry_not_mem := by decide
  exit_not_mem := by decide
  incoming_eq := .inl rfl
  header_eq := rfl
  latch_eq := rfl
  latch_straight := by
    intro i hi
    simp only [latchBlock, List.mem_cons, List.not_mem_nil, or_false] at hi
    rcases hi with rfl | rfl <;> rfl
  bottom := by
    intro _
    refine ⟨rfl, rfl, fun i hi => ?_⟩
    simp only [List.nil_append, List.append_nil, List.mem_cons, List.not_mem_nil, or_false] at hi
    rw [hi, definedRegs_step]
    decide
  top := fun h => by rw [htop] at h; cases h
  iv_once := by
    refine ⟨fun i hi => absurd hi List.not_mem_nil, fun label hmem hne b hb => ?_⟩
    simp only [leavingInfo, Finset.mem_insert, Finset.mem_singleton] at hmem
    obtain rfl := hmem.resolve_left hne
    obtain rfl : latchBlock p = b := Option.some.inj hb
    show _ ∉ [1, 2] ++ (p.branch 2 "head" "exit").definedRegs
    rw [definedRegs_branch]
    decide
  iv_terminator := List.not_mem_nil
  next_once := by
    intro i hi
    obtain rfl := List.mem_singleton.1 hi
    rw [definedRegs_test]
    decide
  backEdge := by
    intro label hmem b hb htarget
    simp only [leavingInfo, Finset.mem_insert, Finset.mem_singleton] at hmem
    rcases hmem with rfl | rfl
    · obtain rfl : leavingBlock p = b := Option.some.inj hb
      exact absurd htarget (by show "head" ∉ ["exit", "loop"]; decide)
    · rfl
  closed := fun h => by rw [honly] at h; cases h

theorem latchStep_latchBlock :
    latchStep 0 (latchBlock p).instructions = some (p.step, p.negOverflows, 1) := by
  simp only [latchBlock, latchStep, List.findSome?_cons, LoopShape.stepInstr, LoopShape.step,
    LoopShape.negOverflows]
  cases p.isSub <;> rfl

theorem latchCmp_latchBlock (hleft : p.boundLeft = false) (htests : p.testsNext = true) :
    latchCmp 2 1 (latchBlock p).instructions = some (p.kind, .immediate p.bound) := by
  simp only [latchBlock, latchCmp, List.findSome?_cons, LoopShape.stepInstr, LoopShape.testInstr,
    hleft, htests]
  cases p.isSub <;> rfl

theorem latchCond_branch (L : LoopInfo) :
    latchCond L (p.branch 2 L.header "exit") = some 2 := by
  simp only [LoopShape.branch]
  cases p.onTrue
  · exact if_pos (.inr rfl)
  · exact if_pos (.inl rfl)

/-- The two loops have the count of their constants. -/
theorem analyzeTripCount_shapes (htop : p.atTop = false) (hleft : p.boundLeft = false)
    (htests : p.testsNext = true) (hstep : p.step ≠ 0) :
    analyzeTripCount (selfLoop p) selfInfo = ((countTrips p.kind p.start p.bound p.step).1,
        p.negOverflows || (countTrips p.kind p.start p.bound p.step).2) ∧
      (p.onlyExit = false → (analyzeTripCount (leavingLoop p) leavingInfo).1 =
        (countTrips p.kind p.start p.bound p.step).1) := by
  have htest : ∀ (L : LoopInfo) (b : IRBlock), b.terminator = p.branch 2 L.header "exit" →
      latchCmp 2 1 b.instructions = some (p.kind, .immediate p.bound) →
      exitTest L b 1 = some (p.kind, p.bound) := by
    intro L b hterm hcmp
    rw [exitTest, hterm, latchCond_branch, Option.bind_eq_bind, Option.bind_some, hcmp]
    rfl
  have hcmp := latchCmp_latchBlock hleft htests
  constructor
  · rw [(selfCounted htop).analyzeTripCount_eq,
      show latchStep (selfCounted htop).iv (selfCounted htop).latch.instructions = _ from
        latchStep_latchBlock (p := p)]
    simp only [if_neg hstep]
    rw [show exitTest selfInfo (selfCounted htop).latch 1 = _ from htest _ (loopBlock p) rfl hcmp]
  · intro honly
    rw [(leavingCounted htop honly).analyzeTripCount_eq,
      show latchStep (leavingCounted htop honly).iv (leavingCounted htop honly).latch.instructions =
        _ from latchStep_latchBlock (p := p)]
    simp only [if_neg hstep]
    rw [show exitTest leavingInfo (leavingCounted htop honly).latch 1 = _ from
      htest _ (latchBlock p) rfl hcmp]

variable {M : Machine}

theorem selfLoop_step (htop : p.atTop = false) (hleft : p.boundLeft = false)
    (htests : p.testsNext = true) {k : Nat} {pred : Option String} {σ : Regs}
    (h : (selfCounted htop).At M k "loop" pred σ) (w : World) :
    p.goesOn M (p.value M (k + 1)) ∧ (∃ τ, (selfLoop p).step M (.enter "loop" pred σ w) =
        .enter "loop" (some "loop") τ w ∧ (selfCounted htop).At M (k + 1) "loop" (some "loop") τ) ∨
      ¬ p.goesOn M (p.value M (k + 1)) ∧ ∃ τ, (selfLoop p).step M (.enter "loop" pred σ w) =
        .enter "exit" (some "loop") τ w := by
  have hstep : ∃ τ, (selfLoop p).step M (.enter "loop" pred σ w) =
      (p.branch 2 "loop" "exit").exec M "loop" τ w ∧ τ 1 = p.value M (k + 1) ∧
        τ 2 = M.cmp p.kind p.cmpTy (p.value M (k + 1)) p.bound := by
    refine ⟨Function.update (Function.update (Function.update σ 0 (p.value M k)) 1
      (p.value M (k + 1))) 2 (M.cmp p.kind p.cmpTy (p.value M (k + 1)) p.bound), ?_, ?_, ?_⟩
    · have hrun := (selfCounted htop).execInstrs_phi h [p.stepInstr 0 1, p.testInstr 0 1 2] w
      have hiv : Function.update σ 0 (p.value M k) (selfCounted htop).iv = p.value M k :=
        Function.update_self ..
      exact congrArg (Flow.finish _) (hrun.trans
        (((selfCounted htop).execInstrs_step hiv "loop" [p.testInstr 0 1 2]).trans
        ((selfCounted htop).execInstrs_test hleft htests (Function.update_self ..) "loop" [])))
    · rw [Function.update_of_ne (by decide), Function.update_self]
    · rw [Function.update_self]
  obtain ⟨τ, hstep, hnext, hcond⟩ := hstep
  rcases CountedLoop.exec_branch "loop" "exit" "loop" hcond w with ⟨hgoes, hexec⟩ | ⟨hgoes, hexec⟩
  · exact .inl ⟨hgoes, τ, hstep.trans hexec, fun _ => .inr ⟨k.succ_pos, rfl, hnext⟩,
      fun hne => absurd rfl hne⟩
  · exact .inr ⟨hgoes, τ, hstep.trans hexec⟩

theorem selfLoop_iterate (htop : p.atTop = false) (hleft : p.boundLeft = false)
    (htests : p.testsNext = true) (σ : Regs) (w : World) {m : Nat}
    (hgoes : ∀ k, 1 ≤ k → k ≤ m → p.goesOn M (p.value M k)) :
    ∃ pred τ, ((selfLoop p).step M)^[m] (.enter "loop" (some "entry") σ w) =
      .enter "loop" pred τ w ∧ (selfCounted htop).At M m "loop" pred τ := by
  induction m with
  | zero => exact ⟨_, σ, rfl, fun _ => .inl ⟨rfl, rfl⟩, fun hne => absurd rfl hne⟩
  | succ m ih =>
    obtain ⟨pred, τ, hrun, hat⟩ := ih fun k hk hkm => hgoes k hk (by omega)
    rw [Function.iterate_succ_apply', hrun]
    rcases selfLoop_step htop hleft htests hat w with ⟨-, τ', hstep, hat'⟩ | ⟨hnot, -⟩
    · exact ⟨_, τ', hstep, hat'⟩
    · exact absurd (hgoes (m + 1) (by omega) le_rfl) hnot

/-- A number of passes of the smallest loop says what the test does. -/
theorem goesOn_of_runsBody (htop : p.atTop = false) (hleft : p.boundLeft = false)
    (htests : p.testsNext = true) {σ : Regs} {w : World} {n : Nat}
    (h : RunsBody M (selfLoop p) selfInfo (.enter "loop" (some "entry") σ w) n) :
    1 ≤ n ∧ (∀ k, 1 ≤ k → k < n → p.goesOn M (p.value M k)) ∧ ¬ p.goesOn M (p.value M n) := by
  have hcount : ∀ m, (∀ k, 1 ≤ k → k ≤ m → p.goesOn M (p.value M k)) →
      (∀ j < m + 1, InLoop selfInfo
        (((selfLoop p).step M)^[j] (.enter "loop" (some "entry") σ w))) ∧
      passes M (selfLoop p) selfInfo (.enter "loop" (some "entry") σ w) (m + 1) = m + 1 := by
    intro m hgoes
    have hlabel : ∀ j < m + 1, labelOf (((selfLoop p).step M)^[j]
        (.enter "loop" (some "entry") σ w)) = some "loop" := by
      intro j hj
      obtain ⟨pred, τ, hrun, -⟩ := selfLoop_iterate htop hleft htests σ w (m := j)
        fun k hk hkj => hgoes k hk (by omega)
      rw [hrun]
      rfl
    refine ⟨fun j hj => ⟨"loop", Finset.mem_singleton_self _, hlabel j hj⟩, ?_⟩
    rw [passes, Nat.count_eq_card_filter_range, Finset.filter_true_of_mem, Finset.card_range]
    intro j hj
    exact hlabel j (Finset.mem_range.1 hj)
  have hstops : ∃ k, 1 ≤ k ∧ ¬ p.goesOn M (p.value M k) := by
    by_contra hall
    obtain ⟨hin, hpasses⟩ := hcount n fun k hk _ => by
      by_contra hnot
      exact hall ⟨k, hk, hnot⟩
    have hle := (h (n + 1) hin).1
    omega
  classical
  have hfirst := Nat.find_spec hstops
  have hbefore : ∀ k, 1 ≤ k → k < Nat.find hstops → p.goesOn M (p.value M k) := by
    intro k hk hlt
    by_contra hnot
    exact Nat.find_min hstops hlt ⟨hk, hnot⟩
  generalize Nat.find hstops = N at hfirst hbefore
  obtain ⟨hpos, hnot⟩ := hfirst
  obtain ⟨k, rfl⟩ : ∃ k, N = k + 1 := ⟨N - 1, by omega⟩
  have hgoes : ∀ j, 1 ≤ j → j ≤ k → p.goesOn M (p.value M j) := fun j hj hjk =>
    hbefore j hj (by omega)
  obtain ⟨hin, hpasses⟩ := hcount k hgoes
  obtain ⟨pred, τ, hrun, hat⟩ := selfLoop_iterate htop hleft htests σ w hgoes
  have hleave : labelOf (((selfLoop p).step M)^[k + 1]
      (.enter "loop" (some "entry") σ w)) = some "exit" := by
    rw [Function.iterate_succ_apply', hrun]
    rcases selfLoop_step htop hleft htests hat w with ⟨hgo, -⟩ | ⟨-, τ', hstep⟩
    · exact absurd hgo hnot
    · rw [hstep]
      rfl
  have hn := (h (k + 1) hin).2 "exit" (by decide) hleave
  rw [hpasses] at hn
  subst hn
  exact ⟨hpos, hbefore, hnot⟩

theorem eq_zero_of_runsBody {σ : Regs} {w : World} {n : Nat}
    (h : RunsBody M (leavingLoop p) leavingInfo (.enter "head" (some "entry") σ w) n) : n = 0 := by
  have hin : ∀ j < 1, InLoop leavingInfo
      (((leavingLoop p).step M)^[j] (.enter "head" (some "entry") σ w)) := by
    intro j hj
    obtain rfl : j = 0 := by omega
    exact ⟨"head", by decide, rfl⟩
  have hpasses : passes M (leavingLoop p) leavingInfo (.enter "head" (some "entry") σ w) 1 = 0 := by
    have hne : ¬ some "head" = some "loop" := by decide
    rw [passes, Nat.count_succ, Nat.count_zero, Nat.zero_add]
    exact if_neg hne
  have hleave : labelOf (((leavingLoop p).step M)^[1] (.enter "head" (some "entry") σ w)) =
      some "exit" := rfl
  rw [← (h 1 hin).2 "exit" (by decide) hleave, hpasses]

end Shapes

/-! ## Exactness -/

/-- For each loop of the shape, a count is given without an overflow, and the body runs so often
after each entry to the loop. -/
def AnalysisExact (p : LoopShape) : Prop :=
  ∀ f L (l : CountedLoop p f L) n, (analyzeTripCount f L).1 = .known n →
    (analyzeTripCount f L).2 = false ∧ ∀ M regs w k σ w',
      f.run M regs w k = .enter L.header (some l.entry) σ w' →
        RunsBody M f L (.enter L.header (some l.entry) σ w') n

/-- The count is exact iff the analysis gives none, or the test ends the loop at the bound. -/
theorem analysisExact_iff (p : LoopShape) : AnalysisExact p ↔ p.GivesUp ∨ p.Paced := by
  constructor
  · intro h
    by_cases hgives : p.GivesUp
    · exact .inl hgives
    · right
      simp only [LoopShape.GivesUp, not_or, not_and, not_not, Bool.not_eq_true,
        Bool.not_eq_false] at hgives
      obtain ⟨htop, hleft, htests, hstep, hcounts⟩ := hgives
      obtain ⟨hdiff, hbehind, hahead, -⟩ := countTrips_eq hstep
      obtain ⟨hanalyze, hleaving⟩ := analyzeTripCount_shapes htop hleft htests hstep
      -- the smallest loop gives the count and what the test does
      let w : World := ⟨fun _ => 0, []⟩
      have hexact : ∀ n, (countTrips p.kind p.start p.bound p.step).1 = .known n →
          (p.negOverflows = false ∧ p.diff = p.bound.toInt - p.start.toInt) ∧ 1 ≤ n ∧
            ∀ M, (∀ k, 1 ≤ k → k < n → p.goesOn M (p.value M k)) ∧
              ¬ p.goesOn M (p.value M n) := by
        intro n hn
        obtain ⟨hflag, hruns⟩ := h _ _ (selfCounted htop) n (by rw [hanalyze, hn])
        rw [hanalyze, Bool.or_eq_false_iff] at hflag
        have hbody : ∀ M, _ := fun M => goesOn_of_runsBody htop hleft htests
          (hruns M (fun _ => 0) w 1 _ _ rfl)
        exact ⟨⟨hflag.1, hdiff.1 hflag.2⟩, (hbody default).1, fun M => (hbody M).2⟩
      have hahead' : p.Ahead := by
        by_contra hnot
        have hpos := (hexact 0 (hbehind hnot)).2.1
        omega
      obtain ⟨⟨hneg, hsub⟩, hpos, hpaced⟩ := hexact _ (hahead hahead' (hcounts hahead'))
      have habs : 0 < p.step.toInt.natAbs := Int.natAbs_pos.2 (step_toInt_ne_zero hstep)
      refine ⟨?_, hneg, hsub, hahead', ?_, ?_⟩
      · by_contra honly
        rw [Bool.not_eq_true] at honly
        have hzero := eq_zero_of_runsBody ((h _ _ (leavingCounted htop honly) _
          ((hleaving honly).trans (hahead hahead' (hcounts hahead')))).2
            default (fun _ => 0) w 1 _ _ rfl)
        omega
      · intro M k hk hlt
        exact (hpaced M).1 k hk ((lt_divCeil habs).2 hlt)
      · intro M k hlt hle
        have hlast : divCeil p.limit p.step.toInt.natAbs = k + 1 := by
          have h₁ := (lt_divCeil habs).2 hlt
          have h₂ : ¬ k + 1 < divCeil p.limit p.step.toInt.natAbs := by
            rw [lt_divCeil habs]
            omega
          omega
        have hstop := (hpaced M).2
        rwa [hlast] at hstop
  · rintro (hgives | hpaced) f L l n hn
    · obtain ⟨htop, hleft, htests, hstep, heq⟩ := l.of_analyze hn
      rcases hgives with h | h | h | h | ⟨hahead, hcounts⟩
      · rw [htop] at h
        cases h
      · rw [hleft] at h
        cases h
      · rw [htests] at h
        cases h
      · exact absurd h hstep
      · rw [heq, (countTrips_eq hstep).2.2.2 hahead hcounts] at hn
        cases hn
    · obtain ⟨htop, hleft, htests, hstep, heq⟩ := l.of_analyze hn
      obtain ⟨hdiff, -, hcount, hunknown⟩ := countTrips_eq hstep
      have hcounts : p.Counts := by
        by_contra hnot
        rw [heq, hunknown hpaced.ahead hnot] at hn
        cases hn
      rw [heq, hcount hpaced.ahead hcounts] at hn
      obtain rfl := TripCount.known.inj hn
      have habs : 0 < p.step.toInt.natAbs := Int.natAbs_pos.2 (step_toInt_ne_zero hstep)
      refine ⟨?_, fun M regs w k σ w' _ => ?_⟩
      · rw [heq, hpaced.negates, hdiff.2 hpaced.subtracts]
        rfl
      · have hpos : 0 < divCeil p.limit p.step.toInt.natAbs := by
          rw [lt_divCeil habs, Nat.zero_mul]
          exact hpaced.ahead.limit_pos (step_toInt_ne_zero hstep)
        obtain ⟨k, hk⟩ : ∃ k, divCeil p.limit p.step.toInt.natAbs = k + 1 :=
          ⟨_, (Nat.sub_add_cancel hpos).symm⟩
        apply l.runsBody htop hleft htests hpaced.onlyExit
        · intro j hj hlt
          exact hpaced.goesOn M j hj ((lt_divCeil habs).1 hlt)
        · exact hpos
        · rw [hk]
          have hlast : ¬ k + 1 < divCeil p.limit p.step.toInt.natAbs := by omega
          rw [lt_divCeil habs, not_lt] at hlast
          exact hpaced.stops M k ((lt_divCeil habs).1 (by omega)) hlast

/-- A counter that starts at the bound: the body has run once when its test fails. -/
def passedBound : LoopShape where
  start := 5
  isSub := false
  amount := 1
  stepTy := some .i64
  kind := .slt
  bound := 3
  cmpTy := some .i64
  boundLeft := false
  testsNext := true
  onTrue := true
  atTop := false
  onlyExit := true

/-- The count is 0 although the body runs. -/
theorem not_analysisExact_passedBound : ¬ AnalysisExact passedBound := by
  intro h
  have hcount : (analyzeTripCount (selfLoop passedBound) selfInfo).1 = .known 0 := by
    rw [(analyzeTripCount_shapes rfl rfl rfl (by decide)).1]
    decide
  have hbody := goesOn_of_runsBody rfl rfl rfl
    ((h _ _ (selfCounted rfl) 0 hcount).2 default (fun _ => 0) ⟨fun _ => 0, []⟩ 1 _ _ rfl)
  exact absurd hbody.1 (by decide)

end Vuma.Codegen.LoopUnroll
