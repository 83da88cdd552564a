import Vuma.IR.Footprint

/-!
# When two instructions may change places

Two instructions conflict when one writes a register that the other reads or writes, or when one
may change the world (or end the run with something else than a trap) and the other looks at the
memory, may trap, or may change the world too. Instructions that do not conflict may be exchanged.
-/

namespace Vuma.IR

/-- The registers the instruction reads when it is executed; a `Phi` reads on the edge. -/
def IRInstr.reads (i : IRInstr) : List VReg := if i.isPhi then [] else i.usedRegs

/-- May change the memory or the trace, or end the run otherwise than by a trap. -/
def IRInstr.isLoud : IRInstr → Bool
  | .store .. | .call .. | .free _ | .atomicStore .. | .atomicCas .. | .syscall .. | .channelOpen ..
  | .channelSend .. | .channelRecv .. | .channelRecvTimeout .. | .channelRecvResult ..
  | .channelClose _ | .starkProof .. | .callIndirect .. | .bulkCopy .. | .bulkFill .. => true
  | _ => false

/-- Reads the memory without changing it. -/
def IRInstr.isRead : IRInstr → Bool
  | .load .. | .atomicLoad .. => true
  | _ => false

/-- A divisor that may be zero: not a constant other than zero. -/
def IRValue.mayBeZero (ty : Option IRType) : IRValue → Bool
  | .immediate v | .address v => v.setWidth (opWidth ty) == 0
  | _ => true

/-- May trap. -/
def IRInstr.mayTrap : IRInstr → Bool
  | .binOp op _ _ rhs ty =>
    (op == .sdiv || op == .udiv || op == .srem || op == .urem) && ty != some .f32 &&
      ty != some .f64 && rhs.mayBeZero ty
  | .div _ _ rhs ty => rhs.mayBeZero ty
  | .transform _ _ fromLayout toLayout => fromLayout != toLayout
  | _ => false

/-- The two instructions cannot change places in general. -/
def IRInstr.conflicts (i j : IRInstr) : Bool :=
  i.definedRegs.any (j.reads ++ j.definedRegs).contains ||
    j.definedRegs.any i.reads.contains ||
    i.isLoud && (j.isLoud || j.isRead || j.mayTrap) ||
    j.isLoud && (i.isRead || i.mayTrap)

section

variable {M : Machine} {pred : Option String}

/-- The effect depends on the current registers through `reads` only. -/
theorem IRInstr.effect_congr_reads {σ τ : Regs} (edge : Regs) (w : World) {i : IRInstr}
    (h : ∀ r ∈ i.reads, σ r = τ r) :
    i.effect M (·.eval M σ) (·.eval M edge) pred w =
      i.effect M (·.eval M τ) (·.eval M edge) pred w := by
  cases hi : i.isPhi with
  | true =>
    cases i with
    | phi dst incoming => rfl
    | _ => cases hi
  | false =>
    refine i.effect_congr M pred w (fun r hr => h r ?_) fun _ _ => rfl
    rwa [reads, hi]

theorem intBinOp_eq_none {op : BinOpKind} {ty : Option IRType} {a b : Word}
    (h : intBinOp op ty a b = none) :
    (op = .sdiv ∨ op = .udiv ∨ op = .srem ∨ op = .urem) ∧ b.setWidth (opWidth ty) = 0 := by
  cases op <;> simp [intBinOp, binOpAt] at h ⊢ <;> exact h

theorem Machine.binOp_eq_none {op : BinOpKind} {ty : Option IRType} {a b : Word}
    (h : M.binOp op ty a b = none) :
    (op = .sdiv ∨ op = .udiv ∨ op = .srem ∨ op = .urem) ∧ ty ≠ some .f32 ∧ ty ≠ some .f64 ∧
      b.setWidth (opWidth ty) = 0 := by
  unfold Machine.binOp at h
  split at h
  · cases h
  · cases h
  · next hf32 hf64 =>
    obtain ⟨hdiv, hzero⟩ := intBinOp_eq_none h
    exact ⟨hdiv, hf32, hf64, hzero⟩

theorem IRValue.mayBeZero_of_eval {v : IRValue} {ty : Option IRType} {σ : Regs}
    (h : (v.eval M σ).setWidth (opWidth ty) = 0) : v.mayBeZero ty = true := by
  cases v with
  | immediate | address => exact beq_iff_eq.2 h
  | register | label => rfl

theorem IRInstr.effect_quiet (M : Machine) (pred : Option String) (σ edge : Regs) (w : World)
    {i : IRInstr} (hloud : i.isLoud = false) (hcontrol : i.isControl = false) :
    (∃ ws, i.effect M (·.eval M σ) (·.eval M edge) pred w = .next ws w) ∨
      i.mayTrap = true ∧ i.effect M (·.eval M σ) (·.eval M edge) pred w = .stop .trap w := by
  cases i with
  | binOp op dst lhs rhs ty =>
    simp only [effect]
    cases hop : M.binOp op ty (lhs.eval M σ) (rhs.eval M σ) with
    | some v => exact .inl ⟨_, rfl⟩
    | none =>
      obtain ⟨hdiv, hf32, hf64, hzero⟩ := Machine.binOp_eq_none hop
      refine .inr ⟨?_, rfl⟩
      simp [mayTrap, or_assoc, hdiv, hf32, hf64, IRValue.mayBeZero_of_eval hzero]
  | div dst lhs rhs ty =>
    simp only [effect]
    cases hop : intBinOp .sdiv ty (lhs.eval M σ) (rhs.eval M σ) with
    | some v => exact .inl ⟨_, rfl⟩
    | none => exact .inr ⟨IRValue.mayBeZero_of_eval (intBinOp_eq_none hop).2, rfl⟩
  | transform dst src fromLayout toLayout =>
    simp only [effect]
    split
    · exact .inl ⟨_, rfl⟩
    · next hsize =>
      refine .inr ⟨?_, rfl⟩
      have hne : fromLayout ≠ toLayout := fun h => hsize (by rw [h])
      simpa [mayTrap] using hne
  | phi dst incoming =>
    simp only [effect]
    split
    · exact .inl ⟨_, rfl⟩
    · exact .inl ⟨_, rfl⟩
  | alloc dst size => cases dst <;> exact .inl ⟨_, rfl⟩
  | ret _ | branch _ | condBranch _ _ _ => cases hcontrol
  | load | unaryOp | cast | getAddress | offset | select | add | sub | mul | cmp | atomicLoad
  | ctSelect | ctEq | vectorOp => exact .inl ⟨_, rfl⟩
  | _ => cases hloud

theorem IRInstr.effect_blind (M : Machine) (pred : Option String) (σ edge : Regs) {i : IRInstr}
    (hloud : i.isLoud = false) (hcontrol : i.isControl = false) (hread : i.isRead = false)
    (htrap : i.mayTrap = false) :
    ∃ ws, ∀ w, i.effect M (·.eval M σ) (·.eval M edge) pred w = .next ws w := by
  have hworld : ∀ ws w w', i.effect M (·.eval M σ) (·.eval M edge) pred w = .next ws w →
      i.effect M (·.eval M σ) (·.eval M edge) pred w' = .next ws w' := by
    intro ws w w' h
    cases i with
    | binOp op dst lhs rhs ty =>
      simp only [effect] at h ⊢
      cases hop : M.binOp op ty (lhs.eval M σ) (rhs.eval M σ) with
      | some v =>
        rw [hop] at h
        cases h
        rfl
      | none =>
        rw [hop] at h
        cases h
    | phi dst incoming =>
      simp only [effect] at h ⊢
      cases hfind : incoming.find? (fun e => some e.2 == pred) with
      | some e =>
        rw [hfind] at h
        cases h
        rfl
      | none =>
        rw [hfind] at h
        cases h
        rfl
    | transform dst src fromLayout toLayout =>
      simp only [effect] at h ⊢
      split at h
      · next hsize =>
        cases h
        rw [if_pos hsize]
      · cases h
    | alloc dst size =>
      cases dst <;>
        · cases h
          rfl
    | div dst lhs rhs ty =>
      simp only [effect] at h ⊢
      cases hop : intBinOp .sdiv ty (lhs.eval M σ) (rhs.eval M σ) with
      | some v =>
        rw [hop] at h
        cases h
        rfl
      | none =>
        rw [hop] at h
        cases h
    | load | atomicLoad => cases hread
    | ret _ | branch _ | condBranch _ _ _ => cases hcontrol
    | unaryOp | cast | getAddress | offset | select | add | sub | mul | cmp | ctSelect | ctEq
    | vectorOp =>
      cases h
      rfl
    | _ => cases hloud
  have hworld₀ : World := ⟨fun _ => 0, []⟩
  rcases i.effect_quiet M pred σ edge hworld₀ hloud hcontrol with
    ⟨ws, h⟩ | ⟨h, -⟩
  · exact ⟨ws, fun w => hworld ws hworld₀ w h⟩
  · rw [htrap] at h
    cases h

/-! ## Exchanging two instructions -/

theorem Regs.writes_comm {ws ws' : List (IRValue × Word)} {P : VReg → Prop}
    (h : ∀ r, P r → ∀ p ∈ ws, p.1 ≠ .register r) (h' : ∀ r, ¬ P r → ∀ p ∈ ws', p.1 ≠ .register r)
    (regs : Regs) : (regs.writes ws).writes ws' = (regs.writes ws').writes ws := by
  funext r
  by_cases hr : P r
  · rw [Regs.writes_of_not_mem (h r hr)]
    refine Regs.writes_agree (P := (· = r)) ws' ?_ r rfl
    rintro _ rfl
    exact Regs.writes_of_not_mem (h _ hr) regs
  · rw [Regs.writes_of_not_mem (h' r hr)]
    refine (Regs.writes_agree (P := (· = r)) ws ?_ r rfl).symm
    rintro _ rfl
    exact Regs.writes_of_not_mem (h' _ hr) regs

variable {label : String} {edge : Regs}

/-- The instructions do not conflict, so the second does not see what the first writes. -/
structure IRInstr.RegIndep (i j : IRInstr) : Prop where
  read : ∀ r ∈ i.definedRegs, r ∉ j.reads
  write : ∀ r ∈ i.definedRegs, r ∉ j.definedRegs
  read' : ∀ r ∈ j.definedRegs, r ∉ i.reads

theorem IRInstr.RegIndep.symm {i j : IRInstr} (h : i.RegIndep j) : j.RegIndep i :=
  ⟨h.read', fun r hr hr' => h.write r hr' hr, h.read⟩

theorem IRInstr.regIndep_of_not_conflicts {i j : IRInstr} (h : i.conflicts j = false) :
    i.RegIndep j := by
  simp only [conflicts, Bool.or_eq_false_iff, List.any_eq_false, List.contains_eq_mem,
    List.mem_append, decide_eq_true_eq, not_or] at h
  exact ⟨fun r hr => (h.1.1.1 r hr).1, fun r hr => (h.1.1.1 r hr).2, fun r hr => h.1.1.2 r hr⟩

/-- After the first instruction, the second has the effect it had before. -/
theorem IRInstr.RegIndep.effect {i j : IRInstr} (h : i.RegIndep j) {σ : Regs}
    {ws : List (IRValue × Word)} {w w' : World}
    (hi : i.effect M (·.eval M σ) (·.eval M edge) pred w = .next ws w') (w₁ : World) :
    j.effect M (·.eval M (σ.writes ws)) (·.eval M edge) pred w₁ =
      j.effect M (·.eval M σ) (·.eval M edge) pred w₁ := by
  refine IRInstr.effect_congr_reads edge w₁ fun r hr => ?_
  exact IRInstr.effect_frame hi (fun hr' => h.read r hr' hr) σ

theorem IRInstr.RegIndep.writes {i j : IRInstr} (h : i.RegIndep j) {σ : Regs}
    {ws ws' : List (IRValue × Word)} {w w₁ w' w₁' : World}
    (hi : i.effect M (·.eval M σ) (·.eval M edge) pred w = .next ws w₁)
    (hj : j.effect M (·.eval M σ) (·.eval M edge) pred w' = .next ws' w₁') :
    (σ.writes ws).writes ws' = (σ.writes ws').writes ws := by
  refine Regs.writes_comm (P := fun r => r ∉ i.definedRegs) (fun r hr => ?_) (fun r hr => ?_) σ
  · exact IRInstr.effect_writes_mem hi hr
  · exact IRInstr.effect_writes_mem hj (h.write r (not_not.mp hr))

/-- Two instructions, one after the other. -/
def execPair (M : Machine) (label : String) (pred : Option String) (edge : Regs) (i j : IRInstr)
    (σ : Regs) (w : World) : Flow :=
  ((i.effect M (·.eval M σ) (·.eval M edge) pred w).flow label σ).andThen fun σ w =>
    (j.effect M (·.eval M σ) (·.eval M edge) pred w).flow label σ

/-- A loud instruction and one that neither touches the memory nor traps. -/
theorem execPair_loud {i j : IRInstr} (h : i.RegIndep j) (hi : i.isControl = false)
    (hj : j.isControl = false) (hloud : j.isLoud = false) (hread : j.isRead = false)
    (htrap : j.mayTrap = false) (σ : Regs) (w : World) :
    execPair M label pred edge i j σ w = execPair M label pred edge j i σ w := by
  obtain ⟨ws', hblind⟩ := j.effect_blind M pred σ edge hloud hj hread htrap
  have hback := h.symm.effect (hblind w) w
  unfold execPair
  rcases IRInstr.effect_straight M (·.eval M σ) (·.eval M edge) pred w hi with
    ⟨ws, w', he⟩ | ⟨o, w', he, -⟩
  · simp only [he, hblind w, Effect.flow, Flow.andThen, hback, h.effect he, hblind w',
      h.writes he (hblind w)]
  · simp only [he, hblind w, Effect.flow, Flow.andThen, hback]

theorem execPair_quiet {i j : IRInstr} (h : i.RegIndep j) (hi : i.isControl = false)
    (hj : j.isControl = false) (hloud : i.isLoud = false) (hloud' : j.isLoud = false)
    (σ : Regs) (w : World) :
    execPair M label pred edge i j σ w = execPair M label pred edge j i σ w := by
  unfold execPair
  rcases i.effect_quiet M pred σ edge w hloud hi with
    ⟨ws, he⟩ | ⟨-, he⟩ <;>
  rcases j.effect_quiet M pred σ edge w hloud' hj with
    ⟨ws', he'⟩ | ⟨-, he'⟩
  · simp only [he, he', Effect.flow, Flow.andThen, h.effect he, h.symm.effect he', h.writes he he']
  · simp only [he, he', Effect.flow, Flow.andThen, h.effect he]
  · simp only [he, he', Effect.flow, Flow.andThen, h.symm.effect he']
  · simp only [he, he', Effect.flow, Flow.andThen]

theorem execPair_comm {i j : IRInstr} (h : i.conflicts j = false) (hi : i.isControl = false)
    (hj : j.isControl = false) (σ : Regs) (w : World) :
    execPair M label pred edge i j σ w = execPair M label pred edge j i σ w := by
  have hregs := IRInstr.regIndep_of_not_conflicts h
  simp only [IRInstr.conflicts, Bool.or_eq_false_iff, Bool.and_eq_false_iff] at h
  cases hiloud : i.isLoud with
  | true =>
    have hj' := h.1.2.resolve_left (by simp [hiloud])
    exact execPair_loud hregs hi hj hj'.1.1 hj'.1.2 hj'.2 σ w
  | false =>
    cases hjloud : j.isLoud with
    | true =>
      have hi' := h.2.resolve_left (by simp [hjloud])
      exact (execPair_loud hregs.symm hj hi hiloud hi'.1 hi'.2 σ w).symm
    | false => exact execPair_quiet hregs hi hj hiloud hjloud σ w

/-- Neighbours that do not conflict may change places. -/
theorem execInstrs_swap (M : Machine) (label : String) (pred : Option String) (edge : Regs)
    {i j : IRInstr} (h : i.conflicts j = false) (hi : i.isControl = false)
    (hj : j.isControl = false) (before after : List IRInstr) (σ : Regs) (w : World) :
    execInstrs M label pred edge (before ++ i :: j :: after) σ w =
      execInstrs M label pred edge (before ++ j :: i :: after) σ w := by
  have hpair : ∀ i j σ w, execInstrs M label pred edge (i :: j :: after) σ w =
      (execPair M label pred edge i j σ w).andThen (execInstrs M label pred edge after) := by
    intro i j σ w
    rw [execInstrs_cons, execPair]
    cases (i.effect M (·.eval M σ) (·.eval M edge) pred w).flow label σ with
    | stay σ w => exact execInstrs_cons M label pred edge j after σ w
    | leave c => rfl
  rw [execInstrs_append, execInstrs_append]
  congr 1
  funext σ w
  rw [hpair, hpair, execPair_comm h hi hj]

end

end Vuma.IR
