import Vuma.IR.Footprint

/-!
# Liveness

The registers a block may still read, and the agreement on them that execution preserves. A block
is split into the phis at its head and the rest; the exits of a block are those of its trailing
control instruction, if it has one, and those of its terminator otherwise.
-/

namespace Vuma.IR

namespace IRBlock

/-- The phis at the head of the block. -/
def phis (b : IRBlock) : List IRInstr := b.instructions.takeWhile IRInstr.isPhi

/-- The instructions after the phis. -/
def rest (b : IRBlock) : List IRInstr := b.instructions.dropWhile IRInstr.isPhi

/-- The registers the phis define. -/
def phiDsts (b : IRBlock) : List VReg := b.phis.flatMap IRInstr.definedRegs

/-- The labels control can go to from the end of the block. -/
def exitLabels (b : IRBlock) : List String :=
  match b.instructions.getLast? with
  | some (.branch target) => [target]
  | some (.condBranch _ t f) => [t, f]
  | some (.ret _) => []
  | _ => b.terminator.successorLabels

/-- The registers read to decide where control goes. -/
def exitRegs (b : IRBlock) : List VReg :=
  match b.instructions.getLast? with
  | some (.branch _) | some (.ret _) => []
  | some (.condBranch cond ..) => cond.regs
  | _ => b.terminator.usedRegs

theorem phis_append_rest (b : IRBlock) : b.phis ++ b.rest = b.instructions :=
  List.takeWhile_append_dropWhile

theorem isPhi_of_mem_phis {b : IRBlock} {i : IRInstr} (h : i ∈ b.phis) : i.isPhi = true :=
  List.mem_takeWhile_imp h

end IRBlock

/-! ## Straight-line code -/

/-- The registers live before a list of instructions, given those live after it. -/
def liveBefore : List IRInstr → (VReg → Prop) → VReg → Prop
  | [], out, r => out r
  | i :: is, out, r => r ∈ i.usedRegs ∨ (liveBefore is out r ∧ r ∉ i.definedRegs)

theorem liveBefore_append (is js : List IRInstr) (out : VReg → Prop) :
    liveBefore (is ++ js) out = liveBefore is (liveBefore js out) := by
  induction is with
  | nil => rfl
  | cons i is ih => funext r; simp only [List.cons_append, liveBefore, ih]

/-- What is live before only because it is live after is not defined in between. -/
theorem liveBefore_or {is : List IRInstr} {A B : VReg → Prop} {r : VReg}
    (h : liveBefore is (fun r => A r ∨ B r) r) :
    liveBefore is A r ∨ (B r ∧ ∀ i ∈ is, r ∉ i.definedRegs) := by
  induction is with
  | nil => simpa [liveBefore] using h
  | cons i is ih =>
    rcases h with h | ⟨h, hdef⟩
    · exact .inl (.inl h)
    · rcases ih h with h | ⟨hB, hno⟩
      · exact .inl (.inr ⟨h, hdef⟩)
      · refine .inr ⟨hB, fun j hj => ?_⟩
        rcases List.mem_cons.mp hj with rfl | hj
        · exact hdef
        · exact hno j hj

/-- Register files that agree on what is live before straight-line code agree, after it, on what
is live after it; or the code stops in both in the same way. -/
theorem execInstrs_live (M : Machine) (label : String) (pred : Option String) (edge edge' : Regs)
    {out : VReg → Prop} (is : List IRInstr) (hphi : ∀ i ∈ is, i.isPhi = false)
    (hctl : ∀ i ∈ is, i.isControl = true → ∃ vs, i = .ret vs) {σ τ : Regs} (w : World)
    (h : ∀ r, liveBefore is out r → σ r = τ r) :
    (∃ σ' τ' w', execInstrs M label pred edge is σ w = .stay σ' w' ∧
        execInstrs M label pred edge' is τ w = .stay τ' w' ∧ ∀ r, out r → σ' r = τ' r) ∨
      ∃ o w', execInstrs M label pred edge is σ w = .leave (.done o w') ∧
        execInstrs M label pred edge' is τ w = .leave (.done o w') := by
  induction is generalizing σ τ w with
  | nil => exact .inl ⟨σ, τ, w, rfl, rfl, h⟩
  | cons i is ih =>
    have hi : i.isPhi = false := hphi i List.mem_cons_self
    have heff : i.effect M (·.eval M σ) (·.eval M edge) pred w =
        i.effect M (·.eval M τ) (·.eval M edge') pred w := by
      rw [IRInstr.effect_edge M _ (·.eval M edge) (·.eval M edge') pred pred w hi]
      exact IRInstr.effect_congr M pred w i (fun r hr => h r (.inl hr)) (fun _ _ => rfl)
    rw [execInstrs_cons, execInstrs_cons, heff]
    cases he : i.effect M (·.eval M τ) (·.eval M edge') pred w with
    | next ws w' =>
      refine ih (fun j hj => hphi j (List.mem_cons_of_mem _ hj))
        (fun j hj => hctl j (List.mem_cons_of_mem _ hj)) w' (fun r hr => ?_)
      by_cases hd : r ∈ i.definedRegs
      · exact Regs.writes_eq_of_mem (IRInstr.exists_write_of_defined he hi hd) σ τ
      · have hno := IRInstr.effect_writes_mem he hd
        rw [Regs.writes_of_not_mem hno, Regs.writes_of_not_mem hno]
        exact h r (.inr ⟨hr, hd⟩)
    | ret vs w' => exact .inr ⟨_, w', rfl, rfl⟩
    | stop o w' => exact .inr ⟨o, w', rfl, rfl⟩
    | jump target w' =>
      -- only `Branch` and `CondBranch` jump
      have hjump : i.isControl = true ∧ ∀ vs, i ≠ .ret vs := by
        refine ⟨?_, fun vs e => by rw [e] at he; cases he⟩
        exact IRInstr.isControl_of_jump he
      obtain ⟨vs, e⟩ := hctl i List.mem_cons_self hjump.1
      exact absurd e (hjump.2 vs)

/-! ## Terminators -/

/-- The registers a terminator defines. -/
def IRTerminator.definedRegs : IRTerminator → List VReg
  | .invoke dst .. => (dst.bind IRValue.asRegister).toList
  | _ => []

/-- A terminator ends the run, or enters a successor after writing its destination; which of the
two, and what is written, depends only on the registers it reads. -/
theorem IRTerminator.exec_cases (M : Machine) (label : String) (t : IRTerminator) {σ τ : Regs}
    (w : World) (h : ∀ r ∈ t.usedRegs, σ r = τ r) :
    (∃ o w', t.exec M label σ w = .done o w' ∧ t.exec M label τ w = .done o w') ∨
      ∃ s ∈ t.successorLabels, ∃ ws w',
        (∀ p ∈ ws, ∀ r, p.1 = .register r → r ∈ t.definedRegs) ∧
        t.exec M label σ w = .enter s (some label) (σ.writes ws) w' ∧
        t.exec M label τ w = .enter s (some label) (τ.writes ws) w' := by
  have hv : ∀ v : IRValue, (∀ r ∈ v.regs, r ∈ t.usedRegs) → v.eval M σ = v.eval M τ :=
    fun v hv => IRValue.eval_congr M (fun r hr => h r (hv r hr))
  have hvs : ∀ vs : List IRValue, (∀ r ∈ vs.filterMap IRValue.asRegister, r ∈ t.usedRegs) →
      vs.map (·.eval M σ) = vs.map (·.eval M τ) :=
    fun vs hvs => map_eval_congr M (fun r hr => h r (hvs r hr))
  have hno : ∀ p ∈ ([] : List (IRValue × Word)), ∀ r, p.1 = .register r → r ∈ t.definedRegs :=
    fun p hp => absurd hp List.not_mem_nil
  cases t with
  | jump target => exact .inr ⟨target, List.mem_cons_self, [], w, hno, rfl, rfl⟩
  | branch cond tb fb =>
    refine .inr ⟨if cond.eval M τ = 0 then fb else tb, ?_, [], w, hno, ?_, rfl⟩
    · simp only [successorLabels]
      split <;> simp
    · rw [exec, hv cond (fun r hr => hr)]
      rfl
  | ret values =>
    refine .inl ⟨_, w, ?_, rfl⟩
    rw [exec, hvs values (fun r hr => hr)]
  | unreachable => exact .inl ⟨_, w, rfl, rfl⟩
  | switch discr targets default =>
    refine .inr ⟨((targets.find? (fun t => t.1 == discr.eval M τ)).map Prod.snd).getD default,
      ?_, [], w, hno, ?_, rfl⟩
    · simp only [successorLabels, List.mem_append, List.mem_singleton]
      cases hf : targets.find? (fun t => t.1 == discr.eval M τ) with
      | none => exact .inr rfl
      | some e => exact .inl (List.mem_map_of_mem (List.mem_of_find?_eq_some hf))
    · rw [exec, hv discr (fun r hr => hr)]
      rfl
  | invoke dst func args normal unwind =>
    simp only [exec, hvs args (fun r hr => hr)]
    cases M.call w func (args.map (·.eval M τ)) with
    | returned vs w' =>
      refine .inr ⟨normal, List.mem_cons_self, _, w', ?_, rfl, rfl⟩
      intro p hp r hr
      cases dst with
      | none => simp at hp
      | some d =>
        simp only [Option.toList_some, List.map_cons, List.map_nil, List.mem_singleton] at hp
        subst hp
        cases hr
        exact List.mem_cons_self
    | unwound v w' => exact .inr ⟨unwind, by simp [successorLabels], [], w', hno, rfl, rfl⟩
    | stopped o w' => exact .inl ⟨o, w', rfl, rfl⟩
  | tailCall func args =>
    simp only [exec, hvs args (fun r hr => hr)]
    cases M.call w func (args.map (·.eval M τ)) with
    | returned vs w' => exact .inl ⟨_, w', rfl, rfl⟩
    | unwound v w' => exact .inl ⟨_, w', rfl, rfl⟩
    | stopped o w' => exact .inl ⟨o, w', rfl, rfl⟩
  | resume value =>
    refine .inl ⟨_, w, ?_, rfl⟩
    rw [exec, hv value (fun r hr => hr)]

/-! ## Phis -/

/-- The values the phis of a block write when it is entered from `pred` with registers `edge`. -/
def phiWrites (M : Machine) (edge : Regs) (pred : Option String) (phis : List IRInstr) :
    List (IRValue × Word) :=
  phis.flatMap fun
    | .phi dst incoming =>
      ((incoming.find? (fun e => some e.2 == pred)).map fun e => (dst, e.1.eval M edge)).toList
    | _ => []

theorem execInstrs_phis (M : Machine) (label : String) (pred : Option String) (edge : Regs)
    {phis : List IRInstr} (h : ∀ i ∈ phis, i.isPhi = true) (σ : Regs) (w : World) :
    execInstrs M label pred edge phis σ w = .stay (σ.writes (phiWrites M edge pred phis)) w := by
  induction phis generalizing σ with
  | nil => rfl
  | cons i is ih =>
    have htail := ih (fun j hj => h j (List.mem_cons_of_mem _ hj))
    cases i with
    | phi dst incoming =>
      rw [execInstrs_cons]
      simp only [IRInstr.effect, phiWrites, List.flatMap_cons]
      cases incoming.find? (fun e => some e.2 == pred) with
      | none => exact htail σ
      | some e =>
        simp only [Effect.flow, Flow.andThen, htail, Regs.writes, Option.map_some,
          Option.toList_some, List.foldl_append]
        rfl
    | _ => simp [IRInstr.isPhi] at h

theorem mem_phiWrites {M : Machine} {edge : Regs} {pred : Option String} {phis : List IRInstr}
    {p : IRValue × Word} : p ∈ phiWrites M edge pred phis ↔
      ∃ dst incoming e, .phi dst incoming ∈ phis ∧
        incoming.find? (fun e => some e.2 == pred) = some e ∧ p = (dst, e.1.eval M edge) := by
  simp only [phiWrites, List.mem_flatMap]
  constructor
  · rintro ⟨i, hi, hp⟩
    cases i with
    | phi dst incoming =>
      simp only [Option.mem_toList, Option.map_eq_some_iff] at hp
      obtain ⟨e, he, rfl⟩ := hp
      exact ⟨dst, incoming, e, hi, he, rfl⟩
    | _ => simp at hp
  · rintro ⟨dst, incoming, e, hi, he, rfl⟩
    exact ⟨_, hi, by simp [he]⟩

/-! ## Liveness across blocks -/

/-- The register may be read after entering the block `l`, past its phis, before being written. -/
inductive LiveIn (f : IRFunction) : String → VReg → Prop
  | here {l b r} (hb : f.blockAt l = some b) (h : liveBefore b.rest (· ∈ b.exitRegs) r) :
    LiveIn f l r
  | phi {l b s c r dst incoming} (hb : f.blockAt l = some b) (hs : s ∈ b.exitLabels)
    (hc : f.blockAt s = some c) (hphi : .phi dst incoming ∈ c.phis)
    (he : (.register r, l) ∈ incoming) (hkill : ∀ i ∈ b.rest, r ∉ i.definedRegs) : LiveIn f l r
  | through {l b s c r} (hb : f.blockAt l = some b) (hs : s ∈ b.exitLabels)
    (hc : f.blockAt s = some c) (hlive : LiveIn f s r) (hphi : r ∉ c.phiDsts)
    (hkill : ∀ i ∈ b.rest, r ∉ i.definedRegs) : LiveIn f l r

/-- The register is read by the exit of the block `b` or live on one of its outgoing edges. -/
def LiveOut (f : IRFunction) (b : IRBlock) (r : VReg) : Prop :=
  r ∈ b.exitRegs ∨ ∃ s ∈ b.exitLabels, ∃ c, f.blockAt s = some c ∧
    ((∃ dst incoming, .phi dst incoming ∈ c.phis ∧ (.register r, b.label) ∈ incoming) ∨
      (LiveIn f s r ∧ r ∉ c.phiDsts))

theorem LiveIn.of_liveBefore {f : IRFunction} {l : String} {b : IRBlock}
    (hb : f.blockAt l = some b) {r : VReg} (h : liveBefore b.rest (LiveOut f b) r) :
    LiveIn f l r := by
  rcases liveBefore_or h with h | ⟨⟨s, hs, c, hc, h⟩, hkill⟩
  · exact .here hb h
  · have hl : b.label = l := by simpa using List.find?_some hb
    rcases h with ⟨dst, incoming, hphi, he⟩ | ⟨hlive, hphi⟩
    · exact .phi hb hs hc hphi (hl ▸ he) hkill
    · exact .through hb hs hc hlive hphi hkill

end Vuma.IR
