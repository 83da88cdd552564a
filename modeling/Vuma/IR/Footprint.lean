import Vuma.IR.Semantics

/-!
# What an instruction reads and writes

The semantics agrees with the two queries of `IRInstr`: the effect of an instruction depends on
the registers only through `usedRegs` (`effect_congr`), and it writes no register outside
`definedRegs` (`effect_writes_mem`). Everything a pass concludes from `defined_regs` and
`used_regs` rests on these two facts.
-/

namespace Vuma.IR

/-! ## Writing registers -/

theorem Regs.write_of_ne {regs : Regs} {d : IRValue} {v : Word} {r : VReg}
    (h : d ≠ .register r) : regs.write (d, v) r = regs r := by
  cases d with
  | register q =>
    have hq : r ≠ q := fun e => h (by rw [e])
    simp [Regs.write, Function.update_of_ne hq]
  | _ => rfl

@[simp] theorem Regs.writes_nil (regs : Regs) : regs.writes [] = regs := rfl

@[simp] theorem Regs.writes_cons (regs : Regs) (p : IRValue × Word) (ws : List (IRValue × Word)) :
    regs.writes (p :: ws) = (regs.write p).writes ws := rfl

@[simp] theorem Regs.writes_register (regs : Regs) (r : VReg) (v : Word) :
    regs.writes [(.register r, v)] = Function.update regs r v := rfl

theorem Regs.writes_of_not_mem {ws : List (IRValue × Word)} {r : VReg}
    (h : ∀ p ∈ ws, p.1 ≠ .register r) (regs : Regs) : regs.writes ws r = regs r := by
  induction ws generalizing regs with
  | nil => rfl
  | cons p ws ih =>
    rw [Regs.writes_cons, ih (fun q hq => h q (List.mem_cons_of_mem _ hq))]
    exact Regs.write_of_ne (h p List.mem_cons_self)

/-- Writing the same values to two register files keeps them equal wherever they were, and makes
them equal on the destinations. -/
theorem Regs.writes_agree {P : VReg → Prop} {σ τ : Regs} (ws : List (IRValue × Word))
    (h : ∀ r, P r → σ r = τ r) : ∀ r, P r → σ.writes ws r = τ.writes ws r := by
  induction ws generalizing σ τ with
  | nil => exact h
  | cons p ws ih =>
    rw [Regs.writes_cons, Regs.writes_cons]
    refine ih (fun r hr => ?_)
    obtain ⟨d, v⟩ := p
    by_cases hd : d = .register r
    · subst hd
      simp [Regs.write]
    · rw [Regs.write_of_ne hd, Regs.write_of_ne hd, h r hr]

theorem Regs.writes_eq_of_mem {ws : List (IRValue × Word)} {r : VReg}
    (h : ∃ p ∈ ws, p.1 = .register r) (σ τ : Regs) : σ.writes ws r = τ.writes ws r := by
  induction ws generalizing σ τ with
  | nil => simp at h
  | cons p ws ih =>
    rw [Regs.writes_cons, Regs.writes_cons]
    by_cases hws : ∃ q ∈ ws, q.1 = .register r
    · exact ih hws _ _
    · have hno : ∀ q ∈ ws, q.1 ≠ .register r := fun q hq e => hws ⟨q, hq, e⟩
      obtain ⟨q, hq, hqr⟩ := h
      rcases List.mem_cons.mp hq with rfl | hq
      · rw [Regs.writes_of_not_mem hno, Regs.writes_of_not_mem hno]
        obtain ⟨d, v⟩ := q
        cases hqr
        simp [Regs.write]
      · exact absurd hqr (hno q hq)

theorem Regs.writes_of_mem {ws : List (IRValue × Word)} {r : VReg} {v : Word}
    (hmem : (.register r, v) ∈ ws) (huniq : ∀ p ∈ ws, p.1 = .register r → p.2 = v) (regs : Regs) :
    regs.writes ws r = v := by
  induction ws generalizing regs with
  | nil => simp at hmem
  | cons p ws ih =>
    rw [Regs.writes_cons]
    by_cases hws : (.register r, v) ∈ ws
    · exact ih hws (fun q hq => huniq q (List.mem_cons_of_mem _ hq)) _
    · have hno : ∀ q ∈ ws, q.1 ≠ .register r := by
        intro q hq e
        have := huniq q (List.mem_cons_of_mem _ hq) e
        obtain ⟨d, x⟩ := q
        exact hws (by simpa [← e, ← this] using hq)
      rcases List.mem_cons.mp hmem with rfl | hm
      · rw [Regs.writes_of_not_mem hno]
        simp [Regs.write]
      · exact absurd hm hws

/-! ## Reading registers -/

theorem IRValue.eval_congr (M : Machine) {σ τ : Regs} {v : IRValue}
    (h : ∀ r ∈ v.regs, σ r = τ r) : v.eval M σ = v.eval M τ := by
  cases v with
  | register r => exact h r (by simp)
  | _ => rfl

theorem map_eval_congr (M : Machine) {σ τ : Regs} {vs : List IRValue}
    (h : ∀ r ∈ vs.filterMap IRValue.asRegister, σ r = τ r) :
    vs.map (·.eval M σ) = vs.map (·.eval M τ) := by
  apply List.map_congr_left
  intro v hv
  refine IRValue.eval_congr M (fun r hr => h r ?_)
  rw [IRValue.mem_regs] at hr
  subst hr
  exact List.mem_filterMap.mpr ⟨_, hv, rfl⟩

/-- The effect of an instruction depends only on the registers it uses: a `Phi` reads them on the
edge, every other instruction reads the current ones. -/
theorem IRInstr.effect_congr (M : Machine) {σ τ σ' τ' : Regs} (pred : Option String) (w : World)
    (i : IRInstr) (h : ∀ r ∈ i.usedRegs, σ r = τ r) (h' : ∀ r ∈ i.usedRegs, σ' r = τ' r) :
    i.effect M (·.eval M σ) (·.eval M σ') pred w =
      i.effect M (·.eval M τ) (·.eval M τ') pred w := by
  have hv : ∀ v : IRValue, (∀ r ∈ v.regs, r ∈ i.usedRegs) → v.eval M σ = v.eval M τ :=
    fun v hv => IRValue.eval_congr M (fun r hr => h r (hv r hr))
  have hvs : ∀ vs : List IRValue, (∀ r ∈ vs.filterMap IRValue.asRegister, r ∈ i.usedRegs) →
      vs.map (·.eval M σ) = vs.map (·.eval M τ) :=
    fun vs hvs => map_eval_congr M (fun r hr => h r (hvs r hr))
  cases i with
  | phi dst incoming =>
    simp only [IRInstr.effect]
    cases hf : incoming.find? (fun e => some e.2 == pred) with
    | none => rfl
    | some e =>
      have he : e.1.eval M σ' = e.1.eval M τ' := by
        refine IRValue.eval_congr M (fun r hr => h' r ?_)
        rw [IRValue.mem_regs] at hr
        exact List.mem_filterMap.mpr ⟨e, List.mem_of_find?_eq_some hf, by rw [hr]; rfl⟩
      simp only [he]
  | call dst func args ext =>
    simp only [IRInstr.effect, hvs args (fun r hr => hr)]
  | syscall nr args dst =>
    simp only [IRInstr.effect, hvs args (fun r hr => hr)]
  | ret values =>
    simp only [IRInstr.effect, hvs values (fun r hr => hr)]
  | callIndirect dst funcPtr args =>
    simp only [IRInstr.effect, hv funcPtr (fun r hr => List.mem_append_left _ hr),
      hvs args (fun r hr => List.mem_append_right _ hr)]
  | _ =>
    simp only [IRInstr.usedRegs, List.mem_append] at hv
    simp (disch := (intro r hr; simp [hr])) only [IRInstr.effect, hv]

theorem IRInstr.regs_of_effect {M : Machine} {ev edge : IRValue → Word} {pred : Option String}
    {w w' : World} {i : IRInstr} {ws : List (IRValue × Word)}
    (h : i.effect M ev edge pred w = .next ws w') :
    ws.flatMap (·.1.regs) = i.definedRegs ∨ i.isPhi = true ∧ ws = [] := by
  have hext : ∀ (e : Event) (k : Reply → List (IRValue × Word)), M.external w e k = .next ws w' →
      ∃ reply, ws = k reply := by
    intro e k hk
    unfold Machine.external at hk
    split at hk
    · cases hk
      exact ⟨_, rfl⟩
    · cases hk
  have hone : ∀ (d : IRValue) (v : Word), [(d, v)].flatMap (·.1.regs) = d.regs :=
    fun d v => List.append_nil d.regs
  have hopt : ∀ (d : Option IRValue) (v : Word),
      (d.toList.map (·, v)).flatMap (·.1.regs) = (d.bind IRValue.asRegister).toList := by
    intro d v
    cases d with
    | none => rfl
    | some d => exact hone d v
  cases i with
  | call dst func args ext =>
    simp only [IRInstr.effect] at h
    cases hc : M.call w func (args.map ev) with
    | returned vs w₁ =>
      rw [hc] at h
      simp only [CallResult.effect, Effect.next.injEq] at h
      rw [← h.1]
      exact Or.inl (hopt dst _)
    | unwound v w₁ => rw [hc] at h; cases h
    | stopped o w₁ => rw [hc] at h; cases h
  | binOp op dst lhs rhs ty | div dst lhs rhs ty | transform dst src fromLayout toLayout =>
    simp only [IRInstr.effect] at h
    split at h
    · cases h
      exact Or.inl (hone dst _)
    · cases h
  | phi dst incoming =>
    simp only [IRInstr.effect] at h
    split at h
    · cases h
      exact Or.inl (hone dst _)
    · cases h
      exact Or.inr ⟨rfl, rfl⟩
  | alloc dst size =>
    cases dst with
    | register q => cases h; exact Or.inl (hone (.register q) _)
    | _ => cases h; exact Or.inl rfl
  | syscall nr args dst =>
    obtain ⟨reply, rfl⟩ := hext _ _ h
    exact Or.inl (hopt dst _)
  | callIndirect dst funcPtr args =>
    obtain ⟨reply, rfl⟩ := hext _ _ h
    exact Or.inl (hopt dst _)
  | channelRecvResult ch dst errDst ty =>
    obtain ⟨reply, rfl⟩ := hext _ _ h
    exact Or.inl (congrArg (dst.regs ++ ·) (hone errDst _))
  | channelOpen dst ty => obtain ⟨reply, rfl⟩ := hext _ _ h; exact Or.inl (hone dst _)
  | channelRecv ch dst ty | starkProof input dst cs =>
    obtain ⟨reply, rfl⟩ := hext _ _ h
    exact Or.inl (hone dst _)
  | channelRecvTimeout ch dst ty ms =>
    obtain ⟨reply, rfl⟩ := hext _ _ h
    exact Or.inl (hone dst _)
  | free _ | channelSend _ _ _ | channelClose _ =>
    obtain ⟨reply, rfl⟩ := hext _ _ h
    exact Or.inl rfl
  | store _ _ _ _ | atomicStore _ _ _ | bulkCopy _ _ _ | bulkFill _ _ _ => cases h; exact Or.inl rfl
  | ret _ | branch _ | condBranch _ _ _ => cases h
  | _ => cases h; exact Or.inl (hone _ _)

theorem IRInstr.effect_writes_mem {M : Machine} {ev edge : IRValue → Word} {pred : Option String}
    {w w' : World} {i : IRInstr} {ws : List (IRValue × Word)}
    (h : i.effect M ev edge pred w = .next ws w') {r : VReg} (hr : r ∉ i.definedRegs) :
    ∀ p ∈ ws, p.1 ≠ .register r := by
  intro p hp he
  rcases IRInstr.regs_of_effect h with hregs | ⟨-, rfl⟩
  · rw [← hregs] at hr
    exact hr (List.mem_flatMap.mpr ⟨p, hp, IRValue.mem_regs.mpr he⟩)
  · exact List.not_mem_nil hp

theorem IRInstr.effect_frame {M : Machine} {ev edge : IRValue → Word} {pred : Option String}
    {w w' : World} {i : IRInstr} {ws : List (IRValue × Word)}
    (h : i.effect M ev edge pred w = .next ws w') {r : VReg} (hr : r ∉ i.definedRegs)
    (regs : Regs) : regs.writes ws r = regs r :=
  Regs.writes_of_not_mem (IRInstr.effect_writes_mem h hr) regs

theorem IRInstr.effect_copy (M : Machine) (σ : Regs) (edge : IRValue → Word) (pred : Option String)
    (w : World) (dst src : IRValue) :
    (IRInstr.add dst src (.immediate 0) none).effect M (·.eval M σ) edge pred w =
      .next [(dst, src.eval M σ)] w := by
  have hadd : extendTo none ((src.eval M σ).setWidth (opWidth none) +
      (0 : Word).setWidth (opWidth none)) = src.eval M σ := by
    have hzero : (src.eval M σ).setWidth (opWidth none) + (0 : Word).setWidth (opWidth none) =
        (src.eval M σ).setWidth (opWidth none) := BitVec.add_zero _
    rw [hzero]
    exact (BitVec.setWidth_eq _).trans (BitVec.setWidth_eq _)
  exact congrArg (fun v => Effect.next [(dst, v)] w) hadd

theorem IRInstr.effect_edge (M : Machine) (ev edge edge' : IRValue → Word)
    (pred pred' : Option String) (w : World) {i : IRInstr} (hi : i.isPhi = false) :
    i.effect M ev edge pred w = i.effect M ev edge' pred' w := by
  cases i with
  | phi dst incoming => simp [isPhi] at hi
  | _ => rfl

theorem IRInstr.exists_write_of_defined {M : Machine} {ev edge : IRValue → Word}
    {pred : Option String} {w w' : World} {i : IRInstr} {ws : List (IRValue × Word)}
    (h : i.effect M ev edge pred w = .next ws w') (hphi : i.isPhi = false) {r : VReg}
    (hr : r ∈ i.definedRegs) : ∃ p ∈ ws, p.1 = .register r := by
  rcases IRInstr.regs_of_effect h with hregs | ⟨hi, -⟩
  · rw [← hregs] at hr
    obtain ⟨p, hp, hmem⟩ := List.mem_flatMap.mp hr
    exact ⟨p, hp, IRValue.mem_regs.mp hmem⟩
  · rw [hphi] at hi
    cases hi

theorem IRInstr.effect_straight (M : Machine) (ev edge : IRValue → Word) (pred : Option String)
    (w : World) {i : IRInstr} (hi : i.isControl = false) :
    (∃ ws w', i.effect M ev edge pred w = .next ws w') ∨
      ∃ o w', i.effect M ev edge pred w = .stop o w' ∧
        ((∀ vs, o ≠ .returned vs) ∨ ∃ func args, M.call w func args = .stopped o w') := by
  have hext : ∀ (e : Event) (k : Reply → List (IRValue × Word)),
      (∃ ws w', M.external w e k = .next ws w') ∨
        ∃ o w', M.external w e k = .stop o w' ∧
          ((∀ vs, o ≠ .returned vs) ∨ ∃ func args, M.call w func args = .stopped o w') := by
    intro e k
    unfold Machine.external
    cases M.respond (w.record e) e with
    | some r => exact .inl ⟨_, _, rfl⟩
    | none => exact .inr ⟨_, _, rfl, .inl (by simp)⟩
  cases i with
  | ret _ | branch _ | condBranch _ _ _ => cases hi
  | call dst func args ext =>
    simp only [effect]
    cases hc : M.call w func (args.map ev) with
    | returned vs w' => exact .inl ⟨_, _, rfl⟩
    | unwound v w' => exact .inr ⟨_, _, rfl, .inl (by simp)⟩
    | stopped o w' => exact .inr ⟨_, _, rfl, .inr ⟨func, _, hc⟩⟩
  | alloc dst size => cases dst <;> exact .inl ⟨_, _, rfl⟩
  | binOp _ _ _ _ _ | div _ _ _ _ | phi _ _ | transform _ _ _ _ =>
    simp only [effect]
    split
    · exact .inl ⟨_, _, rfl⟩
    · first | exact .inl ⟨_, _, rfl⟩ | exact .inr ⟨_, _, rfl, .inl (by simp)⟩
  | free _ | syscall _ _ _ | channelOpen _ _ | channelSend _ _ _ | channelRecv _ _ _
  | channelRecvTimeout _ _ _ _ | channelRecvResult _ _ _ _ | channelClose _ | starkProof _ _ _
  | callIndirect _ _ _ => exact hext _ _
  | _ => exact .inl ⟨_, _, rfl⟩

theorem IRInstr.isControl_of_jump {M : Machine} {ev edge : IRValue → Word} {pred : Option String}
    {w w' : World} {i : IRInstr} {target : String}
    (h : i.effect M ev edge pred w = .jump target w') : i.isControl = true := by
  by_contra hi
  rcases effect_straight M ev edge pred w (Bool.not_eq_true _ ▸ hi) with
    ⟨ws, w₁, he⟩ | ⟨o, w₁, he, -⟩
  · rw [h] at he
    cases he
  · rw [h] at he
    cases he

/-! ## Configurations that agree on some registers -/

/-- Two configurations at the same point, with the same world, whose register files are related
by `R` at that point. -/
def Config.Related (R : String → Option String → Regs → Regs → Prop) : Config → Config → Prop
  | .enter l p σ w, .enter l' p' τ w' => l = l' ∧ p = p' ∧ w = w' ∧ R l p σ τ
  | .done o w, .done o' w' => o = o' ∧ w = w'
  | _, _ => False

theorem Config.Related.obs_eq {R : String → Option String → Regs → Regs → Prop} {c d : Config}
    (h : c.Related R d) : c.obs = d.obs := by
  cases c <;> cases d <;> simp only [Config.Related] at h
  · obtain ⟨-, -, rfl, -⟩ := h
    rfl
  · obtain ⟨rfl, rfl⟩ := h
    rfl

/-- Two configurations at the same point, with the same world, that agree on the registers
satisfying `P`. -/
def Config.AgreeOn (P : VReg → Prop) : Config → Config → Prop :=
  Config.Related (fun _ _ σ τ => ∀ r, P r → σ r = τ r)

theorem Config.AgreeOn.refl (P : VReg → Prop) (c : Config) : c.AgreeOn P c := by
  cases c with
  | enter l p σ w => exact ⟨rfl, rfl, rfl, fun _ _ => rfl⟩
  | done o w => exact ⟨rfl, rfl⟩

theorem Config.AgreeOn.mono {P Q : VReg → Prop} {c d : Config} (h : c.AgreeOn P d)
    (hPQ : ∀ r, Q r → P r) : c.AgreeOn Q d := by
  cases c with
  | enter l p σ w =>
    cases d with
    | enter l' p' τ w' => exact ⟨h.1, h.2.1, h.2.2.1, fun r hr => h.2.2.2 r (hPQ r hr)⟩
    | done o w' => exact h.elim
  | done o w =>
    cases d with
    | enter l' p' τ w' => exact h.elim
    | done o' w' => exact h

/-- Two flows at the same point, with the same world, that agree on the registers satisfying
`P`. -/
def Flow.AgreeOn (P : VReg → Prop) : Flow → Flow → Prop
  | .stay σ w, .stay τ w' => w = w' ∧ ∀ r, P r → σ r = τ r
  | .leave c, .leave d => c.AgreeOn P d
  | _, _ => False

/-- Agreeing flows lead to agreeing flows when the continuations do. -/
theorem Flow.andThen_agree {P Q : VReg → Prop} {a b : Flow} {k k' : Regs → World → Flow}
    (h : a.AgreeOn P b) (hPQ : ∀ r, Q r → P r)
    (hk : ∀ σ τ w, (∀ r, P r → σ r = τ r) → (k σ w).AgreeOn Q (k' τ w)) :
    (a.andThen k).AgreeOn Q (b.andThen k') := by
  cases a with
  | stay σ w =>
    cases b with
    | stay τ w' =>
      obtain ⟨rfl, hP⟩ := h
      exact hk σ τ w hP
    | leave d => exact h.elim
  | leave c =>
    cases b with
    | stay τ w' => exact h.elim
    | leave d =>
      exact Config.AgreeOn.mono h hPQ

theorem Flow.finish_agree {P : VReg → Prop} {a b : Flow} {k k' : Regs → World → Config}
    (h : a.AgreeOn P b)
    (hk : ∀ σ τ w, (∀ r, P r → σ r = τ r) → (k σ w).AgreeOn P (k' τ w)) :
    (a.finish k).AgreeOn P (b.finish k') := by
  cases a with
  | stay σ w =>
    cases b with
    | stay τ w' =>
      obtain ⟨rfl, hP⟩ := h
      exact hk σ τ w hP
    | leave d => exact h.elim
  | leave c =>
    cases b with
    | stay τ w' => exact h.elim
    | leave d => exact h

theorem Effect.flow_agree {P : VReg → Prop} {label : String} {σ τ : Regs} (e : Effect)
    (hP : ∀ r, P r → σ r = τ r) : (e.flow label σ).AgreeOn P (e.flow label τ) := by
  cases e with
  | next ws w => exact ⟨rfl, Regs.writes_agree ws hP⟩
  | jump target w => exact ⟨rfl, rfl, rfl, hP⟩
  | ret vs w => exact ⟨rfl, rfl⟩
  | stop o w => exact ⟨rfl, rfl⟩

/-! ## Instruction lists -/

@[simp] theorem execInstrs_nil (M : Machine) (label : String) (pred : Option String)
    (edge regs : Regs) (w : World) : execInstrs M label pred edge [] regs w = .stay regs w := rfl

theorem execInstrs_cons (M : Machine) (label : String) (pred : Option String) (edge : Regs)
    (i : IRInstr) (is : List IRInstr) (regs : Regs) (w : World) :
    execInstrs M label pred edge (i :: is) regs w =
      ((i.effect M (·.eval M regs) (·.eval M edge) pred w).flow label regs).andThen
        (execInstrs M label pred edge is) := rfl

theorem execInstrs_append (M : Machine) (label : String) (pred : Option String) (edge : Regs)
    (is js : List IRInstr) (regs : Regs) (w : World) :
    execInstrs M label pred edge (is ++ js) regs w =
      (execInstrs M label pred edge is regs w).andThen (execInstrs M label pred edge js) := by
  induction is generalizing regs w with
  | nil => rfl
  | cons i is ih =>
    rw [List.cons_append, execInstrs_cons, execInstrs_cons]
    cases (i.effect M (·.eval M regs) (·.eval M edge) pred w).flow label regs with
    | stay σ w' => exact ih σ w'
    | leave c => rfl

theorem IRTerminator.exec_agree (M : Machine) {P : VReg → Prop} (label : String) {σ τ : Regs}
    (w : World) (t : IRTerminator) (hP : ∀ r, P r → σ r = τ r) (ht : ∀ r ∈ t.usedRegs, P r) :
    (t.exec M label σ w).AgreeOn P (t.exec M label τ w) := by
  have hv : ∀ v : IRValue, (∀ r ∈ v.regs, r ∈ t.usedRegs) → v.eval M σ = v.eval M τ :=
    fun v hv => IRValue.eval_congr M (fun r hr => hP r (ht r (hv r hr)))
  have hvs : ∀ vs : List IRValue, (∀ r ∈ vs.filterMap IRValue.asRegister, r ∈ t.usedRegs) →
      vs.map (·.eval M σ) = vs.map (·.eval M τ) :=
    fun vs hvs => map_eval_congr M (fun r hr => hP r (ht r (hvs r hr)))
  cases t with
  | jump target => exact ⟨rfl, rfl, rfl, hP⟩
  | branch cond tb fb | switch cond targets default =>
    rw [IRTerminator.exec, IRTerminator.exec, hv cond (fun r hr => hr)]
    exact ⟨rfl, rfl, rfl, hP⟩
  | ret values =>
    rw [IRTerminator.exec, IRTerminator.exec, hvs values (fun r hr => hr)]
    exact ⟨rfl, rfl⟩
  | unreachable => exact ⟨rfl, rfl⟩
  | invoke dst func args normal unwind =>
    rw [IRTerminator.exec, IRTerminator.exec, hvs args (fun r hr => hr)]
    split
    · exact ⟨rfl, rfl, rfl, Regs.writes_agree _ hP⟩
    · exact ⟨rfl, rfl, rfl, hP⟩
    · exact ⟨rfl, rfl⟩
  | tailCall func args =>
    rw [IRTerminator.exec, IRTerminator.exec, hvs args (fun r hr => hr)]
    split <;> exact ⟨rfl, rfl⟩
  | resume value =>
    rw [IRTerminator.exec, IRTerminator.exec, hv value (fun r hr => hr)]
    exact ⟨rfl, rfl⟩

end Vuma.IR
