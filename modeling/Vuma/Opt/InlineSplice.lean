import Vuma.Opt.Inline

/-!
# One splice

Inlining one call refines the function, when the callee is one that the splice handles
(`CallSite.Safe`) and the new labels are new. The callee's run and the inlined body go side by side:
each register the callee has defined has its value in the register that replaces it.
-/

namespace Vuma.Opt

open IR

/-! ## Renaming to fresh registers -/

/-- The map sends registers to distinct registers from `lo` on, below `hi`. -/
structure FreshMap (map : SubstMap) (lo hi : VReg) : Prop where
  range : ∀ r v, map r = some v → ∃ q, v = .register q ∧ lo ≤ q ∧ q < hi
  inj : ∀ r r' v, map r = some v → map r' = some v → r = r'

/-- Each register of `D` has its value in the register that replaces it. -/
def Holds (map : SubstMap) (D : List VReg) (κ τ : Regs) : Prop :=
  ∀ r ∈ D, ∃ q, map r = some (.register q) ∧ τ q = κ r

theorem FreshMap.empty (lo hi : VReg) : FreshMap (fun _ => none) lo hi :=
  ⟨fun _ _ h => by simp at h, fun _ _ _ h => by simp at h⟩

theorem FreshMap.mono {map : SubstMap} {lo hi hi' : VReg} (h : FreshMap map lo hi)
    (hle : hi ≤ hi') : FreshMap map lo hi' := by
  refine ⟨fun r v hr => ?_, h.inj⟩
  obtain ⟨q, hv, hlo, hhi⟩ := h.range r v hr
  exact ⟨q, hv, hlo, Nat.lt_of_lt_of_le hhi hle⟩

/-- A register may be sent to the next free one. -/
theorem FreshMap.update {map : SubstMap} {lo hi : VReg} (h : FreshMap map lo hi) (hle : lo ≤ hi)
    (id : VReg) : FreshMap (Function.update map id (some (.register hi))) lo (hi + 1) := by
  have hne : ∀ r, map r ≠ some (.register hi) := by
    intro r hr
    obtain ⟨q, hq, -, hlt⟩ := h.range r _ hr
    cases hq
    exact Nat.lt_irrefl _ hlt
  constructor
  · intro r v hr
    by_cases hid : r = id
    · rw [hid, Function.update_self] at hr
      exact ⟨hi, (Option.some.inj hr).symm, hle, Nat.lt_succ_self hi⟩
    · rw [Function.update_of_ne hid] at hr
      obtain ⟨q, hv, hlo, hhi⟩ := h.range r v hr
      exact ⟨q, hv, hlo, Nat.lt_succ_of_lt hhi⟩
  · intro r r' v hr hr'
    by_cases hid : r = id <;> by_cases hid' : r' = id
    · rw [hid, hid']
    · rw [hid, Function.update_self] at hr
      rw [Function.update_of_ne hid', ← hr] at hr'
      exact absurd hr' (hne r')
    · rw [hid', Function.update_self] at hr'
      rw [Function.update_of_ne hid, ← hr'] at hr
      exact absurd hr (hne r)
    · rw [Function.update_of_ne hid] at hr
      rw [Function.update_of_ne hid'] at hr'
      exact h.inj r r' v hr hr'

theorem Holds.mono {map map' : SubstMap} {D : List VReg} {κ τ : Regs} (h : Holds map D κ τ)
    (hle : ∀ r v, map r = some v → map' r = some v) : Holds map' D κ τ := by
  intro r hr
  obtain ⟨q, hq, hv⟩ := h r hr
  exact ⟨q, hle r _ hq, hv⟩

theorem Holds.eval {map : SubstMap} {D : List VReg} {κ τ : Regs} (h : Holds map D κ τ)
    (M : Machine) {v : IRValue} (hv : ∀ r ∈ v.regs, r ∈ D) :
    (substituteValue map v).eval M τ = v.eval M κ := by
  cases v with
  | register r =>
    obtain ⟨q, hq, hval⟩ := h r (hv r (by simp))
    simp only [substituteValue, hq, Option.getD_some]
    exact hval
  | _ => rfl

theorem Holds.write {map : SubstMap} {D : List VReg} {κ τ : Regs} {lo hi : VReg}
    (h : Holds map D κ τ) (hfresh : FreshMap map lo hi) {r : VReg} {v : IRValue}
    (hr : map r = some v) (x : Word) :
    Holds map (r :: D) (κ.write (.register r, x)) (τ.write (v, x)) := by
  obtain ⟨q, rfl, -, -⟩ := hfresh.range r v hr
  intro s hs
  by_cases hsr : s = r
  · subst hsr
    exact ⟨q, hr, by simp [Regs.write]⟩
  · obtain ⟨p, hp, hval⟩ := h s ((List.mem_cons.mp hs).resolve_left hsr)
    refine ⟨p, hp, ?_⟩
    have hpq : p ≠ q := by
      intro e
      exact hsr (hfresh.inj s r _ hp (e ▸ hr))
    rw [Regs.write_of_ne (fun e => hpq (IRValue.register.inj e).symm),
      Regs.write_of_ne (fun e => hsr (IRValue.register.inj e).symm), hval]

/-- The writes of an instruction and of its renamed copy. -/
theorem Holds.writes {map : SubstMap} {lo hi : VReg} (hfresh : FreshMap map lo hi)
    {ws : List (IRValue × Word)} (hws : ∀ p ∈ ws, ∀ r, p.1 = .register r → map r ≠ none)
    {D : List VReg} {κ τ : Regs} (h : Holds map D κ τ) :
    Holds map (D ++ ws.filterMap (fun p => p.1.asRegister)) (κ.writes ws)
      (τ.writes (ws.map fun p => (substituteValue map p.1, p.2))) := by
  induction ws generalizing D κ τ with
  | nil => simpa using h
  | cons p ws ih =>
    have htail := fun q hq => hws q (List.mem_cons_of_mem p hq)
    obtain ⟨d, x⟩ := p
    rw [List.map_cons, Regs.writes_cons, Regs.writes_cons]
    cases d with
    | register r =>
      obtain ⟨v, hv⟩ := Option.ne_none_iff_exists'.mp (hws _ List.mem_cons_self r rfl)
      have hsub : substituteValue map (.register r) = v := by simp [substituteValue, hv]
      have hih := ih htail (h.write hfresh hv x)
      have hcons : ((.register r, x) :: ws).filterMap (fun p => p.1.asRegister) =
          r :: ws.filterMap (fun p => p.1.asRegister) := rfl
      simp only [hcons, hsub]
      intro s hs
      refine hih s ?_
      simp only [List.cons_append, List.mem_cons, List.mem_append] at hs ⊢
      rwa [or_left_comm] at hs
    | _ => exact ih htail h

theorem FreshMap.writes_below {map : SubstMap} {lo hi : VReg} (hfresh : FreshMap map lo hi)
    {ws : List (IRValue × Word)} (hws : ∀ p ∈ ws, ∀ r, p.1 = .register r → map r ≠ none)
    {q : VReg} (hq : q < lo) (τ : Regs) :
    τ.writes (ws.map fun p => (substituteValue map p.1, p.2)) q = τ q := by
  refine Regs.writes_of_not_mem (fun p' hp' => ?_) τ
  obtain ⟨⟨d, x⟩, hp, rfl⟩ := List.mem_map.mp hp'
  cases d with
  | register r =>
    obtain ⟨v, hv⟩ := Option.ne_none_iff_exists'.mp (hws _ hp r rfl)
    obtain ⟨p, rfl, hlo, -⟩ := hfresh.range r v hv
    simp only [substituteValue, hv, Option.getD_some, ne_eq, IRValue.register.injEq]
    exact fun e => Nat.lt_irrefl _ (Nat.lt_of_lt_of_le (e ▸ hq) hlo)
  | _ => simp [substituteValue]

/-! ## The renaming of a splice -/

theorem mapDefs_spec (ds : List VReg) {map : SubstMap} {lo c : VReg} (hfresh : FreshMap map lo c)
    (hle : lo ≤ c) :
    FreshMap (mapDefs ds c map).1 lo (mapDefs ds c map).2 ∧ c ≤ (mapDefs ds c map).2 ∧
      (∀ r v, map r = some v → (mapDefs ds c map).1 r = some v) ∧
      ∀ d ∈ ds, (mapDefs ds c map).1 d ≠ none := by
  induction ds generalizing map c with
  | nil => exact ⟨hfresh, Nat.le_refl c, fun _ _ h => h, fun d hd => absurd hd List.not_mem_nil⟩
  | cons d ds ih =>
    cases hd : map d with
    | some v =>
      simp only [mapDefs, hd]
      obtain ⟨h₁, h₂, h₃, h₄⟩ := ih hfresh hle
      refine ⟨h₁, h₂, h₃, fun e he => ?_⟩
      rcases List.mem_cons.mp he with rfl | he
      · rw [h₃ _ v hd]
        exact Option.some_ne_none v
      · exact h₄ e he
    | none =>
      simp only [mapDefs, hd]
      obtain ⟨h₁, h₂, h₃, h₄⟩ := ih (hfresh.update hle d) (Nat.le_succ_of_le hle)
      refine ⟨h₁, Nat.le_of_succ_le h₂, fun r v hr => h₃ r v ?_, fun e he => ?_⟩
      · rwa [Function.update_of_ne (fun e => by rw [e, hd] at hr; cases hr)]
      · rcases List.mem_cons.mp he with rfl | he
        · rw [h₃ _ _ (Function.update_self ..)]
          exact Option.some_ne_none _
        · exact h₄ e he

theorem bindParams_fresh (ps : List (IRValue × IRValue)) {map : SubstMap} {lo c : VReg}
    (hfresh : FreshMap map lo c) (hle : lo ≤ c) :
    FreshMap (bindParams ps c map).1 lo (bindParams ps c map).2.1 ∧
      c ≤ (bindParams ps c map).2.1 := by
  induction ps generalizing map c with
  | nil => exact ⟨hfresh, Nat.le_refl c⟩
  | cons p ps ih =>
    obtain ⟨param, arg⟩ := p
    cases param with
    | register id =>
      obtain ⟨h₁, h₂⟩ := ih (hfresh.update hle id) (Nat.le_succ_of_le hle)
      exact ⟨h₁, Nat.le_of_succ_le h₂⟩
    | _ => exact ih hfresh hle

/-- The registers of the parameters that get an argument. -/
def boundParams (ps : List (IRValue × IRValue)) : List VReg :=
  ps.filterMap (fun p => p.1.asRegister)

theorem boundParams_register (id : VReg) (arg : IRValue) (ps : List (IRValue × IRValue)) :
    boundParams ((.register id, arg) :: ps) = id :: boundParams ps := rfl

/-- The copies of the arguments do to the fresh registers what the call does to the parameters. -/
theorem execInstrs_bindParams (M : Machine) (label : String) (pred : Option String) (edge : Regs)
    {lo : VReg} {σ : Regs} (w : World) (ps : List (IRValue × IRValue)) {map : SubstMap} {c : VReg}
    (hfresh : FreshMap map lo c) (hle : lo ≤ c)
    (hargs : ∀ p ∈ ps, ∀ r ∈ p.2.regs, r < lo) {D : List VReg} {κ τ : Regs}
    (h : Holds map D κ τ) (hσ : ∀ r, r < lo → τ r = σ r) :
    ∃ τ', execInstrs M label pred edge (bindParams ps c map).2.2 τ w = .stay τ' w ∧
      (∀ r, r < lo → τ' r = σ r) ∧
      Holds (bindParams ps c map).1 (D ++ boundParams ps)
        (κ.writes (ps.map fun p => (p.1, p.2.eval M σ))) τ' := by
  induction ps generalizing map c D κ τ with
  | nil => exact ⟨τ, rfl, hσ, by simpa [boundParams, bindParams] using h⟩
  | cons p ps ih =>
    have htail := fun q hq => hargs q (List.mem_cons_of_mem p hq)
    obtain ⟨param, arg⟩ := p
    cases param with
    | register id =>
      have harg : arg.eval M τ = arg.eval M σ :=
        IRValue.eval_congr M (fun r hr => hσ r (hargs _ List.mem_cons_self r hr))
      -- the older copies live below `c`
      have hold : Holds (Function.update map id (some (.register c))) (D ++ [id])
          (κ.write (.register id, arg.eval M σ)) (Function.update τ c (arg.eval M σ)) := by
        intro r hr
        by_cases hid : r = id
        · subst hid
          exact ⟨c, Function.update_self .., by simp [Regs.write]⟩
        · have hrD : r ∈ D := by simpa [hid] using hr
          obtain ⟨q, hq, hval⟩ := h r hrD
          obtain ⟨q', hq', -, hlt⟩ := hfresh.range r _ hq
          cases hq'
          refine ⟨q, by rw [Function.update_of_ne hid, hq], ?_⟩
          rw [Function.update_of_ne (Nat.ne_of_lt hlt),
            Regs.write_of_ne (fun e => hid (IRValue.register.inj e).symm), hval]
      have hσ' : ∀ r, r < lo → Function.update τ c (arg.eval M σ) r = σ r := by
        intro r hr
        rw [Function.update_of_ne (Nat.ne_of_lt (Nat.lt_of_lt_of_le hr hle)), hσ r hr]
      obtain ⟨τ', hexec, hbelow, hholds⟩ := ih (hfresh.update hle id) (Nat.le_succ_of_le hle) htail
        hold hσ'
      refine ⟨τ', ?_, hbelow, ?_⟩
      · simp only [bindParams]
        rw [execInstrs_cons, IRInstr.effect_copy, harg]
        exact hexec
      · simpa [boundParams, bindParams, IRValue.asRegister] using hholds
    | _ => exact ih hfresh hle htail h hσ

/-! ## The body -/

/-- The machine with another frame. -/
def withFrame (M : Machine) (frame : VReg → Nat → Word) : Machine := { M with slot := frame }

theorem eval_withFrame (M : Machine) (frame : VReg → Nat → Word) (κ : Regs) (v : IRValue) :
    v.eval (withFrame M frame) κ = v.eval M κ := by
  cases v <;> rfl

/-- Every instruction reads registers that are defined at that point, starting from `D`. -/
def readsDefined : List VReg → List IRInstr → Bool
  | _, [] => true
  | D, i :: is => i.usedRegs.all (D.contains ·) && readsDefined (D ++ i.definedRegs) is

theorem mem_usedRegs_of_substUses {i : IRInstr} {r : VReg} (h : r ∈ substUses i) :
    r ∈ i.usedRegs := by
  cases i with
  | channelSend ch msg ty => exact List.mem_append_right _ h
  | channelRecv _ _ _ | channelRecvTimeout _ _ _ _ | channelRecvResult _ _ _ _ | channelClose _ =>
    simp [substUses] at h
  | _ => exact h

/-- What the splice asks of an instruction of the callee. -/
structure BodyInstr (M : Machine) (frame : VReg → Nat → Word) (map : SubstMap) (i : IRInstr) :
    Prop where
  phi : i.isPhi = false
  control : i.isControl = false
  uses : keptUses i = []
  defs : keptDefs i = []
  mapped : ∀ r ∈ i.definedRegs, map r ≠ none
  slot : ∀ r size q, i = .alloc (.register r) size → map r = some (.register q) →
    M.slot q size = frame r size

section

variable {M : Machine} {frame : VReg → Nat → Word} {map : SubstMap} {lo hi : VReg}

theorem BodyInstr.effect {i : IRInstr} (hb : BodyInstr M frame map i) (hfresh : FreshMap map lo hi)
    {D : List VReg} {κ τ : Regs} (h : Holds map D κ τ) (hread : ∀ r ∈ i.usedRegs, r ∈ D)
    (edge edge' : Regs) (pred pred' : Option String) (w : World) :
    (substituteInstr map i).effect M (·.eval M τ) (·.eval M edge') pred' w =
      mapDst (substituteValue map) (i.effect (withFrame M frame) (·.eval (withFrame M frame) κ)
        (·.eval (withFrame M frame) edge) pred w) := by
  rw [IRInstr.effect_edge (withFrame M frame) _ _ (·.eval M edge') pred pred' w hb.phi]
  refine @effect_substituteInstr (withFrame M frame) M.slot map _ (·.eval M τ) _ _ pred' w i
    (fun _ v hv => ?_) (fun hphi => ?_) (fun r hr => ?_) (fun r hr => ?_) (fun r size hr => ?_)
  · rw [eval_withFrame]
    exact h.eval M (fun r hr => hread r (mem_usedRegs_of_substUses (hv r hr)))
  · rw [hb.phi] at hphi
    cases hphi
  · rw [hb.uses] at hr
    cases hr
  · rw [hb.defs] at hr
    cases hr
  · subst hr
    obtain ⟨v, hv⟩ := Option.ne_none_iff_exists'.mp (hb.mapped r (by simp [IRInstr.definedRegs]))
    obtain ⟨q, rfl, -, -⟩ := hfresh.range r v hv
    exact ⟨q, by simp [substituteValue, hv], hb.slot r size q rfl hv⟩

/-- The body of the callee and its renamed copy do the same. -/
theorem execInstrs_body (hfresh : FreshMap map lo hi)
    (hcalls : ∀ w func args vs w', M.call w func args ≠ .stopped (.returned vs) w')
    (label label' : String)
    (pred pred' : Option String) (edge edge' : Regs) {is : List IRInstr}
    (his : ∀ i ∈ is, BodyInstr M frame map i) {D : List VReg} {κ τ : Regs}
    (h : Holds map D κ τ) (hread : readsDefined D is = true) (w : World) :
    (∃ κ' τ' w', execInstrs (withFrame M frame) label pred edge is κ w = .stay κ' w' ∧
        execInstrs M label' pred' edge' (is.map (substituteInstr map)) τ w = .stay τ' w' ∧
        Holds map (D ++ is.flatMap IRInstr.definedRegs) κ' τ' ∧ ∀ r, r < lo → τ' r = τ r) ∨
      ∃ o w', execInstrs (withFrame M frame) label pred edge is κ w = .leave (.done o w') ∧
        execInstrs M label' pred' edge' (is.map (substituteInstr map)) τ w = .leave (.done o w') ∧
        ∀ vs, o ≠ .returned vs := by
  induction is generalizing D κ τ w with
  | nil => exact Or.inl ⟨κ, τ, w, rfl, rfl, by simpa using h, fun _ _ => rfl⟩
  | cons i is ih =>
    have hi := his i List.mem_cons_self
    simp only [readsDefined, Bool.and_eq_true, List.all_eq_true, List.contains_iff_mem] at hread
    rw [List.map_cons, execInstrs_cons, execInstrs_cons,
      hi.effect hfresh h hread.1 edge edge' pred pred' w]
    have hstraight := IRInstr.effect_straight (withFrame M frame)
      (·.eval (withFrame M frame) κ) (·.eval (withFrame M frame) edge) pred w hi.control
    cases he : i.effect (withFrame M frame) (·.eval (withFrame M frame) κ)
        (·.eval (withFrame M frame) edge) pred w with
    | next ws w₁ =>
      have hws : ∀ p ∈ ws, ∀ r, p.1 = .register r → map r ≠ none := by
        intro p hp r hr
        refine hi.mapped r ?_
        by_contra hd
        exact IRInstr.effect_writes_mem he hd p hp hr
      have hdefs : Holds map (D ++ i.definedRegs) (κ.writes ws)
          (τ.writes (ws.map fun p => (substituteValue map p.1, p.2))) := by
        intro r hr
        refine Holds.writes hfresh hws h r ?_
        rcases List.mem_append.mp hr with hr | hr
        · exact List.mem_append_left _ hr
        · obtain ⟨p, hp, hpr⟩ := IRInstr.exists_write_of_defined he hi.phi hr
          exact List.mem_append_right _ (List.mem_filterMap.mpr ⟨p, hp, by rw [hpr]; rfl⟩)
      rcases ih (fun j hj => his j (List.mem_cons_of_mem _ hj)) hdefs hread.2 w₁ with
        ⟨κ', τ', w', h₁, h₂, h₃, h₄⟩ | hleave
      · refine Or.inl ⟨κ', τ', w', h₁, h₂, ?_, fun r hr => ?_⟩
        · rwa [List.flatMap_cons, ← List.append_assoc]
        · rw [h₄ r hr, hfresh.writes_below hws hr]
      · exact Or.inr hleave
    | jump target w₁ =>
      have := IRInstr.isControl_of_jump he
      rw [hi.control] at this
      cases this
    | ret vs w₁ =>
      rcases hstraight with ⟨_, _, hs⟩ | ⟨_, _, hs, -⟩
      · rw [he] at hs; cases hs
      · rw [he] at hs; cases hs
    | stop o w₁ =>
      refine Or.inr ⟨o, w₁, rfl, rfl, fun vs ho => ?_⟩
      rcases hstraight with ⟨_, _, hs⟩ | ⟨_, _, hs, hne | ⟨func, args, hcall⟩⟩
      · rw [he] at hs; cases hs
      · rw [he] at hs
        cases hs
        exact hne vs ho
      · rw [he] at hs
        cases hs
        exact hcalls w func args vs w₁ (ho ▸ hcall)

end

/-! ## The callee -/

/-- What a finished run of a callee hands to its caller. -/
def callResult : Config → Option CallResult
  | .done (.returned vs) w => some (.returned vs w)
  | .done (.unwound v) w => some (.unwound v w)
  | .done o w => some (.stopped o w)
  | .enter .. => none

/-- The calls of the table's functions, but those in `excluded`, are executed: a call runs the
callee, in its frame, on its parameters, from some contents of its other registers. A call that
stops the run does not return. -/
structure RunsCalls (M : Machine) (funcs : String → Option IRFunction)
    (frame : String → VReg → Nat → Word) (excluded : List String) : Prop where
  call : ∀ name callee, funcs name = some callee → name ∉ excluded → ∀ w args,
    ∃ regs : Regs, ∀ n res,
      callResult (callee.run (withFrame M (frame name)) (regs.writes (callee.params.zip args)) w n) =
        some res → M.call w name args = res
  stopped : ∀ w name args vs w', M.call w name args ≠ .stopped (.returned vs) w'

namespace CallSite

variable (s : CallSite)

/-- The instructions of the callee without the control instructions. -/
def core : List IRInstr := s.body.instructions.filter (fun i => !i.isControl)

/-- The registers of the callee that the call gives a value. -/
def bound : List VReg := boundParams (s.callee.params.zip s.args)

/-- What the splice handles. The callee has no phis, leaves no register behind that
`substitute_instr` would not rename, reads only what it has defined, and is not called `cont`; it ends
in a `Return`, which a trailing `Ret` may repeat, or is marked unreachable at its end; and it returns
a value if the call wants one. -/
structure Safe : Prop where
  phi : ∀ i ∈ s.body.instructions, i.isPhi = false
  uses : ∀ i ∈ s.body.instructions, keptUses i = []
  defs : ∀ i ∈ s.body.instructions, keptDefs i = []
  reads : readsDefined s.bound s.core = true
  exitReads : ∀ r ∈ s.body.terminator.usedRegs, r ∈ s.bound ++ s.core.flatMap IRInstr.definedRegs
  exit : (s.body.instructions = s.core ∧ s.body.terminator = .unreachable) ∨
    ∃ values, s.body.terminator = .ret values ∧ (s.dst.isSome → values ≠ []) ∧
      (s.body.instructions = s.core ∨ s.body.instructions = s.core ++ [.ret values])
  label : s.body.label ≠ "cont"

end CallSite

theorem spliceRegs_fresh (s : CallSite) (c : VReg) :
    FreshMap (spliceRegs s c).map c (spliceRegs s c).counter ∧ c ≤ (spliceRegs s c).counter ∧
      (∀ r ∈ s.body.instructions.flatMap IRInstr.definedRegs, (spliceRegs s c).map r ≠ none) ∧
      (∀ r v, (bindParams (s.callee.params.zip s.args) c (fun _ => none)).1 r = some v →
        (spliceRegs s c).map r = some v) ∧
      ∀ rv, (spliceRegs s c).result = some rv →
        ∃ q, rv = .register q ∧ c ≤ q ∧ q < (spliceRegs s c).counter := by
  obtain ⟨hfresh, hle⟩ := bindParams_fresh (s.callee.params.zip s.args)
    (FreshMap.empty c c) (Nat.le_refl c)
  have hc₂ : (bindParams (s.callee.params.zip s.args) c (fun _ => none)).2.1 ≤
      if s.dst.isSome then (bindParams (s.callee.params.zip s.args) c (fun _ => none)).2.1 + 1
      else (bindParams (s.callee.params.zip s.args) c (fun _ => none)).2.1 := by
    split
    · exact Nat.le_succ _
    · exact Nat.le_refl _
  obtain ⟨h₁, h₂, h₃, h₄⟩ := mapDefs_spec (s.body.instructions.flatMap IRInstr.definedRegs)
    (hfresh.mono hc₂) (Nat.le_trans hle hc₂)
  refine ⟨h₁, Nat.le_trans hle (Nat.le_trans hc₂ h₂), h₄, h₃, ?_⟩
  intro rv hrv
  simp only [spliceRegs, Option.map_eq_some_iff] at hrv
  obtain ⟨d, hd, rfl⟩ := hrv
  refine ⟨_, rfl, hle, Nat.lt_of_lt_of_le ?_ h₂⟩
  rw [if_pos (by rw [hd]; rfl)]
  exact Nat.lt_succ_self _

/-! ## The registers a splice gives out -/

theorem bindParams_eq_none (ps : List (IRValue × IRValue)) {c : VReg} {map : SubstMap} {r : VReg} :
    (bindParams ps c map).1 r = none ↔ map r = none ∧ r ∉ boundParams ps := by
  induction ps generalizing c map with
  | nil => simp [boundParams, bindParams]
  | cons p ps ih =>
    obtain ⟨param, arg⟩ := p
    cases param with
    | register id =>
      refine ih.trans ?_
      rw [boundParams_register, List.mem_cons, not_or]
      by_cases hid : r = id <;> simp [hid]
    | _ => exact ih

theorem bindParams_counter (ps : List (IRValue × IRValue)) {c : VReg} {map : SubstMap} :
    (bindParams ps c map).2.1 = c + (boundParams ps).length := by
  induction ps generalizing c map with
  | nil => rfl
  | cons p ps ih =>
    obtain ⟨param, arg⟩ := p
    cases param with
    | register id =>
      refine ih.trans ?_
      rw [boundParams_register, List.length_cons, Nat.add_right_comm, Nat.add_assoc]
    | _ => exact ih

/-- Each register that has no replacement yet gets one, once. -/
theorem mapDefs_counter (ds : List VReg) {c : VReg} {map : SubstMap} :
    (mapDefs ds c map).2 = c + (ds.toFinset.filter fun d => map d = none).card := by
  induction ds generalizing c map with
  | nil => rfl
  | cons d ds ih =>
    cases hd : map d with
    | some v =>
      simp only [mapDefs, hd]
      rw [ih, List.toFinset_cons, Finset.filter_insert, if_neg (by simp [hd])]
    | none =>
      simp only [mapDefs, hd]
      have hinsert : ((d :: ds).toFinset.filter fun e => map e = none) =
          insert d (ds.toFinset.filter fun e =>
            Function.update map d (some (.register c)) e = none) := by
        ext e
        by_cases he : e = d <;> simp [he, hd]
      rw [ih, hinsert, Finset.card_insert_of_notMem (by simp), Nat.add_right_comm, Nat.add_assoc]

/-- The number of registers a splice gives out: one for each parameter with an argument, one for the
result, and one for each other register the callee defines. -/
def CallSite.fresh (s : CallSite) : Nat :=
  s.bound.length + (if s.dst.isSome then 1 else 0) +
    ((s.body.instructions.flatMap IRInstr.definedRegs).toFinset \ s.bound.toFinset).card

theorem spliceRegs_counter (s : CallSite) (c : VReg) :
    (spliceRegs s c).counter = c + s.fresh := by
  let bound := bindParams (s.callee.params.zip s.args) c (fun _ => none)
  let defs := s.body.instructions.flatMap IRInstr.definedRegs
  have hset : (defs.toFinset.filter fun d => bound.1 d = none) =
      defs.toFinset \ s.bound.toFinset := by
    ext d
    simp [bound, bindParams_eq_none, CallSite.bound]
  have hparams : bound.2.1 = c + s.bound.length := bindParams_counter _
  have hcounter : (spliceRegs s c).counter =
      (mapDefs defs (if s.dst.isSome then bound.2.1 + 1 else bound.2.1) bound.1).2 := rfl
  rw [hcounter, mapDefs_counter, hset, hparams, CallSite.fresh, ← Nat.add_assoc]
  cases s.dst.isSome with
  | true => rfl
  | false => rfl

/-! ## The inlined block -/

theorem CallSite.mem_core {s : CallSite} {i : IRInstr} (h : i ∈ s.core) :
    i ∈ s.body.instructions ∧ i.isControl = false := by
  simpa [CallSite.core] using h

/-- The callee's copy, by the way it ends. -/
theorem inlinedBlock_eq {s : CallSite} (hsafe : s.Safe) (R : SpliceRegs) (labelPrefix : String) :
    (s.body.terminator = .unreachable → inlinedBlock s R labelPrefix =
      { label := labelPrefix ++ "_" ++ s.body.label
        instructions := R.paramCopies ++ s.core.map (substituteInstr R.map)
        terminator := .unreachable }) ∧
    ∀ values, s.body.terminator = .ret values → inlinedBlock s R labelPrefix =
      { label := labelPrefix ++ "_" ++ s.body.label
        instructions := R.paramCopies ++ s.core.map (substituteInstr R.map) ++
          (match R.result, values with
            | some rv, v :: _ => [.add rv (substituteValue R.map v) (.immediate 0) none]
            | _, _ => [])
        terminator := .jump (labelPrefix ++ "_cont") } := by
  have hcore : (s.body.instructions.filter (fun i => !i.isControl)).map
      (fun i => prefixPhi labelPrefix (substituteInstr R.map i)) =
        s.core.map (substituteInstr R.map) := by
    refine List.map_congr_left fun i hi => ?_
    have hphi := hsafe.phi i (CallSite.mem_core hi).1
    cases i with
    | phi dst incoming => simp [IRInstr.isPhi] at hphi
    | _ => rfl
  refine ⟨fun ht => ?_, fun values ht => ?_⟩
  · simp only [inlinedBlock, ht, hcore]
  · simp only [inlinedBlock, ht]
    exact congrArg (fun l : List IRInstr => (⟨_, R.paramCopies ++ l ++ _, _, _, _⟩ : IRBlock)) hcore

/-- The way the callee's run ends follows from the way its instructions do. -/
theorem CallSite.Safe.exec_body {s : CallSite} (hsafe : s.Safe) (M : Machine) (κ : Regs) (w : World) :
    (∀ o w', execInstrs M s.body.label none κ s.core κ w = .leave (.done o w') →
      s.body.exec M none κ w = .done o w') ∧
    ∀ κ' w', execInstrs M s.body.label none κ s.core κ w = .stay κ' w' →
      (s.body.terminator = .unreachable → s.body.exec M none κ w = .done .unreachable w') ∧
      ∀ values, s.body.terminator = .ret values →
        s.body.exec M none κ w = .done (.returned (values.map (·.eval M κ'))) w' := by
  rcases hsafe.exit with ⟨hinstrs, ht⟩ | ⟨values, ht, -, hinstrs | hinstrs⟩
  · refine ⟨fun o w' h => ?_, fun κ' w' h => ⟨fun _ => ?_, fun values hv => ?_⟩⟩
    · rw [IRBlock.exec, hinstrs, h]
      rfl
    · rw [IRBlock.exec, hinstrs, h, ht]
      rfl
    · rw [ht] at hv
      cases hv
  · refine ⟨fun o w' h => ?_, fun κ' w' h => ⟨fun hv => ?_, fun values' hv => ?_⟩⟩
    · rw [IRBlock.exec, hinstrs, h]
      rfl
    · rw [ht] at hv
      cases hv
    · rw [IRBlock.exec, hinstrs, h, hv]
      rfl
  · refine ⟨fun o w' h => ?_, fun κ' w' h => ⟨fun hv => ?_, fun values' hv => ?_⟩⟩
    · rw [IRBlock.exec, hinstrs, execInstrs_append, h]
      rfl
    · rw [ht] at hv
      cases hv
    · rw [ht] at hv
      cases hv
      rw [IRBlock.exec, hinstrs, execInstrs_append, h]
      rfl

theorem inlinedBlock_exec {M : Machine} {s : CallSite} {c : VReg} {frame : VReg → Nat → Word}
    (hsafe : s.Safe) (hcalls : ∀ w func args vs w', M.call w func args ≠ .stopped (.returned vs) w')
    (hslot : ∀ r size q, .alloc (.register r) size ∈ s.body.instructions →
      (spliceRegs s c).map r = some (.register q) → M.slot q size = frame r size)
    (hargs : ∀ v ∈ s.args, ∀ r ∈ v.regs, r < c) {σ τ : Regs} (hστ : ∀ r, r < c → τ r = σ r)
    (labelPrefix : String) (pred : Option String) (w : World) (regs : Regs) :
    (∃ vs w' τ', s.body.exec (withFrame M frame) none
        (regs.writes (s.callee.params.zip (s.args.map (·.eval M σ)))) w = .done (.returned vs) w' ∧
      (inlinedBlock s (spliceRegs s c) labelPrefix).exec M pred τ w =
        .enter (labelPrefix ++ "_cont") (some (labelPrefix ++ "_" ++ s.body.label)) τ' w' ∧
      (∀ r, r < c → τ' r = σ r) ∧
      ∀ q, (spliceRegs s c).result = some (.register q) → τ' q = vs.headD 0) ∨
    ∃ o w', (∀ vs, o ≠ .returned vs) ∧ s.body.exec (withFrame M frame) none
        (regs.writes (s.callee.params.zip (s.args.map (·.eval M σ)))) w = .done o w' ∧
      (inlinedBlock s (spliceRegs s c) labelPrefix).exec M pred τ w = .done o w' := by
  obtain ⟨hfresh, hle, hdefs, hext, hresult⟩ := spliceRegs_fresh s c
  obtain ⟨hret, hunr⟩ := (inlinedBlock_eq hsafe (spliceRegs s c) labelPrefix).symm
  -- the arguments
  have hpairs : (s.callee.params.zip s.args).map (fun p => (p.1, p.2.eval M σ)) =
      s.callee.params.zip (s.args.map (·.eval M σ)) := by
    rw [List.zip_map_right]
    rfl
  obtain ⟨τ₁, hcopies, hbelow, hholds⟩ := execInstrs_bindParams M
    (labelPrefix ++ "_" ++ s.body.label) pred τ w (s.callee.params.zip s.args)
    (FreshMap.empty c c) (Nat.le_refl c)
    (fun p hp r hr => hargs p.2 (List.of_mem_zip hp).2 r hr)
    (D := []) (κ := regs) (fun r hr => absurd hr List.not_mem_nil) hστ
  rw [hpairs, List.nil_append] at hholds
  -- the body
  have hbody : ∀ i ∈ s.core, BodyInstr M frame (spliceRegs s c).map i := by
    intro i hi
    obtain ⟨him, hictl⟩ := CallSite.mem_core hi
    exact ⟨hsafe.phi i him, hictl, hsafe.uses i him, hsafe.defs i him,
      fun r hr => hdefs r (List.mem_flatMap.mpr ⟨i, him, hr⟩),
      fun r size q e hq => hslot r size q (e ▸ him) hq⟩
  generalize hκ : regs.writes (s.callee.params.zip (s.args.map (·.eval M σ))) = κ at hholds ⊢
  obtain ⟨hleave, hstay⟩ := hsafe.exec_body (withFrame M frame) κ w
  rcases execInstrs_body hfresh hcalls s.body.label (labelPrefix ++ "_" ++ s.body.label) none pred
    κ τ hbody (hholds.mono hext) hsafe.reads w with
    ⟨κ', τ', w', hc, hi, hholds', hbelow'⟩ | ⟨o, w', hc, hi, hne⟩
  · obtain ⟨hstayU, hstayR⟩ := hstay κ' w' hc
    have hfront : execInstrs M (labelPrefix ++ "_" ++ s.body.label) pred τ
        ((spliceRegs s c).paramCopies ++ s.core.map (substituteInstr (spliceRegs s c).map)) τ w =
        .stay τ' w' := by
      rw [execInstrs_append]
      exact (congrArg (Flow.andThen _) hcopies).trans hi
    rcases hsafe.exit with ⟨-, ht⟩ | ⟨values, ht, hdst, -⟩
    · refine Or.inr ⟨.unreachable, w', by simp, hstayU ht, ?_⟩
      rw [hunr ht, IRBlock.exec, hfront]
      rfl
    · refine Or.inl ⟨values.map (·.eval M κ'), w', ?_⟩
      have hvals : values.map (·.eval (withFrame M frame) κ') = values.map (·.eval M κ') :=
        List.map_congr_left fun v _ => eval_withFrame M frame κ' v
      rw [hstayR values ht, hvals, hret values ht]
      cases hres : (spliceRegs s c).result with
      | none =>
        refine ⟨τ', rfl, ?_, fun r hr => by rw [hbelow' r hr, hbelow r hr], fun q hq => by cases hq⟩
        rw [IRBlock.exec]
        simp only [List.append_nil, hfront]
        rfl
      | some rv =>
        obtain ⟨q, rfl, hcq, -⟩ := hresult rv hres
        have hsome : s.dst.isSome := by
          simp only [spliceRegs, Option.map_eq_some_iff] at hres
          obtain ⟨d, hd, -⟩ := hres
          rw [hd]
          rfl
        cases values with
        | nil => exact absurd rfl (hdst hsome)
        | cons v vs =>
          have hv : (substituteValue (spliceRegs s c).map v).eval M τ' = v.eval M κ' := by
            refine hholds'.eval M (fun r hr => hsafe.exitReads r ?_)
            rw [ht]
            exact List.mem_filterMap.mpr
              ⟨v, List.mem_cons_self, by rw [IRValue.mem_regs.mp hr]; rfl⟩
          refine ⟨Function.update τ' q (v.eval M κ'), rfl, ?_, fun r hr => ?_, ?_⟩
          · rw [IRBlock.exec]
            simp only [execInstrs_append M _ pred τ
              ((spliceRegs s c).paramCopies ++ s.core.map (substituteInstr (spliceRegs s c).map)),
              hfront, Flow.andThen, execInstrs_cons, IRInstr.effect_copy, hv]
            rfl
          · rw [Function.update_of_ne (Nat.ne_of_lt (Nat.lt_of_lt_of_le hr hcq)), hbelow' r hr,
              hbelow r hr]
          · intro q' hq'
            cases hq'
            simp
  · refine Or.inr ⟨o, w', hne, hleave o w' hc, ?_⟩
    have hfront : ∀ js, execInstrs M (labelPrefix ++ "_" ++ s.body.label) pred τ
        ((spliceRegs s c).paramCopies ++ s.core.map (substituteInstr (spliceRegs s c).map) ++ js)
          τ w =
        .leave (.done o w') := by
      intro js
      rw [execInstrs_append, execInstrs_append]
      exact congrArg (Flow.andThen _) ((congrArg (Flow.andThen _) hcopies).trans hi)
    rcases hsafe.exit with ⟨-, ht⟩ | ⟨values, ht, -, -⟩
    · rw [hunr ht, IRBlock.exec]
      have := hfront []
      rw [List.append_nil] at this
      simp only [this]
      rfl
    · rw [hret values ht, IRBlock.exec]
      simp only [hfront]
      rfl

/-! ## The split block -/

/-- The runs before and after the splice: at the same block, with the same world and the same
registers below `c`; the block may have been entered from the continuation instead of the split
block `L`. -/
def SpliceRel (c : VReg) (L Li Lc : String) : Config → Config → Prop
  | .enter l p σ w, d => l ≠ Li ∧ l ≠ Lc ∧ ∃ p' τ, d = .enter l p' τ w ∧
      (p' = p ∨ (p = some L ∧ p' = some Lc)) ∧ ∀ r, r < c → τ r = σ r
  | .done o w, d => d = .done o w

theorem SpliceRel.obs {c : VReg} {L Li Lc : String} {x y : Config} (h : SpliceRel c L Li Lc x y) :
    y.obs = x.obs := by
  cases x with
  | enter l p σ w =>
    obtain ⟨-, -, p', τ, rfl, -, -⟩ := h
    rfl
  | done o w =>
    rw [show y = .done o w from h]

/-- Configurations that agree are related, whether the block is entered as before or from the
continuation. -/
theorem SpliceRel.of_agree {c : VReg} {L Li Lc : String} {x y : Config}
    (h : y.AgreeOn (· < c) x) (hx : ∀ l p σ w, x = .enter l p σ w → l ≠ Li ∧ l ≠ Lc) :
    SpliceRel c L Li Lc x y ∧
      ((∀ l p σ w, x = .enter l p σ w → p = some L) →
        SpliceRel c L Li Lc x (y.setPred (some Lc))) := by
  cases x with
  | enter l p σ w =>
    cases y with
    | enter l' p' τ w' =>
      obtain ⟨rfl, rfl, rfl, hreg⟩ := h
      obtain ⟨hLi, hLc⟩ := hx _ _ _ _ rfl
      exact ⟨⟨hLi, hLc, p', τ, rfl, Or.inl rfl, hreg⟩,
        fun hp => ⟨hLi, hLc, some Lc, τ, rfl, Or.inr ⟨hp _ _ _ _ rfl, rfl⟩, hreg⟩⟩
    | done o w' => exact h.elim
  | done o w =>
    cases y with
    | enter l' p' τ w' => exact h.elim
    | done o' w' =>
      obtain ⟨rfl, rfl⟩ := h
      exact ⟨rfl, fun _ => rfl⟩

theorem append_label_inj {p x y : String} (h : p ++ "_" ++ x = p ++ "_" ++ y) : x = y := by
  have h' := congrArg String.toList h
  simp only [String.toList_append] at h'
  exact String.toList_inj.mp (List.append_cancel_left h')

section

variable {f f' : IRFunction} {ds rest : List IRBlock} {b : IRBlock} {before after : List IRInstr}
  {s : CallSite} {c : VReg} {P : String}

theorem blockAt_splice (hf : f.blocks = ds ++ b :: rest)
    (hf' : f'.blocks = ds ++ beforeBlock s P b before :: inlinedBlock s (spliceRegs s c) P ::
      contBlock s (spliceRegs s c) P b after :: rest)
    (hnd : (f.blocks.map (·.label)).Nodup)
    (hnew : ∀ b₀ ∈ f.blocks, P ++ "_" ++ s.body.label ≠ b₀.label ∧ P ++ "_cont" ≠ b₀.label)
    (hlabel : (inlinedBlock s (spliceRegs s c) P).label = P ++ "_" ++ s.body.label)
    (hne : s.body.label ≠ "cont") :
    f.blockAt b.label = some b ∧ f'.blockAt b.label = some (beforeBlock s P b before) ∧
      f'.blockAt (P ++ "_" ++ s.body.label) = some (inlinedBlock s (spliceRegs s c) P) ∧
      f'.blockAt (P ++ "_cont") = some (contBlock s (spliceRegs s c) P b after) ∧
      ∀ l, l ≠ b.label → l ≠ P ++ "_" ++ s.body.label → l ≠ P ++ "_cont" →
        f'.blockAt l = f.blockAt l := by
  have hmem : ∀ b₀ ∈ ds, b₀ ∈ f.blocks := fun b₀ h => by simp [hf, h]
  have hbm : b ∈ f.blocks := by simp [hf]
  have hds : ∀ b₀ ∈ ds, b₀.label ≠ b.label := by
    rw [hf, List.map_append, List.map_cons, List.nodup_append] at hnd
    exact fun b₀ h => hnd.2.2 _ (List.mem_map_of_mem h) _ List.mem_cons_self
  -- a label that no block of `ds` carries is looked up behind `ds`
  have hskip : ∀ (l : String) (bs : List IRBlock), (∀ b₀ ∈ ds, b₀.label ≠ l) →
      (ds ++ bs).find? (fun b₀ => b₀.label == l) = bs.find? (fun b₀ => b₀.label == l) := by
    intro l bs h
    rw [List.find?_append, List.find?_eq_none.mpr (fun b₀ hb₀ => by simpa using h b₀ hb₀),
      Option.none_or]
  have hLiLc : P ++ "_" ++ s.body.label ≠ P ++ "_cont" :=
    fun e => hne (append_label_inj (e.trans (by rw [String.append_assoc]; rfl)))
  have hbefore : (beforeBlock s P b before).label = b.label := rfl
  have hcont : (contBlock s (spliceRegs s c) P b after).label = P ++ "_cont" := rfl
  refine ⟨?_, ?_, ?_, ?_, fun l hl hLi hLc => ?_⟩
  · rw [IRFunction.blockAt, hf, hskip _ _ hds, List.find?_cons_of_pos (by simp)]
  · rw [IRFunction.blockAt, hf', hskip _ _ hds, List.find?_cons_of_pos (by simp [hbefore])]
  · rw [IRFunction.blockAt, hf', hskip _ _ (fun b₀ h => ((hnew b₀ (hmem b₀ h)).1).symm),
      List.find?_cons_of_neg (by simpa [hbefore] using (hnew b hbm).1.symm),
      List.find?_cons_of_pos (by simp [hlabel])]
  · rw [IRFunction.blockAt, hf', hskip _ _ (fun b₀ h => ((hnew b₀ (hmem b₀ h)).2).symm),
      List.find?_cons_of_neg (by simpa [hbefore] using (hnew b hbm).2.symm),
      List.find?_cons_of_neg (by simpa [hlabel] using hLiLc),
      List.find?_cons_of_pos (by simp [hcont])]
  · rw [IRFunction.blockAt, IRFunction.blockAt, hf, hf', List.find?_append, List.find?_append,
      List.find?_cons_of_neg (by simpa [hbefore] using hl.symm),
      List.find?_cons_of_neg (by simpa [hlabel] using hLi.symm),
      List.find?_cons_of_neg (by simpa [hcont] using hLc.symm),
      List.find?_cons_of_neg (by simpa using hl.symm)]

end

theorem inlinedBlock_label (s : CallSite) (R : SpliceRegs) (P : String) :
    (inlinedBlock s R P).label = P ++ "_" ++ s.body.label := by
  unfold inlinedBlock
  cases s.body.terminator <;> rfl

theorem run_single {g : IRFunction} {body : IRBlock} (h : g.blocks = [body]) (M : Machine)
    (regs : Regs) (w : World) : g.run M regs w 1 = body.exec M none regs w := by
  have hat : g.blockAt body.label = some body := by simp [IRFunction.blockAt, h]
  simp only [IRFunction.run, IRFunction.start, h, Function.iterate_one, IRFunction.step, hat]

theorem contBlock_exec {M : Machine} {s : CallSite} {c : VReg} (P : String) {b : IRBlock}
    {after : List IRInstr} (ext : Bool)
    (huse : ∀ i ∈ after, ∀ r ∈ i.usedRegs, r < c) (hterm : ∀ r ∈ b.terminator.usedRegs, r < c)
    (hphi : ∀ i ∈ after, i.isPhi = false) {σ : Regs} {w w' : World} {vs : List Word}
    (hcall : M.call w s.name (s.args.map (·.eval M σ)) = .returned vs w')
    {τ' : Regs} (hτ' : ∀ r, r < c → τ' r = σ r)
    (hresult : ∀ q, (spliceRegs s c).result = some (.register q) → τ' q = vs.headD 0)
    (pred pred' : Option String) (edge : Regs) :
    ∃ y : Config, (contBlock s (spliceRegs s c) P b after).exec M pred' τ' w' =
        y.setPred (some (P ++ "_cont")) ∧
      y.AgreeOn (· < c) ((execInstrs M b.label pred edge
        (.call s.dst s.name s.args ext :: after) σ w).finish
          (fun regs w => b.terminator.exec M b.label regs w)) := by
  -- the copy to the destination
  have hcopy : ∃ τ₁, (∀ js, execInstrs M (P ++ "_cont") pred' τ'
        ((contBlock s (spliceRegs s c) P b js).instructions) τ' w' =
          execInstrs M (P ++ "_cont") pred' τ' js τ₁ w') ∧
      ∀ r, r < c → τ₁ r = (σ.writes (s.dst.toList.map (·, vs.headD 0))) r := by
    cases hd : s.dst with
    | none => exact ⟨τ', fun js => by simp [contBlock, hd], by simpa using hτ'⟩
    | some dst =>
      have hres : (spliceRegs s c).result = some (.register
          (bindParams (s.callee.params.zip s.args) c (fun _ => none)).2.1) := by
        simp [spliceRegs, hd]
      refine ⟨τ'.writes [(dst, vs.headD 0)], fun js => ?_, ?_⟩
      · simp only [contBlock, hd, hres, List.cons_append, List.nil_append, execInstrs_cons,
          IRInstr.effect_copy, Effect.flow, Flow.andThen]
        rw [show (IRValue.register _).eval M τ' = vs.headD 0 from hresult _ hres]
      · exact Regs.writes_agree _ hτ'
  obtain ⟨τ₁, hexec, hτ₁⟩ := hcopy
  refine ⟨(execInstrs M b.label pred edge after τ₁ w').finish
    (fun regs w => b.terminator.exec M b.label regs w), ?_, ?_⟩
  · rw [IRBlock.exec]
    have hlabel : (contBlock s (spliceRegs s c) P b after).label = P ++ "_cont" := rfl
    have hnophi : execInstrs M b.label pred' τ' after τ₁ w' =
        execInstrs M b.label pred edge after τ₁ w' :=
      execInstrs_noPhi M b.label pred' pred τ' edge hphi τ₁ w'
    rw [hlabel, hexec after, execInstrs_label M b.label, hnophi]
    cases execInstrs M b.label pred edge after τ₁ w' with
    | stay σ' w₂ => exact IRTerminator.exec_label M b.label _ b.terminator σ' w₂
    | leave y => rfl
  · rw [execInstrs_cons]
    simp only [IRInstr.effect, hcall, CallResult.effect, Effect.flow, Flow.andThen]
    refine Flow.finish_agree
      (execInstrs_agree M b.label pred huse (fun _ _ => rfl) w' hτ₁) ?_
    exact fun σ τ w h => IRTerminator.exec_agree M b.label w b.terminator h hterm

/-- A splice: the block `b` of `f` is split at the call, and `f'` has the three blocks instead. -/
structure IsSplice (f f' : IRFunction) (b : IRBlock) (before after : List IRInstr) (s : CallSite)
    (c : VReg) (P : String) : Prop where
  blocks : ∃ ds rest, f.blocks = ds ++ b :: rest ∧
    f'.blocks = ds ++ beforeBlock s P b before :: inlinedBlock s (spliceRegs s c) P ::
      contBlock s (spliceRegs s c) P b after :: rest
  call : ∃ ext, b.instructions = before ++ .call s.dst s.name s.args ext :: after
  body : s.callee.blocks = [s.body]
  nodup : (f.blocks.map (·.label)).Nodup
  uses : ∀ b₀ ∈ f.blocks, b₀.UsesBelow c
  fresh : ∀ b₀ ∈ f.blocks, P ++ "_" ++ s.body.label ∉ b₀.labels ∧ P ++ "_cont" ∉ b₀.labels
  phi : ∀ i ∈ after, i.isPhi = false
  named : ∀ b₀ ∈ f.blocks, ∀ i ∈ b₀.instructions, b.label ∉ i.phiLabels
  safe : s.Safe

namespace IsSplice

variable {M : Machine} {f f' : IRFunction} {b : IRBlock} {before after : List IRInstr}
  {s : CallSite} {c : VReg} {P : String} (h : IsSplice f f' b before after s c P)
include h

theorem mem : b ∈ f.blocks := by
  obtain ⟨ds, rest, hf, -⟩ := h.blocks
  simp [hf]

/-- No phi tells the split block from the continuation. -/
theorem exec_pred {b₀ : IRBlock} (hb₀ : b₀ ∈ f.blocks) {is : List IRInstr}
    (his : ∀ i ∈ is, i ∈ b₀.instructions) {p p' : Option String}
    (hp : p' = p ∨ (p = some b.label ∧ p' = some (P ++ "_cont"))) (label : String)
    (edge σ : Regs) (w : World) :
    execInstrs M label p' edge is σ w = execInstrs M label p edge is σ w := by
  rcases hp with rfl | ⟨rfl, rfl⟩
  · rfl
  · refine execInstrs_pred M label edge (fun dst incoming hm => ?_) σ w
    have hcont : P ++ "_cont" ∉ incoming.map Prod.snd := by
      intro hm'
      refine (h.fresh b₀ hb₀).2 (List.mem_cons_of_mem _ (List.mem_append_right _ ?_))
      exact List.mem_flatMap.mpr ⟨_, his _ hm, hm'⟩
    rw [find?_phi_eq_none hcont, find?_phi_eq_none (h.named b₀ hb₀ _ (his _ hm))]

theorem exec_label {b₀ : IRBlock} (hb₀ : b₀ ∈ f.blocks) {p p' : Option String} {σ τ : Regs}
    {w w' : World} {l : String} (he : b₀.exec M p σ w = .enter l p' τ w') :
    (l ≠ P ++ "_" ++ s.body.label ∧ l ≠ P ++ "_cont") ∧ p' = some b₀.label := by
  obtain ⟨hl, hp⟩ := IRBlock.exec_enter he
  have hmem : l ∈ b₀.labels := List.mem_cons_of_mem _ (List.mem_append_left _ hl)
  exact ⟨⟨fun e => (h.fresh b₀ hb₀).1 (e ▸ hmem), fun e => (h.fresh b₀ hb₀).2 (e ▸ hmem)⟩, hp⟩

theorem blockAt : f.blockAt b.label = some b ∧
    f'.blockAt b.label = some (beforeBlock s P b before) ∧
    f'.blockAt (P ++ "_" ++ s.body.label) = some (inlinedBlock s (spliceRegs s c) P) ∧
    f'.blockAt (P ++ "_cont") = some (contBlock s (spliceRegs s c) P b after) ∧
    ∀ l, l ≠ b.label → l ≠ P ++ "_" ++ s.body.label → l ≠ P ++ "_cont" →
      f'.blockAt l = f.blockAt l := by
  obtain ⟨ds, rest, hf, hf'⟩ := h.blocks
  refine blockAt_splice hf hf' h.nodup (fun b₀ hb₀ => ?_) (inlinedBlock_label s _ P) h.safe.label
  exact ⟨fun e => (h.fresh b₀ hb₀).1 (e ▸ List.mem_cons_self),
    fun e => (h.fresh b₀ hb₀).2 (e ▸ List.mem_cons_self)⟩

section Refines

variable (frame : VReg → Nat → Word)
  (hcalls : ∀ w func args vs w', M.call w func args ≠ .stopped (.returned vs) w')
  (hcall : ∀ w args, ∃ regs : Regs, ∀ n res, callResult (s.callee.run (withFrame M frame)
    (regs.writes (s.callee.params.zip args)) w n) = some res → M.call w s.name args = res)
  (hslot : ∀ r size q, .alloc (.register r) size ∈ s.body.instructions →
    (spliceRegs s c).map r = some (.register q) → M.slot q size = frame r size)
include hcalls hcall hslot

theorem exec_split {p p' : Option String}
    (hp : p' = p ∨ (p = some b.label ∧ p' = some (P ++ "_cont")))
    {σ τ : Regs} (hστ : ∀ r, r < c → τ r = σ r) (w : World) :
    ∃ k, SpliceRel c b.label (P ++ "_" ++ s.body.label) (P ++ "_cont") (b.exec M p σ w)
      ((f'.step M)^[k] ((beforeBlock s P b before).exec M p' τ w)) := by
  obtain ⟨-, -, hLi, hLc, -⟩ := h.blockAt
  obtain ⟨ext, hb⟩ := h.call
  have huse := h.uses b h.mem
  have hexit := fun l q σ' w' (he : b.exec M p σ w = .enter l q σ' w') => h.exec_label h.mem he
  have hfirst : (execInstrs M b.label p' τ before τ w).AgreeOn (· < c)
      (execInstrs M b.label p σ before σ w) := by
    rw [h.exec_pred h.mem (fun i hi => by simp [hb, hi]) hp]
    exact execInstrs_agree M b.label p
      (fun i hi => huse.1 i (by simp [hb, hi])) hστ w hστ
  have hbexec : b.exec M p σ w = ((execInstrs M b.label p σ before σ w).andThen
      (execInstrs M b.label p σ (.call s.dst s.name s.args ext :: after))).finish
        (fun regs w => b.terminator.exec M b.label regs w) := by
    rw [IRBlock.exec, hb, execInstrs_append]
  have hbefore : (beforeBlock s P b before).exec M p' τ w =
      (execInstrs M b.label p' τ before τ w).finish
        (fun regs w => .enter (P ++ "_" ++ s.body.label) (some b.label) regs w) := rfl
  cases hF : execInstrs M b.label p σ before σ w with
  | leave x =>
    cases hF' : execInstrs M b.label p' τ before τ w with
    | stay τ₁ w₁ =>
      rw [hF, hF'] at hfirst
      exact hfirst.elim
    | leave y =>
      rw [hF, hF'] at hfirst
      rw [hF] at hbexec
      refine ⟨0, ?_⟩
      rw [Function.iterate_zero_apply, hbefore, hF', hbexec]
      exact (SpliceRel.of_agree hfirst
        (fun l q σ' w' he => (hexit l q σ' w' (hbexec.trans he)).1)).1
  | stay σ₁ w₁ =>
    cases hF' : execInstrs M b.label p' τ before τ w with
    | leave y =>
      rw [hF, hF'] at hfirst
      exact hfirst.elim
    | stay τ₁ w₁' =>
      rw [hF, hF'] at hfirst
      obtain ⟨rfl, hτ₁⟩ := hfirst
      rw [hF] at hbexec
      -- the callee
      have hargs : ∀ v ∈ s.args, ∀ r ∈ v.regs, r < c := by
        intro v hv r hr
        refine huse.1 (.call s.dst s.name s.args ext) (by simp [hb]) r ?_
        exact List.mem_filterMap.mpr ⟨v, hv, by rw [IRValue.mem_regs.mp hr]; rfl⟩
      obtain ⟨regs, hcall⟩ := hcall w₁' (s.args.map (·.eval M σ₁))
      have hrun := run_single h.body (withFrame M frame)
        (regs.writes (s.callee.params.zip (s.args.map (·.eval M σ₁)))) w₁'
      have hinl : (f'.step M) ((beforeBlock s P b before).exec M p' τ w) =
          (inlinedBlock s (spliceRegs s c) P).exec M (some b.label) τ₁ w₁' := by
        rw [hbefore, hF']
        simp only [Flow.finish, IRFunction.step, hLi]
      rcases inlinedBlock_exec h.safe hcalls hslot hargs hτ₁ P (some b.label) w₁' regs with
        ⟨vs, w₂, τ₂, hbody, hexec, hτ₂, hres⟩ | ⟨o, w₂, hne, hbody, hexec⟩
      · -- it returns, and the continuation goes on
        rw [hbody] at hrun
        have hret : M.call w₁' s.name (s.args.map (·.eval M σ₁)) = .returned vs w₂ :=
          hcall 1 _ (by rw [hrun]; rfl)
        obtain ⟨y, hcont, hagree⟩ := contBlock_exec P ext
          (fun i hi => huse.1 i (by simp [hb, hi])) huse.2 h.phi hret hτ₂ hres p
          (some (P ++ "_" ++ s.body.label)) σ
        have hbexec' : b.exec M p σ w = (execInstrs M b.label p σ
            (.call s.dst s.name s.args ext :: after) σ₁ w₁').finish
              (fun regs w => b.terminator.exec M b.label regs w) := hbexec
        rw [← hbexec'] at hagree
        refine ⟨2, ?_⟩
        rw [Function.iterate_succ_apply, hinl, hexec, Function.iterate_one]
        simp only [IRFunction.step, hLc, hcont]
        exact (SpliceRel.of_agree hagree (fun l q σ' w' he => (hexit l q σ' w' he).1)).2
          (fun l q σ' w' he => (hexit l q σ' w' he).2)
      · -- it ends the run
        rw [hbody] at hrun
        have hstop : ∀ dst, (M.call w₁' s.name (s.args.map (·.eval M σ₁))).effect dst =
            .stop o w₂ := by
          intro dst
          cases o with
          | returned vs => exact absurd rfl (hne vs)
          | unwound v => rw [hcall 1 (.unwound v w₂) (by rw [hrun]; rfl)]; rfl
          | _ => rw [hcall 1 (.stopped _ w₂) (by rw [hrun]; rfl)]; rfl
        refine ⟨1, ?_⟩
        rw [Function.iterate_one, hinl, hexec, hbexec]
        simp only [Flow.andThen, execInstrs_cons, IRInstr.effect, hstop]
        rfl

theorem refines : f.Refines M f' := by
  obtain ⟨hb, hb', -, -, hother⟩ := h.blockAt
  refine IRFunction.Refines.of_stutter
    (R := SpliceRel c b.label (P ++ "_" ++ s.body.label) (P ++ "_cont"))
    (fun x y hR => hR.obs) (fun regs w => ?_) (fun x y hR => ?_)
  · -- the first block keeps its label
    obtain ⟨ds, rest, hf, hf'⟩ := h.blocks
    have hlabels : ∀ b₀ ∈ f.blocks, b₀.label ≠ P ++ "_" ++ s.body.label ∧ b₀.label ≠ P ++ "_cont" :=
      fun b₀ hb₀ => ⟨fun e => (h.fresh b₀ hb₀).1 (e ▸ List.mem_cons_self),
        fun e => (h.fresh b₀ hb₀).2 (e ▸ List.mem_cons_self)⟩
    cases ds with
    | nil =>
      simp only [IRFunction.start, hf, hf', List.nil_append]
      obtain ⟨hLi, hLc⟩ := hlabels b h.mem
      exact ⟨hLi, hLc, none, regs, rfl, Or.inl rfl, fun _ _ => rfl⟩
    | cons b₀ ds =>
      simp only [IRFunction.start, hf, hf', List.cons_append]
      obtain ⟨hLi, hLc⟩ := hlabels b₀ (by simp [hf])
      exact ⟨hLi, hLc, none, regs, rfl, Or.inl rfl, fun _ _ => rfl⟩
  · cases x with
    | done o w =>
      rw [show y = .done o w from hR]
      exact ⟨0, rfl⟩
    | enter l p σ w =>
      obtain ⟨hLi, hLc, p', τ, rfl, hp, hστ⟩ := hR
      by_cases hl : l = b.label
      · subst hl
        obtain ⟨k, hk⟩ := h.exec_split frame hcalls hcall hslot hp hστ w
        refine ⟨k, ?_⟩
        rw [Function.iterate_succ_apply]
        simpa only [IRFunction.step, hb, hb'] using hk
      · refine ⟨0, ?_⟩
        rw [Function.iterate_one]
        simp only [IRFunction.step, hother l hl hLi hLc]
        cases hb₀ : f.blockAt l with
        | none => rfl
        | some b₀ =>
          have hm := List.mem_of_find?_eq_some hb₀
          have hpred : b₀.exec M p' τ w = b₀.exec M p τ w := by
            rw [IRBlock.exec, IRBlock.exec, h.exec_pred hm (fun i hi => hi) hp]
          simp only [hpred]
          have hagree := IRBlock.exec_agree M p (h.uses b₀ hm).1 (h.uses b₀ hm).2 w hστ
          exact (SpliceRel.of_agree hagree (fun l' q σ' w' he => (h.exec_label hm he).1)).1

end Refines

end IsSplice

end Vuma.Opt
