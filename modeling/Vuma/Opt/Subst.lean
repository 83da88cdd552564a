import Vuma.IR.Liveness

/-!
# Substitution

`substitute_value`, `substitute_instr` and `substitute_terminator` of `opt.rs` replace registers by
values throughout an instruction, its destinations included. The channel instructions keep their
handles and destinations, and an indirect call keeps its destination.

`effect_substituteInstr` says what a substituted instruction does: what the original does, in an
environment where the replaced operands have the values of the originals, writing to the replaced
destinations.
-/

namespace Vuma.Opt

open IR

/-- A register-to-value mapping. -/
abbrev SubstMap := VReg → Option IRValue

def substituteValue (map : SubstMap) : IRValue → IRValue
  | .register id => (map id).getD (.register id)
  | v => v

def substituteInstr (map : SubstMap) (i : IRInstr) : IRInstr :=
  let sv := substituteValue map
  match i with
  | .load dst addr off ty => .load (sv dst) (sv addr) off ty
  | .store value addr off ty => .store (sv value) (sv addr) off ty
  | .binOp op dst lhs rhs ty => .binOp op (sv dst) (sv lhs) (sv rhs) ty
  | .unaryOp op dst operand ty => .unaryOp op (sv dst) (sv operand) ty
  | .call dst func args ext => .call (dst.map sv) func (args.map sv) ext
  | .alloc dst size => .alloc (sv dst) size
  | .free ptr => .free (sv ptr)
  | .cast kind dst src fromTy toTy => .cast kind (sv dst) (sv src) fromTy toTy
  | .phi dst incoming => .phi (sv dst) (incoming.map fun e => (sv e.1, e.2))
  | .getAddress dst name => .getAddress (sv dst) name
  | .offset dst base off => .offset (sv dst) (sv base) (sv off)
  | .select dst cond t f ty => .select (sv dst) (sv cond) (sv t) (sv f) ty
  | .add dst lhs rhs ty => .add (sv dst) (sv lhs) (sv rhs) ty
  | .sub dst lhs rhs ty => .sub (sv dst) (sv lhs) (sv rhs) ty
  | .mul dst lhs rhs ty => .mul (sv dst) (sv lhs) (sv rhs) ty
  | .div dst lhs rhs ty => .div (sv dst) (sv lhs) (sv rhs) ty
  | .cmp kind dst lhs rhs ty => .cmp kind (sv dst) (sv lhs) (sv rhs) ty
  | .ret values => .ret (values.map sv)
  | .branch target => .branch target
  | .condBranch cond t f => .condBranch (sv cond) t f
  | .ctSelect dst cond t f ty => .ctSelect (sv dst) (sv cond) (sv t) (sv f) ty
  | .ctEq dst lhs rhs ty => .ctEq (sv dst) (sv lhs) (sv rhs) ty
  | .atomicLoad dst addr ty => .atomicLoad (sv dst) (sv addr) ty
  | .atomicStore value addr ty => .atomicStore (sv value) (sv addr) ty
  | .atomicCas dst addr expected desired ty =>
    .atomicCas (sv dst) (sv addr) (sv expected) (sv desired) ty
  | .syscall nr args dst => .syscall nr (args.map sv) (dst.map sv)
  | .vectorOp op lanes elemSize dst lhs rhs =>
    .vectorOp op lanes elemSize (sv dst) (sv lhs) (sv rhs)
  -- channel handles and destinations pass through unchanged
  | .channelOpen dst elemTy => .channelOpen dst elemTy
  | .channelSend ch msg ty => .channelSend ch (sv msg) ty
  | .channelRecv ch dst ty => .channelRecv ch dst ty
  | .channelRecvTimeout ch dst ty ms => .channelRecvTimeout ch dst ty ms
  | .channelRecvResult ch dst errDst ty => .channelRecvResult ch dst errDst ty
  | .channelClose ch => .channelClose ch
  | .starkProof input dst constraints => .starkProof (sv input) (sv dst) constraints
  | .callIndirect dst funcPtr args => .callIndirect dst (sv funcPtr) (args.map sv)
  | .bulkCopy dst src len => .bulkCopy (sv dst) (sv src) (sv len)
  | .bulkFill dst val len => .bulkFill (sv dst) (sv val) (sv len)
  | .transform dst src fromLayout toLayout => .transform (sv dst) (sv src) fromLayout toLayout

def substituteTerminator (map : SubstMap) : IRTerminator → IRTerminator
  | .ret values => .ret (values.map (substituteValue map))
  | .branch cond t f => .branch (substituteValue map cond) t f
  | .switch discr targets default => .switch (substituteValue map discr) targets default
  | .invoke dst func args normal unwind =>
    .invoke (dst.map (substituteValue map)) func (args.map (substituteValue map)) normal unwind
  | .tailCall func args => .tailCall func (args.map (substituteValue map))
  | .resume value => .resume (substituteValue map value)
  | .jump target => .jump target
  | .unreachable => .unreachable

/-! ## What stays -/

/-- The channel handles, which `substitute_instr` leaves alone. -/
def keptUses : IRInstr → List VReg
  | .channelSend ch .. | .channelRecv ch .. | .channelRecvTimeout ch .. | .channelRecvResult ch ..
  | .channelClose ch => ch.regs
  | _ => []

/-- The registers read in operands that `substitute_instr` replaces. -/
def substUses : IRInstr → List VReg
  | .channelSend _ msg _ => msg.regs
  | .channelRecv .. | .channelRecvTimeout .. | .channelRecvResult .. | .channelClose _ => []
  | i => i.usedRegs

/-- The destinations that `substitute_instr` leaves alone. -/
def keptDefs : IRInstr → List VReg
  | .channelOpen dst _ | .channelRecv _ dst _ | .channelRecvTimeout _ dst .. => dst.regs
  | .channelRecvResult _ dst errDst _ => dst.regs ++ errDst.regs
  | .callIndirect dst .. => (dst.bind IRValue.asRegister).toList
  | _ => []

theorem substituteValue_of_none {map : SubstMap} {v : IRValue} (h : ∀ r ∈ v.regs, map r = none) :
    substituteValue map v = v := by
  cases v with
  | register id => simp [substituteValue, h id (by simp)]
  | _ => rfl

/-- The effect with its destinations replaced. -/
def mapDst (g : IRValue → IRValue) : Effect → Effect
  | .next ws w => .next (ws.map fun p => (g p.1, p.2)) w
  | e => e

theorem mapDst_external (g : IRValue → IRValue) (M : Machine) (w : World) (e : Event)
    (k : Reply → List (IRValue × Word)) :
    mapDst g (M.external w e k) = M.external w e (fun r => (k r).map fun p => (g p.1, p.2)) := by
  unfold Machine.external
  split <;> rfl

theorem mapDst_callResult (g : IRValue → IRValue) (dst : Option IRValue) (c : CallResult) :
    mapDst g (c.effect dst) = c.effect (dst.map g) := by
  cases c with
  | returned vs w => cases dst <;> rfl
  | unwound v w => rfl
  | stopped o w => rfl

/-- What a substituted instruction does. The frame slots may be laid out differently. -/
theorem effect_substituteInstr (M : Machine) (slot : VReg → Nat → Word) (map : SubstMap)
    {ev ev' edge edge' : IRValue → Word} (pred : Option String) (w : World) (i : IRInstr)
    (hev : i.isPhi = false → ∀ v : IRValue, (∀ r ∈ v.regs, r ∈ substUses i) →
      ev' (substituteValue map v) = ev v)
    (hedge : i.isPhi = true → ∀ v : IRValue, (∀ r ∈ v.regs, r ∈ i.usedRegs) →
      edge' (substituteValue map v) = edge v)
    (huse : ∀ r ∈ keptUses i, ev' (.register r) = ev (.register r))
    (hdef : ∀ r ∈ keptDefs i, map r = none)
    (hslot : ∀ r size, i = .alloc (.register r) size →
      ∃ q, substituteValue map (.register r) = .register q ∧ slot q size = M.slot r size) :
    (substituteInstr map i).effect { M with slot := slot } ev' edge' pred w =
      mapDst (substituteValue map) (i.effect M ev edge pred w) := by
  -- a channel handle
  have hch : ∀ ch : IRValue, i.isPhi = false → (∀ r ∈ ch.regs, r ∈ keptUses i) →
      ev' ch = ev ch := by
    intro ch hi hk
    cases ch with
    | register r => exact huse r (hk r (by simp))
    | immediate x => exact hev hi (.immediate x) (by simp)
    | address x => exact hev hi (.address x) (by simp)
    | label x => exact hev hi (.label x) (by simp)
  -- a destination that is kept
  have hkept : ∀ d : IRValue, (∀ r ∈ d.regs, r ∈ keptDefs i) → substituteValue map d = d :=
    fun d hd => substituteValue_of_none (fun r hr => hdef r (hd r hr))
  have hvs : ∀ vs : List IRValue, i.isPhi = false →
      (∀ r ∈ vs.filterMap IRValue.asRegister, r ∈ substUses i) →
      (vs.map (substituteValue map)).map ev' = vs.map ev := by
    intro vs hi hr
    rw [List.map_map]
    refine List.map_congr_left (fun v hv => hev hi v (fun r hrv => hr r ?_))
    rw [IRValue.mem_regs] at hrv
    exact List.mem_filterMap.mpr ⟨v, hv, by rw [hrv]; rfl⟩
  cases i with
  | phi dst incoming =>
    have hfind : (incoming.map fun e => (substituteValue map e.1, e.2)).find?
        (fun e => some e.2 == pred) =
        (incoming.find? (fun e => some e.2 == pred)).map
          fun e => (substituteValue map e.1, e.2) := by
      rw [List.find?_map]
      rfl
    simp only [substituteInstr, IRInstr.effect, hfind]
    cases hf : incoming.find? (fun e => some e.2 == pred) with
    | none => rfl
    | some e =>
      have he : edge' (substituteValue map e.1) = edge e.1 := by
        refine hedge rfl e.1 (fun r hr => ?_)
        rw [IRValue.mem_regs] at hr
        exact List.mem_filterMap.mpr ⟨e, List.mem_of_find?_eq_some hf, by rw [hr]; rfl⟩
      simp only [Option.map_some, he]
      rfl
  | alloc dst size =>
    cases dst with
    | register r =>
      obtain ⟨q, hq, hs⟩ := hslot r size rfl
      simp only [substituteInstr, hq, IRInstr.effect, mapDst, List.map_cons, List.map_nil, hs]
    | _ => rfl
  | call dst func args ext =>
    simp only [substituteInstr, IRInstr.effect, mapDst_callResult, hvs args rfl (fun r hr => hr)]
  | syscall nr args dst =>
    simp only [substituteInstr, IRInstr.effect, mapDst_external, hvs args rfl (fun r hr => hr)]
    cases dst <;> rfl
  | ret values =>
    simp only [substituteInstr, IRInstr.effect, mapDst, hvs values rfl (fun r hr => hr)]
  | callIndirect dst funcPtr args =>
    simp only [substituteInstr, IRInstr.effect, mapDst_external,
      hev rfl funcPtr (fun r hr => List.mem_append_left _ hr),
      hvs args rfl (fun r hr => List.mem_append_right _ hr)]
    cases dst with
    | none => rfl
    | some d =>
      have hd := hkept d (fun r hr => hr)
      simp only [Option.toList_some, List.map_cons, List.map_nil, hd]
      rfl
  | channelOpen dst elemTy =>
    simp only [substituteInstr, IRInstr.effect, mapDst_external, List.map_cons, List.map_nil,
      hkept dst (fun r hr => hr)]
    rfl
  | channelSend ch msg ty =>
    simp only [substituteInstr, IRInstr.effect, mapDst_external,
      hch ch rfl (fun r hr => hr), hev rfl msg (fun r hr => hr)]
    rfl
  | channelRecv ch dst ty | channelRecvTimeout ch dst ty ms =>
    simp only [substituteInstr, IRInstr.effect, mapDst_external, List.map_cons, List.map_nil,
      hch ch rfl (fun r hr => hr), hkept dst (fun r hr => hr)]
    rfl
  | channelRecvResult ch dst errDst ty =>
    simp only [substituteInstr, IRInstr.effect, mapDst_external, List.map_cons, List.map_nil,
      hch ch rfl (fun r hr => hr),
      hkept dst (fun r hr => List.mem_append_left _ hr),
      hkept errDst (fun r hr => List.mem_append_right _ hr)]
    rfl
  | channelClose ch =>
    simp only [substituteInstr, IRInstr.effect, mapDst_external,
      hch ch rfl (fun r hr => hr)]
    rfl
  | free value | starkProof value dst constraints =>
    simp only [substituteInstr, IRInstr.effect, mapDst_external, hev rfl value (fun r hr => hr)]
    rfl
  | binOp op dst lhs rhs ty =>
    simp only [substituteInstr, IRInstr.effect, hev rfl lhs (fun r hr => List.mem_append_left _ hr),
      hev rfl rhs (fun r hr => List.mem_append_right _ hr)]
    rw [show Machine.binOp { M with slot := slot } = M.binOp from rfl]
    cases M.binOp op ty (ev lhs) (ev rhs) <;> rfl
  | div dst lhs rhs ty =>
    simp only [substituteInstr, IRInstr.effect, hev rfl lhs (fun r hr => List.mem_append_left _ hr),
      hev rfl rhs (fun r hr => List.mem_append_right _ hr)]
    cases intBinOp .sdiv ty (ev lhs) (ev rhs) <;> rfl
  | transform dst src fromLayout toLayout =>
    simp only [substituteInstr, IRInstr.effect, hev rfl src (fun r hr => hr)]
    split <;> rfl
  | branch target => rfl
  | _ =>
    simp only [IRInstr.isPhi, true_implies, substUses, IRInstr.usedRegs, List.mem_append] at hev
    simp (disch := (intro r hr; simp [hr])) only [substituteInstr, IRInstr.effect, hev]
    rfl

theorem substituteInstr_congr {map map' : SubstMap}
    (h : substituteValue map = substituteValue map') (i : IRInstr) :
    substituteInstr map i = substituteInstr map' i := by
  unfold substituteInstr
  rw [h]

theorem substituteTerminator_congr {map map' : SubstMap}
    (h : substituteValue map = substituteValue map') (t : IRTerminator) :
    substituteTerminator map t = substituteTerminator map' t := by
  cases t <;> simp only [substituteTerminator, h]

/-! ## Substituting values that the registers hold -/

theorem mem_definedRegs_of_keptDefs {i : IRInstr} {r : VReg} (h : r ∈ keptDefs i) :
    r ∈ i.definedRegs := by
  cases i <;> first | exact h | simp [keptDefs] at h

theorem definedRegs_substituteInstr {map : SubstMap} {i : IRInstr}
    (h : ∀ r ∈ i.definedRegs, map r = none) :
    (substituteInstr map i).definedRegs = i.definedRegs := by
  have hopt : ∀ dst : Option IRValue, (∀ r ∈ (dst.bind IRValue.asRegister).toList, map r = none) →
      dst.map (substituteValue map) = dst := by
    intro dst hd
    cases dst with
    | none => rfl
    | some d => exact congrArg some (substituteValue_of_none hd)
  cases i with
  | call dst func args ext => simp only [substituteInstr, IRInstr.definedRegs, hopt dst h]
  | syscall nr args dst => simp only [substituteInstr, IRInstr.definedRegs, hopt dst h]
  | channelRecvResult ch dst errDst ty => rfl
  | store _ _ _ _ | free _ | ret _ | branch _ | condBranch _ _ _ | atomicStore _ _ _
  | channelSend _ _ _ | channelClose _ | bulkCopy _ _ _ | bulkFill _ _ _ | callIndirect _ _ _
  | channelOpen _ _ | channelRecv _ _ _ | channelRecvTimeout _ _ _ _ => rfl
  | _ =>
    simp only [IRInstr.definedRegs] at h
    simp only [substituteInstr, IRInstr.definedRegs, substituteValue_of_none h]

/-- Replacing the destinations changes nothing when none of them is in the map. -/
theorem mapDst_eq_self {map : SubstMap} {i : IRInstr} (hdst : ∀ r ∈ i.definedRegs, map r = none)
    (M : Machine) (ev edge : IRValue → Word) (pred : Option String) (w : World) :
    mapDst (substituteValue map) (i.effect M ev edge pred w) = i.effect M ev edge pred w := by
  cases he : i.effect M ev edge pred w with
  | next ws w' =>
    have hws : ws.map (fun p => (substituteValue map p.1, p.2)) = ws := by
      refine (List.map_congr_left (fun p hp => ?_)).trans (List.map_id ws)
      have hkeep : substituteValue map p.1 = p.1 := by
        refine substituteValue_of_none (fun r hr => ?_)
        by_contra hm
        refine IRInstr.effect_writes_mem he (fun hd => hm (hdst r hd)) p hp ?_
        exact IRValue.mem_regs.mp hr
      rw [hkeep]
      rfl
    simp only [mapDst, hws]
  | _ => rfl

/-- Every register of `rs` that the map replaces holds the value of its replacement. -/
def MapHolds (M : Machine) (map : SubstMap) (rs : List VReg) (σ : Regs) : Prop :=
  ∀ r ∈ rs, ∀ v, map r = some v → v.eval M σ = σ r

theorem MapHolds.eval {M : Machine} {map : SubstMap} {rs : List VReg} {σ : Regs}
    (h : MapHolds M map rs σ) {v : IRValue} (hv : ∀ r ∈ v.regs, r ∈ rs) :
    (substituteValue map v).eval M σ = v.eval M σ := by
  cases v with
  | register id =>
    simp only [substituteValue]
    cases hm : map id with
    | none => rfl
    | some u => exact h id (hv id (by simp)) u hm
  | _ => rfl

/-- An instruction that defines no replaced register does, after the substitution, what it did
before. -/
theorem effect_substituteInstr_self {M : Machine} {map : SubstMap} {σ : Regs} {i : IRInstr}
    (hmap : i.isPhi = false → MapHolds M map (substUses i) σ) (edge : Regs) (pred : Option String)
    (w : World) (hphi : i.isPhi = true → ∀ r ∈ i.usedRegs, map r = none)
    (hdst : ∀ r ∈ i.definedRegs, map r = none) :
    (substituteInstr map i).effect M (·.eval M σ) (·.eval M edge) pred w =
      i.effect M (·.eval M σ) (·.eval M edge) pred w := by
  have heff := @effect_substituteInstr M M.slot map (·.eval M σ) (·.eval M σ) (·.eval M edge)
    (·.eval M edge) pred w i (fun hi v hv => (hmap hi).eval hv)
    (fun hi v hv => by rw [substituteValue_of_none (fun r hr => hphi hi r (hv r hr))])
    (fun r _ => rfl) (fun r hr => hdst r (mem_definedRegs_of_keptDefs hr))
    (fun r size hi => ⟨r, substituteValue_of_none (by
      subst hi
      simpa [IRInstr.definedRegs] using hdst), rfl⟩)
  exact heff.trans (mapDst_eq_self hdst M _ _ pred w)

theorem exec_substituteTerminator {M : Machine} {map : SubstMap} {σ : Regs}
    {t : IRTerminator} (hmap : MapHolds M map t.usedRegs σ)
    (label : String) (w : World) (hdst : ∀ r ∈ t.definedRegs, map r = none) :
    (substituteTerminator map t).exec M label σ w = t.exec M label σ w := by
  have hv : ∀ v : IRValue, (∀ r ∈ v.regs, r ∈ t.usedRegs) →
      (substituteValue map v).eval M σ = v.eval M σ := fun v hr => hmap.eval hr
  have hvs : ∀ vs : List IRValue, (∀ r ∈ vs.filterMap IRValue.asRegister, r ∈ t.usedRegs) →
      (vs.map (substituteValue map)).map (·.eval M σ) = vs.map (·.eval M σ) := by
    intro vs hr
    rw [List.map_map]
    refine List.map_congr_left (fun v hvm => hv v (fun r hrv => hr r ?_))
    rw [IRValue.mem_regs] at hrv
    exact List.mem_filterMap.mpr ⟨v, hvm, by rw [hrv]; rfl⟩
  cases t with
  | invoke dst func args normal unwind =>
    have hd : dst.map (substituteValue map) = dst := by
      cases dst with
      | none => rfl
      | some d => exact congrArg some (substituteValue_of_none hdst)
    simp only [substituteTerminator, IRTerminator.exec, hvs args (fun r hr => hr), hd]
  | ret values => simp only [substituteTerminator, IRTerminator.exec, hvs values (fun r hr => hr)]
  | tailCall func args =>
    simp only [substituteTerminator, IRTerminator.exec, hvs args (fun r hr => hr)]
  | branch cond tb fb | switch cond targets default =>
    simp only [substituteTerminator, IRTerminator.exec, hv cond (fun r hr => hr)]
  | resume value => simp only [substituteTerminator, IRTerminator.exec, hv value (fun r hr => hr)]
  | jump target => rfl
  | unreachable => rfl

end Vuma.Opt
