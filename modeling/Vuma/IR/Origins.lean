import Vuma.IR.Liveness
import Vuma.IR.Noninterference

/-!
# Where pointers come from

An execution, instruction by instruction, in which every register and every byte of memory carries
the objects that its value is derived from. Pointers travel through binary operations, offsets,
casts, phis and memory. Where an instruction does something else, what it defines may be derived
from anything, so that every execution is covered (`IRFunction.exists_points`).
-/

namespace Vuma.IR

/-- An object in memory: the block of an `Alloc`, or another one. -/
inductive Origin where
  | slot (r : VReg) (size : Nat)
  | other (id : Nat)
  deriving DecidableEq, Repr

/-- The bytes of the objects, and the objects that an operand points into that is no register. -/
structure Objects where
  bytes : Origin → Set Word
  const : IRValue → Set Origin

/-- Every `Alloc` of the function has a block of its own, which no other object overlaps. -/
structure Objects.SeparateBlocks (K : Objects) (M : Machine) (f : IRFunction) : Prop where
  slot : ∀ b ∈ f.blocks, ∀ r size, .alloc (.register r) size ∈ b.instructions →
    K.bytes (.slot r size) = byteRange (M.slot r size) size
  disjoint : ∀ r size o, o ≠ .slot r size → Disjoint (K.bytes (.slot r size)) (K.bytes o)

/-- What the registers and the memory are derived from. -/
structure Origins where
  regs : VReg → Set Origin
  mem : Word → Set Origin

/-- A destination is derived from the given objects. -/
def Origins.write (g : Origins) (dst : IRValue) (objects : Set Origin) : Origins :=
  match dst with
  | .register r => { g with regs := Function.update g.regs r objects }
  | _ => g

/-- The objects that an operand is derived from. -/
def IRValue.origins (K : Objects) (regs : VReg → Set Origin) : IRValue → Set Origin
  | .register r => regs r
  | v => K.const v

/-- The results of comparisons are no pointers. -/
def BinOpKind.isComparison : BinOpKind → Bool
  | .slt | .sle | .sgt | .sge | .ult | .ule | .ugt | .uge | .eq | .ne => true
  | _ => false

/-! ## Executions -/

/-- A point of an execution: `rest` is what is left of the block `label`, which was entered from
`pred` with the registers `edge`. -/
structure ExecPoint where
  label : String
  pred : Option String
  edge : Regs
  edgeOrigins : VReg → Set Origin
  rest : List IRInstr
  regs : Regs
  world : World
  origins : Origins

/-- The point at the start of a block. -/
def IRBlock.point (b : IRBlock) (pred : Option String) (σ : Regs) (w : World) (g : Origins) :
    ExecPoint :=
  ⟨b.label, pred, σ, g.regs, b.instructions, σ, w, g⟩

section

variable (M : Machine) (K : Objects)

namespace ExecPoint

variable (p : ExecPoint)

/-- The objects that an operand is derived from. -/
def valueOrigins (v : IRValue) : Set Origin := v.origins K p.origins.regs

/-- The bytes that a load or a store at `addr + off` accesses. -/
def bytesAt (addr : IRValue) (off : Int) (ty : IRType) : Set Word :=
  byteRange (addr.eval M p.regs + BitVec.ofInt 64 off) (M.accessSize ty)

/-- The objects that some bytes of the memory are derived from. -/
def loaded (bytes : Set Word) : Set Origin := {o | ∃ a ∈ bytes, o ∈ p.origins.mem a}

/-- The entry of a phi for the edge on which the block was entered. -/
def taken (incoming : List (IRValue × String)) : Option (IRValue × String) :=
  incoming.find? fun e => some e.2 == p.pred

/-- The objects after an instruction. -/
def Derives (i : IRInstr) (g : Origins) : Prop :=
  match i with
  | .alloc (.register r) size => g = p.origins.write (.register r) {.slot r size}
  | .binOp op dst lhs rhs _ =>
    g = p.origins.write dst
      (if op.isComparison then ∅ else p.valueOrigins K lhs ∪ p.valueOrigins K rhs)
  | .offset dst base off =>
    g = p.origins.write dst (p.valueOrigins K base ∪ p.valueOrigins K off)
  | .cast _ dst src _ _ => g = p.origins.write dst (p.valueOrigins K src)
  | .phi dst incoming =>
    g = ((p.taken incoming).map fun e =>
      p.origins.write dst (e.1.origins K p.edgeOrigins)).getD p.origins
  | .load dst addr off ty => g = p.origins.write dst (p.loaded (p.bytesAt M addr off ty))
  | .store value addr off ty =>
    g = ⟨p.origins.regs, fun a => {o | (a ∈ p.bytesAt M addr off ty ∧ o ∈ p.valueOrigins K value) ∨
      (a ∉ p.bytesAt M addr off ty ∧ o ∈ p.origins.mem a)}⟩
  | i => ∀ r, r ∉ i.definedRegs → g.regs r = p.origins.regs r

/-- The effect of an instruction at the point. -/
def effect (i : IRInstr) : Effect :=
  i.effect M (·.eval M p.regs) (·.eval M p.edge) p.pred p.world

end ExecPoint

/-- One step: an instruction that stays in the block, one that jumps, or the terminator. -/
inductive IRFunction.PointStep (f : IRFunction) : ExecPoint → ExecPoint → Prop
  | instr {p : ExecPoint} {i : IRInstr} {is : List IRInstr} {ws : List (IRValue × Word)} {w : World}
      {g : Origins} (hrest : p.rest = i :: is) (heffect : p.effect M i = .next ws w)
      (horigins : p.Derives M K i g) :
      PointStep f p { p with rest := is, regs := p.regs.writes ws, world := w, origins := g }
  | jump {p : ExecPoint} {i : IRInstr} {is : List IRInstr} {target : String} {w : World}
      {b : IRBlock} (hrest : p.rest = i :: is) (heffect : p.effect M i = .jump target w)
      (hb : f.blockAt target = some b) :
      PointStep f p (b.point (some p.label) p.regs w p.origins)
  | terminator {p : ExecPoint} {b b' : IRBlock} {target : String} {pred : Option String} {σ : Regs}
      {w : World} {g : Origins} (hrest : p.rest = []) (hb : f.blockAt p.label = some b)
      (hexec : b.terminator.exec M p.label p.regs p.world = .enter target pred σ w)
      (hb' : f.blockAt target = some b')
      (horigins : ∀ r, r ∉ b.terminator.definedRegs → g.regs r = p.origins.regs r) :
      PointStep f p (b'.point pred σ w g)

/-- The points of an execution, from its start on. -/
structure IRFunction.PointRun (f : IRFunction) (run : List ExecPoint) : Prop where
  start : ∀ p ∈ run.head?, ∃ b σ w g, f.blocks.head? = some b ∧ p = b.point none σ w g
  steps : run.IsChain (f.PointStep M K)

end

/-! ## Every execution is covered -/

section

variable {M : Machine} {K : Objects} {f : IRFunction}

theorem ExecPoint.exists_derives (p : ExecPoint) (i : IRInstr) : ∃ g, p.Derives M K i g := by
  unfold ExecPoint.Derives
  split <;> first | exact ⟨_, rfl⟩ | exact ⟨p.origins, fun _ _ => rfl⟩

theorem IRFunction.label_of_blockAt {label : String} {b : IRBlock} (h : f.blockAt label = some b) :
    b.label = label := by
  simpa using List.find?_some h

/-- The instructions of a block, up to its end or to the block that one of them enters. -/
theorem IRFunction.exists_points_instrs (label : String) (pred : Option String) (edge : Regs)
    (edgeOrigins : VReg → Set Origin) (is : List IRInstr) (σ : Regs) (w : World) (g : Origins) :
    (∀ σ' w', execInstrs M label pred edge is σ w = .stay σ' w' →
      ∃ g', Relation.ReflTransGen (f.PointStep M K) ⟨label, pred, edge, edgeOrigins, is, σ, w, g⟩
        ⟨label, pred, edge, edgeOrigins, [], σ', w', g'⟩) ∧
    ∀ target pred' σ' w', execInstrs M label pred edge is σ w = .leave (.enter target pred' σ' w') →
      ∀ b', f.blockAt target = some b' →
        ∃ g', Relation.ReflTransGen (f.PointStep M K) ⟨label, pred, edge, edgeOrigins, is, σ, w, g⟩
          (b'.point pred' σ' w' g') := by
  induction is generalizing σ w g with
  | nil =>
    refine ⟨fun σ' w' h => ?_, fun _ _ _ _ h => ?_⟩
    · cases h
      exact ⟨g, .refl⟩
    · cases h
  | cons i is ih =>
    let p : ExecPoint := ⟨label, pred, edge, edgeOrigins, i :: is, σ, w, g⟩
    rw [execInstrs_cons]
    cases heffect : i.effect M (·.eval M σ) (·.eval M edge) pred w with
    | next ws w₁ =>
      obtain ⟨g₁, hg₁⟩ := p.exists_derives (M := M) (K := K) i
      have hstep : f.PointStep M K p
          ⟨label, pred, edge, edgeOrigins, is, σ.writes ws, w₁, g₁⟩ :=
        .instr rfl heffect hg₁
      obtain ⟨hstay, hleave⟩ := ih (σ.writes ws) w₁ g₁
      refine ⟨fun σ' w' h => ?_, fun target pred' σ' w' h b' hb' => ?_⟩
      · obtain ⟨g', hg'⟩ := hstay σ' w' h
        exact ⟨g', .head hstep hg'⟩
      · obtain ⟨g', hg'⟩ := hleave target pred' σ' w' h b' hb'
        exact ⟨g', .head hstep hg'⟩
    | jump target₁ w₁ =>
      refine ⟨fun _ _ h => (by cases h), fun target pred' σ' w' h b' hb' => ?_⟩
      cases h
      exact ⟨g, .single (.jump (p := p) rfl heffect hb')⟩
    | ret vs w₁ | stop o w₁ => exact ⟨fun _ _ h => (by cases h), fun _ _ _ _ h => (by cases h)⟩

/-- What a run does in one block, the points of an execution do, with objects of some kind. -/
theorem IRFunction.exists_points {label target : String} {pred pred' : Option String} {σ σ' : Regs}
    {w w' : World} {b b' : IRBlock} (hb : f.blockAt label = some b)
    (hb' : f.blockAt target = some b')
    (h : f.step M (.enter label pred σ w) = .enter target pred' σ' w') (g : Origins) :
    ∃ g', Relation.ReflTransGen (f.PointStep M K) (b.point pred σ w g)
      (b'.point pred' σ' w' g') := by
  have hlabel := label_of_blockAt hb
  obtain ⟨hstay, hleave⟩ := f.exists_points_instrs (M := M) (K := K) b.label pred σ g.regs
    b.instructions σ w g
  simp only [IRFunction.step, hb, IRBlock.exec] at h
  cases hexec : execInstrs M b.label pred σ b.instructions σ w with
  | stay σ₁ w₁ =>
    rw [hexec] at h
    obtain ⟨g₁, hg₁⟩ := hstay σ₁ w₁ hexec
    refine ⟨g₁, hg₁.tail (.terminator rfl ?_ h hb' fun _ _ => rfl)⟩
    rwa [hlabel]
  | leave c =>
    rw [hexec] at h
    cases h
    exact hleave target pred' σ' w' hexec b' hb'

theorem IRFunction.PointRun.forall_mem {run : List ExecPoint} (h : f.PointRun M K run)
    {P : ExecPoint → Prop} (hstart : ∀ p ∈ run.head?, P p)
    (hstep : ∀ p ∈ run, ∀ q, f.PointStep M K p q → P p → P q) : ∀ p ∈ run, P p := by
  have hsteps := h.steps
  clear h
  induction run with
  | nil => exact fun _ hp => (nomatch hp)
  | cons p run ih =>
    have hp : P p := hstart p rfl
    intro q hq
    rcases List.mem_cons.mp hq with rfl | hq
    · exact hp
    · refine ih (fun q hq => ?_) (fun q hq => hstep q (List.mem_cons_of_mem _ hq)) hsteps.tail q hq
      exact hstep p List.mem_cons_self q (hsteps.rel_head? hq) hp

end

end Vuma.IR
