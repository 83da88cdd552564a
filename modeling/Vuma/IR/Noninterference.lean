import Vuma.IR.Commute
import Vuma.IR.Memory
import Vuma.Lib.Simulation

/-!
# Two runs that differ in secrets

Registers can carry secrets, and some of them are secret by name. If secrets stay in the registers
that can carry them and in the memory that such registers address, then two runs that start with
different values of secret registers go the same way, and send and store the same through the other
registers.

Only a part of the instructions is considered: those that compute in registers, loads and stores
through registers, sends, and control flow.
-/

namespace Vuma.IR

/-- The instructions that are considered. -/
def IRInstr.isPlain : IRInstr → Bool
  | .load (.register _) (.register _) _ _ | .store _ (.register _) _ _ => true
  | .binOp .. | .unaryOp .. | .alloc .. | .cast .. | .phi .. | .getAddress .. | .offset ..
  | .select .. | .add .. | .sub .. | .mul .. | .div .. | .cmp .. | .ret _ | .branch _
  | .condBranch .. | .ctSelect .. | .ctEq .. | .channelSend .. => true
  | _ => false

/-- The terminators that are considered. -/
def IRTerminator.isPlain : IRTerminator → Bool
  | .jump _ | .branch .. | .ret _ | .unreachable | .switch .. => true
  | _ => false

/-- Loads, stores and sends. -/
def IRInstr.isAccess : IRInstr → Bool
  | .load .. | .store .. | .channelSend .. => true
  | _ => false

/-! ## Outputs -/

/-- What a run lets out: a message on a channel, or bytes at an address. -/
inductive Output where
  | send (ch msg : Word) (ty : Option IRType)
  | store (addr : Word) (bytes : List Byte)
  deriving DecidableEq, Repr

/-- An operand is no register that satisfies `N`. -/
def IRValue.Avoids (N : VReg → Prop) (v : IRValue) : Prop := ∀ r ∈ v.regs, ¬ N r

instance (N : VReg → Prop) [DecidablePred N] (v : IRValue) : Decidable (v.Avoids N) :=
  inferInstanceAs (Decidable (∀ r ∈ v.regs, ¬ N r))

section

variable (M : Machine) (N : VReg → Prop) [DecidablePred N]

/-- What an instruction lets out through operands that are not secret by name. -/
def IRInstr.output (ev : IRValue → Word) : IRInstr → List Output
  | .channelSend ch msg ty => if ch.Avoids N then [.send (ev ch) (ev msg) ty] else []
  | .store value addr off ty =>
    if addr.Avoids N then [.store (ev addr + BitVec.ofInt 64 off) (M.encode ty (ev value))] else []
  | _ => []

/-- What the instructions that are executed let out. -/
def instrOutputs (pred : Option String) (edge : Regs) : List IRInstr → Regs → World → List Output
  | [], _, _ => []
  | i :: is, σ, w =>
    i.output M N (·.eval M σ) ++
      match i.effect M (·.eval M σ) (·.eval M edge) pred w with
      | .next ws w' => instrOutputs pred edge is (σ.writes ws) w'
      | _ => []

/-- What a run lets out in its next block. -/
def IRFunction.outputs (f : IRFunction) : Config → List Output
  | .enter label pred σ w =>
    match f.blockAt label with
    | some b => instrOutputs M N pred σ b.instructions σ w
    | none => []
  | .done _ _ => []

/-- What a run lets out in its first blocks. -/
def IRFunction.runOutputs (f : IRFunction) (σ : Regs) (w : World) (n : Nat) : List Output :=
  (List.range n).flatMap fun k => f.outputs M N (f.run M σ w k)

/-- Two runs let out the same: what one has let out is, sooner or later, the beginning of what the
other has let out. -/
def IRFunction.SameOutputs (f : IRFunction) (σ τ : Regs) (w : World) : Prop :=
  (∀ n, ∃ m, f.runOutputs M N σ w n <+: f.runOutputs M N τ w m) ∧
    ∀ n, ∃ m, f.runOutputs M N τ w n <+: f.runOutputs M N σ w m

end

/-! ## Accesses to memory -/

section

variable (M : Machine)

/-- The register and the bytes of a load or store. -/
def IRInstr.access (ev : IRValue → Word) : IRInstr → List (VReg × Set Word)
  | .load _ (.register a) off ty | .store _ (.register a) off ty =>
    [(a, byteRange (ev (.register a) + BitVec.ofInt 64 off) (M.accessSize ty))]
  | _ => []

/-- The accesses of the instructions that are executed. -/
def instrAccesses (pred : Option String) (edge : Regs) :
    List IRInstr → Regs → World → List (VReg × Set Word)
  | [], _, _ => []
  | i :: is, σ, w =>
    i.access M (·.eval M σ) ++
      match i.effect M (·.eval M σ) (·.eval M edge) pred w with
      | .next ws w' => instrAccesses pred edge is (σ.writes ws) w'
      | _ => []

/-- The accesses of a run in its next block. -/
def IRFunction.accesses (f : IRFunction) : Config → List (VReg × Set Word)
  | .enter label pred σ w =>
    match f.blockAt label with
    | some b => instrAccesses M pred σ b.instructions σ w
    | none => []
  | .done _ _ => []

/-- A byte is accessed through a register in some block of a run. -/
def IRFunction.Accessed (f : IRFunction) (σ : Regs) (w : World) (r : VReg) (a : Word) : Prop :=
  ∃ n, ∃ p ∈ f.accesses M (f.run M σ w n), p.1 = r ∧ a ∈ p.2

/-- Every byte is accessed through one register only. -/
def IRFunction.OneRegister (f : IRFunction) (σ : Regs) (w : World) : Prop :=
  ∀ r r' a, f.Accessed M σ w r a → f.Accessed M σ w r' a → r = r'

end

/-- A send changes nothing in the memory and comes back. -/
def Machine.SendsQuietly (M : Machine) : Prop :=
  ∀ w ch msg ty, ∃ r, M.respond w (.channelSend ch msg ty) = some r ∧ r.mem = w.mem

theorem instrAccesses_fst {M : Machine} {pred : Option String} {e : Regs} {r : VReg}
    {is : List IRInstr} (h : ∀ i ∈ is, ∀ ev, ∀ p ∈ i.access M ev, p.1 = r) (σ : Regs) (w : World) :
    ∀ p ∈ instrAccesses M pred e is σ w, p.1 = r := by
  induction is generalizing σ w with
  | nil => exact fun p hp => nomatch hp
  | cons i is ih =>
    intro p hp
    rcases List.mem_append.mp hp with hp | hp
    · exact h i (List.mem_cons_self ..) _ p hp
    · split at hp
      · exact ih (fun j hj => h j (List.mem_cons_of_mem _ hj)) _ _ p hp
      · cases hp

/-- A function whose loads and stores all go through the same register. -/
theorem IRFunction.oneRegister_of_forall {M : Machine} {f : IRFunction} (r : VReg)
    (h : ∀ b ∈ f.blocks, ∀ i ∈ b.instructions, ∀ ev, ∀ p ∈ i.access M ev, p.1 = r) {σ : Regs}
    {w : World} : f.OneRegister M σ w := by
  have hr : ∀ r' a, f.Accessed M σ w r' a → r' = r := by
    rintro r' a ⟨n, p, hp, rfl, -⟩
    unfold accesses at hp
    split at hp
    · split at hp
      next b hb => exact instrAccesses_fst (h b (List.mem_of_find?_eq_some hb)) _ _ p hp
      · cases hp
    · cases hp
  intro r₁ r₂ a h₁ h₂
  rw [hr r₁ a h₁, hr r₂ a h₂]

/-! ## Where secrets may go -/

/-- The registers on which it depends whether an operation traps. -/
def IRInstr.divisorRegs : IRInstr → List VReg
  | .binOp op _ _ rhs _ =>
    if op = .sdiv ∨ op = .udiv ∨ op = .srem ∨ op = .urem then rhs.regs else []
  | .div _ _ rhs _ => rhs.regs
  | _ => []

/-- An instruction keeps secrets in the registers that satisfy `G`, of which those that satisfy `N`
are secret by name. -/
def IRInstr.Keeps (N G : VReg → Prop) : IRInstr → Prop
  | .load dst addr _ _ => addr.Avoids G ∨ ∀ d ∈ dst.regs, G d
  | .store value addr _ _ => addr.Avoids N → addr.Avoids G ∧ value.Avoids G
  | .channelSend ch msg _ => ch.Avoids N → ch.Avoids G ∧ msg.Avoids G
  | .condBranch cond _ _ => cond.Avoids G
  | i => (∀ r ∈ i.divisorRegs, ¬ G r) ∧
      ((∃ r ∈ i.usedRegs, G r) → ∀ d ∈ i.definedRegs, G d)

/-- A terminator does not look at secrets. -/
def IRTerminator.Keeps (G : VReg → Prop) : IRTerminator → Prop
  | .branch cond _ _ => cond.Avoids G
  | .switch discr _ _ => discr.Avoids G
  | _ => True

/-- A function keeps secrets in the registers that satisfy `G`. -/
def IRFunction.Keeps (f : IRFunction) (N G : VReg → Prop) : Prop :=
  ∀ b ∈ f.blocks, (∀ i ∈ b.instructions, i.isPlain ∧ i.Keeps N G) ∧
    b.terminator.isPlain ∧ b.terminator.Keeps G

/-! ## Equality up to secrets -/

/-- Register files that are the same but for secrets. -/
def Regs.LowEq (G : VReg → Prop) (σ τ : Regs) : Prop := ∀ r, ¬ G r → σ r = τ r

/-- Memories that are the same outside of `P`. -/
def World.LowEq (P : Set Word) (w w' : World) : Prop := ∀ a ∉ P, w.mem a = w'.mem a

/-- Points of two runs that are the same but for secrets. -/
inductive Config.LowEq (G : VReg → Prop) (P : Set Word) : Config → Config → Prop
  | enter (label : String) (pred : Option String) {σ τ : Regs} {w w' : World} (hr : σ.LowEq G τ)
      (hw : w.LowEq P w') : LowEq G P (.enter label pred σ w) (.enter label pred τ w')
  | done {o o' : Outcome} {w w' : World} : LowEq G P (.done o w) (.done o' w')

/-- Flows that are the same but for secrets. -/
inductive Flow.LowEq (G : VReg → Prop) (P : Set Word) : Flow → Flow → Prop
  | stay {σ τ : Regs} {w w' : World} (hr : σ.LowEq G τ) (hw : w.LowEq P w') :
      LowEq G P (.stay σ w) (.stay τ w')
  | leave {c c' : Config} (h : c.LowEq G P c') : LowEq G P (.leave c) (.leave c')

variable {M : Machine} {N G : VReg → Prop} {P : Set Word}

theorem Regs.LowEq.eval_eq {σ τ : Regs} (h : σ.LowEq G τ) {v : IRValue} (hv : v.Avoids G) :
    v.eval M σ = v.eval M τ :=
  IRValue.eval_congr M fun r hr => h r (hv r hr)

/-! ## Instructions -/

/-- The effect with another world. -/
def Effect.withWorld (w : World) : Effect → Effect
  | .next ws _ => .next ws w
  | .jump target _ => .jump target w
  | .ret vs _ => .ret vs w
  | .stop o _ => .stop o w

/-- An instruction that is no access does the same in every world. -/
theorem IRInstr.effect_withWorld {i : IRInstr} (hp : i.isPlain) (ha : i.isAccess = false)
    (ev edge : IRValue → Word) (pred : Option String) (w w' : World) :
    i.effect M ev edge pred w' = (i.effect M ev edge pred w).withWorld w' := by
  cases i with
  | load | store | channelSend => cases ha
  | binOp op dst lhs rhs ty =>
    simp only [effect]
    split <;> rfl
  | div dst lhs rhs ty =>
    simp only [effect]
    split <;> rfl
  | phi dst incoming =>
    simp only [effect]
    split <;> rfl
  | alloc dst size => cases dst <;> rfl
  | unaryOp | cast | getAddress | offset | select | add | sub | mul | cmp | ret | branch
  | condBranch | ctSelect | ctEq => rfl
  | _ => cases hp

theorem Machine.binOp_eq_none_congr {op : BinOpKind} {ty : Option IRType} {a a' b : Word}
    (h : M.binOp op ty a b = none) : M.binOp op ty a' b = none := by
  obtain ⟨hop, hf32, hf64⟩ := Machine.binOp_eq_none h
  unfold Machine.binOp at h ⊢
  split at h
  · cases h
  · cases h
  · unfold intBinOp binOpAt at h ⊢
    rcases hop with rfl | rfl | rfl | rfl
    all_goals
      dsimp only at h ⊢
      split_ifs at h ⊢
      rfl

theorem IRInstr.effect_eq_stop {i : IRInstr} (hp : i.isPlain) (ha : i.isAccess = false)
    {σ τ e : Regs} (hd : ∀ r ∈ i.divisorRegs, σ r = τ r) {pred : Option String} {w w₁ : World}
    {o : Outcome} (h : i.effect M (·.eval M σ) (·.eval M e) pred w = .stop o w₁) (e' : Regs)
    (w' : World) : i.effect M (·.eval M τ) (·.eval M e') pred w' = .stop .trap w' := by
  cases i with
  | load | store | channelSend => cases ha
  | binOp op dst lhs rhs ty =>
    simp only [effect] at h ⊢
    cases hop : M.binOp op ty (lhs.eval M σ) (rhs.eval M σ) with
    | some v =>
      rw [hop] at h
      cases h
    | none =>
      have hrhs : rhs.eval M σ = rhs.eval M τ := by
        rw [divisorRegs, if_pos (Machine.binOp_eq_none hop).1] at hd
        exact IRValue.eval_congr M hd
      rw [hrhs] at hop
      rw [Machine.binOp_eq_none_congr hop]
  | div dst lhs rhs ty =>
    simp only [effect] at h ⊢
    have hrhs : rhs.eval M σ = rhs.eval M τ := IRValue.eval_congr M hd
    rw [hrhs] at h
    unfold intBinOp binOpAt at h ⊢
    dsimp only at h ⊢
    split_ifs at h ⊢
    rfl
  | phi dst incoming =>
    simp only [effect] at h
    split at h <;> cases h
  | alloc dst size => cases dst <;> cases h
  | unaryOp | cast | getAddress | offset | select | add | sub | mul | cmp | ret | branch
  | condBranch | ctSelect | ctEq => cases h
  | _ => cases hp

theorem Effect.flow_withWorld_lowEq (e : Effect) (label : String) {σ τ : Regs} {w w' : World}
    (hr : σ.LowEq G τ) (hw : w.LowEq P w') :
    ((e.withWorld w).flow label σ).LowEq G P ((e.withWorld w').flow label τ) := by
  cases e with
  | next ws _ => exact .stay (Regs.writes_agree ws hr) hw
  | jump target _ => exact .leave (.enter _ _ hr hw)
  | ret vs _ => exact .leave .done
  | stop o _ => exact .leave .done

theorem IRInstr.flow_lowEq_of_not_isAccess {i : IRInstr} (hp : i.isPlain)
    (ha : i.isAccess = false) (hk : i.Keeps N G) {σ τ e e' : Regs} {w w' : World}
    (hr : σ.LowEq G τ) (he : e.LowEq G e') (hw : w.LowEq P w') (label : String)
    (pred : Option String) :
    ((i.effect M (·.eval M σ) (·.eval M e) pred w).flow label σ).LowEq G P
      ((i.effect M (·.eval M τ) (·.eval M e') pred w').flow label τ) := by
  by_cases hs : ∃ r ∈ i.usedRegs, G r
  swap
  · -- without secrets among its operands it has the same effect
    have hno : ∀ r ∈ i.usedRegs, ¬ G r := fun r hu hg => hs ⟨r, hu, hg⟩
    have heq := i.effect_congr M pred w (fun r hu => hr r (hno r hu)) fun r hu => he r (hno r hu)
    have hself := effect_withWorld (M := M) hp ha (·.eval M σ) (·.eval M e) pred w w
    rw [effect_withWorld hp ha _ _ pred w w', ← heq]
    generalize i.effect M (·.eval M σ) (·.eval M e) pred w = eff at hself ⊢
    have hflow := Effect.flow_withWorld_lowEq eff label hr hw
    rwa [← hself] at hflow
  have hwrites : ∀ {ws ws' : List (IRValue × Word)} {w₁ w₂ : World}, (∀ d ∈ i.definedRegs, G d) →
      i.effect M (·.eval M σ) (·.eval M e) pred w = .next ws w₁ →
      i.effect M (·.eval M τ) (·.eval M e') pred w' = .next ws' w₂ →
      (σ.writes ws).LowEq G (τ.writes ws') := by
    intro ws ws' w₁ w₂ hdef h h' r hg
    rw [effect_frame h fun hd => hg (hdef r hd), effect_frame h' fun hd => hg (hdef r hd)]
    exact hr r hg
  by_cases hcontrol : i.isControl = true
  · cases i with
    | ret values => exact .leave .done
    | branch target =>
      obtain ⟨r, hu, -⟩ := hs
      cases hu
    | condBranch cond t f =>
      obtain ⟨r, hu, hg⟩ := hs
      exact absurd hg (hk r hu)
    | _ => cases hcontrol
  rw [Bool.not_eq_true] at hcontrol
  have hloud : i.isLoud = false := by
    cases i with
    | load | store | channelSend => cases ha
    | _ => first | rfl | cases hp
  obtain ⟨hdiv, hdef⟩ : (∀ r ∈ i.divisorRegs, ¬ G r) ∧ ∀ d ∈ i.definedRegs, G d := by
    cases i with
    | load | store | channelSend => cases ha
    | condBranch => cases hcontrol
    | _ => exact ⟨hk.1, hk.2 hs⟩
  rcases effect_quiet M pred σ e w hloud hcontrol with ⟨ws, h⟩ | ⟨-, h⟩
  · rcases effect_quiet M pred τ e' w' hloud hcontrol with ⟨ws', h'⟩ | ⟨-, h'⟩
    · rw [h, h']
      exact .stay (hwrites hdef h h') hw
    · have := effect_eq_stop hp ha (fun r hd => (hr r (hdiv r hd)).symm) h' e w
      rw [h] at this
      cases this
  · rw [effect_eq_stop hp ha (fun r hd => hr r (hdiv r hd)) h e' w', h]
    exact .leave .done

/-! ## Accesses -/

/-- Accesses of two runs: those through secret registers stay in `P`, and those that both runs do
through another register stay out of it. -/
structure Separated (G : VReg → Prop) (P : Set Word) (A B : List (VReg × Set Word)) : Prop where
  left : ∀ p ∈ A, G p.1 → p.2 ⊆ P
  right : ∀ p ∈ B, G p.1 → p.2 ⊆ P
  both : ∀ p ∈ A, p ∈ B → ¬ G p.1 → Disjoint p.2 P

theorem Separated.append {A B A' B' : List (VReg × Set Word)}
    (h : Separated G P (A ++ A') (B ++ B')) : Separated G P A B ∧ Separated G P A' B' := by
  constructor
  · exact ⟨fun p hp => h.left p (List.mem_append_left _ hp),
      fun p hp => h.right p (List.mem_append_left _ hp),
      fun p hp hp' => h.both p (List.mem_append_left _ hp) (List.mem_append_left _ hp')⟩
  · exact ⟨fun p hp => h.left p (List.mem_append_right _ hp),
      fun p hp => h.right p (List.mem_append_right _ hp),
      fun p hp hp' => h.both p (List.mem_append_right _ hp) (List.mem_append_right _ hp')⟩

/-- What is written through a secret register stays in `P`. -/
theorem World.LowEq.store {w w' : World} (hw : w.LowEq P w') {addr addr' : Word}
    {bytes bytes' : List Byte} (h : byteRange addr bytes.length ⊆ P)
    (h' : byteRange addr' bytes'.length ⊆ P) :
    (w.store addr bytes).LowEq P (w'.store addr' bytes') := by
  intro a ha
  calc World.writeBytes w.mem addr bytes a = w.mem a :=
        World.writeBytes_of_not_mem fun hin => ha (h hin)
    _ = w'.mem a := hw a ha
    _ = World.writeBytes w'.mem addr' bytes' a :=
        (World.writeBytes_of_not_mem fun hin => ha (h' hin)).symm

theorem IRValue.avoids_register {r : VReg} : (IRValue.register r).Avoids G ↔ ¬ G r := by
  simp [Avoids]

theorem IRInstr.load_lowEq {d a : VReg} {off : Int} {ty : IRType}
    (hk : (IRInstr.load (.register d) (.register a) off ty).Keeps N G) {σ τ : Regs} {w w' : World}
    (hr : σ.LowEq G τ) (hw : w.LowEq P w')
    (hsep : Separated G P ((IRInstr.load (.register d) (.register a) off ty).access M (·.eval M σ))
      ((IRInstr.load (.register d) (.register a) off ty).access M (·.eval M τ))) :
    (σ.writes [(.register d, M.load ty w.mem (σ a + BitVec.ofInt 64 off))]).LowEq G
      (τ.writes [(.register d, M.load ty w'.mem (τ a + BitVec.ofInt 64 off))]) := by
  intro r hg
  simp only [Regs.writes, List.foldl_cons, List.foldl_nil, Regs.write]
  by_cases hrd : r = d
  · subst hrd
    have ha : ¬ G a := by
      rcases hk with hk | hk
      · exact IRValue.avoids_register.mp hk
      · exact absurd (hk r (by simp)) hg
    have hdisj := hsep.both _ (List.mem_singleton_self _)
      (by simp only [IRInstr.access, IRValue.eval, hr a ha, List.mem_singleton_self]) ha
    rw [Function.update_self, Function.update_self, ← hr a ha]
    exact Machine.load_congr fun b hb => hw b (Set.disjoint_left.mp hdisj hb)
  · rw [Function.update_of_ne hrd, Function.update_of_ne hrd]
    exact hr r hg

section

variable [DecidablePred N]

theorem IRInstr.store_lowEq {value : IRValue} {a : VReg} {off : Int} {ty : IRType}
    (hk : (IRInstr.store value (.register a) off ty).Keeps N G) (hN : ∀ r, N r → G r)
    {σ τ : Regs} {w w' : World} (hr : σ.LowEq G τ) (hw : w.LowEq P w')
    (hsep : Separated G P ((IRInstr.store value (.register a) off ty).access M (·.eval M σ))
      ((IRInstr.store value (.register a) off ty).access M (·.eval M τ))) :
    (IRInstr.store value (.register a) off ty).output M N (·.eval M σ) =
        (IRInstr.store value (.register a) off ty).output M N (·.eval M τ) ∧
      (w.store (σ a + BitVec.ofInt 64 off) (M.encode ty (value.eval M σ))).LowEq P
        (w'.store (τ a + BitVec.ofInt 64 off) (M.encode ty (value.eval M τ))) := by
  by_cases hn : N a
  · have hout : ¬ (IRValue.register a).Avoids N := fun h => IRValue.avoids_register.mp h hn
    constructor
    · simp only [output, if_neg hout]
    · refine hw.store ?_ ?_
      · rw [Machine.length_encode]
        exact hsep.left _ (List.mem_singleton_self _) (hN a hn)
      · rw [Machine.length_encode]
        exact hsep.right _ (List.mem_singleton_self _) (hN a hn)
  · obtain ⟨ha, hv⟩ := hk (IRValue.avoids_register.mpr hn)
    have haddr : σ a = τ a := hr a (IRValue.avoids_register.mp ha)
    have hvalue : value.eval M σ = value.eval M τ := hr.eval_eq hv
    constructor
    · have hea : (IRValue.register a).eval M σ = (IRValue.register a).eval M τ := haddr
      simp only [output, hvalue, hea]
    · rw [haddr, hvalue]
      exact fun b hb => World.writeBytes_agree (.inr (hw b hb))

theorem IRInstr.send_lowEq {ch msg : IRValue} {ty : Option IRType}
    (hk : (IRInstr.channelSend ch msg ty).Keeps N G) {σ τ : Regs} (hr : σ.LowEq G τ) :
    (IRInstr.channelSend ch msg ty).output M N (·.eval M σ) =
      (IRInstr.channelSend ch msg ty).output M N (·.eval M τ) := by
  by_cases hn : ch.Avoids N
  · obtain ⟨hc, hm⟩ := hk hn
    simp only [output, hr.eval_eq hc, hr.eval_eq hm]
  · simp only [output, if_neg hn]

theorem IRInstr.effect_send (hquiet : M.SendsQuietly) (ch msg : IRValue) (ty : Option IRType)
    (ev edge : IRValue → Word) (pred : Option String) (w : World) :
    ∃ w₁, (IRInstr.channelSend ch msg ty).effect M ev edge pred w = .next [] w₁ ∧
      w₁.mem = w.mem := by
  obtain ⟨r, hrespond, hmem⟩ :=
    hquiet (w.record (.channelSend (ev ch) (ev msg) ty)) (ev ch) (ev msg) ty
  refine ⟨⟨r.mem, .channelSend (ev ch) (ev msg) ty :: w.trace⟩, ?_, hmem⟩
  simp only [effect, Machine.external, hrespond]

/-- An instruction lets out the same and leads to flows that are the same but for secrets. -/
theorem IRInstr.lowEq {i : IRInstr} (hp : i.isPlain) (hk : i.Keeps N G) (hN : ∀ r, N r → G r)
    (hquiet : M.SendsQuietly) {σ τ e e' : Regs} {w w' : World} (hr : σ.LowEq G τ)
    (he : e.LowEq G e') (hw : w.LowEq P w') (label : String) (pred : Option String)
    (hsep : Separated G P (i.access M (·.eval M σ)) (i.access M (·.eval M τ))) :
    i.output M N (·.eval M σ) = i.output M N (·.eval M τ) ∧
      ((i.effect M (·.eval M σ) (·.eval M e) pred w).flow label σ).LowEq G P
        ((i.effect M (·.eval M τ) (·.eval M e') pred w').flow label τ) := by
  by_cases ha : i.isAccess = true
  swap
  · rw [Bool.not_eq_true] at ha
    refine ⟨?_, flow_lowEq_of_not_isAccess hp ha hk hr he hw label pred⟩
    cases i with
    | load | store | channelSend => cases ha
    | _ => rfl
  cases i with
  | load dst addr off ty =>
    cases dst with
    | register d =>
      cases addr with
      | register a => exact ⟨rfl, .stay (load_lowEq hk hr hw hsep) hw⟩
      | _ => cases hp
    | _ => cases hp
  | store value addr off ty =>
    cases addr with
    | register a =>
      obtain ⟨hout, hstore⟩ := store_lowEq hk hN hr hw hsep
      exact ⟨hout, .stay hr hstore⟩
    | _ => cases hp
  | channelSend ch msg ty =>
    refine ⟨send_lowEq hk hr, ?_⟩
    obtain ⟨w₁, h₁, hm₁⟩ := effect_send hquiet ch msg ty (·.eval M σ) (·.eval M e) pred w
    obtain ⟨w₂, h₂, hm₂⟩ := effect_send hquiet ch msg ty (·.eval M τ) (·.eval M e') pred w'
    rw [h₁, h₂]
    refine .stay hr fun b hb => ?_
    rw [hm₁, hm₂]
    exact hw b hb
  | _ => cases ha

end

/-! ## Blocks and runs -/

section

variable [DecidablePred N]

theorem instrs_lowEq {is : List IRInstr} (hk : ∀ i ∈ is, i.isPlain ∧ i.Keeps N G)
    (hN : ∀ r, N r → G r) (hquiet : M.SendsQuietly) {e e' : Regs} (he : e.LowEq G e')
    (label : String) (pred : Option String) {σ τ : Regs} {w w' : World} (hr : σ.LowEq G τ)
    (hw : w.LowEq P w')
    (hsep : Separated G P (instrAccesses M pred e is σ w) (instrAccesses M pred e' is τ w')) :
    instrOutputs M N pred e is σ w = instrOutputs M N pred e' is τ w' ∧
      (execInstrs M label pred e is σ w).LowEq G P (execInstrs M label pred e' is τ w') := by
  induction is generalizing σ τ w w' with
  | nil => exact ⟨rfl, .stay hr hw⟩
  | cons i is ih =>
    simp only [instrAccesses] at hsep
    obtain ⟨hhere, hrest⟩ := hsep.append
    obtain ⟨hplain, hkeeps⟩ := hk i (List.mem_cons_self ..)
    obtain ⟨hout, hflow⟩ := IRInstr.lowEq hplain hkeeps hN hquiet hr he hw label pred hhere
    simp only [instrOutputs, execInstrs, hout]
    generalize i.effect M (·.eval M σ) (·.eval M e) pred w = eff at hrest hflow ⊢
    generalize i.effect M (·.eval M τ) (·.eval M e') pred w' = eff' at hrest hflow ⊢
    cases eff with
    | next ws w₁ =>
      cases eff' with
      | next ws' w₂ =>
        cases hflow with
        | stay hr' hw' =>
          have hk' : ∀ j ∈ is, j.isPlain ∧ j.Keeps N G :=
            fun j hj => hk j (List.mem_cons_of_mem _ hj)
          obtain ⟨houts, hexec⟩ := ih hk' hr' hw' hrest
          exact ⟨congrArg _ houts, hexec⟩
      | _ => cases hflow
    | _ =>
      cases eff' with
      | next => cases hflow
      | _ =>
        cases hflow with
        | leave h => exact ⟨rfl, .leave h⟩

omit [DecidablePred N] in
/-- The end of a block. -/
theorem IRTerminator.exec_lowEq {t : IRTerminator} (hp : t.isPlain) (hk : t.Keeps G)
    (label : String) {σ τ : Regs} {w w' : World} (hr : σ.LowEq G τ) (hw : w.LowEq P w') :
    (t.exec M label σ w).LowEq G P (t.exec M label τ w') := by
  cases t with
  | jump target => exact .enter _ _ hr hw
  | branch cond tt ff | switch cond targets default =>
    simp only [exec, hr.eval_eq hk]
    exact .enter _ _ hr hw
  | ret values => exact .done
  | unreachable => exact .done
  | _ => cases hp

theorem Flow.LowEq.finish {fl fl' : Flow} (h : fl.LowEq G P fl') {k k' : Regs → World → Config}
    (hk : ∀ {σ τ w w'}, σ.LowEq G τ → w.LowEq P w' → (k σ w).LowEq G P (k' τ w')) :
    (fl.finish k).LowEq G P (fl'.finish k') := by
  cases h with
  | stay hr hw => exact hk hr hw
  | leave h => exact h

/-- One block of two runs. -/
theorem IRFunction.step_lowEq {f : IRFunction} (hk : f.Keeps N G) (hN : ∀ r, N r → G r)
    (hquiet : M.SendsQuietly) {c c' : Config} (hc : c.LowEq G P c')
    (hsep : Separated G P (f.accesses M c) (f.accesses M c')) :
    f.outputs M N c = f.outputs M N c' ∧ (f.step M c).LowEq G P (f.step M c') := by
  cases hc with
  | done => exact ⟨rfl, .done⟩
  | enter label pred hr hw =>
    simp only [outputs, step, accesses] at hsep ⊢
    cases hb : f.blockAt label with
    | none => exact ⟨rfl, .done⟩
    | some b =>
      rw [hb] at hsep
      obtain ⟨hinstr, hplain, hterm⟩ := hk b (List.mem_of_find?_eq_some hb)
      obtain ⟨hout, hflow⟩ := instrs_lowEq hinstr hN hquiet hr b.label pred hr hw hsep
      refine ⟨hout, ?_⟩
      exact hflow.finish fun hr' hw' => IRTerminator.exec_lowEq hplain hterm b.label hr' hw'

omit [DecidablePred N] in
theorem IRFunction.start_lowEq (f : IRFunction) {σ τ : Regs} (hr : σ.LowEq G τ) (w : World) :
    (f.start σ w).LowEq G P (f.start τ w) := by
  unfold start
  cases f.blocks with
  | nil => exact .done
  | cons b bs => exact .enter _ _ hr fun _ _ => rfl

/-- A byte is accessed through a secret register in one of two runs. -/
def IRFunction.secretBytes (M : Machine) (f : IRFunction) (G : VReg → Prop) (σ τ : Regs)
    (w : World) : Set Word :=
  {a | ∃ r, G r ∧ (f.Accessed M σ w r a ∨ f.Accessed M τ w r a)}

omit [DecidablePred N] in
/-- If every byte is accessed through one register only, then secret bytes are accessed through
secret registers only. -/
theorem IRFunction.OneRegister.separated {f : IRFunction} {σ τ : Regs} {w : World}
    (hσ : f.OneRegister M σ w) (hτ : f.OneRegister M τ w) (n : Nat) :
    Separated G (f.secretBytes M G σ τ w) (f.accesses M (f.run M σ w n))
      (f.accesses M (f.run M τ w n)) where
  left p hp hg a ha := ⟨p.1, hg, .inl ⟨n, p, hp, rfl, ha⟩⟩
  right p hp hg a ha := ⟨p.1, hg, .inr ⟨n, p, hp, rfl, ha⟩⟩
  both := by
    intro p hp hp' hg
    refine Set.disjoint_left.mpr ?_
    rintro a ha ⟨r, hr, hacc | hacc⟩
    · exact hg (hσ p.1 r a ⟨n, p, hp, rfl, ha⟩ hacc ▸ hr)
    · exact hg (hτ p.1 r a ⟨n, p, hp', rfl, ha⟩ hacc ▸ hr)

theorem IRFunction.run_lowEq {f : IRFunction} (hk : f.Keeps N G) (hN : ∀ r, N r → G r)
    (hquiet : M.SendsQuietly) {σ τ : Regs} {w : World} (hr : σ.LowEq G τ)
    (hσ : f.OneRegister M σ w) (hτ : f.OneRegister M τ w) (n : Nat) :
    (f.run M σ w n).LowEq G (f.secretBytes M G σ τ w) (f.run M τ w n) := by
  induction n with
  | zero => exact f.start_lowEq hr w
  | succ n ih =>
    simp only [run, Function.iterate_succ_apply'] at ih ⊢
    exact (step_lowEq hk hN hquiet ih (hσ.separated hτ n)).2

/-- A function that keeps its secrets lets out the same, whatever the secrets are. -/
theorem IRFunction.Keeps.sameOutputs {f : IRFunction} (hk : f.Keeps N G) (hN : ∀ r, N r → G r)
    (hquiet : M.SendsQuietly) {σ τ : Regs} {w : World} (hr : σ.LowEq N τ)
    (hσ : f.OneRegister M σ w) (hτ : f.OneRegister M τ w) : f.SameOutputs M N σ τ w := by
  have hrG : σ.LowEq G τ := fun r hg => hr r fun hn => hg (hN r hn)
  have hruns : ∀ n, f.runOutputs M N σ w n = f.runOutputs M N τ w n := by
    intro n
    refine List.flatMap_congr fun k _ => ?_
    exact (step_lowEq hk hN hquiet (run_lowEq hk hN hquiet hrG hσ hτ k) (hσ.separated hτ k)).1
  exact ⟨fun n => ⟨n, hruns n ▸ List.prefix_rfl⟩, fun n => ⟨n, hruns n ▸ List.prefix_rfl⟩⟩

end

end Vuma.IR
