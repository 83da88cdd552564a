import Vuma.Opt.EqSat
import Vuma.Opt.EGraphSaturate
import Vuma.Opt.DeadCode

/-!
# Equality saturation preserves runs

The e-graph of a block has a model in every run: the first class of a register has what the register
holds when arithmetic first reads it. The model extends to the saturated e-graph. Where
`eqSatSafe` says that registers hold the values of their classes, the new instruction does what the
old one did.
-/

namespace Vuma.Opt

open IR

/-! ## Operations -/

/-- The operations as the e-graph of a block has them. -/
def opValue (hasDiv : Bool) : OpValue := fun op =>
  if op = .udiv ∧ hasDiv then evalOp .sdiv else evalOp op

theorem standard_opValue (hasDiv : Bool) : (opValue hasDiv).Standard := by
  intro op hop
  refine if_neg fun h => ?_
  rw [h.1] at hop
  cases hop

theorem intBinOp_of_not_division {op : BinOpKind} (h : isDivision op = false) (a b : Word) :
    intBinOp op none a b = some (evalOp op a b) := by
  obtain ⟨v, hv⟩ := binOp_isSome (M := default) none a b h
  have hv' : intBinOp op none a b = some v := hv
  rw [evalOp, hv']
  rfl

theorem evalOp_of_intBinOp {op : BinOpKind} {a b v : Word} (h : intBinOp op none a b = some v) :
    evalOp op a b = v := by
  rw [evalOp, h]
  rfl

/-- The operation that an arithmetic instruction performs. -/
def performs : IRInstr → BinOpKind
  | .binOp op .. => op
  | .add .. => .add
  | .sub .. => .sub
  | .mul .. => .mul
  | _ => .sdiv

theorem intBinOp_of_64Bit {ty : Option IRType}
    (h : (opWidth ty == 64 && !(ty.map IRType.isFloat).getD false) = true) (op : BinOpKind)
    (a b : Word) : intBinOp op ty a b = intBinOp op none a b := by
  cases ty with
  | none => rfl
  | some t => cases t <;> first | rfl | cases h

theorem binOp_of_64Bit {ty : Option IRType}
    (h : (opWidth ty == 64 && !(ty.map IRType.isFloat).getD false) = true) (M : Machine)
    (op : BinOpKind) (a b : Word) : M.binOp op ty a b = intBinOp op none a b := by
  cases ty with
  | none => rfl
  | some t => cases t <;> first | rfl | cases h

/-- Write the result of an operation, or trap. -/
def resultEffect (dst : IRValue) (w : World) : Option Word → Effect
  | some v => .next [(dst, v)] w
  | none => .stop .trap w

/-- What an arithmetic instruction on 64-bit integers does. -/
theorem effect_arithmetic (M : Machine) (ev edge : IRValue → Word) (pred : Option String)
    (w : World) {i : IRInstr} (hi : is64Bit i) {op : BinOpKind} {dst lhs rhs : IRValue}
    (ha : arithmetic i = some (op, dst, lhs, rhs)) :
    i.effect M ev edge pred w =
      resultEffect dst w (intBinOp (performs i) none (ev lhs) (ev rhs)) := by
  cases i with
  | binOp op dst lhs rhs ty =>
    cases ha
    simp only [IRInstr.effect, performs, binOp_of_64Bit hi]
    cases intBinOp op none (ev lhs) (ev rhs) <;> rfl
  | add dst lhs rhs ty | sub dst lhs rhs ty | mul dst lhs rhs ty =>
    cases ha
    rw [performs, ← intBinOp_of_64Bit hi]
    rfl
  | div dst lhs rhs ty =>
    cases ha
    simp only [IRInstr.effect, performs, intBinOp_of_64Bit hi]
    cases intBinOp .sdiv none (ev lhs) (ev rhs) <;> rfl
  | _ => cases ha

theorem usedRegs_of_arithmetic {i : IRInstr} {op : BinOpKind} {dst lhs rhs : IRValue}
    (ha : arithmetic i = some (op, dst, lhs, rhs)) :
    i.usedRegs = lhs.regs ++ rhs.regs ∧ i.definedRegs = dst.regs := by
  cases i <;> first | (cases ha; exact ⟨rfl, rfl⟩) | cases ha

/-! ## The tables -/

namespace SatTables

open EGraph

/-- The numbers that the leaves of an e-graph use. -/
def synthetic (k : Nat) : Prop := 1000000 ≤ k

/-- What holds of the tables at any time of the first pass. -/
structure Ok (ev : OpValue) (t : SatTables) : Prop where
  reach : Reach ev synthetic {} t.graph
  classes : ∀ r c, t.vregToEclass r = some c → c < t.graph.nextId
  immediates : ∀ c v, t.eclassToValue c = some (.immediate v) →
    t.graph.Mem (.lit v) (t.graph.find c)

variable {ev : OpValue} {t : SatTables}

theorem Ok.inv (h : t.Ok ev) : t.graph.Inv := h.reach.inv Inv.empty

/-- Nodes keep their classes while the graph grows. -/
theorem Ok.mem_find {g : EGraph} (h : t.Ok ev) (hreach : Reach ev synthetic t.graph g) {n : ENode}
    {c : EClassId} (hn : t.graph.Mem n (t.graph.find c)) : g.Mem n (g.find c) := by
  rw [hreach.find_congr h.inv (h.inv.find_find c).symm]
  exact hreach.mem h.inv hn

theorem Ok.of_reach (h : t.Ok ev) {t' : SatTables} (hreach : Reach ev synthetic t.graph t'.graph)
    (hclasses : ∀ r c, t'.vregToEclass r = some c →
      t.vregToEclass r = some c ∨ c < t'.graph.nextId)
    (hvalues : ∀ c v, t'.eclassToValue c = some (.immediate v) →
      t.eclassToValue c = some (.immediate v) ∨ t'.graph.Mem (.lit v) (t'.graph.find c)) :
    t'.Ok ev := by
  refine ⟨h.reach.trans hreach, fun r c hc => ?_, fun c v hv => ?_⟩
  · rcases hclasses r c hc with hc | hc
    · exact (h.classes r c hc).trans_le hreach.next_le
    · exact hc
  · rcases hvalues c v hv with hv | hv
    · exact h.mem_find hreach (h.immediates c v hv)
    · exact hv

theorem reach_register (h : t.Ok ev) {r : VReg} (hr : 1000000 + r < 2 ^ 32) :
    (t.register r).Ok ev ∧ Reach ev synthetic t.graph (t.register r).graph ∧
      ∀ q c, (t.register r).vregToEclass q = some c → t.vregToEclass q = some c ∨
        (t.register r).graph.Mem (.vreg (1000000 + q)) ((t.register r).graph.find c) := by
  unfold register
  split
  · exact ⟨h, .refl, fun q c hc => .inl hc⟩
  have hsyn : ∀ k ∈ (ENode.vreg (1000000 + r)).refs, t.graph.Known k ∨ synthetic k := by
    simp [ENode.refs, synthetic]
  obtain ⟨hreach, hlt, hmem⟩ : Reach ev synthetic t.graph _ ∧ _ := h.inv.reach_add hsyn
  rw [Nat.mod_eq_of_lt hr]
  refine ⟨h.of_reach hreach (fun q c hc => ?_) fun c v hv => ?_, hreach, fun q c hc => ?_⟩
  · simp only [Function.update_apply] at hc
    split at hc
    · cases hc
      exact .inr hlt
    · exact .inl hc
  · simp only [Function.update_apply] at hv
    split at hv
    · cases hv
    · exact .inl hv
  · simp only [Function.update_apply] at hc
    split at hc
    · next hq =>
      cases hc
      subst hq
      exact .inr hmem
    · exact .inl hc

theorem known_valueToENode (h : t.Ok ev) (x : IRValue) :
    ∀ k ∈ (valueToENode t.vregToEclass x).refs, t.graph.Known k := by
  intro k hk
  unfold valueToENode at hk
  split at hk
  · cases hk
  · next r =>
    split at hk
    · next c hc =>
      rw [ENode.refs, List.mem_singleton] at hk
      exact .inl (hk ▸ h.classes r c hc)
    · cases hk
  · cases hk

/-- What the first pass does at an arithmetic instruction, with `l`, `r` and `b` the classes of its
operands and of its result. -/
structure Added (ev : OpValue) (t t' : SatTables) (op : BinOpKind) (dst lhs rhs : IRValue)
    (l r b : EClassId) : Prop where
  reach : Reach ev synthetic t.graph t'.graph
  left : t'.graph.Mem (valueToENode t.vregToEclass lhs) (t'.graph.find l)
  right : t'.graph.Mem (valueToENode t.vregToEclass rhs) (t'.graph.find r)
  result : t'.graph.Mem (.binOp op l r) (t'.graph.find b)
  lt : b < t'.graph.nextId
  classes : t'.vregToEclass =
    (dst.asRegister.map fun d => Function.update t.vregToEclass d (some b)).getD t.vregToEclass
  values : ∀ c v, t'.eclassToValue c = some (.immediate v) →
    t.eclassToValue c = some (.immediate v) ∨ c = l ∧ lhs = .immediate v ∨
      c = r ∧ rhs = .immediate v

theorem orInsert_eq_some {values : EClassId → Option IRValue} {c c' : EClassId} {x y : IRValue}
    (h : orInsert values c x c' = some y) : values c' = some y ∨ c' = c ∧ x = y := by
  unfold orInsert at h
  rw [Function.update_apply] at h
  split at h
  · next hc =>
    subst hc
    cases hv : values c' with
    | none =>
      rw [hv] at h
      exact .inr ⟨rfl, by simpa using h⟩
    | some z =>
      rw [hv] at h
      exact .inl (by simpa using h)
  · exact .inl h

theorem exists_added (h : t.Ok ev) {i : IRInstr} {op : BinOpKind} {dst lhs rhs : IRValue}
    (ha : arithmetic i = some (op, dst, lhs, rhs)) :
    ∃ l r b, Added ev t (t.addInstr i) op dst lhs rhs l r b := by
  -- The three nodes are added one after the other.
  obtain ⟨hreach₁, hlt₁, hmem₁⟩ : Reach ev synthetic t.graph _ ∧ _ :=
    h.inv.reach_add fun k hk => .inl (known_valueToENode h lhs k hk)
  have hinv₁ := hreach₁.inv h.inv
  generalize hl : t.graph.add (valueToENode t.vregToEclass lhs) = l at hreach₁ hlt₁ hmem₁ hinv₁
  obtain ⟨hreach₂, hlt₂, hmem₂⟩ : Reach ev synthetic l.2 _ ∧ _ :=
    hinv₁.reach_add fun k hk => .inl (hreach₁.known h.inv (known_valueToENode h rhs k hk))
  have hinv₂ := hreach₂.inv hinv₁
  generalize hr : l.2.add (valueToENode t.vregToEclass rhs) = r at hreach₂ hlt₂ hmem₂ hinv₂
  have hrefs : ∀ k ∈ (ENode.binOp op l.1 r.1).refs, r.2.Known k ∨ synthetic k :=
    ENode.forall_refs_binOp.2 ⟨.inl (.inl (hlt₁.trans_le hreach₂.next_le)), .inl (.inl hlt₂)⟩
  obtain ⟨hreach₃, hlt₃, hmem₃⟩ : Reach ev synthetic r.2 _ ∧ _ := hinv₂.reach_add hrefs
  generalize hb : r.2.add (.binOp op l.1 r.1) = b at hreach₃ hlt₃ hmem₃
  have hreach₁₃ := hreach₂.trans hreach₃
  have hlhs : b.2.Mem (valueToENode t.vregToEclass lhs) (b.2.find l.1) := by
    rw [hreach₁₃.find_congr hinv₁ (hinv₁.find_find l.1).symm]
    exact hreach₁₃.mem hinv₁ hmem₁
  have hrhs : b.2.Mem (valueToENode t.vregToEclass rhs) (b.2.find r.1) := by
    rw [hreach₃.find_congr hinv₂ (hinv₂.find_find r.1).symm]
    exact hreach₃.mem hinv₂ hmem₂
  have hvalues : ∀ c v, orInsert (orInsert t.eclassToValue l.1 lhs) r.1 rhs c =
      some (.immediate v) → t.eclassToValue c = some (.immediate v) ∨
        c = l.1 ∧ lhs = .immediate v ∨ c = r.1 ∧ rhs = .immediate v := by
    intro c v hv
    rcases orInsert_eq_some hv with hv | hv
    · exact (orInsert_eq_some hv).imp_right .inl
    · exact .inr (.inr hv)
  refine ⟨l.1, r.1, b.1, ?_⟩
  unfold addInstr
  simp only [ha, hl, hr, hb]
  cases hd : dst.asRegister with
  | none =>
    exact ⟨hreach₁.trans hreach₁₃, hlhs, hrhs, hmem₃, hlt₃, by rw [hd]; rfl, hvalues⟩
  | some d =>
    refine ⟨hreach₁.trans hreach₁₃, hlhs, hrhs, hmem₃, hlt₃, by rw [hd]; rfl, fun c v hv => ?_⟩
    simp only [Function.update_apply] at hv
    split at hv
    · cases hv
      cases hd
    · exact hvalues c v hv

theorem Added.ok (h : t.Ok ev) {t' : SatTables} {op : BinOpKind} {dst lhs rhs : IRValue}
    {l r b : EClassId} (hadd : Added ev t t' op dst lhs rhs l r b) : t'.Ok ev := by
  refine h.of_reach hadd.reach (fun q c hc => ?_) fun c v hv => ?_
  · rw [hadd.classes] at hc
    cases hd : dst.asRegister with
    | none =>
      rw [hd] at hc
      exact .inl hc
    | some d =>
      rw [hd] at hc
      simp only [Option.map_some, Option.getD_some, Function.update_apply] at hc
      split at hc
      · cases hc
        exact .inr hadd.lt
      · exact .inl hc
  · rcases hadd.values c v hv with hv | ⟨rfl, rfl⟩ | ⟨rfl, rfl⟩
    · exact .inl hv
    · exact .inr hadd.left
    · exact .inr hadd.right

theorem reach_addInstr (h : t.Ok ev) (i : IRInstr) :
    (t.addInstr i).Ok ev ∧ Reach ev synthetic t.graph (t.addInstr i).graph := by
  cases ha : arithmetic i with
  | none =>
    rw [addInstr, ha]
    exact ⟨h, .refl⟩
  | some a =>
    obtain ⟨op, dst, lhs, rhs⟩ := a
    obtain ⟨l, r, b, hadd⟩ := exists_added h ha
    exact ⟨hadd.ok h, hadd.reach⟩

theorem reach_foldl_addInstr (h : t.Ok ev) (is : List IRInstr) :
    (is.foldl addInstr t).Ok ev ∧ Reach ev synthetic t.graph (is.foldl addInstr t).graph := by
  induction is generalizing t with
  | nil => exact ⟨h, .refl⟩
  | cons i is ih =>
    obtain ⟨hok, hreach⟩ := reach_addInstr h i
    obtain ⟨hok', hreach'⟩ := ih hok
    exact ⟨hok', hreach.trans hreach'⟩

theorem Ok.empty : Ok ev {} := by
  refine ⟨.refl, fun r c h => ?_, fun c v h => ?_⟩
  · cases h
  · cases h

/-- The first class of a register is its own leaf. -/
theorem ok_leaves (env : SatEnv) {is : List IRInstr}
    (hr : ∀ r ∈ allRegs is, 1000000 + r < 2 ^ 32) :
    (leaves env is).Ok ev ∧ ∀ q c, (leaves env is).vregToEclass q = some c →
      (leaves env is).graph.Mem (.vreg (1000000 + q)) ((leaves env is).graph.find c) := by
  refine List.foldlRecOn (motive := fun t : SatTables => t.Ok ev ∧ ∀ q c,
    t.vregToEclass q = some c → t.graph.Mem (.vreg (1000000 + q)) (t.graph.find c)) _ _ ?_
    fun t ht r hmem => ?_
  · refine ⟨.empty, fun q c hc => ?_⟩
    cases hc
  · obtain ⟨hok, hleaf⟩ := ht
    obtain ⟨hok', hreach, hnew⟩ := reach_register hok (hr r ((env.regs.perm _).mem_iff.1 hmem))
    refine ⟨hok', fun q c hc => ?_⟩
    rcases hnew q c hc with hc | hc
    · exact hok.mem_find hreach (hleaf q c hc)
    · exact hc

end SatTables

/-! ## Values in a run -/

section

variable {ev : OpValue} {v : Nat → Word} {t t' : SatTables} {M : Machine} {σ : Regs}
  {current : VReg → Option EClassId}

open EGraph

theorem SatTables.Added.value {op : BinOpKind} {dst lhs rhs : IRValue} {l r b : EClassId}
    (hadd : Added ev t t' op dst lhs rhs l r b) (hv : Models ev v t'.graph) :
    v l = (valueToENode t.vregToEclass lhs).value ev v ∧
      v r = (valueToENode t.vregToEclass rhs).value ev v ∧ v b = ev op (v l) (v r) := by
  refine ⟨?_, ?_, ?_⟩
  · rw [hv.nodes _ _ hadd.left, hv.ids]
  · rw [hv.nodes _ _ hadd.right, hv.ids]
  · rw [← hv.ids b, ← hv.nodes _ _ hadd.result, ENode.value]

variable (hcurrent : ∀ r c, current r = some c → σ r = v c)
include hcurrent

theorem eval_of_operandOk {x : IRValue} (hx : operandOk current t x) :
    x.eval M σ = (valueToENode t.vregToEclass x).value ev v := by
  cases x with
  | immediate c => rfl
  | register r =>
    simp only [operandOk, Bool.and_eq_true, beq_iff_eq] at hx
    obtain ⟨c, hc⟩ := Option.isSome_iff_exists.1 hx.1
    rw [valueToENode, ← hx.2, hc]
    exact hcurrent r c hc
  | address a => cases hx
  | label name => cases hx

theorem eval_of_valueOk (ht : t.Ok ev) (hv : Models ev v t.graph) {c : EClassId} {x : IRValue}
    (hc : t.eclassToValue c = some x) (hx : valueOk current t c x) : x.eval M σ = v c := by
  cases x with
  | immediate n =>
    rw [← hv.ids c, ← hv.nodes _ _ (ht.immediates c n hc)]
    rfl
  | register r =>
    simp only [valueOk, Option.any_eq_true, Bool.or_eq_true, beq_iff_eq] at hx
    obtain ⟨c', hc', rfl | hcons⟩ := hx
    · exact hcurrent r c' hc'
    · have hmem := (ht.inv.hashcons _ _ hcons).2
      rw [← hv.ids c, ← hv.nodes _ _ hmem]
      exact hcurrent r c' hc'
  | address a => cases hx
  | label name => cases hx

end

/-! ## Rewriting one instruction -/

namespace SatTables

open EGraph

theorem rewriteInstr_of_best_none {t : SatTables} {g : EGraph} {costFn : ENode → Nat} {i : IRInstr}
    {op : BinOpKind} {dst lhs rhs : IRValue} (ha : arithmetic i = some (op, dst, lhs, rhs))
    (h : t.best g costFn dst = none) : t.rewriteInstr g costFn i = i := by
  cases i <;> first
    | cases ha
      simp [rewriteInstr, h, binOpOperands, sumOperands, productOperands]
    | cases ha

section

variable {ev : OpValue} {v : Nat → Word} {t : SatTables} {g : EGraph} (costFn : ENode → Nat)
  (ht : t.Ok ev) (hreach : Reach ev synthetic t.graph g) (hv : Models ev v g)
include ht hreach hv

theorem exists_best {op : BinOpKind} {l r b : EClassId} {dst : IRValue}
    (hmem : t.graph.Mem (.binOp op l r) (t.graph.find b)) (hb : b < t.graph.nextId)
    (hdst : dst.asRegister.bind t.vregToEclass = some b) :
    ∃ n, t.best g costFn dst = some n ∧ n.value ev v = v b ∧ Alike ev g n (.binOp op l r) := by
  have hinv := hreach.inv ht.inv
  have hu : g.Uniform ev := by
    refine (ht.reach.trans hreach).uniform Inv.empty fun id n m hn => ?_
    obtain ⟨ns, hns, -⟩ := hn
    cases hns
  have hbest := extract_mem costFn hinv (hb.trans_le hreach.next_le)
  refine ⟨_, by rw [best, hdst]; rfl, ?_, hu _ _ _ hbest (ht.mem_find hreach hmem)⟩
  rw [hv.nodes _ _ hbest, hv.ids]

end

end SatTables

theorem intBinOp_add_zero (a : Word) : intBinOp .add none a 0 = some a := by
  rw [intBinOp_of_not_division rfl]
  simp

theorem intBinOp_sub_zero (a : Word) : intBinOp .sub none a 0 = some a := by
  rw [intBinOp_of_not_division rfl]
  simp

theorem intBinOp_mul_one (a : Word) : intBinOp .mul none a 1 = some a := by
  rw [intBinOp_of_not_division rfl]
  simp

section

open EGraph SatTables

variable {ev : OpValue} {v : Nat → Word} {g : EGraph} {M : Machine} {σ : Regs} {op : BinOpKind}
  {lhs rhs : IRValue} {l r b : EClassId} {n : ENode}

/-- An instruction whose operands and result are in the e-graph, with a node of its class that has
the value of the class. -/
structure Extracted (ev : OpValue) (v : Nat → Word) (g : EGraph) (M : Machine) (σ : Regs)
    (t : SatTables) (op : BinOpKind) (lhs rhs : IRValue) (l r b : EClassId) (n : ENode) :
    Prop where
  models : Models ev v g
  left : lhs.eval M σ = v l
  right : rhs.eval M σ = v r
  result : v b = ev op (v l) (v r)
  value : n.value ev v = v b
  alike : Alike ev g n (.binOp op l r)
  refs : ∀ c ∈ n.refs, ∀ x, t.eclassToValue c = some x → x.eval M σ = v c

variable {t : SatTables} (h : Extracted ev v g M σ t op lhs rhs l r b n) (hev : ev.Standard)
include h hev

theorem Extracted.intBinOp_eq (hop : isDivision op = false) :
    intBinOp op none (lhs.eval M σ) (rhs.eval M σ) = some (v b) := by
  rw [intBinOp_of_not_division hop, h.left, h.right, h.result, hev op hop]

theorem Extracted.sumOperands (hop : isDivision op = false)
    (hzero : ∀ a, intBinOp op none a 0 = some a) :
    intBinOp op none ((t.sumOperands (some n) lhs rhs).1.eval M σ)
        ((t.sumOperands (some n) lhs rhs).2.eval M σ) =
      intBinOp op none (lhs.eval M σ) (rhs.eval M σ) := by
  cases n with
  | lit c =>
    rw [h.intBinOp_eq hev hop, ← h.value]
    exact hzero c
  | vreg c =>
    simp only [SatTables.sumOperands]
    split
    · next x hx =>
      rw [h.intBinOp_eq hev hop, ← h.value, ENode.value,
        ← h.refs c (by simp [ENode.refs]) x hx]
      exact hzero _
    · rfl
  | binOp op' c c' => rfl

theorem Extracted.productOperands (hop : isDivision op = false)
    (hone : ∀ a, intBinOp op none a 1 = some a) :
    intBinOp op none ((productOperands (some n) lhs rhs).1.eval M σ)
        ((productOperands (some n) lhs rhs).2.eval M σ) =
      intBinOp op none (lhs.eval M σ) (rhs.eval M σ) := by
  cases n with
  | lit c =>
    rw [h.intBinOp_eq hev hop, ← h.value]
    exact hone c
  | vreg c => rfl
  | binOp op' c c' => rfl

theorem Extracted.binOpOperands :
    intBinOp (t.binOpOperands (some n) op lhs rhs).1 none
        ((t.binOpOperands (some n) op lhs rhs).2.1.eval M σ)
        ((t.binOpOperands (some n) op lhs rhs).2.2.eval M σ) =
      intBinOp op none (lhs.eval M σ) (rhs.eval M σ) := by
  cases n with
  | lit c =>
    have hop : isDivision op = false := h.alike.divides_eq.symm
    rw [h.intBinOp_eq hev hop, ← h.value]
    exact intBinOp_add_zero c
  | vreg c =>
    have hop : isDivision op = false := h.alike.divides_eq.symm
    simp only [SatTables.binOpOperands]
    split
    · next x hx =>
      rw [h.intBinOp_eq hev hop, ← h.value, ENode.value,
        ← h.refs c (by simp [ENode.refs]) x hx]
      exact intBinOp_add_zero _
    · rfl
  | binOp op' c c' =>
    simp only [SatTables.binOpOperands]
    split
    · next x y hx hy =>
      have hx' := h.refs c (by simp [ENode.refs]) x hx
      have hy' := h.refs c' (by simp [ENode.refs]) y hy
      have hvalue := h.value
      cases h.alike with
      | plain hop' hop =>
        rw [h.intBinOp_eq hev hop, ← hvalue, ENode.value, hx', hy', intBinOp_of_not_division hop',
          hev op' hop']
      | binOp heq =>
        obtain ⟨hl, hr⟩ := heq v h.models
        rw [hx', hy', hl, hr, h.left, h.right]
    · rfl

end

/-- The rewritten instruction does what the instruction did. -/
theorem effect_rewriteInstr {hasDiv : Bool} {v : Nat → Word} {g : EGraph} {M : Machine} {σ : Regs}
    {t : SatTables} {costFn : ENode → Nat} {i : IRInstr} {op : BinOpKind} {dst lhs rhs : IRValue}
    {l r b : EClassId} {n : ENode} (hi : is64Bit i)
    (ha : arithmetic i = some (op, dst, lhs, rhs)) (hn : t.best g costFn dst = some n)
    (h : Extracted (opValue hasDiv) v g M σ t op lhs rhs l r b n) (edge : IRValue → Word)
    (pred : Option String) (w : World) :
    (t.rewriteInstr g costFn i).effect M (·.eval M σ) edge pred w =
      i.effect M (·.eval M σ) edge pred w := by
  have hev := standard_opValue hasDiv
  have heffect : ∀ {i' : IRInstr} {op' : BinOpKind} {x y : IRValue}, is64Bit i' →
      arithmetic i' = some (op', dst, x, y) →
      intBinOp (performs i') none (x.eval M σ) (y.eval M σ) =
        intBinOp (performs i) none (lhs.eval M σ) (rhs.eval M σ) →
      i'.effect M (·.eval M σ) edge pred w = i.effect M (·.eval M σ) edge pred w := by
    intro i' op' x y hi' ha' hsame
    rw [effect_arithmetic M _ edge pred w hi' ha', effect_arithmetic M _ edge pred w hi ha, hsame]
  cases i with
  | binOp op dst lhs rhs ty =>
    cases ha
    simp only [SatTables.rewriteInstr, hn]
    exact heffect hi rfl (h.binOpOperands hev)
  | add dst lhs rhs ty =>
    cases ha
    simp only [SatTables.rewriteInstr, hn]
    exact heffect hi rfl (h.sumOperands hev rfl intBinOp_add_zero)
  | sub dst lhs rhs ty =>
    cases ha
    simp only [SatTables.rewriteInstr, hn]
    exact heffect hi rfl (h.sumOperands hev rfl intBinOp_sub_zero)
  | mul dst lhs rhs ty =>
    cases ha
    simp only [SatTables.rewriteInstr, hn]
    exact heffect hi rfl (h.productOperands hev rfl intBinOp_mul_one)
  | div dst lhs rhs ty =>
    -- The class of a division has no literal.
    cases ha
    cases n with
    | lit c =>
      have hdiv : false = true := h.alike.divides_eq
      cases hdiv
    | vreg c | binOp op' c c' => simp only [SatTables.rewriteInstr, hn, SatTables.productOperands]
  | _ => cases ha

/-! ## Runs -/

/-- What a register holds when arithmetic first reads it, or when control leaves the block. -/
def leafValue (M : Machine) (pred : Option String) (edge : Regs) (r : VReg) :
    List IRInstr → Regs → World → Word
  | [], σ, _ => σ r
  | i :: is, σ, w =>
    if r ∈ arithReads i then σ r
    else
      match i.effect M (·.eval M σ) (·.eval M edge) pred w with
      | .next ws w' => leafValue M pred edge r is (σ.writes ws) w'
      | _ => σ r

theorem leafValue_of_readNext (M : Machine) (pred : Option String) (edge : Regs) {r : VReg}
    {is : List IRInstr} (h : readNext r is) (σ : Regs) (w : World) :
    leafValue M pred edge r is σ w = σ r := by
  induction is generalizing σ w with
  | nil => cases h
  | cons i is ih =>
    rw [leafValue]
    split
    · rfl
    · next hr =>
      simp only [readNext, hr, decide_false, Bool.false_or, Bool.and_eq_true,
        decide_eq_true_eq] at h
      split
      · next ws w' heff => rw [ih h.2, IRInstr.effect_frame heff h.1]
      · rfl

/-- The e-graph has a model in which the leaves have the given values. -/
theorem exists_model (env : SatEnv) {is : List IRInstr} (hasDiv : Bool)
    (hregs : ∀ r ∈ allRegs is, 1000000 + r < 2 ^ 32)
    (hsmall : ((SatTables.build env is).saturated env).nextId ≤ 1000000) (leaf : VReg → Word) :
    ∃ v, EGraph.Models (opValue hasDiv) v ((SatTables.build env is).saturated env) ∧
      ∀ q c, (SatTables.leaves env is).vregToEclass q = some c → v c = leaf q := by
  obtain ⟨hok, hleaf⟩ : (SatTables.leaves env is).Ok (opValue hasDiv) ∧ _ :=
    SatTables.ok_leaves env hregs
  obtain ⟨hok', hreach⟩ := SatTables.reach_foldl_addInstr hok is
  have hsat : EGraph.Reach (opValue hasDiv) SatTables.synthetic (SatTables.build env is).graph
      ((SatTables.build env is).saturated env) :=
    EGraph.reach_saturate hok'.inv
      (fun _ => sound_of_mem_standardRules (standard_opValue hasDiv) _ env.nodes) env.gate 10
  have hempty : EGraph.Models (opValue hasDiv) (fun k => leaf (k - 1000000)) {} := by
    refine ⟨fun n id hn => ?_, fun id => rfl⟩
    obtain ⟨ns, hns, -⟩ := hn
    cases hns
  obtain ⟨v, hagree, hv⟩ := (hok'.reach.trans hsat).extend EGraph.Inv.empty hempty hsmall (by
    rintro k ((hk | ⟨n, id, ⟨ns, hns, -⟩, -⟩) | hk)
    · exact .inl hk
    · cases hns
    · exact .inr hk)
  refine ⟨v, hv, fun q c hc => ?_⟩
  have hvl := (hreach.trans hsat).models hok.inv hv
  rw [← hvl.ids c, ← hvl.nodes _ _ (hleaf q c hc), ENode.value,
    hagree _ (.inr (hsmall.trans (Nat.le_add_right _ _))), Nat.add_sub_cancel_left]

/-- The registers hold the values of the classes that are tracked. -/
structure Track.Holds (M : Machine) (pred : Option String) (edge : Regs) (v : Nat → Word)
    (leaf : VReg → Word) (tr : Track) (is : List IRInstr) (σ : Regs) (w : World) : Prop where
  leaves : ∀ r, tr.touched r = false → leaf r = leafValue M pred edge r is σ w
  held : ∀ r c, tr.touched r = true → tr.held r = some c → σ r = v c

section

variable {M : Machine} {pred : Option String} {edge : Regs} {v : Nat → Word} {leaf : VReg → Word}
  {classes : VReg → Option EClassId} {tr : Track} {is : List IRInstr} {σ : Regs} {w : World}

theorem Track.Holds.current (h : tr.Holds M pred edge v leaf is σ w)
    (hleaf : ∀ q c, classes q = some c → v c = leaf q) :
    ∀ r c, tr.current classes is r = some c → σ r = v c := by
  intro r c hc
  unfold Track.current at hc
  split at hc
  · next ht => exact h.held r c ht hc
  · next ht =>
    split at hc
    · next hread =>
      rw [hleaf r c hc, h.leaves r (Bool.not_eq_true _ ▸ ht), leafValue_of_readNext _ _ _ hread]
    · cases hc

theorem opValue_of_faithful {hasDiv : Bool} {i : IRInstr} {op : BinOpKind} {dst lhs rhs : IRValue}
    (ha : arithmetic i = some (op, dst, lhs, rhs)) (hf : faithful hasDiv i)
    (hdiv : isDiv i → hasDiv) : opValue hasDiv op = evalOp (performs i) := by
  cases i with
  | binOp op dst lhs rhs ty =>
    cases ha
    refine if_neg fun ⟨hop, hd⟩ => ?_
    subst hop
    rw [faithful, hd] at hf
    cases hf
  | div dst lhs rhs ty =>
    cases ha
    exact if_pos ⟨rfl, hdiv rfl⟩
  | add dst lhs rhs ty | sub dst lhs rhs ty | mul dst lhs rhs ty =>
    cases ha
    exact if_neg fun h => by cases h.1
  | _ => cases ha

theorem leafValue_next {r : VReg} {i : IRInstr} (hr : r ∉ arithReads i) {ws : List (IRValue × Word)}
    {w' : World} (heff : i.effect M (·.eval M σ) (·.eval M edge) pred w = .next ws w') :
    leafValue M pred edge r (i :: is) σ w = leafValue M pred edge r is (σ.writes ws) w' := by
  rw [leafValue, if_neg hr, heff]

variable {hasDiv : Bool} {t : SatTables} {i : IRInstr} {ws : List (IRValue × Word)} {w' : World}

/-- The result of an instruction whose operands are tracked has the value of its class. -/
theorem result_of_tracked {op : BinOpKind} {dst lhs rhs : IRValue} {l r b : EClassId} {val : Word}
    (ha : arithmetic i = some (op, dst, lhs, rhs)) (hf : faithful hasDiv i)
    (hdiv : isDiv i → hasDiv)
    (hadd : SatTables.Added (opValue hasDiv) t (t.addInstr i) op dst lhs rhs l r b)
    (hv : EGraph.Models (opValue hasDiv) v (t.addInstr i).graph)
    {current : VReg → Option EClassId} (hcurrent : ∀ r c, current r = some c → σ r = v c)
    (hl : operandOk current t lhs) (hr : operandOk current t rhs)
    (hval : intBinOp (performs i) none (lhs.eval M σ) (rhs.eval M σ) = some val) : val = v b := by
  obtain ⟨hvl, hvr, hvb⟩ := hadd.value hv
  rw [hvb, hvl, hvr, ← eval_of_operandOk (M := M) hcurrent hl,
    ← eval_of_operandOk (M := M) hcurrent hr, opValue_of_faithful ha hf hdiv,
    evalOp_of_intBinOp hval]

theorem Track.Holds.step (h : tr.Holds M pred edge v leaf (i :: is) σ w)
    (hleaf : ∀ q c, classes q = some c → v c = leaf q) (hi : is64Bit i) (hdiv : isDiv i → hasDiv)
    (ht : t.Ok (opValue hasDiv)) (hv : EGraph.Models (opValue hasDiv) v (t.addInstr i).graph)
    (heff : i.effect M (·.eval M σ) (·.eval M edge) pred w = .next ws w') :
    (tr.step classes hasDiv t i is).Holds M pred edge v leaf is (σ.writes ws) w' := by
  have hcurrent := h.current hleaf
  cases ha : arithmetic i with
  | none =>
    simp only [Track.step, ha]
    refine ⟨fun r hr => ?_, fun r c hr hc => ?_⟩
    · rw [h.leaves r hr]
      exact leafValue_next (by simp [arithReads, ha]) heff
    · simp only at hc
      split at hc
      · cases hc
      · next hdef =>
        rw [IRInstr.effect_frame heff hdef]
        exact h.held r c hr hc
  | some a =>
    obtain ⟨op, dst, lhs, rhs⟩ := a
    obtain ⟨hused, hdefined⟩ := usedRegs_of_arithmetic ha
    have hleaves : ∀ r, tr.touched r = false → r ∉ i.usedRegs →
        leaf r = leafValue M pred edge r is (σ.writes ws) w' := by
      intro r hr hread
      rw [h.leaves r hr]
      exact leafValue_next (by simp [arithReads, ha, hread]) heff
    have hheld : ∀ r c, (tr.touched r || decide (r ∈ i.usedRegs)) = true →
        (if r ∈ i.usedRegs then tr.current classes (i :: is) r else tr.held r) = some c →
        σ r = v c := by
      intro r c hr hc
      split at hc
      · exact hcurrent r c hc
      · next hread =>
        simp only [hread, decide_false, Bool.or_false] at hr
        exact h.held r c hr hc
    cases hd : dst.asRegister with
    | none =>
      simp only [Track.step, ha, hd]
      refine ⟨fun r hr => ?_, fun r c hr hc => ?_⟩
      · simp only [Bool.or_eq_false_iff, decide_eq_false_iff_not] at hr
        exact hleaves r hr.1 hr.2
      · rw [IRInstr.effect_frame heff (by simp [hdefined, IRValue.regs, hd])]
        exact hheld r c hr hc
    | some d =>
      obtain ⟨l, r, b, hadd⟩ := SatTables.exists_added ht ha
      have hclass : (t.addInstr i).vregToEclass d = some b := by
        rw [hadd.classes, hd]
        simp
      simp only [Track.step, ha, hd]
      refine ⟨fun q hq => ?_, fun q c hq hc => ?_⟩
      · simp only [Function.update_apply] at hq
        split at hq
        · cases hq
        · simp only [Bool.or_eq_false_iff, decide_eq_false_iff_not] at hq
          exact hleaves q hq.1 hq.2
      · simp only [Function.update_apply] at hq hc
        split at hc
        · next hqd =>
          subst hqd
          split at hc
          · next hok =>
            simp only [Bool.and_eq_true] at hok
            rw [hclass] at hc
            cases hc
            rw [effect_arithmetic M _ _ pred w hi ha] at heff
            cases hval : intBinOp (performs i) none (lhs.eval M σ) (rhs.eval M σ) with
            | none =>
              rw [hval] at heff
              cases heff
            | some val =>
              rw [hval] at heff
              cases heff
              have hdst : dst = .register q := by
                cases dst <;> simp_all [IRValue.asRegister]
              rw [hdst, Regs.writes_register, Function.update_self]
              exact result_of_tracked ha hok.2 hdiv hadd hv hcurrent hok.1.1 hok.1.2 hval
          · cases hc
        · next hqd =>
          rw [if_neg hqd] at hq
          have hframe : q ∉ i.definedRegs := by
            rw [hdefined, IRValue.regs, hd]
            simpa using hqd
          rw [IRInstr.effect_frame heff hframe]
          exact hheld q c hq hc

theorem effect_of_rewriteOk {t' : SatTables} {g : EGraph} {costFn : ENode → Nat}
    (ht : t.Ok (opValue hasDiv))
    (hreach : EGraph.Reach (opValue hasDiv) SatTables.synthetic (t.addInstr i).graph t'.graph)
    (ht' : t'.Ok (opValue hasDiv))
    (hreach' : EGraph.Reach (opValue hasDiv) SatTables.synthetic t'.graph g)
    (hv : EGraph.Models (opValue hasDiv) v g) (hi : is64Bit i)
    {current : VReg → Option EClassId} (hcurrent : ∀ r c, current r = some c → σ r = v c)
    (hok : rewriteOk t' g costFn current t i) (edge : IRValue → Word) :
    (t'.rewriteInstr g costFn i).effect M (·.eval M σ) edge pred w =
      i.effect M (·.eval M σ) edge pred w := by
  cases ha : arithmetic i with
  | none =>
    have hsame : t'.rewriteInstr g costFn i = i := by
      cases i <;> first | rfl | cases ha
    rw [hsame]
  | some a =>
    obtain ⟨op, dst, lhs, rhs⟩ := a
    simp only [rewriteOk, ha, Bool.and_eq_true, beq_iff_eq, Option.all_eq_true,
      List.all_eq_true] at hok
    obtain ⟨⟨⟨hlast, hl⟩, hr⟩, hvalues⟩ := hok
    cases hd : dst.asRegister with
    | none =>
      have hnone : t'.best g costFn dst = none := by
        rw [SatTables.best, hd]
        rfl
      rw [SatTables.rewriteInstr_of_best_none ha hnone]
    | some d =>
      obtain ⟨l, r, b, hadd⟩ := SatTables.exists_added ht ha
      have hadd' := hadd.ok ht
      have hvt' := hreach'.models ht'.inv hv
      have hvt := hreach.models hadd'.inv hvt'
      have hclass : dst.asRegister.bind t'.vregToEclass = some b := by
        rw [hlast, hadd.classes, hd]
        simp
      obtain ⟨n, hn, hvalue, halike⟩ := SatTables.exists_best costFn ht' hreach' hv
        (hadd'.mem_find hreach hadd.result) (hadd.lt.trans_le hreach.next_le) hclass
      obtain ⟨hvl, hvr, hvb⟩ := hadd.value hvt
      have hext : Extracted (opValue hasDiv) v g M σ t' op lhs rhs l r b n := by
        refine ⟨hv, ?_, ?_, hvb, hvalue, halike, fun c hc x hx => ?_⟩
        · rw [hvl, eval_of_operandOk hcurrent hl]
        · rw [hvr, eval_of_operandOk hcurrent hr]
        · exact eval_of_valueOk hcurrent ht' hvt' hx (hvalues n hn c hc x hx)
      exact effect_rewriteInstr hi ha hn hext edge pred w

theorem execInstrs_rewrite (label : String) {t' : SatTables} {g : EGraph} {costFn : ENode → Nat}
    (hreach : EGraph.Reach (opValue hasDiv) SatTables.synthetic t'.graph g)
    (hv : EGraph.Models (opValue hasDiv) v g)
    (hleaf : ∀ q c, classes q = some c → v c = leaf q) (h64 : ∀ i ∈ is, is64Bit i)
    (hdiv : ∀ i ∈ is, isDiv i → hasDiv) (ht : t.Ok (opValue hasDiv))
    (ht' : is.foldl SatTables.addInstr t = t')
    (hsafe : eqSatSafe t' g costFn classes hasDiv is t tr)
    (h : tr.Holds M pred edge v leaf is σ w) :
    execInstrs M label pred edge (is.map (t'.rewriteInstr g costFn)) σ w =
      execInstrs M label pred edge is σ w := by
  induction is generalizing t tr σ w with
  | nil => rfl
  | cons i is ih =>
    obtain ⟨hok, hreach₁⟩ := SatTables.reach_addInstr ht i
    obtain ⟨hok', hreach₂⟩ := SatTables.reach_foldl_addInstr hok is
    rw [show is.foldl SatTables.addInstr (t.addInstr i) = t' from ht'] at hok' hreach₂
    have hi := h64 i List.mem_cons_self
    simp only [eqSatSafe, Bool.and_eq_true, Bool.or_eq_true, beq_iff_eq] at hsafe
    obtain ⟨hinstr, hrest⟩ := hsafe
    have heffect : (t'.rewriteInstr g costFn i).effect M (·.eval M σ) (·.eval M edge) pred w =
        i.effect M (·.eval M σ) (·.eval M edge) pred w := by
      rcases hinstr with hsame | hinstr
      · rw [hsame]
      · exact effect_of_rewriteOk ht hreach₂ hok' hreach hv hi (h.current hleaf) hinstr _
    rw [List.map_cons, execInstrs_cons, execInstrs_cons, heffect]
    cases heff : i.effect M (·.eval M σ) (·.eval M edge) pred w with
    | next ws w' =>
      have hvt := (hreach₂.trans hreach).models hok.inv hv
      exact ih (fun j hj => h64 j (List.mem_cons_of_mem _ hj))
        (fun j hj => hdiv j (List.mem_cons_of_mem _ hj)) hok ht' hrest
        (h.step hleaf hi (hdiv i List.mem_cons_self) ht hvt heff)
    | jump target w' => rfl
    | ret values w' => rfl
    | stop o w' => rfl

end

/-- `equality_saturation_with_cost` preserves every run of a function in which it only relies on what
its tables truly say. -/
theorem equalitySaturationWithCost_preserves (M : Machine) (env : SatEnv) (costFn : ENode → Nat)
    (f : IRFunction) (h64 : ∀ b ∈ f.blocks, ∀ i ∈ b.instructions, is64Bit i)
    (hsafe : ∀ b ∈ f.blocks, EqSatSafe env costFn b) (regs : Regs) (w : World) (n : Nat) :
    ((equalitySaturationWithCost env f costFn).run M regs w n).obs = (f.run M regs w n).obs := by
  refine f.mapBlocks_obs_of_exec (g := eqSatBlock env costFn) (fun _ => rfl) ?_ regs w n
  intro b hb pred σ w
  obtain ⟨hregs, hsmall, hwalk⟩ := hsafe b hb
  obtain ⟨v, hv, hleaf⟩ := exists_model env (b.instructions.any isDiv) hregs hsmall
    fun r => leafValue M pred σ r b.instructions σ w
  obtain ⟨hok, -⟩ : (SatTables.leaves env b.instructions).Ok (opValue (b.instructions.any isDiv)) ∧
    _ := SatTables.ok_leaves env hregs
  have hbuild := (SatTables.reach_foldl_addInstr hok b.instructions).1
  have hsat : EGraph.Reach (opValue (b.instructions.any isDiv)) SatTables.synthetic
      (SatTables.build env b.instructions).graph
      ((SatTables.build env b.instructions).saturated env) :=
    EGraph.reach_saturate hbuild.inv
      (fun _ => sound_of_mem_standardRules (standard_opValue _) _ env.nodes) env.gate 10
  have hexec := execInstrs_rewrite b.label hsat hv hleaf (h64 b hb)
    (fun i hi hdiv => List.any_eq_true.2 ⟨i, hi, hdiv⟩) hok rfl hwalk
    ⟨fun _ _ => rfl, fun r c hr => by cases hr⟩
  unfold IRBlock.exec
  exact congrArg (Flow.finish _) hexec

/-- The hash sets in the order of insertion, with all rules accepted. -/
def insertionEnv : SatEnv where
  nodes := EGraph.insertionOrder
  regs := ⟨fun rs => rs, fun _ => .refl _⟩
  gate _ := true

/-- `r2 = load r0; r3 = r2 * 2; r4 = r3 - r3` becomes `r2 = load r0; r3 = r2 + r2; r4 = 0 - 0`. -/
theorem equalitySaturationWithCost_double :
    let f : IRFunction :=
      { name := "f"
        params := [.register 0]
        blocks := [{ label := "entry"
                     instructions := [.load (.register 2) (.register 0) 0 .i64,
                       .binOp .mul (.register 3) (.register 2) (.immediate 2) none,
                       .sub (.register 4) (.register 3) (.register 3) none]
                     terminator := .ret [.register 3, .register 4] }] }
    ((equalitySaturationWithCost insertionEnv f defaultCost).blocks.map (·.instructions) =
        [[.load (.register 2) (.register 0) 0 .i64,
          .binOp .add (.register 3) (.register 2) (.register 2) none,
          .sub (.register 4) (.immediate 0) (.immediate 0) none]]) ∧
      ∀ M regs w n, ((equalitySaturationWithCost insertionEnv f defaultCost).run M regs w n).obs =
        (f.run M regs w n).obs := by
  intro f
  refine ⟨by decide +kernel, fun M => equalitySaturationWithCost_preserves M _ _ f ?_ ?_⟩
  · intro b hb
    cases List.mem_singleton.1 hb
    decide
  · intro b hb
    cases List.mem_singleton.1 hb
    exact ⟨by decide, by decide +kernel, by decide +kernel⟩

/-- In `r1 = r0 + 1; r2 = r1 * r1; r1 = r0 - 1; return r2` the first instruction becomes
`r1 = r0 - 1`. -/
theorem equalitySaturationWithCost_unsound :
    let f : IRFunction :=
      { name := "f"
        params := [.register 0]
        blocks := [{ label := "entry"
                     instructions :=
                       [.binOp .add (.register 1) (.register 0) (.immediate 1) none,
                       .mul (.register 2) (.register 1) (.register 1) none,
                       .binOp .sub (.register 1) (.register 0) (.immediate 1) none]
                     terminator := .ret [.register 2] }] }
    (∀ b ∈ f.blocks, ∀ i ∈ b.instructions, is64Bit i) ∧
      ¬ ∀ M regs w n,
        ((equalitySaturationWithCost insertionEnv f defaultCost).run M regs w n).obs =
          (f.run M regs w n).obs := by
  intro f
  refine ⟨by decide, fun h => ?_⟩
  have hret := congrArg Prod.fst (h default (fun _ => 3) ⟨fun _ => 0, []⟩ 1)
  exact absurd hret (by decide +kernel)

end Vuma.Opt
