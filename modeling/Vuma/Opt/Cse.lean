import Vuma.IR.Lockstep
import Vuma.Opt.Subst

/-!
# Common subexpression elimination

`cse` of `opt.rs` numbers the expressions of a block. An instruction whose operator and operands have
been seen before becomes a copy of the earlier result, and the register it defines is replaced by
that result in the rest of the block. The key of an expression has no type, and neither the table of
expressions nor the substitution is updated when a register is assigned.

`CseEnv` is the state of the pass with, for every entry, the type of the expression and whether the
entry still tells the truth. `CseSafe` says that the pass only relies on entries that do: then it
preserves every run (`cse_preserves`).
-/

namespace Vuma.Opt

open IR

inductive ExprKey where
  | binary (op : BinOpKind) (lhs rhs : IRValue)
  | unary (op : UnaryOpKind) (operand : IRValue)
  | compare (kind : CmpKind) (lhs rhs : IRValue)
  deriving DecidableEq

def computeExprKey : IRInstr → Option ExprKey
  | .binOp op _ lhs rhs _ => some (.binary op lhs rhs)
  | .unaryOp op _ operand _ => some (.unary op operand)
  | .add _ lhs rhs _ => some (.binary .add lhs rhs)
  | .sub _ lhs rhs _ => some (.binary .sub lhs rhs)
  | .mul _ lhs rhs _ => some (.binary .mul lhs rhs)
  | .div _ lhs rhs _ => some (.binary .sdiv lhs rhs)
  | .cmp kind _ lhs rhs _ => some (.compare kind lhs rhs)
  | _ => none

def getDefinedValue : IRInstr → Option IRValue
  | .binOp _ dst .. | .unaryOp _ dst .. | .load dst .. | .alloc dst _ | .cast _ dst .. | .phi dst _
  | .getAddress dst _ | .offset dst .. | .select dst .. | .add dst .. | .sub dst .. | .mul dst ..
  | .div dst .. | .cmp _ dst .. | .channelOpen dst _ | .channelRecv _ dst _
  | .channelRecvTimeout _ dst .. => some dst
  | .call dst .. => dst
  | _ => none

/-- The table of expressions. -/
abbrev ValueMap := ExprKey → Option IRValue

/-- The loop over the instructions of a block, with the table and the substitution so far. -/
def cseWalk : List IRInstr → ValueMap → SubstMap → List IRInstr × SubstMap
  | [], _, subst => ([], subst)
  | i :: is, values, subst =>
    let i' := substituteInstr subst i
    match computeExprKey i' with
    | none =>
      let r := cseWalk is values subst
      (i' :: r.1, r.2)
    | some key =>
      match values key, getDefinedValue i' with
      | some prev, some (.register id) =>
        let r := cseWalk is values (Function.update subst id (some prev))
        (.add (.register id) prev (.immediate 0) none :: r.1, r.2)
      | none, some dst =>
        let r := cseWalk is (Function.update values key (some dst)) subst
        (i' :: r.1, r.2)
      | _, _ =>
        let r := cseWalk is values subst
        (i' :: r.1, r.2)

def cseBlock (b : IRBlock) : IRBlock :=
  let r := cseWalk b.instructions (fun _ => none) (fun _ => none)
  { b with instructions := r.1, terminator := substituteTerminator r.2 b.terminator }

def cse (f : IRFunction) : IRFunction := f.mapBlocks cseBlock

/-! ## The value of an expression -/

/-- Types that compute alike are one: only the narrow integers and the floats differ from the
untyped 64-bit operations. -/
def normTy : Option IRType → Option IRType
  | some .i8 => some .i8
  | some .u8 => some .u8
  | some .i16 => some .i16
  | some .u16 => some .u16
  | some .i32 => some .i32
  | some .u32 => some .u32
  | some .f32 => some .f32
  | some .f64 => some .f64
  | _ => none

/-- A truth value is not extended, so a comparison ignores the signedness of its type. -/
def cmpTy (ty : Option IRType) : Option IRType :=
  match normTy ty with
  | some .i8 => some .u8
  | some .i16 => some .u16
  | some .i32 => some .u32
  | ty => ty

def isCompare : BinOpKind → Bool
  | .slt | .sle | .sgt | .sge | .ult | .ule | .ugt | .uge | .eq | .ne => true
  | _ => false

/-- The type at which the key of an instruction is evaluated. -/
def exprTy : IRInstr → Option IRType
  | .binOp op _ _ _ ty => if isCompare op then cmpTy ty else normTy ty
  | .unaryOp _ _ _ ty => normTy ty
  | .add _ _ _ ty | .sub _ _ _ ty | .mul _ _ _ ty | .div _ _ _ ty =>
    if (ty.map IRType.isFloat).getD false then none else normTy ty
  | .cmp _ _ _ _ ty => cmpTy ty
  | _ => none

def ExprKey.regs : ExprKey → List VReg
  | .binary _ lhs rhs => lhs.regs ++ rhs.regs
  | .unary _ operand => operand.regs
  | .compare _ lhs rhs => lhs.regs ++ rhs.regs

/-- The value of an expression at a type; `none` is a trap. -/
def ExprKey.value (M : Machine) (ty : Option IRType) (σ : Regs) : ExprKey → Option Word
  | .binary op lhs rhs => M.binOp op ty (lhs.eval M σ) (rhs.eval M σ)
  | .unary op operand => some (M.unaryOp op ty (operand.eval M σ))
  | .compare kind lhs rhs => some (M.cmp kind ty (lhs.eval M σ) (rhs.eval M σ))

theorem ExprKey.value_congr (M : Machine) (ty : Option IRType) {σ τ : Regs} (key : ExprKey)
    (h : ∀ r ∈ key.regs, σ r = τ r) : key.value M ty σ = key.value M ty τ := by
  have hv : ∀ v : IRValue, (∀ r ∈ v.regs, r ∈ key.regs) → v.eval M σ = v.eval M τ :=
    fun v hv => IRValue.eval_congr M (fun r hr => h r (hv r hr))
  cases key with
  | binary op lhs rhs | compare op lhs rhs =>
    rw [value, value, hv lhs (fun r hr => List.mem_append_left _ hr),
      hv rhs (fun r hr => List.mem_append_right _ hr)]
  | unary op operand => rw [value, value, hv operand (fun r hr => hr)]

theorem binOp_normTy (M : Machine) (op : BinOpKind) (ty : Option IRType) (a b : Word) :
    M.binOp op (normTy ty) a b = M.binOp op ty a b := by
  cases ty with
  | none => rfl
  | some t => cases t <;> rfl

theorem binOp_cmpTy (M : Machine) {op : BinOpKind} (h : isCompare op = true) (ty : Option IRType)
    (a b : Word) : M.binOp op (cmpTy ty) a b = M.binOp op ty a b := by
  cases ty with
  | none => rfl
  | some t => cases t <;> first | rfl | (cases op <;> first | rfl | cases h)

theorem unaryOp_normTy (M : Machine) (op : UnaryOpKind) (ty : Option IRType) (a : Word) :
    M.unaryOp op (normTy ty) a = M.unaryOp op ty a := by
  cases ty with
  | none => rfl
  | some t => cases t <;> rfl

theorem cmp_cmpTy (M : Machine) (kind : CmpKind) (ty : Option IRType) (a b : Word) :
    M.cmp kind (cmpTy ty) a b = M.cmp kind ty a b := by
  cases ty with
  | none => rfl
  | some t => cases t <;> rfl

/-- The integer operation of an `Add`, `Sub`, `Mul` or `Div`, whatever the type says. -/
theorem binOp_exprTy_int (M : Machine) (op : BinOpKind) (ty : Option IRType) (a b : Word) :
    M.binOp op (if (ty.map IRType.isFloat).getD false then none else normTy ty) a b =
      intBinOp op ty a b := by
  cases ty with
  | none => rfl
  | some t => cases t <;> rfl

theorem effect_of_key (M : Machine) (σ : Regs) (edge : IRValue → Word) (pred : Option String)
    (w : World) {i : IRInstr} {key : ExprKey} (h : computeExprKey i = some key) :
    ∃ d, getDefinedValue i = some d ∧ i.definedRegs = d.regs ∧ i.isPhi = false ∧
      i.effect M (·.eval M σ) edge pred w =
        match key.value M (exprTy i) σ with
        | some v => .next [(d, v)] w
        | none => .stop .trap w := by
  cases i with
  | binOp op dst lhs rhs ty =>
    cases h
    have hbin : ∀ a b, M.binOp op (if isCompare op then cmpTy ty else normTy ty) a b =
        M.binOp op ty a b := by
      intro a b
      split
      · exact binOp_cmpTy M ‹_› ty a b
      · exact binOp_normTy M op ty a b
    refine ⟨dst, rfl, rfl, rfl, ?_⟩
    rw [IRInstr.effect, ← hbin]
    rfl
  | unaryOp op dst operand ty =>
    cases h
    exact ⟨dst, rfl, rfl, rfl, by simp only [IRInstr.effect, ExprKey.value, exprTy, unaryOp_normTy]⟩
  | add dst lhs rhs ty | sub dst lhs rhs ty | mul dst lhs rhs ty =>
    cases h
    exact ⟨dst, rfl, rfl, rfl, by
      simp only [IRInstr.effect, ExprKey.value, exprTy, binOp_exprTy_int, intBinOp, binOpAt]⟩
  | div dst lhs rhs ty =>
    cases h
    refine ⟨dst, rfl, rfl, rfl, ?_⟩
    rw [IRInstr.effect, ← binOp_exprTy_int]
    rfl
  | cmp kind dst lhs rhs ty =>
    cases h
    exact ⟨dst, rfl, rfl, rfl, by simp only [IRInstr.effect, ExprKey.value, exprTy, cmp_cmpTy]⟩
  | _ => cases h

/-! ## The condition -/

/-- The state of the pass: each replacement with a flag, and each entry of the table with the type of
the expression and a flag. The flags say whether the entry is still true of the registers. -/
structure CseEnv where
  subst : VReg → Option (IRValue × Bool)
  vals : ExprKey → Option (IRValue × Option IRType × Bool)

namespace CseEnv

def empty : CseEnv := ⟨fun _ => none, fun _ => none⟩

/-- The substitution of the pass. -/
def map (env : CseEnv) : SubstMap := fun r => (env.subst r).map Prod.fst

/-- The table of the pass. -/
def values (env : CseEnv) : ValueMap := fun key => (env.vals key).map Prod.fst

/-- The registers `rs` are assigned: what depends on them is no longer true. -/
def kill (env : CseEnv) (rs : List VReg) : CseEnv where
  subst r := (env.subst r).map fun p => (p.1, p.2 && p.1.regs.all (fun q => !rs.contains q))
  vals key := (env.vals key).map fun p =>
    (p.1, p.2.1, p.2.2 && (p.1.regs ++ key.regs).all (fun q => !rs.contains q))

/-- The state after the pass has looked at an instruction. -/
def step (env : CseEnv) (i : IRInstr) : CseEnv :=
  let i' := substituteInstr env.map i
  let env' := env.kill i.definedRegs
  match computeExprKey i' with
  | none => env'
  | some key =>
    match env.vals key, getDefinedValue i' with
    | some (prev, _), some (.register id) =>
      -- a copy of a register to itself changes nothing
      if prev = .register id then env
      else { env' with subst := Function.update env'.subst id (some (prev, true)) }
    | none, some dst =>
      { env' with
        vals := Function.update env'.vals key
          (some (dst, exprTy i', dst.asRegister.any (fun r => !key.regs.contains r))) }
    | _, _ => env'

end CseEnv

/-- The pass treats `i` correctly: `i` does not assign a replaced register; it reads replaced
registers only while the replacement holds their value, and never on an edge; and if its expression
is in the table, the entry is true and of the same type. -/
structure CseStepSafe (env : CseEnv) (i : IRInstr) : Prop where
  defs : ∀ r ∈ i.definedRegs, env.subst r = none
  phi : i.isPhi = true → ∀ r ∈ i.usedRegs, env.subst r = none
  uses : i.isPhi = false → ∀ r ∈ substUses i, ∀ v ok, env.subst r = some (v, ok) → ok = true
  hit : ∀ key prev ty ok id, computeExprKey (substituteInstr env.map i) = some key →
    env.vals key = some (prev, ty, ok) →
    getDefinedValue (substituteInstr env.map i) = some (.register id) →
    ok = true ∧ ty = exprTy (substituteInstr env.map i)

/-- The pass treats a block correctly, its terminator included. -/
def CseSafe (t : IRTerminator) : List IRInstr → CseEnv → Prop
  | [], env => (∀ r ∈ t.definedRegs, env.subst r = none) ∧
      ∀ r ∈ t.usedRegs, ∀ v ok, env.subst r = some (v, ok) → ok = true
  | i :: is, env => CseStepSafe env i ∧ CseSafe t is (env.step i)

/-! ## What the flags promise -/

/-- The entries that are flagged true are. -/
structure CseHolds (M : Machine) (env : CseEnv) (σ : Regs) : Prop where
  subst : ∀ r v, env.subst r = some (v, true) → v.eval M σ = σ r
  vals : ∀ key p ty, env.vals key = some (p, ty, true) → key.value M ty σ = some (p.eval M σ)

theorem CseHolds.empty (M : Machine) (σ : Regs) : CseHolds M .empty σ := by
  constructor
  · intro r v he
    cases he
  · intro key p ty he
    cases he

theorem CseEnv.map_eq_none {env : CseEnv} {r : VReg} (h : env.subst r = none) :
    env.map r = none := by
  simp [CseEnv.map, h]

theorem CseHolds.mapHolds {M : Machine} {env : CseEnv} {σ : Regs} (h : CseHolds M env σ)
    {rs : List VReg} (huses : ∀ r ∈ rs, ∀ v ok, env.subst r = some (v, ok) → ok = true) :
    MapHolds M env.map rs σ := by
  intro r hr v hm
  obtain ⟨⟨u, ok⟩, he, rfl⟩ := Option.map_eq_some_iff.mp hm
  obtain rfl := huses r hr u ok he
  exact h.subst r u he

/-- Assigning registers keeps the promises of the entries that do not depend on them. -/
theorem CseHolds.kill {M : Machine} {env : CseEnv} {σ τ : Regs} (h : CseHolds M env σ)
    {rs : List VReg} (hframe : ∀ r, r ∉ rs → τ r = σ r)
    (hrs : ∀ r ∈ rs, env.subst r = none) : CseHolds M (env.kill rs) τ := by
  have hkeep : ∀ qs : List VReg, qs.all (fun q => !rs.contains q) = true → ∀ r ∈ qs, τ r = σ r := by
    intro qs hq r hr
    refine hframe r ?_
    simpa using List.all_eq_true.mp hq r hr
  refine ⟨fun r v he => ?_, fun key p ty he => ?_⟩
  · obtain ⟨⟨u, ok⟩, hu, he⟩ := Option.map_eq_some_iff.mp he
    simp only [Prod.mk.injEq, Bool.and_eq_true] at he
    obtain ⟨rfl, rfl, hreg⟩ := he
    have hr : r ∉ rs := fun hr => by rw [hrs r hr] at hu; cases hu
    rw [IRValue.eval_congr M (hkeep u.regs hreg), h.subst r u hu, hframe r hr]
  · obtain ⟨⟨q, ty', ok⟩, hq, he⟩ := Option.map_eq_some_iff.mp he
    simp only [Prod.mk.injEq, Bool.and_eq_true] at he
    obtain ⟨rfl, rfl, rfl, hreg⟩ := he
    have hreg' := hkeep _ hreg
    rw [ExprKey.value_congr M ty' key (fun r hr => hreg' r (List.mem_append_right _ hr)),
      h.vals key q ty' hq, IRValue.eval_congr M (fun r hr => hreg' r (List.mem_append_left _ hr))]

/-! ## Preservation -/

/-- The instruction that the pass emits for `i`. -/
def CseEnv.emit (env : CseEnv) (i : IRInstr) : IRInstr :=
  let i' := substituteInstr env.map i
  match (computeExprKey i').bind env.values, getDefinedValue i' with
  | some prev, some (.register id) => .add (.register id) prev (.immediate 0) none
  | _, _ => i'

/-- The emitted instruction does what the original did, and the promises are kept. -/
theorem CseStepSafe.effect_emit {env : CseEnv} {i : IRInstr} (hsafe : CseStepSafe env i)
    {M : Machine} {σ : Regs} (hσ : CseHolds M env σ) (edge : Regs) (pred : Option String)
    (w : World) :
    (env.emit i).effect M (·.eval M σ) (·.eval M edge) pred w =
        i.effect M (·.eval M σ) (·.eval M edge) pred w ∧
      ∀ ws w', i.effect M (·.eval M σ) (·.eval M edge) pred w = .next ws w' →
        CseHolds M (env.step i) (σ.writes ws) := by
  have heff := effect_substituteInstr_self (fun hi => hσ.mapHolds (hsafe.uses hi)) edge pred w
    (fun hi r hr => CseEnv.map_eq_none (hsafe.phi hi r hr))
    (fun r hr => CseEnv.map_eq_none (hsafe.defs r hr))
  have hkill : ∀ ws w', i.effect M (·.eval M σ) (·.eval M edge) pred w = .next ws w' →
      CseHolds M (env.kill i.definedRegs) (σ.writes ws) := fun ws w' he =>
    hσ.kill (fun r hr => IRInstr.effect_frame he hr σ) hsafe.defs
  cases hk : computeExprKey (substituteInstr env.map i) with
  | none =>
    simp only [CseEnv.emit, CseEnv.step, hk, Option.bind_none]
    exact ⟨heff, hkill⟩
  | some key =>
    obtain ⟨d, hd, -, -, hval⟩ := effect_of_key M σ (·.eval M edge) pred w hk
    cases hv : env.vals key with
    | some entry =>
      obtain ⟨prev, ty, ok⟩ := entry
      have hvalues : env.values key = some prev := by simp [CseEnv.values, hv]
      cases d with
      | register id =>
        obtain ⟨rfl, rfl⟩ := hsafe.hit key prev ty ok id hk hv hd
        rw [hσ.vals key prev _ hv] at hval
        have hi : i.effect M (·.eval M σ) (·.eval M edge) pred w =
            .next [(.register id, prev.eval M σ)] w := heff.symm.trans hval
        simp only [CseEnv.emit, CseEnv.step, hk, Option.bind_some, hvalues, hd, hv]
        refine ⟨?_, fun ws w' he => ?_⟩
        · rw [IRInstr.effect_copy, hi]
        · rw [hi] at he
          cases he
          split
          · -- the register already holds the value
            rename_i hself
            have hsame : σ.writes [(.register id, prev.eval M σ)] = σ := by
              funext r
              by_cases hr : r = id
              · subst hr
                simp [Regs.writes, Regs.write, hself, IRValue.eval]
              · simp [Regs.writes, Regs.write, Function.update_of_ne hr]
            rw [hsame]
            exact hσ
          · rename_i hne
            have hold := hkill _ _ hi
            refine ⟨fun r v he => ?_, hold.vals⟩
            by_cases hr : r = id
            · subst hr
              simp only [Function.update_self, Option.some.injEq, Prod.mk.injEq] at he
              obtain ⟨rfl, -⟩ := he
              have hprev : prev.eval M (σ.writes [(.register r, prev.eval M σ)]) =
                  prev.eval M σ := by
                refine IRValue.eval_congr M (fun q hq => ?_)
                refine Function.update_of_ne (fun e => hne ?_) _ _
                rw [IRValue.mem_regs.mp hq, e]
              rw [hprev]
              simp [Regs.writes, Regs.write]
            · simp only [Function.update_of_ne hr] at he
              exact hold.subst r v he
      | _ =>
        simp only [CseEnv.emit, CseEnv.step, hk, Option.bind_some, hvalues, hd, hv]
        exact ⟨heff, hkill⟩
    | none =>
      have hvalues : env.values key = none := by simp [CseEnv.values, hv]
      simp only [CseEnv.emit, CseEnv.step, hk, Option.bind_some, hvalues, hd, hv]
      refine ⟨heff, fun ws w' he => ?_⟩
      have hold := hkill ws w' he
      refine ⟨hold.subst, fun k p ty hp => ?_⟩
      by_cases hkk : k = key
      · -- the new entry: the result is in `d`, which is no operand
        subst hkk
        simp only [Function.update_self, Option.some.injEq, Prod.mk.injEq] at hp
        obtain ⟨rfl, rfl, hok⟩ := hp
        cases d with
        | register r =>
          have hr : r ∉ k.regs := by simpa [IRValue.asRegister] using hok
          rw [← heff, hval] at he
          cases hx : k.value M (exprTy (substituteInstr env.map i)) σ with
          | none => rw [hx] at he; cases he
          | some v =>
            rw [hx] at he
            cases he
            have hvk : k.value M (exprTy (substituteInstr env.map i))
                (σ.writes [(.register r, v)]) = some v := by
              rw [← hx]
              refine ExprKey.value_congr M _ k (fun q hq => ?_)
              exact Function.update_of_ne (fun e : q = r => hr (e ▸ hq)) _ _
            rw [hvk]
            simp [IRValue.eval, Regs.writes, Regs.write]
        | _ => simp [IRValue.asRegister] at hok
      · simp only [Function.update_of_ne hkk] at hp
        exact hold.vals k p ty hp

theorem CseEnv.kill_map (env : CseEnv) (rs : List VReg) : (env.kill rs).map = env.map := by
  funext r
  simp only [CseEnv.map, CseEnv.kill]
  cases env.subst r <;> rfl

theorem CseEnv.kill_values (env : CseEnv) (rs : List VReg) : (env.kill rs).values = env.values := by
  funext key
  simp only [CseEnv.values, CseEnv.kill]
  cases env.vals key <;> rfl

/-- One iteration of the loop in terms of the environment, whose substitution leaves out the
replacement of a register by itself. -/
theorem cseWalk_cons {env : CseEnv} {i : IRInstr} (hsafe : CseStepSafe env i) (is : List IRInstr)
    {subst : SubstMap} (hs : substituteValue subst = substituteValue env.map) :
    ∃ subst', substituteValue subst' = substituteValue (env.step i).map ∧
      cseWalk (i :: is) env.values subst =
        (env.emit i :: (cseWalk is (env.step i).values subst').1,
          (cseWalk is (env.step i).values subst').2) := by
  simp only [cseWalk, substituteInstr_congr hs i]
  cases hk : computeExprKey (substituteInstr env.map i) with
  | none =>
    have hstep : env.step i = env.kill i.definedRegs := by simp only [CseEnv.step, hk]
    rw [hstep, env.kill_map, env.kill_values]
    exact ⟨subst, hs, by simp only [CseEnv.emit, hk, Option.bind_none]⟩
  | some key =>
    obtain ⟨d, hd, hdefs, -⟩ :=
      effect_of_key default (fun _ => 0) (fun _ => 0) none ⟨fun _ => 0, []⟩ hk
    cases hv : env.vals key with
    | some entry =>
      obtain ⟨prev, ty, ok⟩ := entry
      have hvalues : env.values key = some prev := by simp [CseEnv.values, hv]
      cases d with
      | register id =>
        have hemit : env.emit i = .add (.register id) prev (.immediate 0) none := by
          simp only [CseEnv.emit, hk, Option.bind_some, hvalues, hd]
        have hnone : env.map id = none := by
          refine CseEnv.map_eq_none (hsafe.defs id ?_)
          rw [← definedRegs_substituteInstr (fun r hr => CseEnv.map_eq_none (hsafe.defs r hr)),
            hdefs]
          exact List.mem_cons_self
        have hpoint : ∀ r, (subst r).getD (.register r) = (env.map r).getD (.register r) :=
          fun r => congrFun hs (.register r)
        refine ⟨Function.update subst id (some prev), ?_, ?_⟩
        · simp only [CseEnv.step, hk, hv, hd]
          funext v
          cases v with
          | register r =>
            split
            · -- a register replaced by itself
              rename_i hself
              by_cases hr : r = id
              · subst hr
                simp [substituteValue, hself, hnone]
              · simpa [substituteValue, Function.update_of_ne hr] using hpoint r
            · have hmap : ∀ q, ((env.kill i.definedRegs).subst q).map Prod.fst = env.map q :=
                fun q => congrFun (env.kill_map i.definedRegs) q
              by_cases hr : r = id
              · subst hr
                simp [substituteValue, CseEnv.map]
              · simp only [substituteValue, Function.update_of_ne hr, CseEnv.map, hmap]
                exact hpoint r
          | _ => rfl
        · have hstep : (env.step i).values = env.values := by
            simp only [CseEnv.step, hk, hv, hd]
            split
            · rfl
            · exact env.kill_values i.definedRegs
          simp only [hvalues, hd, hemit, hstep]
      | _ =>
        have hstep : env.step i = env.kill i.definedRegs := by simp only [CseEnv.step, hk, hv, hd]
        rw [hstep, env.kill_map, env.kill_values]
        exact ⟨subst, hs, by simp only [CseEnv.emit, hk, Option.bind_some, hvalues, hd]⟩
    | none =>
      have hvalues : env.values key = none := by simp [CseEnv.values, hv]
      have hemit : env.emit i = substituteInstr env.map i := by
        simp only [CseEnv.emit, hk, Option.bind_some, hvalues]
      have hmap : (env.step i).map = env.map := by
        simp only [CseEnv.step, hk, hv, hd]
        exact env.kill_map i.definedRegs
      have hstep : (env.step i).values = Function.update env.values key (some d) := by
        simp only [CseEnv.step, hk, hv, hd]
        funext k
        by_cases hkk : k = key
        · subst hkk
          simp [CseEnv.values]
        · simp only [CseEnv.values, Function.update_of_ne hkk]
          exact congrFun (env.kill_values i.definedRegs) k
      exact ⟨subst, by rw [hs, hmap], by simp only [hvalues, hd, hemit, hstep]⟩

theorem cseWalk_exec (M : Machine) (label : String) (pred : Option String) (edge : Regs)
    (t : IRTerminator) (is : List IRInstr) {env : CseEnv} (hsafe : CseSafe t is env)
    {subst : SubstMap} (hs : substituteValue subst = substituteValue env.map) {σ : Regs}
    (hσ : CseHolds M env σ) (w : World) :
    (execInstrs M label pred edge (cseWalk is env.values subst).1 σ w).finish
        ((substituteTerminator (cseWalk is env.values subst).2 t).exec M label) =
      (execInstrs M label pred edge is σ w).finish (t.exec M label) := by
  induction is generalizing env subst σ w with
  | nil =>
    simp only [cseWalk, execInstrs_nil, Flow.finish, substituteTerminator_congr hs]
    exact exec_substituteTerminator (hσ.mapHolds hsafe.2) label w
      (fun r hr => CseEnv.map_eq_none (hsafe.1 r hr))
  | cons i is ih =>
    obtain ⟨hstep, hrest⟩ := hsafe
    obtain ⟨subst', hs', hwalk⟩ := cseWalk_cons hstep is hs
    obtain ⟨heff, hnext⟩ := hstep.effect_emit hσ edge pred w
    rw [hwalk]
    simp only [execInstrs_cons, heff]
    cases he : i.effect M (·.eval M σ) (·.eval M edge) pred w with
    | next ws w' => exact ih hrest hs' (hnext ws w' he) w'
    | _ => rfl

/-- `cse` preserves every run of a function in which it only relies on true entries. -/
theorem cse_preserves (M : Machine) (f : IRFunction)
    (hsafe : ∀ b ∈ f.blocks, CseSafe b.terminator b.instructions .empty)
    (regs : Regs) (w : World) (n : Nat) :
    ((cse f).run M regs w n).obs = (f.run M regs w n).obs := by
  refine f.mapBlocks_obs_of_exec (g := cseBlock) (fun _ => rfl) ?_ regs w n
  intro b hb pred σ w
  exact cseWalk_exec M b.label pred σ b.terminator b.instructions (hsafe b hb) rfl
    (CseHolds.empty M σ) w

/-- `r1 = r0 + 1; r2 = r0 + 1; r3 = r1 * r2` becomes `r1 = r0 + 1; r2 = r1; r3 = r1 * r1`. -/
theorem cse_preserves_square :
    let f : IRFunction :=
      { name := "f"
        params := [.register 0]
        blocks := [{ label := "entry"
                     instructions := [.add (.register 1) (.register 0) (.immediate 1) none,
                       .add (.register 2) (.register 0) (.immediate 1) none,
                       .mul (.register 3) (.register 1) (.register 2) none]
                     terminator := .ret [.register 3] }] }
    (cse f).blocks.map (·.instructions) =
        [[.add (.register 1) (.register 0) (.immediate 1) none,
          .add (.register 2) (.register 1) (.immediate 0) none,
          .mul (.register 3) (.register 1) (.register 1) none]] ∧
      ∀ M regs w n, ((cse f).run M regs w n).obs = (f.run M regs w n).obs := by
  intro f
  refine ⟨by decide, fun M => cse_preserves M f ?_⟩
  intro b hb
  cases List.mem_singleton.mp hb
  refine ⟨⟨by decide, by simp [IRInstr.isPhi], ?_, ?_⟩, ⟨by decide, by simp [IRInstr.isPhi], ?_, ?_⟩,
    ⟨by decide, by simp [IRInstr.isPhi], ?_, ?_⟩, by decide, ?_⟩
  · intro _ r hr v ok h
    cases h
  · intro key prev ty ok id hk hv
    cases hv
  · intro _ r hr v ok h
    cases h
  · intro key prev ty ok id hk hv hd
    cases hk
    cases hv
    decide
  · intro _ r hr v ok h
    simp only [substUses, IRInstr.usedRegs, IRValue.regs_register, List.cons_append,
      List.nil_append, List.mem_cons, List.not_mem_nil, or_false] at hr
    rcases hr with rfl | rfl
    · cases h
    · cases h
      rfl
  · intro key prev ty ok id hk hv
    cases hk
    cases hv
  · intro r hr v ok h
    cases List.mem_singleton.mp hr
    cases h

/-- Two ways the table lies. In `r1 = r0 + 1; r0 = 5; r2 = r0 + 1; return r2` the operand has changed
in between. In `r1 = r0 + 1 : u8; r2 = r0 + 1; return r2` the second sum is not taken modulo 256. -/
theorem cse_stale_and_narrow :
    let stale : IRFunction :=
      { name := "f"
        params := [.register 0]
        blocks := [{ label := "entry"
                     instructions := [.add (.register 1) (.register 0) (.immediate 1) none,
                       .add (.register 0) (.immediate 5) (.immediate 0) none,
                       .add (.register 2) (.register 0) (.immediate 1) none]
                     terminator := .ret [.register 2] }] }
    let narrow : IRFunction :=
      { name := "g"
        params := [.register 0]
        blocks := [{ label := "entry"
                     instructions := [.add (.register 1) (.register 0) (.immediate 1) (some .u8),
                       .add (.register 2) (.register 0) (.immediate 1) none]
                     terminator := .ret [.register 2] }] }
    (¬ ∀ M regs w n, ((cse stale).run M regs w n).obs = (stale.run M regs w n).obs) ∧
    ¬ ∀ M regs w n, ((cse narrow).run M regs w n).obs = (narrow.run M regs w n).obs := by
  intro stale narrow
  refine ⟨fun h => ?_, fun h => ?_⟩
  · have hret := congrArg Prod.fst (h default (fun _ => 0) ⟨fun _ => 0, []⟩ 1)
    exact absurd hret (by decide)
  · have hret := congrArg Prod.fst (h default (fun _ => 255) ⟨fun _ => 0, []⟩ 1)
    exact absurd hret (by decide)

end Vuma.Opt
