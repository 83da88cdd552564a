import Vuma.IR.Lockstep
import Vuma.Opt.Subst

/-!
# Constant folding

`constant_fold` of `opt.rs` walks a block with a map from registers to constants, substitutes it into
every instruction, and replaces an instruction whose operands are all immediates by the definition of
its result. Results are computed on 64 bits whatever the type, destinations are substituted like
operands, and an entry is never removed from the map.

So the map can lie in two ways: the register has been assigned again, or the constant is the 64-bit
result where the register holds the result at 8, 16 or 32 bits. `FoldSafe` follows the pass with both
numbers at hand and says that neither matters: no folded register is assigned again, every
replacement defines the value of the operation at its type, and every later use reads only bits on
which the two numbers agree. Then the pass preserves every run (`constantFold_preserves`).
-/

namespace Vuma.Opt

open IR

/-- The compile-time floating-point operations, which this model leaves open. -/
structure FloatFold where
  binop : BinOpKind → IRType → Word → Word → Word
  cast : CastKind → Option IRType → Option IRType → Word → Word
  deriving Inhabited

/-- `i64::MIN`, the one dividend that `checked_div` and `checked_rem` refuse to divide by `-1`. -/
def intMin : Word := BitVec.intMin 64

def tryFoldBinopInt (op : BinOpKind) (lhs rhs : Word) : Option Word :=
  match op with
  | .add => some (lhs + rhs)
  | .sub => some (lhs - rhs)
  | .mul => some (lhs * rhs)
  | .sdiv => if rhs = 0 then none else if lhs = intMin ∧ rhs = -1 then none else some (lhs.sdiv rhs)
  | .udiv => if rhs = 0 then none else some (lhs / rhs)
  | .srem => if rhs = 0 then none else if lhs = intMin ∧ rhs = -1 then none else some (lhs.srem rhs)
  | .urem => if rhs = 0 then none else some (lhs % rhs)
  | .and => some (lhs &&& rhs)
  | .or => some (lhs ||| rhs)
  | .xor => some (lhs ^^^ rhs)
  | .shl => some (lhs <<< (rhs.toNat % 64))
  | .shrL => some (lhs >>> (rhs.toNat % 64))
  | .shrA => some (lhs.sshiftRight (rhs.toNat % 64))
  | .ror => some (lhs.rotateRight (rhs.toNat % 64))
  | .rol => some (lhs.rotateLeft (rhs.toNat % 64))
  | .slt => some (boolWord (lhs.slt rhs))
  | .sle => some (boolWord (lhs.sle rhs))
  | .sgt => some (boolWord (rhs.slt lhs))
  | .sge => some (boolWord (rhs.sle lhs))
  | .ult => some (boolWord (lhs.ult rhs))
  | .ule => some (boolWord (lhs.ule rhs))
  | .ugt => some (boolWord (rhs.ult lhs))
  | .uge => some (boolWord (rhs.ule lhs))
  | .eq => some (boolWord (lhs == rhs))
  | .ne => some (boolWord (lhs != rhs))

/-- `try_fold_binop`: the float types have their own arithmetic and comparisons, but share the
remaining operators with the integers. -/
def tryFoldBinop (F : FloatFold) (op : BinOpKind) (lhs rhs : Word) (ty : Option IRType) :
    Option Word :=
  match ty with
  | some .f32 | some .f64 =>
    match op with
    | .srem | .urem | .and | .or | .xor | .shl | .shrL | .shrA | .ror | .rol =>
      tryFoldBinopInt op lhs rhs
    | _ => some (F.binop op (ty.getD .f64) lhs rhs)
  | _ => tryFoldBinopInt op lhs rhs

def tryFoldUnaryop (op : UnaryOpKind) (operand : Word) : Option Word :=
  match op with
  | .neg => some (-operand)
  | .not => some (~~~operand)
  | .clz => some operand.clz
  | .ctz => some operand.ctz
  | .popcnt => some operand.cpop

/-- The `Cast` arm of `try_fold_instruction`: the integer casts pass the value through. -/
def tryFoldCast (F : FloatFold) (kind : CastKind) (fromTy toTy : Option IRType) (v : Word) :
    Option Word :=
  match kind with
  | .intToFloat | .uintToFloat | .floatToInt | .floatToUint => some (F.cast kind fromTy toTy v)
  | .floatToFloat =>
    match fromTy, toTy with
    | some .f32, some .f64 | some .f64, some .f32 => some (F.cast kind fromTy toTy v)
    | _, _ => some v
  | .zext | .sext | .trunc | .bitCast => some v

/-- `try_fold_instruction`. A `Cmp` is not folded. -/
def tryFoldInstruction (F : FloatFold) : IRInstr → Option (VReg × Word)
  | .binOp op dst lhs rhs ty => do
    let l ← lhs.asImmediate
    let r ← rhs.asImmediate
    let dstId ← dst.asRegister
    return (dstId, ← tryFoldBinop F op l r ty)
  | .unaryOp op dst operand _ => do
    let o ← operand.asImmediate
    let dstId ← dst.asRegister
    return (dstId, ← tryFoldUnaryop op o)
  | .add dst lhs rhs _ => do
    let l ← lhs.asImmediate
    let r ← rhs.asImmediate
    return (← dst.asRegister, l + r)
  | .sub dst lhs rhs _ => do
    let l ← lhs.asImmediate
    let r ← rhs.asImmediate
    return (← dst.asRegister, l - r)
  | .mul dst lhs rhs _ => do
    let l ← lhs.asImmediate
    let r ← rhs.asImmediate
    return (← dst.asRegister, l * r)
  | .div dst lhs rhs _ => do
    let l ← lhs.asImmediate
    let r ← rhs.asImmediate
    let dstId ← dst.asRegister
    return (dstId, ← tryFoldBinopInt .sdiv l r)
  | .cast kind dst src fromTy toTy => do
    let v ← src.asImmediate
    let dstId ← dst.asRegister
    return (dstId, ← tryFoldCast F kind fromTy toTy v)
  | _ => none

/-- `fold_ty`: the type of the instruction that replaces the folded one. -/
def foldTy (i : IRInstr) (result : Word) : Option IRType :=
  let ty :=
    match i with
    | .binOp _ _ _ _ ty | .cmp _ _ _ _ ty | .add _ _ _ ty | .sub _ _ _ ty | .mul _ _ _ ty => ty
    | .cast kind _ _ _ toTy =>
      match kind with
      | .zext | .sext => toTy
      | _ => none
    | _ => none
  ty.or (if 0xFFFFFFFF < result.toNat then some .u64 else none)

/-- The trivial definition that replaces a folded instruction. -/
def constantDef (dst : VReg) (result : Word) (ty : Option IRType) : IRInstr :=
  match ty with
  | some ty => .binOp .add (.register dst) (.immediate result) (.immediate 0) (some ty)
  | none => .add (.register dst) (.immediate result) (.immediate 0) none

/-- The loop over the instructions of a block, with the map so far. -/
def foldWalk (F : FloatFold) : List IRInstr → SubstMap → List IRInstr × SubstMap
  | [], map => ([], map)
  | i :: is, map =>
    let i' := substituteInstr map i
    match tryFoldInstruction F i' with
    | some (dst, result) =>
      let r := foldWalk F is (Function.update map dst (some (.immediate result)))
      (constantDef dst result (foldTy i' result) :: r.1, r.2)
    | none =>
      let r := foldWalk F is map
      (i' :: r.1, r.2)

def foldBlock (F : FloatFold) (b : IRBlock) : IRBlock :=
  let r := foldWalk F b.instructions (fun _ => none)
  { b with instructions := r.1, terminator := substituteTerminator r.2 b.terminator }

def constantFold (F : FloatFold) (f : IRFunction) : IRFunction := f.mapBlocks (foldBlock F)

/-! ## The bits an instruction reads -/

/-- The operands of an instruction, each with the number of low bits that matter. -/
def readWidths : IRInstr → List (IRValue × Nat)
  | .load _ addr _ _ | .atomicLoad _ addr _ => [(addr, 64)]
  | .store value addr _ ty | .atomicStore value addr ty => [(value, opWidth (some ty)), (addr, 64)]
  | .binOp _ _ lhs rhs ty | .add _ lhs rhs ty | .sub _ lhs rhs ty | .mul _ lhs rhs ty
  | .div _ lhs rhs ty | .cmp _ _ lhs rhs ty | .ctEq _ lhs rhs ty =>
    [(lhs, opWidth ty), (rhs, opWidth ty)]
  | .unaryOp _ _ operand ty => [(operand, opWidth ty)]
  | .call _ _ args _ | .syscall _ args _ | .ret args => args.map (·, 64)
  | .free ptr => [(ptr, 64)]
  | .cast kind _ src fromTy toTy =>
    match kind with
    | .zext | .sext => [(src, opWidth fromTy)]
    | .trunc => [(src, opWidth toTy)]
    | _ => [(src, 64)]
  | .offset _ base off => [(base, 64), (off, 64)]
  | .select _ cond t f ty | .ctSelect _ cond t f ty =>
    [(cond, 64), (t, opWidth ty), (f, opWidth ty)]
  | .condBranch cond _ _ => [(cond, 64)]
  | .atomicCas _ addr expected desired ty =>
    [(addr, 64), (expected, opWidth (some ty)), (desired, opWidth (some ty))]
  | .vectorOp _ _ _ _ lhs rhs => [(lhs, 64), (rhs, 64)]
  | .channelSend ch msg _ => [(ch, 64), (msg, 64)]
  | .channelRecv ch _ _ | .channelRecvTimeout ch _ _ _ | .channelRecvResult ch _ _ _
  | .channelClose ch => [(ch, 64)]
  | .starkProof input _ _ => [(input, 64)]
  | .callIndirect _ funcPtr args => (funcPtr, 64) :: args.map (·, 64)
  | .bulkCopy dst src len => [(dst, 64), (src, 64), (len, 64)]
  | .bulkFill dst val len => [(dst, 64), (val, 8), (len, 64)]
  | .transform _ src _ _ => [(src, 64)]
  | .alloc .. | .getAddress .. | .branch _ | .channelOpen .. | .phi .. => []

theorem canon_congr {ty : Option IRType} {a b : Word}
    (h : a.setWidth (opWidth ty) = b.setWidth (opWidth ty)) : canon ty a = canon ty b := by
  rw [canon, canon, h]

/-- A store writes the low bits of its type only. -/
theorem encode_congr (M : Machine) {ty : IRType} {a b : Word}
    (h : a.setWidth (opWidth (some ty)) = b.setWidth (opWidth (some ty))) :
    M.encode ty a = M.encode ty b := by
  have hbytes : Machine.lowBytes (M.accessSize ty) a = Machine.lowBytes (M.accessSize ty) b := by
    by_cases hw : opWidth (some ty) = 64
    · rw [hw, BitVec.setWidth_eq, BitVec.setWidth_eq] at h
      rw [h]
    · -- a narrow type: the bytes lie within its width
      have hsize : 8 * M.accessSize ty ≤ opWidth (some ty) := by
        cases ty <;> first
          | exact absurd rfl hw
          | simp [Machine.accessSize, sizeOfType, opWidth]
      refine List.map_congr_left (fun k hk => ?_)
      rw [List.mem_range] at hk
      refine BitVec.eq_of_getLsbD_eq (fun j hj => ?_)
      have hbit := congrArg (fun x => x.getLsbD (8 * k + j)) h
      have hlt : 8 * k + j < opWidth (some ty) := by omega
      simp only [BitVec.getLsbD_setWidth, hlt, decide_true, Bool.true_and] at hbit
      simp only [BitVec.getLsbD_extractLsb', hj, decide_true, Bool.true_and]
      exact hbit
  simp only [Machine.encode, hbytes]

theorem effect_congr_width (M : Machine) {ev ev' : IRValue → Word} (edge : IRValue → Word)
    (pred : Option String) (w : World) {i : IRInstr}
    (h : ∀ p ∈ readWidths i, (ev p.1).setWidth p.2 = (ev' p.1).setWidth p.2) :
    i.effect M ev edge pred w = i.effect M ev' edge pred w := by
  have hfull : ∀ v, (v, 64) ∈ readWidths i → ev v = ev' v := by
    intro v hv
    simpa using h (v, 64) hv
  have hlist : ∀ vs : List IRValue, (∀ v ∈ vs, (v, 64) ∈ readWidths i) →
      vs.map ev = vs.map ev' :=
    fun vs hvs => List.map_congr_left (fun v hv => hfull v (hvs v hv))
  have hbin : ∀ op ty a b c d, a.setWidth (opWidth ty) = c.setWidth (opWidth ty) →
      b.setWidth (opWidth ty) = d.setWidth (opWidth ty) → M.binOp op ty a b = M.binOp op ty c d := by
    intro op ty a b c d hac hbd
    unfold Machine.binOp
    split
    · simp only [opWidth, BitVec.setWidth_eq] at hac hbd
      rw [hac, hbd]
    · simp only [opWidth, BitVec.setWidth_eq] at hac hbd
      rw [hac, hbd]
    · simp only [intBinOp, hac, hbd]
  cases i with
  | load dst addr off ty | atomicLoad dst addr ty =>
    simp only [IRInstr.effect, hfull addr (by simp [readWidths])]
  | store value addr off ty | atomicStore value addr ty =>
    simp only [IRInstr.effect, hfull addr (by simp [readWidths]),
      encode_congr M (h (value, opWidth (some ty)) (by simp [readWidths]))]
  | binOp op dst lhs rhs ty =>
    simp only [IRInstr.effect, hbin op ty _ _ _ _ (h (lhs, opWidth ty) (by simp [readWidths]))
      (h (rhs, opWidth ty) (by simp [readWidths]))]
  | unaryOp op dst operand ty =>
    have ho := h (operand, opWidth ty) (by simp [readWidths])
    have : M.unaryOp op ty (ev operand) = M.unaryOp op ty (ev' operand) := by
      unfold Machine.unaryOp
      split
      · simp only [opWidth, BitVec.setWidth_eq] at ho
        rw [ho]
      · simp only [opWidth, BitVec.setWidth_eq] at ho
        rw [ho]
      · simp only [intUnaryOp, ho]
    simp only [IRInstr.effect, this]
  | cast kind dst src fromTy toTy =>
    cases kind with
    | zext | sext =>
      simp only [IRInstr.effect, Machine.cast, intCast,
        h (src, opWidth fromTy) (by simp [readWidths])]
    | trunc =>
      simp only [IRInstr.effect, Machine.cast, intCast,
        canon_congr (h (src, opWidth toTy) (by simp [readWidths]))]
    | _ => simp only [IRInstr.effect, hfull src (by simp [readWidths])]
  | add dst lhs rhs ty | sub dst lhs rhs ty | mul dst lhs rhs ty | ctEq dst lhs rhs ty =>
    simp only [IRInstr.effect, h (lhs, opWidth ty) (by simp [readWidths]),
      h (rhs, opWidth ty) (by simp [readWidths])]
  | div dst lhs rhs ty =>
    simp only [IRInstr.effect, intBinOp, h (lhs, opWidth ty) (by simp [readWidths]),
      h (rhs, opWidth ty) (by simp [readWidths])]
  | cmp kind dst lhs rhs ty =>
    have hl := h (lhs, opWidth ty) (by simp [readWidths])
    have hr := h (rhs, opWidth ty) (by simp [readWidths])
    have : M.cmp kind ty (ev lhs) (ev rhs) = M.cmp kind ty (ev' lhs) (ev' rhs) := by
      unfold Machine.cmp
      split
      · simp only [opWidth, BitVec.setWidth_eq] at hl hr
        rw [hl, hr]
      · simp only [opWidth, BitVec.setWidth_eq] at hl hr
        rw [hl, hr]
      · simp only [hl, hr]
    simp only [IRInstr.effect, this]
  | select dst cond t f ty | ctSelect dst cond t f ty =>
    have ht := canon_congr (h (t, opWidth ty) (by simp [readWidths]))
    have hf := canon_congr (h (f, opWidth ty) (by simp [readWidths]))
    simp only [IRInstr.effect, hfull cond (by simp [readWidths])]
    split
    · rw [hf]
    · rw [ht]
  | atomicCas dst addr expected desired ty =>
    simp only [IRInstr.effect, hfull addr (by simp [readWidths]),
      canon_congr (h (expected, opWidth (some ty)) (by simp [readWidths])),
      encode_congr M (h (desired, opWidth (some ty)) (by simp [readWidths]))]
  | bulkFill dst val len =>
    have hv : (ev val).setWidth 8 = (ev' val).setWidth 8 := h (val, 8) (by simp [readWidths])
    simp only [IRInstr.effect, hfull dst (by simp [readWidths]),
      hfull len (by simp [readWidths]), hv]
  | call dst func args ext => simp only [IRInstr.effect, hlist args (by simp [readWidths])]
  | syscall nr args dst => simp only [IRInstr.effect, hlist args (by simp [readWidths])]
  | ret args => simp only [IRInstr.effect, hlist args (by simp [readWidths])]
  | callIndirect dst funcPtr args =>
    simp only [IRInstr.effect, hfull funcPtr (by simp [readWidths]),
      hlist args (by simp +contextual [readWidths])]
  | alloc dst size => rfl
  | phi dst incoming => rfl
  | getAddress dst name => rfl
  | branch target => rfl
  | channelOpen dst ty => rfl
  | _ =>
    simp only [readWidths, List.mem_cons, List.not_mem_nil, or_false, forall_eq_or_imp, forall_eq,
      BitVec.setWidth_eq] at h
    simp only [IRInstr.effect, h]

/-! ## Integer code and the condition -/

def intTy (ty : Option IRType) : Bool := ty.all (fun t => !t.isFloat)

/-- The arithmetic carries integer types. -/
def integerInstr : IRInstr → Bool
  | .binOp _ _ _ _ ty | .unaryOp _ _ _ ty | .add _ _ _ ty | .sub _ _ _ ty | .mul _ _ _ ty
  | .div _ _ _ ty | .cmp _ _ _ _ ty => intTy ty
  | .cast kind _ _ fromTy toTy =>
    (kind == .zext || kind == .sext || kind == .trunc || kind == .bitCast) &&
      intTy fromTy && intTy toTy
  | _ => true

/-- The value, at its type, of an integer instruction whose operands are immediates; `none` is a
trap. -/
def immValue : IRInstr → Option Word
  | .binOp op _ (.immediate l) (.immediate r) ty => intBinOp op ty l r
  | .unaryOp op _ (.immediate o) ty => some (intUnaryOp op ty o)
  | .add _ (.immediate l) (.immediate r) ty =>
    some (extendTo ty (l.setWidth (opWidth ty) + r.setWidth (opWidth ty)))
  | .sub _ (.immediate l) (.immediate r) ty =>
    some (extendTo ty (l.setWidth (opWidth ty) - r.setWidth (opWidth ty)))
  | .mul _ (.immediate l) (.immediate r) ty =>
    some (extendTo ty (l.setWidth (opWidth ty) * r.setWidth (opWidth ty)))
  | .div _ (.immediate l) (.immediate r) ty => intBinOp .sdiv ty l r
  | .cast kind _ (.immediate v) fromTy toTy => some (intCast kind fromTy toTy v)
  | _ => none

/-- For a folded register: the constant the pass propagates, and the value the register holds. -/
abbrev FoldEnv := VReg → Option (Word × Word)

/-- The map of the pass. -/
def FoldEnv.map (env : FoldEnv) : SubstMap := fun r => (env r).map fun p => .immediate p.1

/-- The environment after the pass has looked at an instruction. -/
def FoldEnv.step (F : FloatFold) (env : FoldEnv) (i : IRInstr) : FoldEnv :=
  let i' := substituteInstr env.map i
  match tryFoldInstruction F i' with
  | some (dst, result) =>
    Function.update env dst (some (result, canon (foldTy i' result) result))
  | none => env

/-- The pass treats `i` correctly: `i` assigns no folded register, and is no phi that reads one; it
reads only bits on which the constant and the value agree; and if it is folded, the definition that
replaces it gives the value of the operation at its type. -/
structure StepSafe (F : FloatFold) (env : FoldEnv) (i : IRInstr) : Prop where
  defs : ∀ r ∈ i.definedRegs, env r = none
  phi : i.isPhi = true → ∀ r ∈ i.usedRegs, env r = none
  uses : ∀ r k, (.register r, k) ∈ readWidths i → ∀ c v, env r = some (c, v) →
    c.setWidth k = v.setWidth k
  value : ∀ dst result, tryFoldInstruction F (substituteInstr env.map i) = some (dst, result) →
    immValue (substituteInstr env.map i) =
      some (canon (foldTy (substituteInstr env.map i) result) result)

/-- The pass treats a block correctly, its terminator included. -/
def FoldSafe (F : FloatFold) (t : IRTerminator) : List IRInstr → FoldEnv → Prop
  | [], env => (∀ r ∈ t.definedRegs, env r = none) ∧
      ∀ r ∈ t.usedRegs, ∀ c v, env r = some (c, v) → c = v
  | i :: is, env => StepSafe F env i ∧ FoldSafe F t is (env.step F i)

/-! ## One instruction -/

/-- The folded registers hold their values. -/
def EnvHolds (env : FoldEnv) (σ : Regs) : Prop := ∀ r c v, env r = some (c, v) → σ r = v

theorem FoldEnv.map_eq_none {env : FoldEnv} {r : VReg} (h : env r = none) : env.map r = none := by
  simp [FoldEnv.map, h]

theorem mem_readWidths_of_keptUses {i : IRInstr} {r : VReg} (h : r ∈ keptUses i) :
    (.register r, 64) ∈ readWidths i := by
  cases i <;> first
    | (simp only [keptUses] at h; rw [IRValue.mem_regs] at h; simp [readWidths, h])
    | simp [keptUses] at h

/-- Substituting the constants into an instruction that `StepSafe` allows does not change what it
does. -/
theorem StepSafe.effect_subst {F : FloatFold} {env : FoldEnv} {i : IRInstr}
    (hsafe : StepSafe F env i) (M : Machine) {σ : Regs} (hσ : EnvHolds env σ) (edge : Regs)
    (pred : Option String) (w : World) :
    (substituteInstr env.map i).effect M (·.eval M σ) (·.eval M edge) pred w =
      i.effect M (·.eval M σ) (·.eval M edge) pred w := by
  have hmap : ∀ r ∈ i.definedRegs, env.map r = none := fun r hr =>
    FoldEnv.map_eq_none (hsafe.defs r hr)
  -- the bits that are read are the same with and without the substitution
  have hread : ∀ p ∈ readWidths i, ((substituteValue env.map p.1).eval M σ).setWidth p.2 =
      (p.1.eval M σ).setWidth p.2 := by
    rintro ⟨v, k⟩ hp
    cases v with
    | register r =>
      cases he : env r with
      | none => simp [substituteValue, FoldEnv.map, he]
      | some cv =>
        have hv : σ r = cv.2 := hσ r cv.1 cv.2 he
        simpa [substituteValue, FoldEnv.map, he, IRValue.eval, hv] using
          hsafe.uses r k hp cv.1 cv.2 he
    | _ => rfl
  have heff := @effect_substituteInstr M M.slot env.map
    (fun v => (substituteValue env.map v).eval M σ) (·.eval M σ) (·.eval M edge)
    (·.eval M edge) pred w i (fun _ v _ => rfl)
    (fun hi v hv => by
      rw [substituteValue_of_none (fun r hr => FoldEnv.map_eq_none (hsafe.phi hi r (hv r hr)))])
    (fun r hr => by simpa using (hread _ (mem_readWidths_of_keptUses hr)).symm)
    (fun r hr => hmap r (mem_definedRegs_of_keptDefs hr))
    (fun r size hi => ⟨r, substituteValue_of_none (by
      subst hi
      simpa [IRInstr.definedRegs] using hmap), rfl⟩)
  refine heff.trans ((mapDst_eq_self hmap _ _ _ _ _).trans ?_)
  exact effect_congr_width M _ pred w hread

theorem foldTy_intTy {i : IRInstr} (hi : integerInstr i = true) (result : Word) :
    intTy (foldTy i result) = true := by
  have hor : ∀ ty : Option IRType, intTy ty = true →
      intTy (ty.or (if 0xFFFFFFFF < result.toNat then some .u64 else none)) = true := by
    intro ty hty
    cases ty with
    | some t => exact hty
    | none =>
      simp only [Option.none_or]
      split <;> rfl
  cases i with
  | cast kind dst src fromTy toTy =>
    simp only [integerInstr, Bool.and_eq_true] at hi
    cases kind with
    | zext | sext => exact hor toTy hi.2
    | _ => exact hor none rfl
  | binOp _ _ _ _ ty | cmp _ _ _ _ ty | add _ _ _ ty | sub _ _ _ ty | mul _ _ _ ty =>
    exact hor ty hi
  | _ => exact hor none rfl

theorem machine_binOp_int (M : Machine) {op : BinOpKind} {ty : Option IRType} {a b : Word}
    (h : intTy ty = true) : M.binOp op ty a b = intBinOp op ty a b := by
  unfold Machine.binOp
  split
  · simp [intTy, IRType.isFloat] at h
  · simp [intTy, IRType.isFloat] at h
  · rfl

theorem machine_unaryOp_int (M : Machine) {op : UnaryOpKind} {ty : Option IRType} {a : Word}
    (h : intTy ty = true) : M.unaryOp op ty a = intUnaryOp op ty a := by
  unfold Machine.unaryOp
  split
  · simp [intTy, IRType.isFloat] at h
  · simp [intTy, IRType.isFloat] at h
  · rfl

theorem machine_cast_int (M : Machine) {kind : CastKind} {fromTy toTy : Option IRType} {a : Word}
    (h : (kind == .zext || kind == .sext || kind == .trunc || kind == .bitCast) = true) :
    M.cast kind fromTy toTy a = intCast kind fromTy toTy a := by
  cases kind <;> first | rfl | simp at h

/-- The replacement of a folded instruction. -/
theorem constantDef_effect (M : Machine) (σ : Regs) (edge : IRValue → Word) (pred : Option String)
    (w : World) (dst : VReg) (result : Word) {ty : Option IRType} (hty : intTy ty = true) :
    (constantDef dst result ty).effect M (·.eval M σ) edge pred w =
      .next [(.register dst, canon ty result)] w := by
  cases ty with
  | none =>
    have hcanon : canon none result = result := (BitVec.setWidth_eq _).trans (BitVec.setWidth_eq _)
    rw [constantDef, IRInstr.effect_copy, hcanon]
    rfl
  | some t =>
    have hbin : M.binOp .add (some t) result 0 = some (canon (some t) result) := by
      rw [machine_binOp_int M hty]
      simp [intBinOp, binOpAt, canon]
    simp only [constantDef, IRInstr.effect, IRValue.eval, hbin]

theorem integerInstr_substituteInstr (map : SubstMap) (i : IRInstr) :
    integerInstr (substituteInstr map i) = integerInstr i := by
  cases i <;> rfl

theorem effect_of_immValue {F : FloatFold} (M : Machine) (σ : Regs) (edge : IRValue → Word)
    (pred : Option String) (w : World) {i : IRInstr} (hi : integerInstr i = true) {dst : VReg}
    {result v : Word} (hfold : tryFoldInstruction F i = some (dst, result))
    (hv : immValue i = some v) :
    i.effect M (·.eval M σ) edge pred w = .next [(.register dst, v)] w := by
  have hdst : ∀ d : IRValue, d.asRegister = some dst → d = .register dst := by
    intro d hd
    cases d <;> simp [IRValue.asRegister] at hd ⊢
    exact hd
  unfold immValue at hv
  split at hv
  case h_3 | h_4 | h_5 =>
    rename_i d l r ty
    simp only [tryFoldInstruction, IRValue.asImmediate, Option.bind_eq_bind, Option.bind_some,
      Option.bind_eq_some_iff] at hfold
    obtain ⟨q, hq, he⟩ := hfold
    cases he
    cases hv
    simp only [IRInstr.effect, IRValue.eval, hdst d hq]
  · rename_i op d l r ty
    simp only [tryFoldInstruction, IRValue.asImmediate, Option.bind_eq_bind, Option.bind_some,
      Option.bind_eq_some_iff] at hfold
    obtain ⟨q, hq, c, -, he⟩ := hfold
    cases he
    simp only [IRInstr.effect, IRValue.eval, machine_binOp_int M hi, hv, hdst d hq]
  · rename_i op d o ty
    simp only [tryFoldInstruction, IRValue.asImmediate, Option.bind_eq_bind, Option.bind_some,
      Option.bind_eq_some_iff] at hfold
    obtain ⟨q, hq, c, -, he⟩ := hfold
    cases he
    cases hv
    simp only [IRInstr.effect, IRValue.eval, machine_unaryOp_int M hi, hdst d hq]
  · rename_i d l r ty
    simp only [tryFoldInstruction, IRValue.asImmediate, Option.bind_eq_bind, Option.bind_some,
      Option.bind_eq_some_iff] at hfold
    obtain ⟨q, hq, c, -, he⟩ := hfold
    cases he
    simp only [IRInstr.effect, IRValue.eval, hv, hdst d hq]
  · rename_i kind d x fromTy toTy
    simp only [tryFoldInstruction, IRValue.asImmediate, Option.bind_eq_bind, Option.bind_some,
      Option.bind_eq_some_iff] at hfold
    obtain ⟨q, hq, c, -, he⟩ := hfold
    cases he
    cases hv
    simp only [integerInstr, Bool.and_eq_true] at hi
    simp only [IRInstr.effect, IRValue.eval, machine_cast_int M hi.1.1, hdst d hq]
  · cases hv

/-! ## Preservation -/

theorem FoldEnv.map_update (env : FoldEnv) (dst : VReg) (c v : Word) :
    FoldEnv.map (Function.update env dst (some (c, v))) =
      Function.update env.map dst (some (.immediate c)) := by
  funext r
  by_cases h : r = dst
  · subst h
    simp [FoldEnv.map]
  · simp [FoldEnv.map, h]

theorem EnvHolds.writes {env : FoldEnv} {σ : Regs} (h : EnvHolds env σ)
    {ws : List (IRValue × Word)} (hws : ∀ r, env r ≠ none → ∀ p ∈ ws, p.1 ≠ .register r) :
    EnvHolds env (σ.writes ws) := by
  intro r c v he
  rw [Regs.writes_of_not_mem (hws r (by simp [he]))]
  exact h r c v he

theorem foldWalk_exec (F : FloatFold) (M : Machine) (label : String) (pred : Option String)
    (edge : Regs) (t : IRTerminator) (is : List IRInstr)
    (hint : ∀ i ∈ is, integerInstr i = true) {env : FoldEnv} (hsafe : FoldSafe F t is env)
    {σ : Regs} (hσ : EnvHolds env σ) (w : World) :
    (execInstrs M label pred edge (foldWalk F is env.map).1 σ w).finish
        ((substituteTerminator (foldWalk F is env.map).2 t).exec M label) =
      (execInstrs M label pred edge is σ w).finish (t.exec M label) := by
  induction is generalizing env σ w with
  | nil =>
    obtain ⟨hdefs, huses⟩ := hsafe
    refine exec_substituteTerminator (fun r hr v hm => ?_) label w
      (fun r hr => FoldEnv.map_eq_none (hdefs r hr))
    obtain ⟨⟨c, x⟩, he, rfl⟩ := Option.map_eq_some_iff.mp hm
    rw [hσ r c x he]
    exact huses r hr c x he
  | cons i is ih =>
    obtain ⟨hstep, hrest⟩ := hsafe
    have hint' : ∀ j ∈ is, integerInstr j = true := fun j hj => hint j (List.mem_cons_of_mem _ hj)
    have heff := hstep.effect_subst M hσ edge pred w
    simp only [foldWalk]
    cases hf : tryFoldInstruction F (substituteInstr env.map i) with
    | some dr =>
      obtain ⟨dst, result⟩ := dr
      have hi : integerInstr (substituteInstr env.map i) = true := by
        rw [integerInstr_substituteInstr]
        exact hint i List.mem_cons_self
      have hval := effect_of_immValue M σ (·.eval M edge) pred w hi hf (hstep.value dst result hf)
      simp only [FoldEnv.step, hf] at hrest
      simp only [execInstrs_cons, constantDef_effect M σ _ pred w dst result (foldTy_intTy hi result),
        ← heff, hval, Effect.flow, Flow.andThen]
      rw [← FoldEnv.map_update env dst result (canon (foldTy (substituteInstr env.map i) result)
        result)]
      refine ih hint' hrest (fun r c v he => ?_) w
      by_cases hr : r = dst
      · subst hr
        simp only [Function.update_self, Option.some.injEq, Prod.mk.injEq] at he
        simp [Regs.writes, Regs.write, he.2]
      · rw [Function.update_of_ne hr] at he
        simp [Regs.writes, Regs.write, Function.update_of_ne hr, hσ r c v he]
    | none =>
      simp only [FoldEnv.step, hf] at hrest
      simp only [execInstrs_cons, heff]
      cases he : i.effect M (·.eval M σ) (·.eval M edge) pred w with
      | next ws w' =>
        refine ih hint' hrest (hσ.writes (fun r hr => ?_)) w'
        exact IRInstr.effect_writes_mem he (fun hd => hr (hstep.defs r hd))
      | _ => rfl

/-- Constant folding preserves every run of integer code that `FoldSafe` allows. -/
theorem constantFold_preserves (F : FloatFold) (M : Machine) (f : IRFunction)
    (hint : ∀ b ∈ f.blocks, ∀ i ∈ b.instructions, integerInstr i = true)
    (hsafe : ∀ b ∈ f.blocks, FoldSafe F b.terminator b.instructions (fun _ => none))
    (regs : Regs) (w : World) (n : Nat) :
    ((constantFold F f).run M regs w n).obs = (f.run M regs w n).obs := by
  refine f.mapBlocks_obs_of_exec (g := foldBlock F) (fun _ => rfl) ?_ regs w n
  intro b hb pred σ w
  exact foldWalk_exec F M b.label pred σ b.terminator b.instructions (hint b hb)
    (hsafe b hb) (fun r c v he => by cases he) w

/-- `r1 = 2 + 3; r2 = r1 * r0; return r2` becomes `r1 = 5 + 0; r2 = 5 * r0; return r2`. -/
theorem constantFold_preserves_product :
    let f : IRFunction :=
      { name := "f"
        params := [.register 0]
        blocks := [{ label := "entry"
                     instructions := [.add (.register 1) (.immediate 2) (.immediate 3) none,
                       .mul (.register 2) (.register 1) (.register 0) none]
                     terminator := .ret [.register 2] }] }
    (constantFold default f).blocks.map (·.instructions) =
        [[.add (.register 1) (.immediate 5) (.immediate 0) none,
          .mul (.register 2) (.immediate 5) (.register 0) none]] ∧
      ∀ M regs w n,
        ((constantFold default f).run M regs w n).obs = (f.run M regs w n).obs := by
  intro f
  refine ⟨by decide, fun M => constantFold_preserves default M f (by decide) ?_⟩
  intro b hb
  cases List.mem_singleton.mp hb
  refine ⟨⟨by simp, by simp [IRInstr.isPhi], by simp, ?_⟩,
    ⟨?_, by simp [IRInstr.isPhi], ?_, ?_⟩, ?_, ?_⟩
  · intro dst result h
    cases h
    decide
  · decide
  · intro r k hr c v he
    simp only [readWidths, List.mem_cons, Prod.mk.injEq, IRValue.register.injEq, List.not_mem_nil,
      or_false] at hr
    rcases hr with ⟨rfl, rfl⟩ | ⟨rfl, rfl⟩
    · cases he
      decide
    · cases he
  · intro dst result h
    cases h
  · simp [IRTerminator.definedRegs]
  · intro r hr c v he
    cases List.mem_singleton.mp hr
    cases he

/-- Two ways the map lies. A register assigned twice, `r1 = 2 + 3; r1 = r0 + 1; return r1`, returns
5 for every argument. A sum at 8 bits, `r1 = 200 + 100 : u8; r2 = r1 + 0; return r2`, returns 300
instead of 44. -/
theorem constantFold_stale_and_wide :
    let twice : IRFunction :=
      { name := "f"
        params := [.register 0]
        blocks := [{ label := "entry"
                     instructions := [.add (.register 1) (.immediate 2) (.immediate 3) none,
                       .add (.register 1) (.register 0) (.immediate 1) none]
                     terminator := .ret [.register 1] }] }
    let narrow : IRFunction :=
      { name := "g"
        blocks := [{ label := "entry"
                     instructions :=
                       [.add (.register 1) (.immediate 200) (.immediate 100) (some .u8),
                        .add (.register 2) (.register 1) (.immediate 0) none]
                     terminator := .ret [.register 2] }] }
    (¬ ∀ M regs w n,
      ((constantFold default twice).run M regs w n).obs = (twice.run M regs w n).obs) ∧
    ¬ ∀ M regs w n,
      ((constantFold default narrow).run M regs w n).obs = (narrow.run M regs w n).obs := by
  intro twice narrow
  refine ⟨fun h => ?_, fun h => ?_⟩
  · have hret := congrArg Prod.fst (h default (fun _ => 0) ⟨fun _ => 0, []⟩ 1)
    exact absurd hret (by decide)
  · have hret := congrArg Prod.fst (h default (fun _ => 0) ⟨fun _ => 0, []⟩ 1)
    exact absurd hret (by decide)

end Vuma.Opt
