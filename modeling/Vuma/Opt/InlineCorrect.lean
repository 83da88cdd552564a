import Vuma.Opt.InlineSplice
import Vuma.IR.Relabel

/-!
# The inliner

The loop of `inline_with_threshold` splices one call after another. Each splice is right when the
state before it has what `LoopInv` says, and every round keeps it; so the whole pass refines the
function, under conditions on the function and the table alone (`InlineSafe`).
-/

namespace Vuma.Opt

open IR

/-! ## The generated labels -/

/-- The number in a generated label is determined by the label. -/
theorem inlinePrefix_inj {n m : Nat} {x y : String} (h : inlinePrefix n x = inlinePrefix m y) :
    n = m := by
  have hlist : "inl".toList ++ ((toString n).toList ++ ("_".toList ++ x.toList)) =
      "inl".toList ++ ((toString m).toList ++ ("_".toList ++ y.toList)) := by
    simpa only [inlinePrefix, String.toList_append, List.append_assoc] using
      congrArg String.toList h
  have hdigits : Nat.toDigits 10 n ++ '_' :: x.toList = Nat.toDigits 10 m ++ '_' :: y.toList := by
    have := List.append_cancel_left hlist
    rwa [show toString n = n.repr from rfl, show toString m = m.repr from rfl, Nat.toList_repr,
      Nat.toList_repr] at this
  -- the digits end at the first underscore
  have heq : Nat.toDigits 10 n = Nat.toDigits 10 m := by
    rcases List.append_eq_append_iff.mp hdigits with ⟨cs, hcs, hx⟩ | ⟨cs, hcs, hx⟩
    · cases cs with
      | nil => simpa using hcs.symm
      | cons a cs =>
        rw [List.cons_append, List.cons.injEq] at hx
        exact absurd (by rw [hcs, ← hx.1]; simp) (Nat.underscore_not_in_toDigits (n := m))
    · cases cs with
      | nil => simpa using hcs
      | cons a cs =>
        rw [List.cons_append, List.cons.injEq] at hx
        exact absurd (by rw [hcs, ← hx.1]; simp) (Nat.underscore_not_in_toDigits (n := n))
  rw [← Nat.ofDigitChars_ten_toDigits (n := n), heq, Nat.ofDigitChars_ten_toDigits]

theorem inlinePrefix_append (n : Nat) (x y : String) :
    inlinePrefix n x ++ "_" ++ y = inlinePrefix n (x ++ "_" ++ y) := by
  simp only [inlinePrefix, String.append_assoc]

theorem inlinePrefix_cont (n : Nat) (x : String) :
    inlinePrefix n x ++ "_cont" = inlinePrefix n (x ++ "_cont") := by
  simp only [inlinePrefix, String.append_assoc]

/-! ## Call sites -/

section

variable {funcs : String → Option IRFunction} {threshold : Nat} {caller : String}

theorem inlinable_eq_some {i : IRInstr} {s : CallSite}
    (h : inlinable funcs threshold caller i = some s) :
    (∃ ext, i = .call s.dst s.name s.args ext) ∧ funcs s.name = some s.callee ∧
      s.callee.blocks = [s.body] := by
  cases i with
  | call dst name args ext =>
    simp only [inlinable] at h
    split at h
    · cases h
    · split at h
      · rename_i callee hcallee
        split at h
        · rename_i body hbody
          split at h
          · cases h
            exact ⟨⟨ext, rfl⟩, hcallee, hbody⟩
          · cases h
        · cases h
      · cases h
  | _ => cases h

theorem findCall_eq_some {site : IRInstr → Option CallSite} {is before after : List IRInstr}
    {s : CallSite} (h : findCall site is = some (before, s, after)) :
    ∃ i, is = before ++ i :: after ∧ site i = some s := by
  induction is generalizing before with
  | nil => cases h
  | cons i is ih =>
    cases hs : site i with
    | some s' =>
      simp only [findCall, hs, Option.some.injEq, Prod.mk.injEq] at h
      obtain ⟨rfl, rfl, rfl⟩ := h
      exact ⟨i, rfl, hs⟩
    | none =>
      simp only [findCall, hs, Option.map_eq_some_iff] at h
      obtain ⟨⟨before', s', after'⟩, hfind, heq⟩ := h
      simp only [Prod.mk.injEq] at heq
      obtain ⟨rfl, rfl, rfl⟩ := heq
      obtain ⟨j, hj, hsite⟩ := ih hfind
      exact ⟨j, by rw [hj]; rfl, hsite⟩

/-- The call sites of a callee, as far as the splice is concerned. -/
structure CallSite.Alike (s s' : CallSite) : Prop where
  name : s.name = s'.name
  callee : s.callee = s'.callee
  body : s.body = s'.body
  args : s.args.length = s'.args.length
  dst : s.dst.isSome = s'.dst.isSome

theorem boundParams_zip {ps as : List IRValue} :
    boundParams (ps.zip as) = (ps.take as.length).filterMap IRValue.asRegister := by
  induction ps generalizing as with
  | nil => simp [boundParams]
  | cons p ps ih =>
    cases as with
    | nil => simp [boundParams]
    | cons a as =>
      have hih := @ih as
      simp only [boundParams] at hih
      simp only [boundParams, List.zip_cons_cons, List.length_cons, List.take_succ_cons,
        List.filterMap_cons, hih]

theorem CallSite.Alike.bound_eq {s s' : CallSite} (ha : s.Alike s') : s.bound = s'.bound := by
  rw [CallSite.bound, CallSite.bound, boundParams_zip, boundParams_zip, ha.callee, ha.args]

theorem CallSite.Alike.fresh_eq {s s' : CallSite} (ha : s.Alike s') : s.fresh = s'.fresh := by
  rw [CallSite.fresh, CallSite.fresh, ha.bound_eq, ha.dst, ha.body]

theorem CallSite.Safe.of_alike {s s' : CallSite} (h : s'.Safe) (ha : s.Alike s') : s.Safe := by
  have hcore : s.core = s'.core := by rw [CallSite.core, CallSite.core, ha.body]
  have hbound := ha.bound_eq
  constructor
  · rw [ha.body]; exact h.phi
  · rw [ha.body]; exact h.uses
  · rw [ha.body]; exact h.defs
  · rw [hbound, hcore]; exact h.reads
  · rw [hbound, hcore, ha.body]; exact h.exitReads
  · rw [hcore, ha.body, ha.dst]; exact h.exit
  · rw [ha.body]; exact h.label

/-- Renaming registers makes no difference to what is inlined. -/
theorem inlinable_substituteInstr {map : SubstMap} {lo hi : VReg} (hfresh : FreshMap map lo hi)
    {i : IRInstr} {s : CallSite}
    (h : inlinable funcs threshold caller (substituteInstr map i) = some s) :
    ∃ s', inlinable funcs threshold caller i = some s' ∧ s.Alike s' := by
  have himm : ∀ v, isImmediate (substituteValue map v) = isImmediate v := by
    intro v
    cases v with
    | register r =>
      cases hr : map r with
      | none => simp [substituteValue, hr]
      | some u =>
        obtain ⟨q, rfl, -, -⟩ := hfresh.range r u hr
        simp [substituteValue, hr, isImmediate]
    | _ => rfl
  have hcost : ∀ callee args, functionInlineCost callee (args.map (substituteValue map)) =
      functionInlineCost callee args := by
    intro callee args
    have hcomp : isImmediate ∘ substituteValue map = isImmediate := funext himm
    simp only [functionInlineCost, List.length_map, List.filter_map, hcomp]
  cases i with
  | call dst name args ext =>
    simp only [substituteInstr, inlinable, hcost] at h ⊢
    split at h
    · cases h
    · rename_i hname
      rw [if_neg hname]
      split at h
      · split at h
        · split at h
          · rename_i hcond
            cases h
            exact ⟨_, if_pos hcond, rfl, rfl, rfl, by simp, by simp⟩
          · cases h
        · cases h
      · cases h
  | _ => cases h

end

/-! ## The new blocks -/

@[simp] theorem targets_substituteInstr (map : SubstMap) (i : IRInstr) :
    (substituteInstr map i).targets = i.targets := by
  cases i <;> rfl

@[simp] theorem isPhi_substituteInstr (map : SubstMap) (i : IRInstr) :
    (substituteInstr map i).isPhi = i.isPhi := by
  cases i <;> rfl

theorem phiLabels_of_not_isPhi {i : IRInstr} (h : i.isPhi = false) : i.phiLabels = [] := by
  cases i with
  | phi dst incoming => simp [IRInstr.isPhi] at h
  | _ => rfl

theorem targets_of_not_isControl {i : IRInstr} (h : i.isControl = false) : i.targets = [] := by
  cases i with
  | branch _ | condBranch _ _ _ => simp [IRInstr.isControl] at h
  | _ => rfl

theorem usedRegs_substituteInstr {map : SubstMap} {i : IRInstr} (hkept : keptUses i = [])
    {q : VReg} (h : q ∈ (substituteInstr map i).usedRegs) :
    ∃ r ∈ i.usedRegs, q ∈ (substituteValue map (.register r)).regs := by
  have hv : ∀ v, q ∈ (substituteValue map v).regs →
      ∃ r ∈ v.regs, q ∈ (substituteValue map (.register r)).regs := by
    intro v hq
    cases v with
    | register r => exact ⟨r, by simp, hq⟩
    | _ => simp [substituteValue] at hq
  have hvs : ∀ vs : List IRValue, q ∈ (vs.map (substituteValue map)).filterMap IRValue.asRegister →
      ∃ r ∈ vs.filterMap IRValue.asRegister, q ∈ (substituteValue map (.register r)).regs := by
    intro vs hq
    obtain ⟨v', hv', hq⟩ := List.mem_filterMap.mp hq
    obtain ⟨v, hmem, rfl⟩ := List.mem_map.mp hv'
    obtain ⟨r, hr, hqr⟩ := hv v (by simp [IRValue.regs, hq])
    exact ⟨r, List.mem_filterMap.mpr ⟨v, hmem, by rw [IRValue.mem_regs.mp hr]; rfl⟩, hqr⟩
  cases i with
  | call dst func args ext => exact hvs args h
  | syscall nr args dst => exact hvs args h
  | ret values => exact hvs values h
  | callIndirect dst funcPtr args =>
    rcases List.mem_append.mp h with h | h
    · obtain ⟨r, hr, hq⟩ := hv funcPtr h
      exact ⟨r, List.mem_append_left _ hr, hq⟩
    · obtain ⟨r, hr, hq⟩ := hvs args h
      exact ⟨r, List.mem_append_right _ hr, hq⟩
  | phi dst incoming =>
    obtain ⟨e', he', hq⟩ := List.mem_filterMap.mp h
    obtain ⟨e, he, rfl⟩ := List.mem_map.mp he'
    obtain ⟨r, hr, hqr⟩ := hv e.1 (by simp [IRValue.regs, hq])
    exact ⟨r, List.mem_filterMap.mpr ⟨e, he, by rw [IRValue.mem_regs.mp hr]; rfl⟩, hqr⟩
  | channelSend ch msg ty =>
    rcases List.mem_append.mp h with h | h
    · simp only [keptUses] at hkept
      rw [hkept] at h
      cases h
    · obtain ⟨r, hr, hq⟩ := hv msg h
      exact ⟨r, List.mem_append_right _ hr, hq⟩
  | channelRecv _ _ _ | channelRecvTimeout _ _ _ _ | channelRecvResult _ _ _ _ | channelClose _ =>
    simp only [keptUses] at hkept
    simp only [substituteInstr, IRInstr.usedRegs, hkept] at h
    cases h
  | alloc _ _ | getAddress _ _ | branch _ | channelOpen _ _ => cases h
  | _ =>
    simp only [substituteInstr, IRInstr.usedRegs, List.mem_append] at h ⊢
    grind

theorem mem_bindParams_copies {ps : List (IRValue × IRValue)} {c : VReg} {map : SubstMap}
    {i : IRInstr} (h : i ∈ (bindParams ps c map).2.2) :
    ∃ q p, p ∈ ps ∧ i = .add (.register q) p.2 (.immediate 0) none := by
  induction ps generalizing c map with
  | nil => cases h
  | cons p ps ih =>
    obtain ⟨param, arg⟩ := p
    cases param with
    | register id =>
      rcases List.mem_cons.mp h with rfl | h
      · exact ⟨c, _, List.mem_cons_self, rfl⟩
      · obtain ⟨q, p, hp, rfl⟩ := ih h
        exact ⟨q, p, List.mem_cons_of_mem _ hp, rfl⟩
    | _ =>
      obtain ⟨q, p, hp, rfl⟩ := ih h
      exact ⟨q, p, List.mem_cons_of_mem _ hp, rfl⟩

theorem mem_of_readsDefined {D : List VReg} {is : List IRInstr} (h : readsDefined D is = true)
    {i : IRInstr} (hi : i ∈ is) {r : VReg} (hr : r ∈ i.usedRegs) :
    r ∈ D ++ is.flatMap IRInstr.definedRegs := by
  induction is generalizing D with
  | nil => cases hi
  | cons j is ih =>
    simp only [readsDefined, Bool.and_eq_true, List.all_eq_true, List.contains_iff_mem] at h
    rcases List.mem_cons.mp hi with rfl | hi
    · exact List.mem_append_left _ (h.1 r hr)
    · have := ih h.2 hi
      rwa [List.append_assoc, ← List.flatMap_cons] at this

theorem spliceRegs_mapped {s : CallSite} (c : VReg) {r : VReg}
    (hr : r ∈ s.bound ++ s.core.flatMap IRInstr.definedRegs) :
    ∃ q, substituteValue (spliceRegs s c).map (.register r) = .register q ∧
      q < (spliceRegs s c).counter := by
  obtain ⟨hfresh, -, hdefs, hext, -⟩ := spliceRegs_fresh s c
  have hne : (spliceRegs s c).map r ≠ none := by
    rcases List.mem_append.mp hr with hr | hr
    · have hbound := (@bindParams_eq_none (s.callee.params.zip s.args) c (fun _ => none) r).not.2
        fun hn => hn.2 hr
      obtain ⟨v, hv⟩ := Option.ne_none_iff_exists'.mp hbound
      rw [hext r v hv]
      exact Option.some_ne_none v
    · obtain ⟨i, hi, hri⟩ := List.mem_flatMap.mp hr
      exact hdefs r (List.mem_flatMap.mpr ⟨i, (CallSite.mem_core hi).1, hri⟩)
  obtain ⟨v, hv⟩ := Option.ne_none_iff_exists'.mp hne
  obtain ⟨q, rfl, -, hq⟩ := hfresh.range r v hv
  exact ⟨q, by simp [substituteValue, hv], hq⟩

/-- The copy of a value that reads only registers below `c`. -/
def IsCopyBelow (c : VReg) (i : IRInstr) : Prop :=
  ∃ d v, i = .add d v (.immediate 0) none ∧ ∀ r ∈ v.regs, r < c

/-- The instructions of the inlined block: copies, and the renamed instructions of the callee. -/
theorem mem_inlinedBlock {s : CallSite} (hsafe : s.Safe) {c : VReg}
    (hargs : ∀ v ∈ s.args, ∀ r ∈ v.regs, r < c) {P : String} {i : IRInstr}
    (h : i ∈ (inlinedBlock s (spliceRegs s c) P).instructions) :
    IsCopyBelow (spliceRegs s c).counter i ∨
      ∃ j ∈ s.core, i = substituteInstr (spliceRegs s c).map j := by
  obtain ⟨-, hle, -, -, -⟩ := spliceRegs_fresh s c
  have hfront : i ∈ (spliceRegs s c).paramCopies ++
      s.core.map (substituteInstr (spliceRegs s c).map) →
      IsCopyBelow (spliceRegs s c).counter i ∨
        ∃ j ∈ s.core, i = substituteInstr (spliceRegs s c).map j := by
    intro h
    rcases List.mem_append.mp h with h | h
    · obtain ⟨q, p, hp, rfl⟩ := mem_bindParams_copies h
      exact Or.inl ⟨_, _, rfl, fun r hr =>
        Nat.lt_of_lt_of_le (hargs p.2 (List.of_mem_zip hp).2 r hr) hle⟩
    · obtain ⟨j, hj, rfl⟩ := List.mem_map.mp h
      exact Or.inr ⟨j, hj, rfl⟩
  rcases hsafe.exit with ⟨-, ht⟩ | ⟨values, ht, -, -⟩
  · rw [(inlinedBlock_eq hsafe _ P).1 ht] at h
    exact hfront h
  · rw [(inlinedBlock_eq hsafe _ P).2 values ht] at h
    rcases List.mem_append.mp h with h | h
    · exact hfront h
    · cases hres : (spliceRegs s c).result with
      | none => rw [hres] at h; cases h
      | some rv =>
        cases values with
        | nil => rw [hres] at h; cases h
        | cons v vs =>
          rw [hres, List.mem_singleton] at h
          refine Or.inl ⟨_, _, h, fun q hq => ?_⟩
          cases v with
          | register r =>
            obtain ⟨q', hsub, hlt⟩ := spliceRegs_mapped c (hsafe.exitReads r (by
              rw [ht]
              exact List.mem_filterMap.mpr ⟨_, List.mem_cons_self, rfl⟩))
            rw [hsub, IRValue.regs_register, List.mem_singleton] at hq
            exact hq ▸ hlt
          | _ => simp [substituteValue] at hq

theorem inlinedBlock_terminator {s : CallSite} (hsafe : s.Safe) (R : SpliceRegs) (P : String) :
    (inlinedBlock s R P).terminator = .unreachable ∨
      (inlinedBlock s R P).terminator = .jump (P ++ "_cont") := by
  rcases hsafe.exit with ⟨-, ht⟩ | ⟨values, ht, -, -⟩
  · exact Or.inl (by rw [(inlinedBlock_eq hsafe R P).1 ht])
  · exact Or.inr (by rw [(inlinedBlock_eq hsafe R P).2 values ht])

theorem inlinedBlock_spec {s : CallSite} (hsafe : s.Safe) {c : VReg}
    (hargs : ∀ v ∈ s.args, ∀ r ∈ v.regs, r < c) (P : String) :
    (inlinedBlock s (spliceRegs s c) P).UsesBelow (spliceRegs s c).counter ∧
      (∀ i ∈ (inlinedBlock s (spliceRegs s c) P).instructions, i.isPhi = false) ∧
      ∀ l ∈ (inlinedBlock s (spliceRegs s c) P).labels,
        l = P ++ "_" ++ s.body.label ∨ l = P ++ "_cont" := by
  have hphi : ∀ i ∈ (inlinedBlock s (spliceRegs s c) P).instructions, i.isPhi = false := by
    intro i hi
    rcases mem_inlinedBlock hsafe hargs hi with ⟨d, v, rfl, -⟩ | ⟨j, hj, rfl⟩
    · rfl
    · rw [isPhi_substituteInstr]
      exact hsafe.phi j (CallSite.mem_core hj).1
  refine ⟨⟨fun i hi q hq => ?_, fun q hq => ?_⟩, hphi, fun l hl => ?_⟩
  · rcases mem_inlinedBlock hsafe hargs hi with ⟨d, v, rfl, hv⟩ | ⟨j, hj, rfl⟩
    · exact hv q (by simpa [IRInstr.usedRegs] using hq)
    · obtain ⟨r, hr, hqr⟩ := usedRegs_substituteInstr
        (hsafe.uses j (CallSite.mem_core hj).1) hq
      obtain ⟨q', hsub, hlt⟩ := spliceRegs_mapped c (mem_of_readsDefined hsafe.reads hj hr)
      rw [hsub, IRValue.regs_register, List.mem_singleton] at hqr
      exact hqr ▸ hlt
  · rcases inlinedBlock_terminator hsafe (spliceRegs s c) P with ht | ht <;>
      rw [ht] at hq <;> cases hq
  · rcases List.mem_cons.mp hl with rfl | hl
    · exact Or.inl (inlinedBlock_label s _ P)
    · rcases List.mem_append.mp hl with hl | hl
      · rcases List.mem_append.mp hl with hl | hl
        · obtain ⟨i, hi, hli⟩ := List.mem_flatMap.mp hl
          rcases mem_inlinedBlock hsafe hargs hi with ⟨d, v, rfl, -⟩ | ⟨j, hj, rfl⟩
          · cases hli
          · rw [targets_substituteInstr,
              targets_of_not_isControl (CallSite.mem_core hj).2] at hli
            cases hli
        · rcases inlinedBlock_terminator hsafe (spliceRegs s c) P with ht | ht
          · rw [ht] at hl
            cases hl
          · rw [ht] at hl
            exact Or.inr (List.mem_singleton.mp hl)
      · obtain ⟨i, hi, hli⟩ := List.mem_flatMap.mp hl
        rw [phiLabels_of_not_isPhi (hphi i hi)] at hli
        cases hli

theorem mem_contBlock {s : CallSite} {c : VReg} {P : String} {b : IRBlock} {after : List IRInstr}
    {i : IRInstr} (h : i ∈ (contBlock s (spliceRegs s c) P b after).instructions) :
    IsCopyBelow (spliceRegs s c).counter i ∨
      i ∈ after := by
  obtain ⟨-, -, -, -, hresult⟩ := spliceRegs_fresh s c
  rcases List.mem_append.mp h with h | h
  · split at h
    · rename_i dst rv hd hres
      rw [List.mem_singleton] at h
      refine Or.inl ⟨_, _, h, fun r hr => ?_⟩
      obtain ⟨q, rfl, -, hlt⟩ := hresult rv hres
      rw [IRValue.regs_register, List.mem_singleton] at hr
      exact hr ▸ hlt
    · cases h
  · exact Or.inr h

/-! ## The loop -/

section

variable (funcs : String → Option IRFunction) (threshold : Nat) (f : IRFunction)

/-- The call sites the loop can come to: the calls of the function that are small enough, and those
in the bodies of their callees. -/
inductive Site : CallSite → Prop
  | here {b i s} (hb : b ∈ f.blocks) (hi : i ∈ b.instructions)
    (hs : inlinable funcs threshold f.name i = some s) : Site s
  | inside {s i s'} (h : Site s) (hi : i ∈ s.body.instructions)
    (hs : inlinable funcs threshold f.name i = some s') : Site s'

/-- The block has a call that is small enough to be inlined. -/
def HasSite (b : IRBlock) : Prop :=
  ∃ i ∈ b.instructions, (inlinable funcs threshold f.name i).isSome

/-- The phis of the block come before the calls that may be inlined. -/
def PhisFirst (b : IRBlock) : Prop :=
  ∀ before i after, b.instructions = before ++ i :: after →
    (inlinable funcs threshold f.name i).isSome → ∀ j ∈ after, j.isPhi = false

/-- The functions that inlining handles: the labels are distinct and none looks like a generated one,
phis come first and none names a block with a call that may be inlined, the callees are ones that
the splice handles, and the registers, which are numbered by a `u32`, suffice for every choice of
calls that the loop may inline. -/
structure InlineSafe : Prop where
  nodup : (f.blocks.map (·.label)).Nodup
  user : ∀ b ∈ f.blocks, ∀ l ∈ b.labels, ∀ n x, l ≠ inlinePrefix n x
  phi : ∀ b ∈ f.blocks, PhisFirst funcs threshold f b
  named : ∀ b ∈ f.blocks, HasSite funcs threshold f b → ∀ b₀ ∈ f.blocks, ∀ i ∈ b₀.instructions,
    b.label ∉ i.phiLabels
  sites : ∀ s, Site funcs threshold f s → s.Safe
  regs : ∀ sites : List CallSite, (∀ s ∈ sites, Site funcs threshold f s) →
    (sites.map (·.name)).Nodup → sites.length ≤ maxInlinesPerFn →
    maxVregId f + 1 + (sites.map (·.fresh)).sum < 2 ^ 32

/-- What holds of each block during the loop. -/
structure BlockInv (counter : VReg) (inlineId : Nat) (b : IRBlock) : Prop where
  uses : b.UsesBelow counter
  labels : ∀ l ∈ b.labels, ∀ n x, l = inlinePrefix n x → n < inlineId
  user : ∀ i ∈ b.instructions, ∀ l ∈ i.phiLabels, ∀ n x, l ≠ inlinePrefix n x
  phi : PhisFirst funcs threshold f b
  sites : ∀ i ∈ b.instructions, ∀ s, inlinable funcs threshold f.name i = some s →
    ∃ s₀, Site funcs threshold f s₀ ∧ s.Alike s₀

/-- What holds of the blocks during the loop. -/
structure LoopInv (counter : VReg) (inlineId : Nat) (blocks : List IRBlock) : Prop where
  nodup : (blocks.map (·.label)).Nodup
  block : ∀ b ∈ blocks, BlockInv funcs threshold f counter inlineId b
  named : ∀ b ∈ blocks, HasSite funcs threshold f b → ∀ b₀ ∈ blocks, ∀ i ∈ b₀.instructions,
    b.label ∉ i.phiLabels

/-- The calls inlined so far are of distinct callees and account for the registers given out. -/
structure Counted (sites : List CallSite) (st : InlineState) : Prop where
  site : ∀ s ∈ sites, Site funcs threshold f s
  names : sites.map (·.name) = st.inlinedCallees
  nodup : st.inlinedCallees.Nodup
  length : sites.length = st.inlineId
  cap : st.inlineId ≤ maxInlinesPerFn
  counter : st.counter = maxVregId f + 1 + (sites.map (·.fresh)).sum

/-- What holds at the head of the loop. -/
def InlineInv (st : InlineState) : Prop :=
  LoopInv funcs threshold f st.counter st.inlineId (st.done ++ st.todo) ∧
    ∃ sites, Counted funcs threshold f sites st

end

section

variable {funcs : String → Option IRFunction} {threshold : Nat} {f : IRFunction}

theorem BlockInv.mono {c c' : VReg} {n n' : Nat} {b : IRBlock}
    (h : BlockInv funcs threshold f c n b) (hc : c ≤ c') (hn : n ≤ n') :
    BlockInv funcs threshold f c' n' b :=
  { h with
    uses := ⟨fun i hi r hr => Nat.lt_of_lt_of_le (h.uses.1 i hi r hr) hc,
      fun r hr => Nat.lt_of_lt_of_le (h.uses.2 r hr) hc⟩
    labels := fun l hl k x e => Nat.lt_of_lt_of_le (h.labels l hl k x e) hn }

theorem le_maxVregId {f : IRFunction} {b : IRBlock} (hb : b ∈ f.blocks) :
    b.UsesBelow (maxVregId f + 1) := by
  have hfold : ∀ (rs : List VReg) (m : VReg), m ≤ rs.foldl max m ∧
      ∀ r ∈ rs, r ≤ rs.foldl max m := by
    intro rs
    induction rs with
    | nil => exact fun m => ⟨Nat.le_refl m, fun r hr => absurd hr List.not_mem_nil⟩
    | cons q rs ih =>
      intro m
      obtain ⟨hm, hrs⟩ := ih (max m q)
      refine ⟨Nat.le_trans (Nat.le_max_left m q) hm, fun r hr => ?_⟩
      rcases List.mem_cons.mp hr with rfl | hr
      · exact Nat.le_trans (Nat.le_max_right m r) hm
      · exact hrs r hr
  refine ⟨fun i hi r hr => Nat.lt_succ_of_le ((hfold _ 0).2 r ?_),
    fun r hr => Nat.lt_succ_of_le ((hfold _ 0).2 r ?_)⟩
  · refine List.mem_append_right _ (List.mem_flatMap.mpr ⟨b, hb, List.mem_append_left _ ?_⟩)
    exact List.mem_flatMap.mpr ⟨i, hi, List.mem_append_right _ hr⟩
  · refine List.mem_append_right _ (List.mem_flatMap.mpr ⟨b, hb, List.mem_append_right _ ?_⟩)
    exact List.mem_append_right _ hr

/-- The invariant holds at the start. -/
theorem InlineSafe.loopInv (h : InlineSafe funcs threshold f) :
    LoopInv funcs threshold f (maxVregId f + 1) 0 f.blocks := by
  refine ⟨h.nodup, fun b hb => ⟨le_maxVregId hb, ?_, ?_, h.phi b hb, ?_⟩, h.named⟩
  · exact fun l hl n x e => absurd e (h.user b hb l hl n x)
  · intro i hi l hl
    exact h.user b hb l (List.mem_cons_of_mem _ (List.mem_append_right _
      (List.mem_flatMap.mpr ⟨i, hi, hl⟩)))
  · exact fun i hi s hs => ⟨s, Site.here hb hi hs, rfl, rfl, rfl, rfl, rfl⟩

section

variable {c : VReg} {n : Nat} {ds rest : List IRBlock} {b : IRBlock} {before after : List IRInstr}
  {i : IRInstr} {s : CallSite} (hsafe : InlineSafe funcs threshold f)
  (h : LoopInv funcs threshold f c n (ds ++ b :: rest))
  (hb : b.instructions = before ++ i :: after)
  (hs : inlinable funcs threshold f.name i = some s)
include hsafe h hb hs

theorem LoopInv.site_safe : s.Safe ∧ ∀ v ∈ s.args, ∀ r ∈ v.regs, r < c := by
  have hblock := h.block b (by simp)
  have hi : i ∈ b.instructions := by simp [hb]
  obtain ⟨s₀, hs₀, halike⟩ := hblock.sites i hi s hs
  refine ⟨(hsafe.sites s₀ hs₀).of_alike halike, fun v hv r hr => hblock.uses.1 i hi r ?_⟩
  obtain ⟨⟨ext, rfl⟩, -⟩ := inlinable_eq_some hs
  exact List.mem_filterMap.mpr ⟨v, hv, by rw [IRValue.mem_regs.mp hr]; rfl⟩

theorem LoopInv.isSplice :
    IsSplice { f with blocks := ds ++ b :: rest }
      { f with
        blocks := ds ++ beforeBlock s (inlinePrefix n b.label) b before ::
          inlinedBlock s (spliceRegs s c) (inlinePrefix n b.label) ::
          contBlock s (spliceRegs s c) (inlinePrefix n b.label) b after :: rest }
      b before after s c (inlinePrefix n b.label) := by
  obtain ⟨⟨ext, rfl⟩, -, hbody⟩ := inlinable_eq_some hs
  have hnew : ∀ b₀ ∈ ds ++ b :: rest, ∀ x, inlinePrefix n x ∉ b₀.labels :=
    fun b₀ hb₀ x hx => Nat.lt_irrefl n ((h.block b₀ hb₀).labels _ hx n x rfl)
  refine ⟨⟨ds, rest, rfl, rfl⟩, ⟨ext, hb⟩, hbody, h.nodup, fun b₀ hb₀ => (h.block b₀ hb₀).uses,
    fun b₀ hb₀ => ?_, ?_,
    h.named b (by simp) ⟨.call s.dst s.name s.args ext, by simp [hb], by rw [hs]; rfl⟩,
    (h.site_safe hsafe hb hs).1⟩
  · rw [inlinePrefix_append, inlinePrefix_cont]
    exact ⟨hnew b₀ hb₀ _, hnew b₀ hb₀ _⟩
  · exact (h.block b (by simp)).phi before _ after hb (by rw [hs]; rfl)

theorem LoopInv.blockInv_new :
    BlockInv funcs threshold f (spliceRegs s c).counter (n + 1)
        (beforeBlock s (inlinePrefix n b.label) b before) ∧
      BlockInv funcs threshold f (spliceRegs s c).counter (n + 1)
        (inlinedBlock s (spliceRegs s c) (inlinePrefix n b.label)) ∧
      BlockInv funcs threshold f (spliceRegs s c).counter (n + 1)
        (contBlock s (spliceRegs s c) (inlinePrefix n b.label) b after) := by
  obtain ⟨hs', hargs⟩ := h.site_safe hsafe hb hs
  obtain ⟨hfresh, hle, -, -, -⟩ := spliceRegs_fresh s c
  have hblock := (h.block b (by simp)).mono hle (Nat.le_succ n)
  have hbefore : ∀ j ∈ before, j ∈ b.instructions := fun j hj => by simp [hb, hj]
  have hafter : ∀ j ∈ after, j ∈ b.instructions := fun j hj => by simp [hb, hj]
  have hgen : ∀ x k y, inlinePrefix n x = inlinePrefix k y → k < n + 1 :=
    fun x k y e => Nat.lt_succ_of_le (Nat.le_of_eq (inlinePrefix_inj e).symm)
  have hlabel : b.label ∈ b.labels := List.mem_cons_self
  have htargets : ∀ j ∈ b.instructions, ∀ l ∈ j.targets, l ∈ b.labels := fun j hj l hl =>
    List.mem_cons_of_mem _ (List.mem_append_left _ (List.mem_append_left _
      (List.mem_flatMap.mpr ⟨j, hj, hl⟩)))
  have hphis : ∀ j ∈ b.instructions, ∀ l ∈ j.phiLabels, l ∈ b.labels := fun j hj l hl =>
    List.mem_cons_of_mem _ (List.mem_append_right _ (List.mem_flatMap.mpr ⟨j, hj, hl⟩))
  have hcopy : ∀ j, IsCopyBelow (spliceRegs s c).counter j →
      (∀ r ∈ j.usedRegs, r < (spliceRegs s c).counter) ∧ j.targets = [] ∧ j.isPhi = false ∧
        inlinable funcs threshold f.name j = none := by
    rintro j ⟨d, v, rfl, hv⟩
    exact ⟨fun r hr => hv r (by simpa [IRInstr.usedRegs] using hr), rfl, rfl, rfl⟩
  refine ⟨?_, ?_, ?_⟩
  · refine ⟨⟨fun j hj => hblock.uses.1 j (hbefore j hj), fun r hr => by cases hr⟩, ?_,
      fun j hj => hblock.user j (hbefore j hj), ?_, fun j hj => hblock.sites j (hbefore j hj)⟩
    · intro l hl
      rcases List.mem_cons.mp hl with rfl | hl
      · exact hblock.labels _ hlabel
      · rcases List.mem_append.mp hl with hl | hl
        · rcases List.mem_append.mp hl with hl | hl
          · obtain ⟨j, hj, hlj⟩ := List.mem_flatMap.mp hl
            exact hblock.labels l (htargets j (hbefore j hj) l hlj)
          · rw [List.mem_singleton.mp hl, inlinePrefix_append]
            exact hgen _
        · obtain ⟨j, hj, hlj⟩ := List.mem_flatMap.mp hl
          exact hblock.labels l (hphis j (hbefore j hj) l hlj)
    · intro pre j post hj hjs k hk
      refine hblock.phi pre j (post ++ i :: after) ?_ hjs k (List.mem_append_left _ hk)
      rw [hb, show before = pre ++ j :: post from hj]
      simp
  · obtain ⟨huses, hnophi, hlabels⟩ := inlinedBlock_spec hs' hargs (inlinePrefix n b.label)
    refine ⟨huses, fun l hl => ?_, fun j hj l hl => ?_, ?_, fun j hj s' hjs => ?_⟩
    · rcases hlabels l hl with rfl | rfl
      · rw [inlinePrefix_append]
        exact hgen _
      · rw [inlinePrefix_cont]
        exact hgen _
    · rw [phiLabels_of_not_isPhi (hnophi j hj)] at hl
      cases hl
    · intro pre j post hj _ k hk
      exact hnophi k (by rw [hj]; simp [hk])
    · rcases mem_inlinedBlock hs' hargs hj with hj | ⟨k, hk, rfl⟩
      · rw [(hcopy j hj).2.2.2] at hjs
        cases hjs
      · -- a call of the callee
        obtain ⟨s₁, hs₁, halike₁⟩ := inlinable_substituteInstr hfresh hjs
        obtain ⟨s₀, hs₀, halike₀⟩ := (h.block b (by simp)).sites i (by simp [hb]) s hs
        refine ⟨s₁, Site.inside hs₀ ?_ hs₁, halike₁⟩
        rw [← halike₀.body]
        exact (CallSite.mem_core hk).1
  · have hmem : ∀ j ∈ (contBlock s (spliceRegs s c) (inlinePrefix n b.label) b after).instructions,
        IsCopyBelow (spliceRegs s c).counter j ∨ j ∈ after := fun j hj => mem_contBlock hj
    have hnophi : ∀ j ∈ (contBlock s (spliceRegs s c)
        (inlinePrefix n b.label) b after).instructions, j.isPhi = false := by
      intro j hj
      rcases hmem j hj with hj | hj
      · exact (hcopy j hj).2.2.1
      · exact (h.block b (by simp)).phi before i after hb (by rw [hs]; rfl) j hj
    refine ⟨⟨fun j hj => ?_, hblock.uses.2⟩, fun l hl => ?_, fun j hj l hl => ?_, ?_,
      fun j hj s' hjs => ?_⟩
    · rcases hmem j hj with hj | hj
      · exact (hcopy j hj).1
      · exact hblock.uses.1 j (hafter j hj)
    · rcases List.mem_cons.mp hl with rfl | hl
      · rw [show (contBlock s (spliceRegs s c) (inlinePrefix n b.label) b after).label =
          inlinePrefix n b.label ++ "_cont" from rfl, inlinePrefix_cont]
        exact hgen _
      · rcases List.mem_append.mp hl with hl | hl
        · rcases List.mem_append.mp hl with hl | hl
          · obtain ⟨j, hj, hlj⟩ := List.mem_flatMap.mp hl
            rcases hmem j hj with hj | hj
            · rw [(hcopy j hj).2.1] at hlj
              cases hlj
            · exact hblock.labels l (htargets j (hafter j hj) l hlj)
          · exact hblock.labels l
              (List.mem_cons_of_mem _ (List.mem_append_left _ (List.mem_append_right _ hl)))
        · obtain ⟨j, hj, hlj⟩ := List.mem_flatMap.mp hl
          rw [phiLabels_of_not_isPhi (hnophi j hj)] at hlj
          cases hlj
    · rw [phiLabels_of_not_isPhi (hnophi j hj)] at hl
      cases hl
    · intro pre j post hj _ k hk
      exact hnophi k (by rw [hj]; simp [hk])
    · rcases hmem j hj with hj | hj
      · rw [(hcopy j hj).2.2.2] at hjs
        cases hjs
      · exact hblock.sites j (hafter j hj) s' hjs

theorem LoopInv.splice :
    LoopInv funcs threshold f (spliceRegs s c).counter (n + 1)
      (ds ++ beforeBlock s (inlinePrefix n b.label) b before ::
        inlinedBlock s (spliceRegs s c) (inlinePrefix n b.label) ::
        contBlock s (spliceRegs s c) (inlinePrefix n b.label) b after :: rest) := by
  obtain ⟨hs', hargs⟩ := h.site_safe hsafe hb hs
  obtain ⟨-, hle, -, -, -⟩ := spliceRegs_fresh s c
  obtain ⟨hinv₁, hinv₂, hinv₃⟩ := h.blockInv_new hsafe hb hs
  have hsplice := h.isSplice hsafe hb hs
  have hold : ∀ b₀ ∈ ds ++ rest, b₀ ∈ ds ++ b :: rest := by
    intro b₀ hb₀
    rcases List.mem_append.mp hb₀ with hb₀ | hb₀ <;> simp [hb₀]
  have hmem : ∀ b₀, b₀ ∈ ds ++ beforeBlock s (inlinePrefix n b.label) b before ::
        inlinedBlock s (spliceRegs s c) (inlinePrefix n b.label) ::
        contBlock s (spliceRegs s c) (inlinePrefix n b.label) b after :: rest →
      b₀ = beforeBlock s (inlinePrefix n b.label) b before ∨
      b₀ = inlinedBlock s (spliceRegs s c) (inlinePrefix n b.label) ∨
      b₀ = contBlock s (spliceRegs s c) (inlinePrefix n b.label) b after ∨ b₀ ∈ ds ++ rest := by
    intro b₀ hb₀
    simp only [List.mem_append, List.mem_cons] at hb₀ ⊢
    grind
  refine ⟨?_, fun b₀ hb₀ => ?_, fun b₁ hb₁ hsite b₂ hb₂ j hj => ?_⟩
  · -- the two new labels are new
    have hnew : ∀ b₀ ∈ ds ++ b :: rest,
        b₀.label ≠ inlinePrefix n b.label ++ "_" ++ s.body.label ∧
          b₀.label ≠ inlinePrefix n b.label ++ "_cont" := fun b₀ hb₀ =>
      ⟨fun e => (hsplice.fresh b₀ hb₀).1 (e ▸ List.mem_cons_self),
        fun e => (hsplice.fresh b₀ hb₀).2 (e ▸ List.mem_cons_self)⟩
    have hne : inlinePrefix n b.label ++ "_" ++ s.body.label ≠ inlinePrefix n b.label ++ "_cont" :=
      fun e => hs'.label (append_label_inj (e.trans (by rw [String.append_assoc]; rfl)))
    have hperm : (ds.map (·.label) ++ b.label :: (inlinePrefix n b.label ++ "_" ++ s.body.label) ::
        (inlinePrefix n b.label ++ "_cont") :: rest.map (·.label)).Perm
        ((inlinePrefix n b.label ++ "_" ++ s.body.label) :: (inlinePrefix n b.label ++ "_cont") ::
          (ds ++ b :: rest).map (·.label)) := by
      rw [List.map_append, List.map_cons]
      refine ((List.Perm.swap _ _ _).append_left _).trans (List.perm_middle.trans ?_)
      refine List.Perm.cons _ ?_
      exact ((List.Perm.swap _ _ _).append_left _).trans List.perm_middle
    have hlabels : (ds ++ beforeBlock s (inlinePrefix n b.label) b before ::
        inlinedBlock s (spliceRegs s c) (inlinePrefix n b.label) ::
        contBlock s (spliceRegs s c) (inlinePrefix n b.label) b after :: rest).map (·.label) =
        ds.map (·.label) ++ b.label :: (inlinePrefix n b.label ++ "_" ++ s.body.label) ::
          (inlinePrefix n b.label ++ "_cont") :: rest.map (·.label) := by
      simp only [List.map_append, List.map_cons, inlinedBlock_label]
      rfl
    rw [hlabels, hperm.nodup_iff, List.nodup_cons, List.nodup_cons]
    refine ⟨?_, ?_, h.nodup⟩
    · rw [List.mem_cons, not_or]
      refine ⟨hne, fun hm => ?_⟩
      obtain ⟨b₀, hb₀, e⟩ := List.mem_map.mp hm
      exact (hnew b₀ hb₀).1 e
    · intro hm
      obtain ⟨b₀, hb₀, e⟩ := List.mem_map.mp hm
      exact (hnew b₀ hb₀).2 e
  · rcases hmem b₀ hb₀ with rfl | rfl | rfl | hb₀
    · exact hinv₁
    · exact hinv₂
    · exact hinv₃
    · exact (h.block b₀ (hold b₀ hb₀)).mono hle (Nat.le_succ n)
  · -- the phis are those of the blocks before the splice
    have hphi : ∀ l ∈ j.phiLabels, (∃ b₀ ∈ ds ++ b :: rest, j ∈ b₀.instructions) ∧
        ∀ k x, l ≠ inlinePrefix k x := by
      intro l hl
      rcases hmem b₂ hb₂ with rfl | rfl | rfl | hb₂
      · exact ⟨⟨b, by simp, by rw [hb]; exact List.mem_append_left _ hj⟩, hinv₁.user j hj l hl⟩
      · rw [phiLabels_of_not_isPhi ((inlinedBlock_spec hs' hargs _).2.1 j hj)] at hl
        cases hl
      · refine ⟨⟨b, by simp, ?_⟩, hinv₃.user j hj l hl⟩
        rcases mem_contBlock hj with ⟨d, v, rfl, -⟩ | hj
        · cases hl
        · rw [hb]
          exact List.mem_append_right _ (List.mem_cons_of_mem _ hj)
      · exact ⟨⟨b₂, hold b₂ hb₂, hj⟩, (h.block b₂ (hold b₂ hb₂)).user j hj l hl⟩
    intro hl
    obtain ⟨⟨b₀, hb₀, hj₀⟩, huser⟩ := hphi _ hl
    rcases hmem b₁ hb₁ with rfl | rfl | rfl | hb₁
    · exact h.named b (by simp) ⟨i, by simp [hb], by rw [hs]; rfl⟩ b₀ hb₀ j hj₀ hl
    · exact huser n _ ((inlinedBlock_label s _ _).trans (inlinePrefix_append n _ _))
    · exact huser n _ (inlinePrefix_cont n _)
    · exact h.named b₁ (hold b₁ hb₁) hsite b₀ hb₀ j hj₀ hl

end

/-- What one round does: nothing to the blocks, or a splice. -/
theorem inlineRound_cases (st : InlineState) :
    ((inlineRound funcs threshold f.name st).done ++ (inlineRound funcs threshold f.name st).todo =
        st.done ++ st.todo ∧
      (inlineRound funcs threshold f.name st).counter = st.counter ∧
      (inlineRound funcs threshold f.name st).inlineId = st.inlineId ∧
      (inlineRound funcs threshold f.name st).inlinedCallees = st.inlinedCallees ∧
      (inlineRound funcs threshold f.name st).todo.length = st.todo.length - 1) ∨
    ∃ b rest before i after s, st.todo = b :: rest ∧ b.instructions = before ++ i :: after ∧
      inlinable funcs threshold f.name i = some s ∧ s.name ∉ st.inlinedCallees ∧
      st.inlineId < maxInlinesPerFn ∧
      inlineRound funcs threshold f.name st =
        { done := st.done ++ [beforeBlock s (inlinePrefix st.inlineId b.label) b before]
          todo := inlinedBlock s (spliceRegs s st.counter) (inlinePrefix st.inlineId b.label) ::
            contBlock s (spliceRegs s st.counter) (inlinePrefix st.inlineId b.label) b after :: rest
          counter := (spliceRegs s st.counter).counter
          inlineId := st.inlineId + 1
          inlinedCallees := s.name :: st.inlinedCallees } := by
  cases htodo : st.todo with
  | nil => exact Or.inl (by simp [inlineRound, htodo])
  | cons b rest =>
    cases hfind : findCall (siteAt funcs threshold f.name st.inlineId st.inlinedCallees)
        b.instructions with
    | none => exact Or.inl (by simp [inlineRound, htodo, hfind])
    | some r =>
      obtain ⟨before, s, after⟩ := r
      obtain ⟨i, hb, hsite⟩ := findCall_eq_some hfind
      simp only [siteAt, Option.filter_eq_some_iff, Bool.and_eq_true, Bool.not_eq_true',
        List.contains_eq_mem, decide_eq_false_iff_not, decide_eq_true_eq] at hsite
      refine Or.inr ⟨b, rest, before, i, after, s, rfl, hb, hsite.1, hsite.2.1, hsite.2.2, ?_⟩
      simp only [inlineRound, htodo, hfind]

/-- A round keeps the invariant. A splice inlines a call like one of the call sites, of a callee that
was not inlined before, and gives out the registers of that call site. -/
theorem InlineInv.round (hsafe : InlineSafe funcs threshold f) {st : InlineState}
    (h : InlineInv funcs threshold f st) :
    InlineInv funcs threshold f (inlineRound funcs threshold f.name st) := by
  obtain ⟨hloop, sites, hcount⟩ := h
  rcases @inlineRound_cases funcs threshold f st with
    ⟨hblocks, hc, hid, hcallees, -⟩ | ⟨b, rest, before, i, after, s, htodo, hb, hs, hname, hlt, heq⟩
  · refine ⟨by rwa [hblocks, hc, hid], sites, hcount.site, ?_, ?_, ?_, ?_, ?_⟩
    · rw [hcallees]; exact hcount.names
    · rw [hcallees]; exact hcount.nodup
    · rw [hid]; exact hcount.length
    · rw [hid]; exact hcount.cap
    · rw [hc]; exact hcount.counter
  · rw [htodo] at hloop
    obtain ⟨s₀, hs₀, halike⟩ := (hloop.block b (by simp)).sites i (by simp [hb]) s hs
    rw [heq]
    refine ⟨?_, s₀ :: sites, ?_, ?_, ?_, ?_, hlt, ?_⟩
    · rw [List.append_assoc]
      exact hloop.splice hsafe hb hs
    · exact fun s' hs' => (List.mem_cons.mp hs').elim (fun e => e ▸ hs₀) (hcount.site s')
    · rw [List.map_cons, ← halike.name, hcount.names]
    · exact List.nodup_cons.mpr ⟨hname, hcount.nodup⟩
    · rw [List.length_cons, hcount.length]
    · change (spliceRegs s st.counter).counter = _
      rw [spliceRegs_counter, hcount.counter, List.map_cons, List.sum_cons, halike.fresh_eq,
        Nat.add_assoc (maxVregId f + 1), Nat.add_comm s₀.fresh]

theorem InlineInv.iterate (hsafe : InlineSafe funcs threshold f) (k : Nat) {st : InlineState}
    (h : InlineInv funcs threshold f st) :
    InlineInv funcs threshold f ((inlineRound funcs threshold f.name)^[k] st) := by
  induction k generalizing st with
  | zero => exact h
  | succ k ih => exact ih (h.round hsafe)

theorem InlineSafe.inv (hsafe : InlineSafe funcs threshold f) :
    InlineInv funcs threshold f ⟨[], f.blocks, maxVregId f + 1, 0, []⟩ :=
  ⟨hsafe.loopInv, [], fun _ h => absurd h List.not_mem_nil, rfl, List.nodup_nil, rfl, Nat.zero_le _,
    rfl⟩

/-- The next free register is a `u32` throughout. -/
theorem InlineInv.counter_lt (hsafe : InlineSafe funcs threshold f) {st : InlineState}
    (h : InlineInv funcs threshold f st) : st.counter < 2 ^ 32 := by
  obtain ⟨-, sites, hcount⟩ := h
  rw [hcount.counter]
  refine hsafe.regs sites hcount.site ?_ ?_
  · rw [hcount.names]
    exact hcount.nodup
  · rw [hcount.length]
    exact hcount.cap

theorem inlineLoop_refines (hsafe : InlineSafe funcs threshold f) (slot : VReg → Nat → Word)
    (k : Nat) (st : InlineState)
    (h : LoopInv funcs threshold f st.counter st.inlineId (st.done ++ st.todo)) :
    ∃ frame : String → VReg → Nat → Word, ∀ M : Machine, M.slot = slot →
      RunsCalls M funcs frame st.inlinedCallees →
      IRFunction.Refines M { f with blocks := st.done ++ st.todo }
        { f with
          blocks := ((inlineRound funcs threshold f.name)^[k] st).done ++
            ((inlineRound funcs threshold f.name)^[k] st).todo } := by
  induction k generalizing st with
  | zero => exact ⟨fun _ _ _ => 0, fun M _ _ => IRFunction.Refines.of_obs_eq fun _ _ _ => rfl⟩
  | succ k ih =>
    rw [Function.iterate_succ_apply]
    rcases @inlineRound_cases funcs threshold f st with
      ⟨hblocks, hc, hid, hcallees, -⟩ | ⟨b, rest, before, i, after, s, htodo, hb, hs, hname, -, heq⟩
    · rw [← hblocks, ← hc, ← hid] at h
      rw [← hblocks, ← hcallees]
      exact ih _ h
    · rw [htodo] at h
      have hassoc := fun x y => (List.append_assoc st.done [x] y).trans rfl
      have hinv := h.splice hsafe hb hs
      obtain ⟨frame, hframe⟩ := ih (inlineRound funcs threshold f.name st) (by
        rw [heq, List.append_assoc]
        exact hinv)
      rw [heq] at hframe ⊢
      -- the frame of the callee lies where the renamed registers have their slots
      refine ⟨Function.update frame s.name fun r size =>
        (((spliceRegs s st.counter).map r).bind IRValue.asRegister).elim 0 (slot · size),
        fun M hslot hruns => ?_⟩
      obtain ⟨-, hcallee, -⟩ := inlinable_eq_some hs
      have hfirst := (h.isSplice hsafe hb hs).refines _ hruns.stopped
        (hruns.call s.name s.callee hcallee hname) (fun r size q _ hq => by
          rw [Function.update_self, hq, hslot]
          rfl)
      have hrest := hframe M hslot
        ⟨fun name callee hname' hnot w args => by
          have hne : name ≠ s.name := fun e => hnot (e ▸ List.mem_cons_self)
          have := hruns.call name callee hname' (fun hm => hnot (List.mem_cons_of_mem _ hm)) w args
          rwa [Function.update_of_ne hne] at this, hruns.stopped⟩
      rw [htodo]
      refine hfirst.trans ?_
      simpa only [List.append_assoc, List.cons_append, List.nil_append] using hrest

end

/-- A table of one single-block function. -/
def oneCallee (name : String) (params : List IRValue) (instructions : List IRInstr)
    (terminator : IRTerminator) : IRFunction :=
  { name, params, blocks := [{ label := "body", instructions, terminator }] }

def tableOf (g : IRFunction) (name : String) : Option IRFunction :=
  if name = g.name then some g else none

/-- The default machine, with the calls of the function `g` executed. -/
def machineFor (g : IRFunction) : Machine :=
  { (default : Machine) with
    call := fun w name args =>
      if name = g.name then
        (callResult (g.run default (Regs.writes (fun _ => 0) (g.params.zip args)) w 1)).getD
          (.returned [] w)
      else (default : Machine).call w name args }

/-- Increment the argument, pass it to a system call, and return it. -/
def bump : IRFunction :=
  oneCallee "bump" [.register 0]
    [.add (.register 1) (.register 0) (.immediate 1) none,
      .syscall 1 [.register 1] none, .ret [.register 1]] (.ret [.register 1])

def bumpCaller : IRFunction :=
  { name := "main"
    params := [.register 0]
    blocks := [{ label := "entry"
                 instructions := [.call (some (.register 1)) "bump" [.register 0] false]
                 terminator := .ret [.register 1] }] }

theorem callResult_ne_stopped {x : Config} {vs : List Word} {w : World} :
    callResult x ≠ some (.stopped (.returned vs) w) := by
  cases x with
  | enter l p σ w' => simp [callResult]
  | done o w' => cases o <;> simp [callResult]

/-- The machine executes the calls of a function that ends after its first block. -/
theorem runsCalls_machineFor {g : IRFunction} (frame : String → VReg → Nat → Word)
    (h : ∀ regs w, ∃ o w', g.run default regs w 1 = .done o w' ∧
      g.run (withFrame (machineFor g) (frame g.name)) regs w 1 = .done o w') :
    RunsCalls (machineFor g) (tableOf g) frame [] := by
  constructor
  · intro name callee hname _ w args
    simp only [tableOf, Option.ite_none_right_eq_some, Option.some.injEq] at hname
    obtain ⟨rfl, rfl⟩ := hname
    obtain ⟨o, w', hdef, hrun⟩ := h (Regs.writes (fun _ => 0) (g.params.zip args)) w
    refine ⟨fun _ => 0, fun n res hres => ?_⟩
    cases n with
    | zero =>
      simp only [IRFunction.run, Function.iterate_zero_apply, IRFunction.start] at hres
      cases hb : g.blocks with
      | nil =>
        simp only [IRFunction.run, IRFunction.start, hb, Function.iterate_one,
          IRFunction.step] at hdef
        rw [hb] at hres
        cases hdef
        simp only [machineFor, if_true, IRFunction.run, IRFunction.start, hb, Function.iterate_one,
          IRFunction.step, hres, Option.getD_some]
      | cons b bs => simp [hb, callResult] at hres
    | succ n =>
      rw [IRFunction.run_of_done hrun (Nat.succ_le_succ (Nat.zero_le n))] at hres
      simp only [machineFor, if_true, hdef, hres, Option.getD_some]
  · intro w name args vs w' heq
    simp only [machineFor] at heq
    split at heq
    · cases hres : callResult (g.run default (Regs.writes (fun _ => 0) (g.params.zip args)) w 1) with
      | none => rw [hres] at heq; cases heq
      | some r =>
        rw [hres, Option.getD_some] at heq
        exact callResult_ne_stopped (heq ▸ hres)
    · cases heq

theorem ne_inlinePrefix {l : String} (h : ¬ "inl".toList <+: l.toList) (n : Nat) (x : String) :
    l ≠ inlinePrefix n x := by
  rintro rfl
  refine h ⟨(toString n ++ "_" ++ x).toList, ?_⟩
  simp only [inlinePrefix, ← String.toList_append, String.append_assoc]

theorem inlineSafe_bumpCaller : InlineSafe (tableOf bump) 8 bumpCaller := by
  have hsite : ∀ s, Site (tableOf bump) 8 bumpCaller s → s = ⟨some (.register 1), "bump",
      [.register 0], bump, ⟨"body", [.add (.register 1) (.register 0) (.immediate 1) none,
        .syscall 1 [.register 1] none, .ret [.register 1]],
        .ret [.register 1], [], []⟩⟩ := by
    intro s hs
    induction hs with
    | here hb hi hs =>
      simp only [bumpCaller, List.mem_singleton] at hb
      subst hb
      rw [List.mem_singleton.mp hi] at hs
      exact Option.some.inj (hs.symm.trans (by decide +kernel))
    | inside _ hi hs ih =>
      subst ih
      simp only [List.mem_cons, List.not_mem_nil, or_false] at hi
      rcases hi with rfl | rfl | rfl <;> cases hs
  have hphi : ∀ b ∈ bumpCaller.blocks, ∀ i ∈ b.instructions, i.isPhi = false := by decide
  refine ⟨by decide, ?_, ?_, ?_, fun s hs => ?_, fun sites hsites hnodup _ => ?_⟩
  · intro b hb l hl
    exact ne_inlinePrefix ((by decide : ∀ b ∈ bumpCaller.blocks, ∀ l ∈ b.labels,
      ¬ "inl".toList <+: l.toList) b hb l hl)
  · intro b hb before i after hbi _ j hj
    exact hphi b hb j (by simp [hbi, hj])
  · intro b _ _ b₀ hb₀ i hi
    rw [phiLabels_of_not_isPhi (hphi b₀ hb₀ i hi)]
    exact List.not_mem_nil
  · rw [hsite s hs]
    exact ⟨by decide, by decide, by decide, by decide, by decide,
      Or.inr ⟨[.register 1], rfl, by decide, Or.inr rfl⟩, by decide⟩
  · -- there is one call site, so at most one callee
    cases sites with
    | nil => decide
    | cons s sites =>
      cases sites with
      | nil =>
        rw [hsite s (hsites s List.mem_cons_self)]
        decide
      | cons s' sites =>
        rw [hsite s (hsites s (by simp)), hsite s' (hsites s' (by simp))] at hnodup
        simp at hnodup

/-- Call through a pointer, into the register 0 of the callee. -/
def indirect : IRFunction :=
  oneCallee "indirect" [] [.callIndirect (some (.register 0)) (.immediate 4096) []] (.ret [])

/-- Register 0 is set before the call and returned after it. -/
def clobbered : IRFunction :=
  { name := "main"
    blocks := [{ label := "entry"
                 instructions := [.add (.register 0) (.immediate 1) (.immediate 0) none,
                   .call none "indirect" [] false]
                 terminator := .ret [.register 0] }] }

def nop : IRFunction := oneCallee "nop" [] [] (.ret [])

/-- The block of the call is named by a phi of its successor. -/
def stalePhi : IRFunction :=
  { name := "main"
    blocks := [{ label := "entry"
                 instructions := [.call none "nop" [] false]
                 terminator := .jump "next" },
      { label := "next"
        instructions := [.phi (.register 0) [(.immediate 1, "entry")]]
        terminator := .ret [.register 0] }] }

/-- The callee ends in a tail call. -/
def tail : IRFunction := oneCallee "tail" [] [] (.tailCall "other" [])

def tailCaller : IRFunction :=
  { name := "main"
    blocks := [{ label := "entry"
                 instructions := [.call none "tail" [] false]
                 terminator := .ret [.immediate 1] }] }

/-- With the calls of `g` executed, `f` does something else than with `g` inlined. -/
def DiffersInlined (g f : IRFunction) : Prop :=
  RunsCalls (machineFor g) (tableOf g) (fun _ => (default : Machine).slot) [] ∧
    ¬ f.Refines (machineFor g) (inlineWithThreshold (tableOf g) 8 f)

end Vuma.Opt
