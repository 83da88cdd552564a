import Vuma.Codegen.RegAllocDisjoint

/-!
# Values that are live across a call

A call overwrites the registers that its callee does not save. The scan prefers a callee-saved
register for an interval that crosses a call, but takes any other one when none is left, also from
an evicted interval; a `CallIndirect` does not count as a call; and the pass that reassigns
registers neither looks at calls nor marks the callee-saved registers that it hands out. A run in
which none of this happens keeps every value across the calls, and declares every callee-saved
register (`allocateFunction_callsSurvive`).
-/

namespace Vuma.Codegen

open IR

/-! ## The property -/

/-- The instructions across which only callee-saved registers keep their values. -/
def isCallLike : IRInstr → Bool
  | .call .. | .callIndirect .. | .syscall .. => true
  | _ => false

/-- The positions of calls among instructions, from position `pos` on. -/
def instrCalls : List IRInstr → Nat → List Nat
  | [], _ => []
  | i :: is, pos => (if isCallLike i then [pos] else []) ++ instrCalls is (pos + 2)

/-- The positions of calls in blocks, from position `pos` on. -/
def blockCalls : List IRBlock → Nat → List Nat
  | [], _ => []
  | b :: bs, pos =>
    instrCalls b.instructions pos ++ blockCalls bs (pos + 2 * b.instructions.length + 2)

/-- The interval strictly contains the position of a call of `f`. -/
def LiveInterval.spansCall (f : IRFunction) (i : LiveInterval) : Bool :=
  (blockCalls f.blocks 0).any fun p => i.start < p && p < i.stop

/-- The target has a callee-saved register of this class and index. -/
def TargetDesc.isCalleeSaved (target : TargetDesc) (preg : PhysicalReg) : Bool :=
  target.registers.any fun reg =>
    reg.cls = preg.cls && reg.index = preg.index && reg.isCalleeSaved

section

variable (target : TargetDesc) (f : IRFunction)

/-- A register with one of the intervals `is` that spans a call is mapped to a callee-saved register
or has a spill slot, and the callee-saved registers that are mapped to are declared. -/
structure CallsSurvive (is : List LiveInterval) (r : RegAllocResult) : Prop where
  survives : ∀ i ∈ is, i.spansCall f = true →
    (∃ p, r.vregToPreg.lookup i.vreg = some p ∧ target.isCalleeSaved p = true) ∨
      (r.spillSlots.lookup i.vreg).isSome = true
  declared : ∀ v p, r.vregToPreg.lookup v = some p → target.isCalleeSaved p = true →
    p ∈ r.usedCalleeSaved

/-! ## The condition -/

open TargetAgnosticRegAlloc

/-- If the register is callee-saved, then it has been declared. -/
def declaredIn (r : RegAllocResult) (preg : PhysicalReg) : Bool :=
  !target.isCalleeSaved preg || preg ∈ r.usedCalleeSaved

/-- The register can be handed to the interval: it is one that the allocator knows as callee-saved,
or it is not callee-saved and the interval spans no call. -/
def canHold (interval : LiveInterval) (preg : PhysicalReg) : Bool :=
  (new target).isCalleeSaved preg || !interval.spansCall f && !target.isCalleeSaved preg

/-- The round of the scan from state `s` goes well. If a register is free, it can be handed to the
interval. If not, the scratch register has to be declared, and if the active interval with the least
weight is evicted, its register can be handed on. -/
def roundSafe (s : ScanState) (interval : LiveInterval) : Bool :=
  let s := (new target).expire interval.start s
  let p := s.pools interval.cls
  match popFree interval.crossesCall p with
  | some (preg, _) => canHold target f interval preg
  | none =>
    declaredIn target s.result ((new target).spillScratch interval.cls) &&
      (minBy ActiveEntry.lt p.active).all fun e =>
        interval.weightPerLength ≤ e.2.weight || canHold target f interval e.2.preg

/-- The call of `resolve_single_conflict` in state `r` goes well. A register that is free over the
interval has to be declared, and to be callee-saved if the interval spans a call and has no slot; if
none is free, the scratch register has to be declared. -/
def repairSafe (intervals : List LiveInterval) (r : RegAllocResult) (defVreg : VReg)
    (conflictPreg : PhysicalReg) : Bool :=
  let used := usedPregs r intervals defVreg
  match ((new target).candidates conflictPreg).find? fun c => c ≠ conflictPreg && c ∉ used with
  | some c =>
    declaredIn target r c &&
      (intervals.find? (·.vreg == defVreg)).all fun i =>
        !i.spansCall f || target.isCalleeSaved c || (r.spillSlots.lookup defVreg).isSome
  | none =>
    declaredIn target r
      ((new target).spillScratch (if conflictPreg.cls = .gpr then .gpr else .simdFp))

end

/-! ## Every call of `resolve_single_conflict` -/

namespace TargetAgnosticRegAlloc

section

variable (a : TargetAgnosticRegAlloc) (intervals : List LiveInterval)
  (safe : RegAllocResult → VReg → PhysicalReg → Bool)

/-- `checkUse` finds a conflict. -/
def useConflicts (pos : Nat) (defRoot : VReg) (defPreg : PhysicalReg) (r : RegAllocResult)
    (useVreg : VReg) : Bool :=
  let useRoot := rootOf r useVreg
  if useRoot = defRoot then false
  else
    match r.vregToPreg.lookup useRoot with
    | none => false
    | some usePreg =>
      let scratch := a.spillScratch usePreg.cls.toRegClass
      if usePreg ≠ defPreg ∨ usePreg = scratch ∨ defPreg = scratch then false
      else (intervals.find? (·.vreg == useRoot)).any (pos < ·.stop)

/-- What `checkDef` finds after the uses: the register that conflicts. -/
def defConflict (pos : Nat) (defRoot : VReg) (r : RegAllocResult) : Option PhysicalReg :=
  match r.vregToPreg.lookup defRoot with
  | none => none
  | some defPreg =>
    if defPreg = a.spillScratch defPreg.cls.toRegClass then none
    else if clobbers intervals pos defRoot defPreg r then some defPreg
    else none

/-- Every repair for a use goes well. -/
def usesSafe (pos : Nat) (defRoot : VReg) (defPreg : PhysicalReg) :
    List VReg → RegAllocResult → Bool
  | [], _ => true
  | v :: vs, r =>
    (!a.useConflicts intervals pos defRoot defPreg r v || safe r defRoot defPreg) &&
      usesSafe pos defRoot defPreg vs (a.checkUse intervals pos defRoot defPreg r v)

/-- Every repair for a definition goes well. -/
def defSafe (pos : Nat) (uses : List VReg) (r : RegAllocResult) (defVreg : VReg) : Bool :=
  let defRoot := rootOf r defVreg
  (r.vregToPreg.lookup defRoot).all fun defPreg =>
    a.usesSafe intervals safe pos defRoot defPreg uses r &&
      let r := uses.foldl (a.checkUse intervals pos defRoot defPreg) r
      (a.defConflict intervals pos defRoot r).all (safe r defRoot)

/-- Every repair for the definitions of an instruction goes well. -/
def defsSafe (pos : Nat) (uses : List VReg) : List VReg → RegAllocResult → Bool
  | [], _ => true
  | v :: vs, r =>
    a.defSafe intervals safe pos uses r v &&
      defsSafe pos uses vs (a.checkDef intervals pos uses r v)

/-- Every repair in the instructions of a block goes well. -/
def instrsSafe : List IRInstr → Nat → RegAllocResult → Bool
  | [], _, _ => true
  | i :: is, pos, r =>
    a.defsSafe intervals safe pos i.usedRegs i.definedRegs r &&
      instrsSafe is (pos + 2) (i.definedRegs.foldl (a.checkDef intervals pos i.usedRegs) r)

/-- Every repair in blocks goes well. -/
def blocksSafe : List IRBlock → Nat → RegAllocResult → Bool
  | [], _, _ => true
  | b :: bs, pos, r =>
    a.instrsSafe intervals safe b.instructions pos r &&
      blocksSafe bs (pos + 2 * b.instructions.length + 2)
        (a.checkInstrs intervals b.instructions pos r)

end

section

variable {a : TargetAgnosticRegAlloc} {intervals : List LiveInterval}
  {safe : RegAllocResult → VReg → PhysicalReg → Bool}

theorem checkUse_eq (pos : Nat) (defRoot : VReg) (defPreg : PhysicalReg) (r : RegAllocResult)
    (v : VReg) : a.checkUse intervals pos defRoot defPreg r v =
      if a.useConflicts intervals pos defRoot defPreg r v then
        a.resolveSingleConflict intervals defRoot defPreg r
      else r := by
  unfold checkUse useConflicts
  dsimp only
  by_cases hroot : rootOf r v = defRoot
  · rw [if_pos hroot, if_pos hroot, if_neg Bool.false_ne_true]
  · rw [if_neg hroot, if_neg hroot]
    cases hlook : r.vregToPreg.lookup (rootOf r v) with
    | none => rfl
    | some usePreg =>
      by_cases hskip : usePreg ≠ defPreg ∨ usePreg = a.spillScratch usePreg.cls.toRegClass ∨
          defPreg = a.spillScratch usePreg.cls.toRegClass
      · simp only [if_pos hskip, if_neg Bool.false_ne_true]
      · simp only [if_neg hskip]

theorem checkDef_of_none {pos : Nat} {uses : List VReg} {r : RegAllocResult} {v : VReg}
    (hlook : r.vregToPreg.lookup (rootOf r v) = none) :
    a.checkDef intervals pos uses r v = r := by
  simp only [checkDef, hlook]

theorem checkDef_of_some {pos : Nat} {uses : List VReg} {r : RegAllocResult} {v : VReg}
    {defPreg : PhysicalReg} (hlook : r.vregToPreg.lookup (rootOf r v) = some defPreg) :
    a.checkDef intervals pos uses r v =
      let r' := uses.foldl (a.checkUse intervals pos (rootOf r v) defPreg) r
      match a.defConflict intervals pos (rootOf r v) r' with
      | none => r'
      | some defPreg' => a.resolveSingleConflict intervals (rootOf r v) defPreg' r' := by
  simp only [checkDef, hlook, defConflict]
  generalize uses.foldl (a.checkUse intervals pos (rootOf r v) defPreg) r = r'
  cases hlook' : r'.vregToPreg.lookup (rootOf r v) with
  | none => rfl
  | some defPreg' =>
    dsimp only
    split
    · rfl
    · split <;> rfl

variable {P : RegAllocResult → Prop}
  (h : ∀ r v p, P r → safe r v p = true → P (a.resolveSingleConflict intervals v p r))

include h

/-- What every repair that goes well keeps is kept by the pass, if every repair goes well. -/
theorem resolveRegisterReuseConflicts_safe {f : IRFunction} {r : RegAllocResult} (hr : P r)
    (hsafe : a.blocksSafe intervals safe f.blocks 0 r = true) :
    P (a.resolveRegisterReuseConflicts f intervals r) := by
  have huse : ∀ pos defRoot defPreg vs r, P r →
      a.usesSafe intervals safe pos defRoot defPreg vs r = true →
        P (vs.foldl (a.checkUse intervals pos defRoot defPreg) r) := by
    intro pos defRoot defPreg vs
    induction vs with
    | nil => exact fun r hr _ => hr
    | cons v vs ih =>
      intro r hr hsafe
      rw [usesSafe, Bool.and_eq_true, Bool.or_eq_true, Bool.not_eq_true'] at hsafe
      refine ih _ ?_ hsafe.2
      rw [checkUse_eq]
      split
      · next hconf =>
        refine h _ _ _ hr (hsafe.1.resolve_left ?_)
        simp [hconf]
      · exact hr
  have hdef : ∀ pos uses r v, P r → a.defSafe intervals safe pos uses r v = true →
      P (a.checkDef intervals pos uses r v) := by
    intro pos uses r v hr hsafe
    unfold defSafe at hsafe
    dsimp only at hsafe
    cases hlook : r.vregToPreg.lookup (rootOf r v) with
    | none => rwa [checkDef_of_none hlook]
    | some defPreg =>
      rw [hlook, Option.all_some, Bool.and_eq_true] at hsafe
      have huses := huse _ _ _ _ _ hr hsafe.1
      rw [checkDef_of_some hlook]
      dsimp only
      cases hconf : a.defConflict intervals pos (rootOf r v)
          (uses.foldl (a.checkUse intervals pos (rootOf r v) defPreg) r) with
      | none => exact huses
      | some defPreg' =>
        rw [hconf, Option.all_some] at hsafe
        exact h _ _ _ huses hsafe.2
  have hdefs : ∀ pos uses vs r, P r → a.defsSafe intervals safe pos uses vs r = true →
      P (vs.foldl (a.checkDef intervals pos uses) r) := by
    intro pos uses vs
    induction vs with
    | nil => exact fun r hr _ => hr
    | cons v vs ih =>
      intro r hr hsafe
      rw [defsSafe, Bool.and_eq_true] at hsafe
      exact ih _ (hdef _ _ _ _ hr hsafe.1) hsafe.2
  have hinstrs : ∀ is pos r, P r → a.instrsSafe intervals safe is pos r = true →
      P (a.checkInstrs intervals is pos r) := by
    intro is
    induction is with
    | nil => exact fun _ r hr _ => hr
    | cons i is ih =>
      intro pos r hr hsafe
      rw [instrsSafe, Bool.and_eq_true] at hsafe
      exact ih _ _ (hdefs _ _ _ _ hr hsafe.1) hsafe.2
  have hblocks : ∀ bs pos r, P r → a.blocksSafe intervals safe bs pos r = true →
      P (a.checkBlocks intervals bs pos r) := by
    intro bs
    induction bs with
    | nil => exact fun _ r hr _ => hr
    | cons b bs ih =>
      intro pos r hr hsafe
      rw [blocksSafe, Bool.and_eq_true] at hsafe
      exact ih _ _ (hinstrs _ _ _ hr hsafe.1) hsafe.2
  exact hblocks _ _ _ hr hsafe

end

/-! ## What the spill code leaves alone -/

theorem foldl_pushCode_used {code : GenericSpillCode} {g : Nat → Nat} (r : RegAllocResult)
    (ps : List Nat) :
    (ps.foldl (fun r pos => r.pushCode (g pos) code) r).usedCalleeSaved = r.usedCalleeSaved := by
  induction ps generalizing r with
  | nil => rfl
  | cons p ps ih => exact ih _

@[simp] theorem genSpillReload_usedCalleeSaved (interval : LiveInterval) (scratch : PhysicalReg)
    (slot : GenericSpillSlot) (r : RegAllocResult) :
    (r.genSpillReload interval scratch slot).usedCalleeSaved = r.usedCalleeSaved :=
  (foldl_pushCode_used _ _).trans (foldl_pushCode_used _ _)

theorem genEvictionSpillReload_same (vreg : VReg) (preg scratch : PhysicalReg)
    (interval : Option LiveInterval) (pos : Nat) (slot : GenericSpillSlot) (r : RegAllocResult) :
    (r.genEvictionSpillReload vreg preg scratch interval pos slot).vregToPreg = r.vregToPreg ∧
      (r.genEvictionSpillReload vreg preg scratch interval pos slot).spillSlots = r.spillSlots ∧
      (r.genEvictionSpillReload vreg preg scratch interval pos slot).usedCalleeSaved =
        r.usedCalleeSaved := by
  unfold RegAllocResult.genEvictionSpillReload
  cases interval with
  | none => exact ⟨rfl, rfl, rfl⟩
  | some interval =>
    dsimp only
    refine ⟨(foldl_pushCode _).1.trans (foldl_pushCode _).1,
      (foldl_pushCode _).2.1.trans (foldl_pushCode _).2.1, ?_⟩
    exact (foldl_pushCode_used _ _).trans (foldl_pushCode_used _ _)

@[simp] theorem assign_usedCalleeSaved (a : TargetAgnosticRegAlloc) (interval : LiveInterval)
    (preg : PhysicalReg) (r : RegAllocResult) :
    (a.assign interval preg r).usedCalleeSaved =
      if a.isCalleeSaved preg then insert preg r.usedCalleeSaved else r.usedCalleeSaved := by
  unfold assign
  dsimp only
  split <;> rfl

end TargetAgnosticRegAlloc

open TargetAgnosticRegAlloc

/-! ## The scan -/

section

variable {target : TargetDesc} {f : IRFunction} {is : List LiveInterval}

theorem isCalleeSaved_of_new {preg : PhysicalReg}
    (h : (new target).isCalleeSaved preg = true) : target.isCalleeSaved preg = true := by
  have hmem : ∀ cls, preg ∈ allocatable target cls true → target.isCalleeSaved preg = true := by
    intro cls hpreg
    obtain ⟨reg, hreg, rfl⟩ := List.mem_map.mp hpreg
    obtain ⟨hreg, hprops⟩ := List.mem_filter.mp hreg
    simp only [Bool.and_eq_true, decide_eq_true_eq] at hprops
    exact List.any_eq_true.mpr ⟨reg, hreg, by simp [hprops.2]⟩
  rw [isCalleeSaved, Bool.or_eq_true, decide_eq_true_eq, decide_eq_true_eq] at h
  exact h.elim (hmem _) (hmem _)

theorem new_isCalleeSaved_of_canHold {k : LiveInterval} {preg : PhysicalReg}
    (h : canHold target f k preg = true) (hsaved : target.isCalleeSaved preg = true) :
    (new target).isCalleeSaved preg = true := by
  simpa [canHold, hsaved] using h

theorem isCalleeSaved_of_canHold {k : LiveInterval} {preg : PhysicalReg}
    (h : canHold target f k preg = true) (hspans : k.spansCall f = true) :
    target.isCalleeSaved preg = true := by
  refine isCalleeSaved_of_new ?_
  simpa [canHold, hspans] using h

theorem mem_of_declaredIn {r : RegAllocResult} {preg : PhysicalReg}
    (h : declaredIn target r preg = true) (hsaved : target.isCalleeSaved preg = true) :
    preg ∈ r.usedCalleeSaved := by
  simpa [declaredIn, hsaved] using h

theorem CallsSurvive.insert {is' : List LiveInterval} {r r' : RegAllocResult} {v : VReg}
    {preg : PhysicalReg} (h : CallsSurvive target f is r) (his : ∀ i ∈ is', i.vreg ≠ v → i ∈ is)
    (hpregs : r'.vregToPreg = r.vregToPreg.insert v preg)
    (hslots : ∀ w, (r.spillSlots.lookup w).isSome = true → (r'.spillSlots.lookup w).isSome = true)
    (hused : ∀ p ∈ r.usedCalleeSaved, target.isCalleeSaved p = true → p ∈ r'.usedCalleeSaved)
    (hdeclared : target.isCalleeSaved preg = true → preg ∈ r'.usedCalleeSaved)
    (hnew : ∀ i ∈ is', i.vreg = v → i.spansCall f = true →
      target.isCalleeSaved preg = true ∨ (r'.spillSlots.lookup v).isSome = true) :
    CallsSurvive target f is' r' where
  survives i hi hspans := by
    by_cases hv : i.vreg = v
    · rw [hv, hpregs]
      exact (hnew i hi hv hspans).imp_left fun hsaved => ⟨preg, AList.lookup_insert _, hsaved⟩
    · rcases h.survives i (his i hi hv) hspans with ⟨p, hp, hsaved⟩ | hslot
      · refine Or.inl ⟨p, ?_, hsaved⟩
        rwa [hpregs, AList.lookup_insert_ne hv]
      · exact Or.inr (hslots _ hslot)
  declared w p hp hsaved := by
    by_cases hw : w = v
    · rw [hw, hpregs, AList.lookup_insert] at hp
      cases hp
      exact hdeclared hsaved
    · rw [hpregs, AList.lookup_insert_ne hw] at hp
      exact hused p (h.declared w p hp hsaved) hsaved

theorem CallsSurvive.spill {is' : List LiveInterval} {r r' : RegAllocResult} {v : VReg}
    {scratch : PhysicalReg} {slot : GenericSpillSlot} (h : CallsSurvive target f is r)
    (his : ∀ i ∈ is', i.vreg ≠ v → i ∈ is)
    (hpregs : r'.vregToPreg = r.vregToPreg.insert v scratch)
    (hslots : r'.spillSlots = r.spillSlots.insert v slot)
    (hused : r'.usedCalleeSaved = r.usedCalleeSaved)
    (hscratch : declaredIn target r scratch = true) : CallsSurvive target f is' r' := by
  refine h.insert his hpregs (fun w hw => ?_) (fun p hp _ => hused ▸ hp)
    (fun hsaved => hused ▸ mem_of_declaredIn hscratch hsaved) fun _ _ _ _ => Or.inr ?_
  · rw [hslots]
    by_cases hwv : w = v
    · rw [hwv, AList.lookup_insert]
      rfl
    · rwa [AList.lookup_insert_ne hwv]
  · rw [hslots, AList.lookup_insert]
    rfl

variable {done intervals : List LiveInterval} {k : LiveInterval} {s : ScanState}

theorem mem_of_mem_snoc {i : LiveInterval} (hi : i ∈ done ++ [k]) (hne : i.vreg ≠ k.vreg) :
    i ∈ done := by
  rcases List.mem_append.mp hi with hi | hi
  · exact hi
  · exact absurd (congrArg LiveInterval.vreg (List.mem_singleton.mp hi)) hne

theorem eq_of_mem_snoc (hnew : ∀ i ∈ done, i.vreg ≠ k.vreg) {i : LiveInterval}
    (hi : i ∈ done ++ [k]) (hvreg : i.vreg = k.vreg) : i = k := by
  rcases List.mem_append.mp hi with hi | hi
  · exact absurd hvreg (hnew i hi)
  · exact List.mem_singleton.mp hi

theorem CallsSurvive.spillInterval (h : CallsSurvive target f done s.result)
    (hscratch : declaredIn target s.result ((new target).spillScratch k.cls) = true) :
    CallsSurvive target f (done ++ [k]) ((new target).spillInterval k s).result := by
  have hslots : ((new target).spillInterval k s).result.spillSlots =
      s.result.spillSlots.insert k.vreg
        ⟨s.nextSpillIndex, spillOffset s.nextSpillIndex k.cls, k.cls⟩ := by
    change (RegAllocResult.genSpillReload ..).spillSlots.insert _ _ = _
    rw [RegAllocResult.genSpillReload_spillSlots]
    rfl
  exact h.spill (fun i => mem_of_mem_snoc) (RegAllocResult.genSpillReload_vregToPreg ..) hslots
    (genSpillReload_usedCalleeSaved ..) hscratch

variable (hnew : ∀ i ∈ done, i.vreg ≠ k.vreg)

include hnew

/-- The next interval gets a register, and no register is dropped from the declared ones but that
one. -/
theorem CallsSurvive.assign {r r' : RegAllocResult} {preg : PhysicalReg}
    (h : CallsSurvive target f done r) (hpregs : r'.vregToPreg = r.vregToPreg)
    (hslots : r'.spillSlots = r.spillSlots)
    (hused : ∀ p ∈ r.usedCalleeSaved, p ≠ preg → p ∈ r'.usedCalleeSaved)
    (hhold : canHold target f k preg = true) :
    CallsSurvive target f (done ++ [k]) ((new target).assign k preg r') := by
  have hdeclared : target.isCalleeSaved preg = true →
      preg ∈ ((new target).assign k preg r').usedCalleeSaved := by
    intro hsaved
    rw [assign_usedCalleeSaved, if_pos (new_isCalleeSaved_of_canHold hhold hsaved)]
    exact Finset.mem_insert_self _ _
  refine h.insert (fun i => mem_of_mem_snoc) ?_ (fun w hw => ?_) (fun p hp hsaved => ?_) hdeclared
    fun i hi hvreg hspans => Or.inl ?_
  · rw [assign_vregToPreg, hpregs]
  · rwa [assign_spillSlots, hslots]
  · by_cases hpreg : p = preg
    · rw [hpreg] at hsaved ⊢
      exact hdeclared hsaved
    · rw [assign_usedCalleeSaved]
      split
      · exact Finset.mem_insert_of_mem (hused p hp hpreg)
      · exact hused p hp hpreg
  · rw [eq_of_mem_snoc hnew hi hvreg] at hspans
    exact isCalleeSaved_of_canHold hhold hspans

theorem CallsSurvive.evict (h : CallsSurvive target f done s.result) {idx : Nat}
    {entry : ActiveEntry}
    (hscratch : declaredIn target s.result ((new target).spillScratch k.cls) = true)
    (hhold : canHold target f k entry.preg = true) :
    CallsSurvive target f (done ++ [k])
      ((new target).evict intervals k idx entry s).result := by
  let slot : GenericSpillSlot :=
    ⟨s.nextSpillIndex, spillOffset s.nextSpillIndex k.cls, k.cls⟩
  -- first the evicted register goes to its slot
  have hspilled : CallsSurvive target f done
      ((s.result.insertSlot entry.vreg slot).insertPreg entry.vreg
        ((new target).spillScratch k.cls)) :=
    h.spill (fun _ hi _ => hi) rfl rfl rfl hscratch
  obtain ⟨hpregs, hslots, hused⟩ := genEvictionSpillReload_same entry.vreg entry.preg
    ((new target).spillScratch k.cls) (intervals.find? (·.vreg == entry.vreg)) k.start slot
    { (s.result.insertSlot entry.vreg slot).insertPreg entry.vreg
        ((new target).spillScratch k.cls) with
      usedCalleeSaved := s.result.usedCalleeSaved.erase entry.preg }
  refine hspilled.assign hnew hpregs hslots (fun p hp hne => ?_) hhold
  exact (Finset.ext_iff.mp hused p).mpr (Finset.mem_erase_of_ne_of_mem hne hp)

theorem CallsSurvive.scanStep (h : CallsSurvive target f done s.result)
    (hsafe : roundSafe target f s k = true) :
    CallsSurvive target f (done ++ [k]) ((new target).scanStep intervals s k).result := by
  unfold roundSafe at hsafe
  dsimp only at hsafe
  unfold TargetAgnosticRegAlloc.scanStep tryAllocReg
  split
  · next preg p hpop =>
    rw [hpop] at hsafe
    exact h.assign hnew rfl rfl (fun _ hp _ => hp) hsafe
  · next hpop =>
    rw [hpop] at hsafe
    dsimp only at hsafe
    rw [Bool.and_eq_true] at hsafe
    obtain ⟨hscratch, hevict⟩ := hsafe
    have h' : CallsSurvive target f done ((new target).expire k.start s).result := h
    split
    · exact h'.spillInterval hscratch
    · next idx entry hmin =>
      rw [hmin, Option.all_some, Bool.or_eq_true, decide_eq_true_eq] at hevict
      split
      · exact h'.spillInterval hscratch
      · next hweight => exact h'.evict hnew hscratch (hevict.resolve_left hweight)

end

section

variable {target : TargetDesc} {f : IRFunction} {intervals : List LiveInterval}
  (hnodup : (intervals.map (·.vreg)).Nodup)

include hnodup

/-- The state after any number of rounds that go well. -/
theorem callsSurvive_scan
    (hsafe : ∀ n k, intervals[n]? = some k →
      roundSafe target f ((new target).scan intervals n) k = true) (n : Nat) :
    CallsSurvive target f (intervals.take n) ((new target).scan intervals n).result := by
  induction n with
  | zero => exact ⟨nofun, nofun⟩
  | succ n ih =>
    cases hk : intervals[n]? with
    | none =>
      rwa [scan_of_ge hk, List.take_add_one, hk, Option.toList_none, List.append_nil]
    | some k =>
      rw [scan_succ hk, List.take_add_one, hk, Option.toList_some]
      refine ih.scanStep (fun i hi hvreg => ?_) (hsafe n k hk)
      have hsplit : intervals = intervals.take n ++ k :: intervals.drop (n + 1) := by
        obtain ⟨hlt, rfl⟩ := List.getElem?_eq_some_iff.mp hk
        rw [← List.drop_eq_getElem_cons hlt, List.take_append_drop]
      rw [hsplit, List.map_append, List.map_cons, List.nodup_append] at hnodup
      exact hnodup.2.2 _ (List.mem_map_of_mem hi) _ List.mem_cons_self hvreg

theorem CallsSurvive.resolveSingleConflict {r : RegAllocResult}
    (h : CallsSurvive target f intervals r) {v : VReg} {preg : PhysicalReg}
    (hsafe : repairSafe target f intervals r v preg = true) :
    CallsSurvive target f intervals
      ((new target).resolveSingleConflict intervals v preg r) := by
  unfold repairSafe at hsafe
  dsimp only at hsafe
  unfold TargetAgnosticRegAlloc.resolveSingleConflict
  dsimp only
  split
  · next c hfree =>
    rw [hfree] at hsafe
    dsimp only at hsafe
    rw [Bool.and_eq_true] at hsafe
    refine h.insert (fun _ hi _ => hi) rfl (fun _ hw => hw) (fun _ hp _ => hp)
      (mem_of_declaredIn hsafe.1) fun i hi hvreg hspans => ?_
    have hhold := hsafe.2
    rw [← hvreg, find_vreg hnodup hi, Option.all_some, hspans] at hhold
    rw [← hvreg]
    have hsaved : target.isCalleeSaved c = true ∨ (r.spillSlots.lookup i.vreg).isSome = true := by
      simpa using hhold
    exact hsaved
  · next hfree =>
    rw [hfree] at hsafe
    dsimp only at hsafe
    split
    · exact h.spill (fun _ hi _ => hi) (RegAllocResult.genSpillReload_vregToPreg ..)
        (RegAllocResult.genSpillReload_spillSlots ..) (genSpillReload_usedCalleeSaved ..) hsafe
    · exact h.spill (fun _ hi _ => hi) rfl rfl rfl hsafe

end

/-! ## Functions -/

theorem resolveRegisterReuseConflicts_liveIntervals (a : TargetAgnosticRegAlloc) (f : IRFunction)
    (intervals : List LiveInterval) (r : RegAllocResult) :
    (a.resolveRegisterReuseConflicts f intervals r).liveIntervals = r.liveIntervals :=
  resolveRegisterReuseConflicts_induction (P := fun r' => r'.liveIntervals = r.liveIntervals)
    (fun _ _ r' _ hr => (resolveSingleConflict_liveIntervals _ _ r').trans hr) f rfl

/-- If every round of the scan and every repair goes well, values that are live across a call
survive it, and the callee-saved registers are declared. -/
theorem allocateFunction_callsSurvive {target : TargetDesc} {f : IRFunction} {fuel : Nat}
    {is : List LiveInterval} (h : computeIntervals (fun _ => .gpr) f fuel = some is)
    (hscan : ∀ n k, (sortIntervals is)[n]? = some k →
      roundSafe target f ((new target).scan (sortIntervals is) n) k = true)
    (hrepair : (new target).blocksSafe (sortIntervals is)
      (repairSafe target f (sortIntervals is)) f.blocks 0
      ((new target).allocateIntervals (sortIntervals is)) = true) :
    ∃ r, (new target).allocateFunction f fuel = some r ∧
      CallsSurvive target f r.liveIntervals r := by
  have hvregs : ((sortIntervals is).map (·.vreg)).Nodup := by
    obtain ⟨live, -, rfl⟩ := Option.map_eq_some_iff.mp h
    exact nodup_vregs_sortIntervals (sortedByVReg_liveIntervals (fun _ => .gpr) f live)
  have hscanned := callsSurvive_scan hvregs hscan (sortIntervals is).length
  rw [List.take_length] at hscanned
  -- the last round only adds the intervals and the number of slots
  have hstart : CallsSurvive target f (sortIntervals is)
      ((new target).allocateIntervals (sortIntervals is)) := ⟨hscanned.survives, hscanned.declared⟩
  have hrepaired := resolveRegisterReuseConflicts_safe
    (P := CallsSurvive target f (sortIntervals is))
    (fun _ _ _ hr hsafe => hr.resolveSingleConflict hvregs hsafe) hstart hrepair
  refine ⟨_, congrArg (Option.map _) h, ?_⟩
  dsimp only
  rw [resolveRegisterReuseConflicts_liveIntervals]
  exact hrepaired

/-- A target with one register of each kind. -/
def twoRegisters : TargetDesc where
  name := "tiny"
  registers := [⟨.gpr, 0, true, false⟩, ⟨.gpr, 1, true, true⟩]

/-- A sum that is returned after an instruction. -/
def sumAround (i : IRInstr) : IRFunction where
  name := "sum_around"
  blocks :=
    [{ label := "entry"
       instructions := [.add (.register 0) (.immediate 1) (.immediate 2) none, i]
       terminator := .ret [.register 0] }]

/-- The sum is live across a call. -/
def sumAroundCall : IRFunction := sumAround (.call none "g" [] false)

/-- The sum is live across a call through a pointer. -/
def sumAroundCallIndirect : IRFunction := sumAround (.callIndirect none (.immediate 4096) [])

theorem isSome_sumAroundCall :
    (computeIntervals (fun _ => .gpr) sumAroundCall 2).isSome = true := by
  decide

theorem allocateFunction_sumAroundCall :
    ∃ r, (new twoRegisters).allocateFunction sumAroundCall 2 = some r ∧
      CallsSurvive twoRegisters sumAroundCall r.liveIntervals r := by
  refine allocateFunction_callsSurvive (Option.some_get isSome_sumAroundCall).symm ?_ (by decide)
  have hsafe : ∀ n, ∀ hn : n < (sortIntervals (Option.get _ isSome_sumAroundCall)).length,
      roundSafe twoRegisters sumAroundCall
        ((new twoRegisters).scan (sortIntervals (Option.get _ isSome_sumAroundCall)) n)
        ((sortIntervals (Option.get _ isSome_sumAroundCall)).get ⟨n, hn⟩) = true := by
    decide
  intro n k hk
  obtain ⟨hlt, rfl⟩ := List.getElem?_eq_some_iff.mp hk
  exact hsafe n hlt

theorem isSome_sumAroundCallIndirect :
    ((new twoRegisters).allocateFunction sumAroundCallIndirect 2).isSome = true := by
  decide

/-- A `CallIndirect` is not in the call positions: the sum gets a register that the callee does not
save, although another one is free. -/
theorem not_allocateFunction_callsSurvive :
    ¬∀ target f fuel r, (new target).allocateFunction f fuel = some r →
      CallsSurvive target f r.liveIntervals r := by
  intro h
  have hsurvive := h twoRegisters sumAroundCallIndirect 2 _
    (Option.some_get isSome_sumAroundCallIndirect).symm
  have hlost : ∃ i ∈ (Option.get _ isSome_sumAroundCallIndirect).liveIntervals,
      i.spansCall sumAroundCallIndirect = true ∧
        (Option.get _ isSome_sumAroundCallIndirect).vregToPreg.lookup i.vreg = some ⟨.gpr, 0⟩ ∧
        (Option.get _ isSome_sumAroundCallIndirect).spillSlots.lookup i.vreg = none := by
    decide
  obtain ⟨i, hi, hspans, hpreg, hslot⟩ := hlost
  rcases hsurvive.survives i hi hspans with ⟨p, hp, hsaved⟩ | hsome
  · rw [hpreg] at hp
    cases hp
    revert hsaved
    decide
  · rw [hslot] at hsome
    cases hsome

end Vuma.Codegen
