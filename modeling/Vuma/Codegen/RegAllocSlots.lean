import Vuma.Codegen.RegAllocCalls

/-!
# Spill slots

The slots of both classes are numbered by one counter, but the offset of a slot is its number times
the size of its own class, so that slots of different classes overlap or lie outside the frame. And
when a definition conflicts with two uses, the repair can give its register a second slot, whose
number is then past the end of the frame. In a run in which all slots are of one class and no
register gets a second one, the slots are disjoint and fill the frame (`allocateFunction_slots`).
-/

namespace Vuma.Codegen

open IR

/-! ## The property -/

/-- The map of spill slots. -/
abbrev SlotMap := AList (fun _ : VReg => GenericSpillSlot)

/-- The bytes of different slots are disjoint, and all of them lie in the frame. -/
structure SlotsOk (r : RegAllocResult) : Prop where
  disjoint : ∀ v w s t, r.spillSlots.lookup v = some s → r.spillSlots.lookup w = some t → v ≠ w →
    s.offset + s.sizeBytes ≤ t.offset ∨ t.offset + t.sizeBytes ≤ s.offset
  inFrame : ∀ v s, r.spillSlots.lookup v = some s →
    -(r.spillFrameBytes : Int) ≤ s.offset ∧ s.offset + s.sizeBytes ≤ 0

/-! ## The condition -/

/-- So many slots of one class have offsets that are `i32`s. -/
def slotBound : RegClass → Nat
  | .gpr => 2 ^ 28
  | .simdFp => 2 ^ 27

/-- A slot can be given to a register: it has none, the slots so far are of the same class, and
there are not too many. -/
def slotFits (slots : SlotMap) (next : Nat) (vreg : VReg) (cls : RegClass) : Bool :=
  (slots.lookup vreg).isNone && slots.entries.all (·.2.cls = cls) && next < slotBound cls

namespace TargetAgnosticRegAlloc

variable (a : TargetAgnosticRegAlloc)

/-- The register that gets a slot in a round of the scan. -/
def takesSlot (s : ScanState) (interval : LiveInterval) : Option VReg :=
  let p := (a.expire interval.start s).pools interval.cls
  if (popFree interval.crossesCall p).isSome then none
  else
    match minBy ActiveEntry.lt p.active with
    | none => some interval.vreg
    | some (_, entry) =>
      if interval.weightPerLength ≤ entry.weight then some interval.vreg else some entry.vreg

/-- If a register gets a slot in the round, then it can be given one. -/
def roundFits (s : ScanState) (interval : LiveInterval) : Bool :=
  (a.takesSlot s interval).all fun v =>
    slotFits s.result.spillSlots s.nextSpillIndex v interval.cls

/-- If `resolve_single_conflict` finds no other register, then a slot can be given. -/
def repairFits (intervals : List LiveInterval) (r : RegAllocResult) (defVreg : VReg)
    (conflictPreg : PhysicalReg) : Bool :=
  let used := usedPregs r intervals defVreg
  ((a.candidates conflictPreg).find? fun c => c ≠ conflictPreg && c ∉ used).isSome ||
    slotFits r.spillSlots r.totalSpillSlots defVreg
      (if conflictPreg.cls = .gpr then .gpr else .simdFp)

end TargetAgnosticRegAlloc

/-! ## Slots that are given one after another -/

/-- What holds of `n` slots of one class. -/
structure SlotsInv (slots : SlotMap) (n : Nat) : Prop where
  index : ∀ v s, slots.lookup v = some s → s.index < n ∧ s.offset = spillOffset s.index s.cls
  injective : ∀ v w s t, slots.lookup v = some s → slots.lookup w = some t →
    s.index = t.index → v = w
  oneClass : ∀ v w s t, slots.lookup v = some s → slots.lookup w = some t → s.cls = t.cls
  bound : ∀ v s, slots.lookup v = some s → n ≤ slotBound s.cls
  length : slots.entries.length = n

theorem slotsInv_empty : SlotsInv ∅ 0 := ⟨nofun, nofun, nofun, nofun, rfl⟩

theorem GenericSpillSlot.sizeBytes_eq (s : GenericSpillSlot) :
    s.sizeBytes = 8 ∨ s.sizeBytes = 16 := by
  unfold sizeBytes
  cases s.cls with
  | gpr => exact .inl rfl
  | simdFp => exact .inr rfl

/-- The slot with number `n`. -/
def slotOf (n : Nat) (cls : RegClass) : GenericSpillSlot := ⟨n, spillOffset n cls, cls⟩

theorem lookup_insert_cases {slots : SlotMap} {v w : VReg} {s t : GenericSpillSlot}
    (h : (slots.insert v s).lookup w = some t) :
    w = v ∧ t = s ∨ w ≠ v ∧ slots.lookup w = some t := by
  by_cases hw : w = v
  · subst hw
    rw [AList.lookup_insert] at h
    cases h
    exact .inl ⟨rfl, rfl⟩
  · rw [AList.lookup_insert_ne hw] at h
    exact .inr ⟨hw, h⟩

namespace SlotsInv

variable {slots : SlotMap} {n : Nat} (h : SlotsInv slots n)
include h

/-- The next slot. -/
theorem insert {v : VReg} {cls : RegClass} (hfits : slotFits slots n v cls = true) :
    SlotsInv (slots.insert v (slotOf n cls)) (n + 1) := by
  rw [slotFits, Bool.and_eq_true, Bool.and_eq_true, Option.isNone_iff_eq_none, List.all_eq_true,
    decide_eq_true_eq] at hfits
  obtain ⟨⟨hnew, hall⟩, hlt⟩ := hfits
  have hcls : ∀ w t, slots.lookup w = some t → t.cls = cls := fun w t ht => by
    simpa using hall _ (AList.mem_lookup_iff.mp ht)
  refine ⟨fun w t ht => ?_, fun w w' t t' ht ht' hidx => ?_, fun w w' t t' ht ht' => ?_,
    fun w t ht => ?_, ?_⟩
  · rcases lookup_insert_cases ht with ⟨rfl, rfl⟩ | ⟨-, hold⟩
    · exact ⟨Nat.lt_succ_self n, rfl⟩
    · exact ⟨(h.index w t hold).1.trans (Nat.lt_succ_self n), (h.index w t hold).2⟩
  · rcases lookup_insert_cases ht with ⟨rfl, rfl⟩ | ⟨-, hold⟩ <;>
      rcases lookup_insert_cases ht' with ⟨rfl, rfl⟩ | ⟨-, hold'⟩
    · rfl
    · exact absurd hidx.symm (h.index _ _ hold').1.ne
    · exact absurd hidx (h.index _ _ hold).1.ne
    · exact h.injective w w' t t' hold hold' hidx
  · rcases lookup_insert_cases ht with ⟨rfl, rfl⟩ | ⟨-, hold⟩ <;>
      rcases lookup_insert_cases ht' with ⟨rfl, rfl⟩ | ⟨-, hold'⟩
    · rfl
    · exact (hcls _ _ hold').symm
    · exact hcls _ _ hold
    · exact h.oneClass w w' t t' hold hold'
  · rcases lookup_insert_cases ht with ⟨rfl, rfl⟩ | ⟨-, hold⟩
    · exact hlt
    · rw [hcls w t hold]
      exact hlt
  · have hmem : v ∉ slots := AList.lookup_eq_none.mp hnew
    rw [AList.insert_of_notMem hmem]
    exact congrArg (· + 1) h.length

theorem sizeBytes_sum {v : VReg} {s : GenericSpillSlot} (hs : slots.lookup v = some s) :
    (slots.entries.map fun e => e.2.sizeBytes).sum = n * s.sizeBytes := by
  have hsize : ∀ e ∈ slots.entries, e.2.sizeBytes = s.sizeBytes := by
    intro e he
    have hcls := h.oneClass e.1 v e.2 s (AList.mem_lookup_iff.mpr he) hs
    unfold GenericSpillSlot.sizeBytes
    rw [hcls]
  rw [List.map_congr_left hsize, List.map_const', List.sum_replicate_nat, h.length]

/-- Slots of one class lie one below the other. -/
theorem offset_eq {v : VReg} {s : GenericSpillSlot} (hs : slots.lookup v = some s) :
    s.offset = -((s.index + 1) * s.sizeBytes) ∧ n * s.sizeBytes ≤ 2 ^ 31 := by
  obtain ⟨hlt, hoffset⟩ := h.index v s hs
  have hbound := h.bound v s hs
  rw [hoffset]
  unfold spillOffset GenericSpillSlot.sizeBytes
  unfold slotBound at hbound
  cases hcls : s.cls with
  | gpr | simdFp =>
    rw [hcls] at hbound
    dsimp only at hbound ⊢
    rw [Int.bmod_eq_of_le (by omega) (by omega)]
    exact ⟨rfl, by omega⟩

theorem slotsOk {r : RegAllocResult} (hr : r.spillSlots = slots) : SlotsOk r := by
  subst hr
  refine ⟨fun v w s t hs ht hne => ?_, fun v s hs => ?_⟩
  · obtain ⟨hsoff, -⟩ := h.offset_eq hs
    obtain ⟨htoff, -⟩ := h.offset_eq ht
    have hsize : s.sizeBytes = t.sizeBytes := by
      unfold GenericSpillSlot.sizeBytes
      rw [h.oneClass v w s t hs ht]
    have hidx : s.index ≠ t.index := fun hidx => hne (h.injective v w s t hs ht hidx)
    rw [hsoff, htoff, hsize]
    rcases t.sizeBytes_eq with heq | heq <;> rw [heq] <;> omega
  · obtain ⟨hoff, hle⟩ := h.offset_eq hs
    obtain ⟨hlt, -⟩ := h.index v s hs
    have hframe : r.spillFrameBytes = n * s.sizeBytes := by
      rw [RegAllocResult.spillFrameBytes, h.sizeBytes_sum hs, Nat.mod_eq_of_lt (by omega)]
    rw [hframe, hoff]
    rcases s.sizeBytes_eq with heq | heq <;> rw [heq] <;> omega

end SlotsInv

/-! ## The steps that give slots -/

namespace TargetAgnosticRegAlloc

section

variable {a : TargetAgnosticRegAlloc} {k : LiveInterval}

theorem spillInterval_slots (k : LiveInterval) (s : ScanState) :
    (a.spillInterval k s).result.spillSlots =
      s.result.spillSlots.insert k.vreg (slotOf s.nextSpillIndex k.cls) := by
  change (RegAllocResult.genSpillReload ..).spillSlots.insert _ _ = _
  rw [RegAllocResult.genSpillReload_spillSlots]
  rfl

theorem evict_slots (intervals : List LiveInterval) (k : LiveInterval) (idx : Nat)
    (entry : ActiveEntry) (s : ScanState) :
    (a.evict intervals k idx entry s).result.spillSlots =
      s.result.spillSlots.insert entry.vreg (slotOf s.nextSpillIndex k.cls) := by
  unfold evict
  dsimp only
  rw [assign_spillSlots, (genEvictionSpillReload_same ..).2.1]
  rfl

theorem scanStep_of_none (intervals : List LiveInterval) {s : ScanState}
    (h : a.takesSlot s k = none) :
    (a.scanStep intervals s k).result.spillSlots = s.result.spillSlots ∧
      (a.scanStep intervals s k).nextSpillIndex = s.nextSpillIndex := by
  unfold takesSlot at h
  unfold scanStep tryAllocReg
  dsimp only at h
  cases hpop : popFree k.crossesCall ((a.expire k.start s).pools k.cls) with
  | some r => exact ⟨assign_spillSlots .., rfl⟩
  | none =>
    rw [hpop, if_neg (by simp)] at h
    cases hmin : minBy ActiveEntry.lt ((a.expire k.start s).pools k.cls).active with
    | none =>
      rw [hmin] at h
      cases h
    | some e =>
      rw [hmin] at h
      dsimp only at h
      split at h <;> cases h

theorem scanStep_of_some (intervals : List LiveInterval) {s : ScanState} {v : VReg}
    (h : a.takesSlot s k = some v) :
    (a.scanStep intervals s k).result.spillSlots =
        s.result.spillSlots.insert v (slotOf s.nextSpillIndex k.cls) ∧
      (a.scanStep intervals s k).nextSpillIndex = s.nextSpillIndex + 1 := by
  unfold takesSlot at h
  unfold scanStep tryAllocReg
  dsimp only at h
  cases hpop : popFree k.crossesCall ((a.expire k.start s).pools k.cls) with
  | some r =>
    rw [hpop] at h
    cases h
  | none =>
    rw [hpop, if_neg (by simp)] at h
    cases hmin : minBy ActiveEntry.lt ((a.expire k.start s).pools k.cls).active with
    | none =>
      rw [hmin] at h
      cases h
      exact ⟨spillInterval_slots .., rfl⟩
    | some e =>
      rw [hmin] at h
      dsimp only at h ⊢
      by_cases hweight : k.weightPerLength ≤ e.2.weight
      · rw [if_pos hweight] at h
        cases h
        rw [if_pos hweight]
        exact ⟨spillInterval_slots .., rfl⟩
      · rw [if_neg hweight] at h
        cases h
        rw [if_neg hweight]
        exact ⟨evict_slots .., rfl⟩

end

section

variable {a : TargetAgnosticRegAlloc} {intervals : List LiveInterval}

theorem slotsInv_scan
    (hfits : ∀ n k, intervals[n]? = some k → a.roundFits (a.scan intervals n) k = true) (n : Nat) :
    SlotsInv (a.scan intervals n).result.spillSlots (a.scan intervals n).nextSpillIndex := by
  induction n with
  | zero => exact slotsInv_empty
  | succ n ih =>
    cases hk : intervals[n]? with
    | none => rwa [scan_of_ge hk]
    | some k =>
      rw [scan_succ hk]
      have hround := hfits n k hk
      rw [roundFits] at hround
      cases htakes : a.takesSlot (a.scan intervals n) k with
      | none =>
        obtain ⟨hslots, hnext⟩ := scanStep_of_none intervals htakes
        rwa [hslots, hnext]
      | some v =>
        obtain ⟨hslots, hnext⟩ := scanStep_of_some intervals htakes
        rw [htakes, Option.all_some] at hround
        rw [hslots, hnext]
        exact ih.insert hround

theorem foldl_pushCode_total {code : GenericSpillCode} {g : Nat → Nat} (r : RegAllocResult)
    (ps : List Nat) :
    (ps.foldl (fun r pos => r.pushCode (g pos) code) r).totalSpillSlots = r.totalSpillSlots := by
  induction ps generalizing r with
  | nil => rfl
  | cons p ps ih => exact ih _

theorem genSpillReload_totalSpillSlots (interval : LiveInterval) (scratch : PhysicalReg)
    (slot : GenericSpillSlot) (r : RegAllocResult) :
    (r.genSpillReload interval scratch slot).totalSpillSlots = r.totalSpillSlots :=
  (foldl_pushCode_total _ _).trans (foldl_pushCode_total _ _)

theorem slotsInv_resolveSingleConflict {r : RegAllocResult} {v : VReg} {preg : PhysicalReg}
    (h : SlotsInv r.spillSlots r.totalSpillSlots)
    (hfits : a.repairFits intervals r v preg = true) :
    SlotsInv (a.resolveSingleConflict intervals v preg r).spillSlots
      (a.resolveSingleConflict intervals v preg r).totalSpillSlots := by
  unfold repairFits at hfits
  unfold resolveSingleConflict
  dsimp only at hfits ⊢
  split
  · exact h
  · next hfree =>
    rw [hfree, Option.isSome_none, Bool.false_or] at hfits
    have hnext := h.insert hfits
    split
    · rw [RegAllocResult.genSpillReload_spillSlots, genSpillReload_totalSpillSlots]
      exact hnext
    · exact hnext

/-- If every slot of the scan and of the repairs can be given, the slots of the result are disjoint
and lie in the frame. -/
theorem allocateFunction_slots {f : IRFunction} {classOf : VReg → RegClass} {fuel : Nat}
    {is : List LiveInterval} (h : computeIntervals classOf f fuel = some is)
    (hscan : ∀ n k, (sortIntervals is)[n]? = some k →
      a.roundFits (a.scan (sortIntervals is) n) k = true)
    (hrepair : a.blocksSafe (sortIntervals is) (a.repairFits (sortIntervals is)) f.blocks 0
      (a.allocateIntervals (sortIntervals is)) = true) :
    ∃ r, a.allocateFunctionWithClasses f classOf fuel = some r ∧ SlotsOk r := by
  have hstart : SlotsInv (a.allocateIntervals (sortIntervals is)).spillSlots
      (a.allocateIntervals (sortIntervals is)).totalSpillSlots :=
    slotsInv_scan hscan (sortIntervals is).length
  have hrepaired := resolveRegisterReuseConflicts_safe
    (P := fun r => SlotsInv r.spillSlots r.totalSpillSlots)
    (fun _ _ _ hr hsafe => slotsInv_resolveSingleConflict hr hsafe) hstart hrepair
  exact ⟨_, congrArg (Option.map _) h, hrepaired.slotsOk rfl⟩

end

/-! ## Two values without registers -/

/-- A target without registers. -/
def noRegisters : TargetDesc where
  name := "none"
  registers := []

/-- Two values that are returned. -/
def returnTwo : IRFunction where
  name := "return_two"
  blocks :=
    [{ label := "entry"
       instructions :=
         [.add (.register 0) (.immediate 1) (.immediate 2) none,
           .add (.register 1) (.immediate 3) (.immediate 4) none]
       terminator := .ret [.register 0, .register 1] }]

theorem isSome_returnTwo (classOf : VReg → RegClass) :
    (computeIntervals classOf returnTwo 2).isSome = true := by
  rw [computeIntervals, Option.isSome_map]
  decide

/-- The intervals of the two values, of class `SimdFp`. -/
def returnTwoIntervals : List LiveInterval :=
  sortIntervals (Option.get _ (isSome_returnTwo fun _ => .simdFp))

theorem allocateFunction_returnTwo :
    ∃ r, (new noRegisters).allocateFunctionWithClasses returnTwo (fun _ => .simdFp) 2 = some r ∧
      SlotsOk r := by
  refine allocateFunction_slots (Option.some_get (isSome_returnTwo fun _ => .simdFp)).symm ?_
    (by decide)
  have hfits : ∀ n, ∀ hn : n < returnTwoIntervals.length,
      (new noRegisters).roundFits ((new noRegisters).scan returnTwoIntervals n)
        (returnTwoIntervals.get ⟨n, hn⟩) = true := by
    decide
  intro n k hk
  obtain ⟨hlt, rfl⟩ := List.getElem?_eq_some_iff.mp hk
  exact hfits n hlt

/-- The second value is of the other class. -/
def mixedClasses (v : VReg) : RegClass := if v = 1 then .simdFp else .gpr

theorem isSome_mixed : ((new noRegisters).allocateFunctionWithClasses returnTwo mixedClasses
    2).isSome = true := by
  rw [allocateFunctionWithClasses, Option.isSome_map]
  exact isSome_returnTwo mixedClasses

/-- Slots of eight and of sixteen bytes: the second one, from offset -32 on, is not in the frame of
24 bytes. -/
theorem not_allocateFunction_slots : ¬∀ (a : TargetAgnosticRegAlloc) f classOf fuel r,
    a.allocateFunctionWithClasses f classOf fuel = some r → SlotsOk r := by
  intro h
  have hok := h (new noRegisters) returnTwo mixedClasses 2 _ (Option.some_get isSome_mixed).symm
  have hslot : (Option.get _ isSome_mixed).spillSlots.lookup 1 = some ⟨1, -32, .simdFp⟩ ∧
      (Option.get _ isSome_mixed).spillFrameBytes = 24 := by
    decide
  have hframe := (hok.inFrame 1 _ hslot.1).1
  rw [hslot.2] at hframe
  revert hframe
  decide

end TargetAgnosticRegAlloc

end Vuma.Codegen
