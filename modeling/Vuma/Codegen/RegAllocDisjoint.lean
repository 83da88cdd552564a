import Vuma.Codegen.RegAlloc
import Vuma.Codegen.LiveRangeCover

/-!
# Registers of overlapping intervals

An eviction puts the register of the evicted interval among the free registers and gives it to the
new interval as well, so that the next interval can get it a second time. As long as nothing is
evicted, the free registers and those in `active` are the registers of the target, each once, and
overlapping intervals get different registers; the pass that reassigns registers keeps that.
-/

namespace Vuma.Codegen

open IR

/-- Different intervals of one class that overlap and have no spill slot are mapped to different
registers. -/
def DisjointRegs (is : List LiveInterval) (r : RegAllocResult) : Prop :=
  ∀ i ∈ is, ∀ j ∈ is, i ≠ j → i.cls = j.cls → i.overlaps j = true →
    r.spillSlots.lookup i.vreg = none → r.spillSlots.lookup j.vreg = none →
      ∀ p, r.vregToPreg.lookup i.vreg = some p → r.vregToPreg.lookup j.vreg ≠ some p

namespace TargetAgnosticRegAlloc

variable (a : TargetAgnosticRegAlloc)

/-- The free registers and those in `active` are the registers of the target, each once. -/
def PoolsPartition (s : ScanState) : Prop :=
  ∀ cls, (s.pools cls).regs.Nodup ∧ (s.pools cls).regs.Perm (a.pool cls)

/-- The next interval takes its register from an active one: no register of its class is free, and
the least deserving active interval has less weight. -/
def evicts (s : ScanState) (interval : LiveInterval) : Bool :=
  let p := (a.expire interval.start s).pools interval.cls
  (popFree interval.crossesCall p).isNone &&
    (minBy ActiveEntry.lt p.active).any fun e => e.2.weight < interval.weightPerLength

end TargetAgnosticRegAlloc

/-! ## Pools -/

theorem mem_of_minBy {α : Type} {lt : α → α → Bool} {l : List α} {i : Nat} {b : α}
    (h : minBy lt l = some (i, b)) : b ∈ l := by
  induction l generalizing i with
  | nil => cases h
  | cons a l ih =>
    rw [minBy] at h
    split at h
    · next j c hmin =>
      split at h
      · cases h
        exact List.mem_cons_of_mem _ (ih hmin)
      · cases h
        exact List.mem_cons_self
    · cases h
      exact List.mem_cons_self

theorem perm_dropLast {α : Type} {l : List α} {x : α} (h : l.getLast? = some x) :
    l.Perm (x :: l.dropLast) := by
  obtain ⟨l', rfl⟩ := List.getLast?_eq_some_iff.mp h
  rw [List.dropLast_concat]
  exact List.perm_append_singleton x l'

/-- A free register is taken from one of the pools. -/
theorem popFree_some {c : Bool} {p p' : Pools} {r : PhysicalReg}
    (h : popFree c p = some (r, p')) : p.regs.Perm (r :: p'.regs) ∧ p'.active = p.active := by
  have hcaller : ∀ r p', p.freeCaller.getLast?.map
      (fun r => (r, { p with freeCaller := p.freeCaller.dropLast })) = some (r, p') →
      p.regs.Perm (r :: p'.regs) ∧ p'.active = p.active := by
    intro r p' h
    obtain ⟨x, hx, he⟩ := Option.map_eq_some_iff.mp h
    cases he
    refine ⟨?_, rfl⟩
    unfold Pools.regs
    rw [List.append_assoc, List.append_assoc]
    exact (perm_dropLast hx).append_right _
  have hcallee : ∀ r p', p.freeCallee.getLast?.map
      (fun r => (r, { p with freeCallee := p.freeCallee.dropLast })) = some (r, p') →
      p.regs.Perm (r :: p'.regs) ∧ p'.active = p.active := by
    intro r p' h
    obtain ⟨x, hx, he⟩ := Option.map_eq_some_iff.mp h
    cases he
    refine ⟨?_, rfl⟩
    unfold Pools.regs
    rw [List.append_assoc, List.append_assoc]
    exact (((perm_dropLast hx).append_right _).append_left _).trans List.perm_middle
  unfold popFree at h
  dsimp only at h
  split at h
  · rcases Option.or_eq_some_iff.mp h with h | ⟨-, h⟩
    · exact hcallee r p' h
    · exact hcaller r p' h
  · rcases Option.or_eq_some_iff.mp h with h | ⟨-, h⟩
    · exact hcaller r p' h
    · exact hcallee r p' h

theorem expireOld_regs_perm (callee : List PhysicalReg) (position : Nat) (p : Pools) :
    (expireOld callee position p).regs.Perm p.regs := by
  refine List.perm_iff_count.mpr fun x => ?_
  have hexpired := (List.filter_append_perm (fun e : ActiveEntry => decide (e.stop < position))
    p.active).map (·.preg)
  have hactive := hexpired.count_eq x
  have hpools := (List.filter_append_perm (fun r : PhysicalReg => decide (r ∈ callee))
    ((p.active.filter (·.stop < position)).map (·.preg))).count_eq x
  simp only [List.map_append, List.count_append] at hactive hpools
  simp only [expireOld, Pools.regs, List.count_append, decide_not]
  omega

theorem expireOld_active (callee : List PhysicalReg) (position : Nat) (p : Pools)
    {e : ActiveEntry} (he : e ∈ p.active) (h : position ≤ e.stop) :
    e ∈ (expireOld callee position p).active :=
  List.mem_filter.mpr ⟨he, by simpa using h⟩

/-! ## What the spill code leaves alone -/

theorem foldl_pushCode {r : RegAllocResult} {code : GenericSpillCode} {g : Nat → Nat}
    (ps : List Nat) :
    (ps.foldl (fun r pos => r.pushCode (g pos) code) r).vregToPreg = r.vregToPreg ∧
      (ps.foldl (fun r pos => r.pushCode (g pos) code) r).spillSlots = r.spillSlots ∧
      (ps.foldl (fun r pos => r.pushCode (g pos) code) r).liveIntervals = r.liveIntervals ∧
      (ps.foldl (fun r pos => r.pushCode (g pos) code) r).coalescedMap = r.coalescedMap := by
  induction ps generalizing r with
  | nil => exact ⟨rfl, rfl, rfl, rfl⟩
  | cons p ps ih => exact ih

namespace RegAllocResult

variable (interval : LiveInterval) (scratch : PhysicalReg) (slot : GenericSpillSlot)
  (r : RegAllocResult)

@[simp] theorem genSpillReload_vregToPreg :
    (r.genSpillReload interval scratch slot).vregToPreg = r.vregToPreg :=
  (foldl_pushCode _).1.trans (foldl_pushCode _).1

@[simp] theorem genSpillReload_spillSlots :
    (r.genSpillReload interval scratch slot).spillSlots = r.spillSlots :=
  (foldl_pushCode _).2.1.trans (foldl_pushCode _).2.1

@[simp] theorem genSpillReload_liveIntervals :
    (r.genSpillReload interval scratch slot).liveIntervals = r.liveIntervals :=
  (foldl_pushCode _).2.2.1.trans (foldl_pushCode _).2.2.1

end RegAllocResult

namespace TargetAgnosticRegAlloc

variable {a : TargetAgnosticRegAlloc} {intervals : List LiveInterval}

@[simp] theorem assign_vregToPreg (interval : LiveInterval) (preg : PhysicalReg)
    (r : RegAllocResult) :
    (a.assign interval preg r).vregToPreg = r.vregToPreg.insert interval.vreg preg := by
  unfold assign
  dsimp only
  split <;> rfl

@[simp] theorem assign_spillSlots (interval : LiveInterval) (preg : PhysicalReg)
    (r : RegAllocResult) : (a.assign interval preg r).spillSlots = r.spillSlots := by
  unfold assign
  dsimp only
  split <;> rfl

/-! ## Reassignment -/

/-- Nothing is taken out of the map of registers. -/
theorem mem_resolveSingleConflict (defVreg : VReg) (preg : PhysicalReg) {r : RegAllocResult}
    {v : VReg} (h : v ∈ r.vregToPreg) :
    v ∈ (a.resolveSingleConflict intervals defVreg preg r).vregToPreg := by
  unfold resolveSingleConflict
  dsimp only
  split
  · exact (AList.mem_insert _).mpr (.inr h)
  · split
    · rw [RegAllocResult.genSpillReload_vregToPreg]
      exact (AList.mem_insert _).mpr (.inr h)
    · exact (AList.mem_insert _).mpr (.inr h)

/-- What every single reassignment of a mapped register keeps is kept by the pass. -/
theorem resolveRegisterReuseConflicts_induction {P : RegAllocResult → Prop}
    (h : ∀ defVreg preg r, defVreg ∈ r.vregToPreg → P r →
      P (a.resolveSingleConflict intervals defVreg preg r))
    (f : IRFunction) {r : RegAllocResult} (hr : P r) :
    P (a.resolveRegisterReuseConflicts f intervals r) := by
  have huse : ∀ pos defRoot defPreg r v, defRoot ∈ r.vregToPreg ∧ P r →
      defRoot ∈ (a.checkUse intervals pos defRoot defPreg r v).vregToPreg ∧
        P (a.checkUse intervals pos defRoot defPreg r v) := by
    intro pos defRoot defPreg r v hr
    unfold checkUse
    dsimp only
    split
    · exact hr
    · split
      · exact hr
      · split
        · exact hr
        · split
          · exact ⟨mem_resolveSingleConflict _ _ hr.1, h _ _ _ hr.1 hr.2⟩
          · exact hr
  have hdef : ∀ pos uses r v, P r → P (a.checkDef intervals pos uses r v) := by
    intro pos uses r v hr
    unfold checkDef
    dsimp only
    split
    · exact hr
    · next defPreg hmapped =>
      have hmem : rootOf r v ∈ r.vregToPreg := by
        rw [← AList.lookup_isSome, hmapped]
        rfl
      have huses := List.foldlRecOn uses (a.checkUse intervals pos (rootOf r v) defPreg)
        (motive := fun r' => rootOf r v ∈ r'.vregToPreg ∧ P r') ⟨hmem, hr⟩
        fun r hr v _ => huse _ _ _ r v hr
      split
      · exact huses.2
      · split
        · exact huses.2
        · split
          · exact h _ _ _ huses.1 huses.2
          · exact huses.2
  have hinstrs : ∀ is pos r, P r → P (a.checkInstrs intervals is pos r) := by
    intro is
    induction is with
    | nil => exact fun _ r hr => hr
    | cons i is ih =>
      exact fun pos r hr => ih _ _ (List.foldlRecOn i.definedRegs _ hr fun r hr v _ =>
        hdef pos i.usedRegs r v hr)
  have hblocks : ∀ bs pos r, P r → P (a.checkBlocks intervals bs pos r) := by
    intro bs
    induction bs with
    | nil => exact fun _ r hr => hr
    | cons b bs ih => exact fun pos r hr => ih _ _ (hinstrs _ _ _ hr)
  exact hblocks _ _ _ hr

theorem find_vreg {is : List LiveInterval} (h : (is.map (·.vreg)).Nodup) {i : LiveInterval}
    (hi : i ∈ is) : is.find? (·.vreg == i.vreg) = some i := by
  induction is with
  | nil => cases hi
  | cons j is ih =>
    rw [List.map_cons, List.nodup_cons] at h
    rcases List.mem_cons.mp hi with rfl | hi
    · exact List.find?_cons_of_pos (by simp)
    · rw [List.find?_cons_of_neg, ih h.2 hi]
      intro heq
      exact h.1 (List.mem_map.mpr ⟨i, hi, by simpa using (Eq.symm (by simpa using heq))⟩)

theorem eq_of_vreg {is : List LiveInterval} (h : (is.map (·.vreg)).Nodup) {i j : LiveInterval}
    (hi : i ∈ is) (hj : j ∈ is) (hvreg : i.vreg = j.vreg) : i = j := by
  have hfind := find_vreg h hi
  rw [hvreg, find_vreg h hj] at hfind
  exact (Option.some.inj hfind).symm

theorem disjointRegs_spill {is : List LiveInterval} {r r' : RegAllocResult}
    (h : DisjointRegs is r) {v : VReg} {slot : GenericSpillSlot} {p : PhysicalReg}
    (hslots : r'.spillSlots = r.spillSlots.insert v slot)
    (hpregs : r'.vregToPreg = r.vregToPreg.insert v p) : DisjointRegs is r' := by
  have hother : ∀ w, r'.spillSlots.lookup w = none →
      r.spillSlots.lookup w = none ∧ r'.vregToPreg.lookup w = r.vregToPreg.lookup w := by
    intro w hw
    have hne : w ≠ v := by
      rintro rfl
      rw [hslots, AList.lookup_insert] at hw
      cases hw
    rw [hslots, AList.lookup_insert_ne hne] at hw
    exact ⟨hw, by rw [hpregs, AList.lookup_insert_ne hne]⟩
  intro i hi j hj hne hcls hover hsi hsj q hqi
  obtain ⟨hsi', hi'⟩ := hother _ hsi
  obtain ⟨hsj', hj'⟩ := hother _ hsj
  rw [hj']
  rw [hi'] at hqi
  exact h i hi j hj hne hcls hover hsi' hsj' q hqi

theorem mem_usedPregs (hnodup : (intervals.map (·.vreg)).Nodup) {r : RegAllocResult}
    {i j : LiveInterval} (hi : i ∈ intervals) (hj : j ∈ intervals) (hne : i ≠ j)
    (hover : i.overlaps j = true) {p : PhysicalReg} (hp : r.vregToPreg.lookup j.vreg = some p) :
    p ∈ usedPregs r intervals i.vreg := by
  rw [LiveInterval.overlaps, Bool.and_eq_true, decide_eq_true_eq, decide_eq_true_eq] at hover
  have hvreg : j.vreg ≠ i.vreg := fun he => hne (eq_of_vreg hnodup hj hi he).symm
  refine List.mem_map.mpr ⟨⟨j.vreg, p⟩, List.mem_filter.mpr ⟨?_, ?_⟩, rfl⟩
  · exact AList.mem_lookup_iff.mp hp
  · simp only [find_vreg hnodup hi, find_vreg hnodup hj, Option.any_some, Option.map_some,
      Option.getD_some]
    simp [hvreg, hover.1, hover.2]

theorem resolveSingleConflict_disjoint (hnodup : (intervals.map (·.vreg)).Nodup) {defVreg : VReg}
    {preg : PhysicalReg} {r : RegAllocResult} (h : DisjointRegs intervals r) :
    DisjointRegs intervals (a.resolveSingleConflict intervals defVreg preg r) := by
  unfold resolveSingleConflict
  dsimp only
  split
  · next c hc =>
    have hunused : c ∉ usedPregs r intervals defVreg := by
      have hfound := List.find?_some hc
      rw [Bool.and_eq_true, decide_eq_true_eq, decide_eq_true_eq] at hfound
      exact hfound.2
    intro i hi j hj hne hcls hover hsi hsj p hpi hpj
    have hvreg : i.vreg ≠ j.vreg := fun he => hne (eq_of_vreg hnodup hi hj he)
    change (r.vregToPreg.insert defVreg c).lookup i.vreg = some p at hpi
    change (r.vregToPreg.insert defVreg c).lookup j.vreg = some p at hpj
    by_cases hdi : i.vreg = defVreg
    · subst hdi
      rw [AList.lookup_insert] at hpi
      rw [AList.lookup_insert_ne hvreg.symm] at hpj
      cases hpi
      exact hunused (mem_usedPregs hnodup hi hj hne hover hpj)
    · rw [AList.lookup_insert_ne hdi] at hpi
      by_cases hdj : j.vreg = defVreg
      · subst hdj
        rw [AList.lookup_insert] at hpj
        cases hpj
        refine hunused (mem_usedPregs hnodup hj hi hne.symm ?_ hpi)
        rwa [LiveInterval.overlaps, Bool.and_comm]
      · rw [AList.lookup_insert_ne hdj] at hpj
        exact h i hi j hj hne hcls hover hsi hsj p hpi hpj
  · split
    · exact disjointRegs_spill h (RegAllocResult.genSpillReload_spillSlots ..)
        (RegAllocResult.genSpillReload_vregToPreg ..)
    · exact disjointRegs_spill h rfl rfl

theorem resolveSingleConflict_liveIntervals (defVreg : VReg) (preg : PhysicalReg)
    (r : RegAllocResult) :
    (a.resolveSingleConflict intervals defVreg preg r).liveIntervals = r.liveIntervals := by
  unfold resolveSingleConflict
  dsimp only
  split
  · rfl
  · split
    · exact RegAllocResult.genSpillReload_liveIntervals ..
    · rfl

/-! ## The scan -/

/-- What holds after the intervals in `done`, the last of which starts at `now`. -/
structure ScanOk (a : TargetAgnosticRegAlloc) (done : List LiveInterval) (now : Nat)
    (s : ScanState) : Prop where
  perm : ∀ cls, (s.pools cls).regs.Perm (a.pool cls)
  mapped : ∀ i ∈ done, s.result.spillSlots.lookup i.vreg = none →
    ∃ p, s.result.vregToPreg.lookup i.vreg = some p ∧
      (i.stop < now ∨ ∃ e ∈ (s.pools i.cls).active, e.preg = p ∧ e.stop = i.stop)
  disjoint : DisjointRegs done s.result

theorem ScanOk.expire {done : List LiveInterval} {now position : Nat} {s : ScanState}
    (h : ScanOk a done now s) (hle : now ≤ position) :
    ScanOk a done position (a.expire position s) where
  perm cls := (expireOld_regs_perm _ _ _).trans (h.perm cls)
  mapped i hi hslot := by
    obtain ⟨p, hp, hstop⟩ := h.mapped i hi hslot
    refine ⟨p, hp, ?_⟩
    rcases hstop with hstop | ⟨e, he, hpreg, hestop⟩
    · exact .inl (hstop.trans_le hle)
    · by_cases hlt : i.stop < position
      · exact .inl hlt
      · exact .inr ⟨e, expireOld_active _ _ _ he (by omega), hpreg, hestop⟩
  disjoint := h.disjoint

theorem overlaps_comm (i j : LiveInterval) : i.overlaps j = j.overlaps i := by
  rw [LiveInterval.overlaps, LiveInterval.overlaps, Bool.and_comm]

theorem disjointRegs_append {done : List LiveInterval} {k : LiveInterval} {r : RegAllocResult}
    (h : DisjointRegs done r)
    (hk : ∀ i ∈ done, i.cls = k.cls → i.overlaps k = true → r.spillSlots.lookup i.vreg = none →
      r.spillSlots.lookup k.vreg = none → ∀ p, r.vregToPreg.lookup i.vreg = some p →
        r.vregToPreg.lookup k.vreg ≠ some p) :
    DisjointRegs (done ++ [k]) r := by
  intro i hi j hj hne hcls hover hsi hsj p hpi hpj
  rw [List.mem_append, List.mem_singleton] at hi hj
  rcases hi with hi | hi <;> rcases hj with hj | hj
  · exact h i hi j hj hne hcls hover hsi hsj p hpi hpj
  · subst hj
    exact hk i hi hcls hover hsi hsj p hpi hpj
  · subst hi
    rw [overlaps_comm] at hover
    exact hk j hj hcls.symm hover hsj hsi p hpj hpi
  · exact hne (hi.trans hj.symm)

section

variable {done : List LiveInterval} {k : LiveInterval} {s : ScanState}
  (h : ScanOk a done k.start s) (hnew : ∀ i ∈ done, i.vreg ≠ k.vreg)
include h hnew

/-- A free register is not that of an active interval. -/
theorem ScanOk.give (hnodup : (a.pool k.cls).Nodup) {r : PhysicalReg} {p : Pools}
    (hpop : popFree k.crossesCall (s.pools k.cls) = some (r, p)) :
    ScanOk a (done ++ [k]) k.start
      { s with
        pools := Function.update s.pools k.cls
          { p with active := p.active ++ [⟨k.vreg, r, k.stop, k.weightPerLength⟩] }
        result := a.assign k r s.result } := by
  obtain ⟨hperm, hactive⟩ := popFree_some hpop
  refine ⟨fun cls => ?_, fun i hi hslot => ?_, ?_⟩
  · by_cases hcls : cls = k.cls
    · subst hcls
      dsimp only
      rw [Function.update_self]
      refine List.Perm.trans ?_ (hperm.symm.trans (h.perm _))
      simp only [Pools.regs, List.map_append, List.map_cons, List.map_nil, ← List.append_assoc]
      exact List.perm_append_singleton _ _
    · dsimp only
      rw [Function.update_of_ne hcls]
      exact h.perm cls
  · rw [List.mem_append, List.mem_singleton] at hi
    dsimp only at hslot ⊢
    rw [assign_spillSlots] at hslot
    rw [assign_vregToPreg]
    rcases hi with hi | rfl
    · obtain ⟨q, hq, hstop⟩ := h.mapped i hi hslot
      refine ⟨q, by rw [AList.lookup_insert_ne (hnew i hi), hq], hstop.imp_right ?_⟩
      rintro ⟨e, he, hpreg, hestop⟩
      refine ⟨e, ?_, hpreg, hestop⟩
      by_cases hcls : i.cls = k.cls
      · rw [hcls, Function.update_self]
        rw [hcls, ← hactive] at he
        exact List.mem_append_left _ he
      · rwa [Function.update_of_ne hcls]
    · refine ⟨r, AList.lookup_insert _,
        .inr ⟨⟨i.vreg, r, i.stop, i.weightPerLength⟩, ?_, rfl, rfl⟩⟩
      rw [Function.update_self]
      exact List.mem_append_right _ (List.mem_singleton_self _)
  · have hold : DisjointRegs done (a.assign k r s.result) := by
      intro i hi j hj hne hcls hover hsi hsj q hqi
      rw [assign_spillSlots] at hsi hsj
      rw [assign_vregToPreg, AList.lookup_insert_ne (hnew i hi)] at hqi
      rw [assign_vregToPreg, AList.lookup_insert_ne (hnew j hj)]
      exact h.disjoint i hi j hj hne hcls hover hsi hsj q hqi
    refine disjointRegs_append hold fun i hi hcls hover hslot _ q hqi hqk => ?_
    dsimp only at hslot hqi hqk
    rw [assign_spillSlots] at hslot
    rw [assign_vregToPreg, AList.lookup_insert_ne (hnew i hi)] at hqi
    rw [assign_vregToPreg, AList.lookup_insert] at hqk
    rw [LiveInterval.overlaps, Bool.and_eq_true, decide_eq_true_eq, decide_eq_true_eq] at hover
    obtain ⟨q', hq', hstop⟩ := h.mapped i hi hslot
    rw [hqi] at hq'
    cases hq'
    cases hqk
    -- the interval is still active, so its register is not free
    obtain hstop | ⟨e, he, hpreg, -⟩ := hstop
    · omega
    · have hfree := hperm.nodup_iff.mp ((h.perm _).nodup_iff.mpr hnodup)
      rw [hcls, ← hactive] at he
      refine (List.nodup_cons.mp hfree).1 ?_
      rw [← hpreg]
      exact List.mem_append_right _ (List.mem_map_of_mem he)

theorem ScanOk.spill : ScanOk a (done ++ [k]) k.start (a.spillInterval k s) := by
  have hslots : (a.spillInterval k s).result.spillSlots = s.result.spillSlots.insert k.vreg
      ⟨s.nextSpillIndex, spillOffset s.nextSpillIndex k.cls, k.cls⟩ := by
    change (RegAllocResult.genSpillReload ..).spillSlots.insert _ _ = _
    rw [RegAllocResult.genSpillReload_spillSlots]
    rfl
  have hpregs : (a.spillInterval k s).result.vregToPreg =
      s.result.vregToPreg.insert k.vreg (a.spillScratch k.cls) :=
    RegAllocResult.genSpillReload_vregToPreg ..
  have hk : (a.spillInterval k s).result.spillSlots.lookup k.vreg ≠ none := by
    rw [hslots, AList.lookup_insert]
    exact Option.some_ne_none _
  refine ⟨h.perm, fun i hi hslot => ?_, ?_⟩
  · rw [List.mem_append, List.mem_singleton] at hi
    rcases hi with hi | rfl
    · rw [hslots, AList.lookup_insert_ne (hnew i hi)] at hslot
      rw [hpregs, AList.lookup_insert_ne (hnew i hi)]
      exact h.mapped i hi hslot
    · exact absurd hslot hk
  · exact disjointRegs_append (disjointRegs_spill h.disjoint hslots hpregs)
      fun i _ _ _ _ hslot => absurd hslot hk

end

theorem scanStep_ok {done : List LiveInterval} {now : Nat} {k : LiveInterval} {s : ScanState}
    (h : ScanOk a done now s) (hle : now ≤ k.start) (hnew : ∀ i ∈ done, i.vreg ≠ k.vreg)
    (hnodup : ∀ cls, (a.pool cls).Nodup) (hstay : a.evicts s k = false) :
    ScanOk a (done ++ [k]) k.start (a.scanStep intervals s k) := by
  have hexp := h.expire hle
  unfold scanStep tryAllocReg
  split
  · next r p hpop => exact hexp.give hnew (hnodup _) hpop
  · next hpop =>
    split
    · exact hexp.spill hnew
    · next idx entry hmin =>
      rw [if_pos]
      · exact hexp.spill hnew
      · simpa [evicts, hpop, hmin] using hstay

theorem not_nodup_of_evicts {k : LiveInterval} {s : ScanState} (h : a.evicts s k = true) :
    ¬ ((a.scanStep intervals s k).pools k.cls).regs.Nodup := by
  unfold evicts at h
  dsimp only at h
  rw [Bool.and_eq_true, Option.isNone_iff_eq_none, Option.any_eq_true] at h
  obtain ⟨hpop, ⟨idx, entry⟩, hmin, hweight⟩ := h
  rw [decide_eq_true_eq] at hweight
  unfold scanStep tryAllocReg
  rw [hpop, hmin]
  dsimp only
  rw [if_neg hweight.not_ge]
  unfold evict
  dsimp only
  rw [Function.update_self]
  intro hnodup
  refine (List.nodup_append.mp hnodup).2.2 entry.preg ?_ entry.preg ?_ rfl
  · dsimp only
    split <;> simp
  · simp

theorem scan_succ {n : Nat} {k : LiveInterval} (h : intervals[n]? = some k) :
    a.scan intervals (n + 1) = a.scanStep intervals (a.scan intervals n) k := by
  rw [scan, List.take_add_one, h, Option.toList_some, List.foldl_append]
  rfl

theorem scan_of_ge {n : Nat} (h : intervals[n]? = none) :
    a.scan intervals (n + 1) = a.scan intervals n := by
  rw [scan, List.take_add_one, h, Option.toList_none, List.append_nil]
  rfl

theorem scan_ok (hsorted : intervals.Pairwise fun i j => i.start ≤ j.start)
    (hvregs : (intervals.map (·.vreg)).Nodup) (hnodup : ∀ cls, (a.pool cls).Nodup)
    (hstay : ∀ n k, intervals[n]? = some k → a.evicts (a.scan intervals n) k = false) (n : Nat) :
    ∃ now, ScanOk a (intervals.take n) now (a.scan intervals n) ∧
      ∀ k ∈ intervals.drop n, now ≤ k.start := by
  induction n with
  | zero =>
    refine ⟨0, ⟨fun cls => ?_, nofun, nofun⟩, fun k _ => Nat.zero_le _⟩
    change (a.callerSaved cls ++ a.calleeSaved cls ++ []).Perm (a.pool cls)
    rw [List.append_nil]
    exact List.Perm.refl _
  | succ n ih =>
    obtain ⟨now, hok, hnow⟩ := ih
    cases hk : intervals[n]? with
    | none =>
      refine ⟨now, ?_, fun k hmem => ?_⟩
      · rwa [scan_of_ge hk, List.take_add_one, hk, Option.toList_none, List.append_nil]
      · rw [List.drop_eq_nil_of_le ((List.getElem?_eq_none_iff.mp hk).trans n.le_succ)] at hmem
        cases hmem
    | some k =>
      have hdrop : intervals.drop n = k :: intervals.drop (n + 1) := by
        obtain ⟨hlt, rfl⟩ := List.getElem?_eq_some_iff.mp hk
        exact List.drop_eq_getElem_cons hlt
      have hsplit : intervals.take n ++ k :: intervals.drop (n + 1) = intervals := by
        rw [← hdrop, List.take_append_drop]
      rw [scan_succ hk, List.take_add_one, hk, Option.toList_some]
      refine ⟨k.start, scanStep_ok hok (hnow k ?_) ?_ hnodup (hstay n k hk), ?_⟩
      · rw [hdrop]
        exact List.mem_cons_self
      · intro i hi heq
        rw [← hsplit, List.map_append, List.map_cons, List.nodup_append] at hvregs
        exact hvregs.2.2 _ (List.mem_map_of_mem hi) _ List.mem_cons_self heq
      · rw [← hsplit, List.pairwise_append, List.pairwise_cons] at hsorted
        exact hsorted.2.1.1

/-! ## Functions -/

theorem pairwise_sortIntervals (is : List LiveInterval) :
    (sortIntervals is).Pairwise fun i j => i.start ≤ j.start := by
  let r : LiveInterval → LiveInterval → Prop := fun i j =>
    i.start < j.start ∨ i.start = j.start ∧ j.stop ≤ i.stop
  have : Std.Total r := ⟨fun i j => by simp only [r]; omega⟩
  have : IsTrans LiveInterval r := ⟨fun i j k h h' => by simp only [r] at *; omega⟩
  refine (List.pairwise_insertionSort r is).imp fun {i j} h => ?_
  rcases h with h | ⟨h, -⟩
  · exact h.le
  · exact h.le

theorem nodup_vregs_sortIntervals {is : List LiveInterval} (h : SortedByVReg is) :
    ((sortIntervals is).map (·.vreg)).Nodup := by
  refine (((List.perm_insertionSort _ is).map _).nodup_iff).mpr ?_
  exact List.pairwise_map.mpr (h.imp fun hlt => hlt.ne)

/-- The scan keeps the pools of every target and function in order, and overlapping intervals get
different registers, if and only if the allocatable registers of each class are different and no
interval evicts another. -/
theorem allocateFunction_disjoint_iff {target : TargetDesc} {f : IRFunction} {fuel : Nat}
    {r : RegAllocResult} (h : (new target).allocateFunction f fuel = some r) :
    ((∀ n, (new target).PoolsPartition ((new target).scan r.liveIntervals n)) ∧
        DisjointRegs r.liveIntervals r) ↔
      (∀ cls, ((new target).pool cls).Nodup) ∧
        ∀ n k, r.liveIntervals[n]? = some k →
          (new target).evicts ((new target).scan r.liveIntervals n) k = false := by
  obtain ⟨is, his, hr⟩ := Option.map_eq_some_iff.mp h
  obtain ⟨live, -, rfl⟩ := Option.map_eq_some_iff.mp his
  have hvregs := nodup_vregs_sortIntervals (sortedByVReg_liveIntervals (fun _ => .gpr) f live)
  have hsorted := pairwise_sortIntervals (liveIntervals (fun _ => .gpr) f live)
  have hlive : r.liveIntervals = sortIntervals (liveIntervals (fun _ => .gpr) f live) := by
    rw [← hr]
    exact resolveRegisterReuseConflicts_induction
      (P := fun r => r.liveIntervals = sortIntervals (liveIntervals (fun _ => .gpr) f live))
      (fun _ _ r _ hr => (resolveSingleConflict_liveIntervals _ _ r).trans hr) f rfl
  rw [← hlive] at hvregs hsorted hr
  constructor
  · rintro ⟨hpart, -⟩
    refine ⟨fun cls => ?_, fun n k hk => ?_⟩
    · have hstart := (hpart 0 cls).1
      exact (hpart 0 cls).2.nodup_iff.mp hstart
    · refine Bool.eq_false_iff.mpr fun hev => ?_
      have hnext := (hpart (n + 1) k.cls).1
      rw [scan_succ hk] at hnext
      exact not_nodup_of_evicts hev hnext
  · rintro ⟨hnodup, hstay⟩
    have hscan := scan_ok hsorted hvregs hnodup hstay
    refine ⟨fun n cls => ?_, ?_⟩
    · obtain ⟨now, hok, -⟩ := hscan n
      exact ⟨(hok.perm cls).nodup_iff.mpr (hnodup cls), hok.perm cls⟩
    · obtain ⟨now, hok, -⟩ := hscan r.liveIntervals.length
      rw [List.take_length] at hok
      have hdisjoint : DisjointRegs r.liveIntervals
          ((new target).allocateIntervals r.liveIntervals) := hok.disjoint
      have hrepair := resolveRegisterReuseConflicts_induction (a := new target)
        (P := DisjointRegs r.liveIntervals)
        (fun _ _ _ _ hd => resolveSingleConflict_disjoint hvregs hd) f hdisjoint
      rwa [hr] at hrepair

/-- A target with a single allocatable register. -/
def oneRegister : TargetDesc where
  name := "tiny"
  registers := [⟨.gpr, 0, true, false⟩]

/-- A sum that is returned. -/
def returnSum : IRFunction where
  name := "return_sum"
  blocks :=
    [{ label := "entry"
       instructions :=
         [.add (.register 0) (.immediate 1) (.immediate 2) none,
           .add (.register 1) (.register 0) (.immediate 3) none]
       terminator := .ret [.register 1] }]

theorem isSome_returnSum :
    ((new oneRegister).allocateFunction returnSum 2).isSome = true := by
  decide

theorem allocateFunction_returnSum : ∃ r, (new oneRegister).allocateFunction returnSum 2 = some r ∧
    (∀ n, (new oneRegister).PoolsPartition ((new oneRegister).scan r.liveIntervals n)) ∧
      DisjointRegs r.liveIntervals r := by
  have hresult := (Option.some_get isSome_returnSum).symm
  refine ⟨_, hresult, (allocateFunction_disjoint_iff hresult).mpr ⟨?_, fun n k hk => ?_⟩⟩
  · intro cls
    cases cls <;> decide
  · have hstay : ∀ n, ∀ hn : n < (Option.get _ isSome_returnSum).liveIntervals.length,
        (new oneRegister).evicts
          ((new oneRegister).scan (Option.get _ isSome_returnSum).liveIntervals n)
          ((Option.get _ isSome_returnSum).liveIntervals.get ⟨n, hn⟩) = false := by
      decide
    obtain ⟨hlt, rfl⟩ := List.getElem?_eq_some_iff.mp hk
    exact hstay n hlt

/-- A value is kept while a message and its error code are received and added. -/
def receiveAndAdd : IRFunction where
  name := "receive_and_add"
  blocks :=
    [{ label := "entry"
       instructions :=
         [.add (.register 0) (.immediate 1) (.immediate 2) none,
           .channelRecvResult (.immediate 0) (.register 1) (.register 2) none,
           .add (.register 3) (.register 1) (.register 2) none]
       terminator := .ret [.register 0, .register 3] }]

theorem isSome_receiveAndAdd :
    ((new oneRegister).allocateFunction receiveAndAdd 2).isSome = true := by
  decide

/-- The message evicts the value, and the error code gets the same register. -/
theorem allocateFunction_shares : ∃ r, (new oneRegister).allocateFunction receiveAndAdd 2 = some r ∧
    ¬ DisjointRegs r.liveIntervals r := by
  refine ⟨_, (Option.some_get isSome_receiveAndAdd).symm, fun hdisjoint => ?_⟩
  have hshare : ∃ i ∈ (Option.get _ isSome_receiveAndAdd).liveIntervals,
      ∃ j ∈ (Option.get _ isSome_receiveAndAdd).liveIntervals,
      i ≠ j ∧ i.cls = j.cls ∧ i.overlaps j = true ∧
        (Option.get _ isSome_receiveAndAdd).spillSlots.lookup i.vreg = none ∧
        (Option.get _ isSome_receiveAndAdd).spillSlots.lookup j.vreg = none ∧
        (Option.get _ isSome_receiveAndAdd).vregToPreg.lookup i.vreg = some ⟨.gpr, 0⟩ ∧
        (Option.get _ isSome_receiveAndAdd).vregToPreg.lookup j.vreg = some ⟨.gpr, 0⟩ := by
    decide
  obtain ⟨i, hi, j, hj, hne, hcls, hover, hsi, hsj, hpi, hpj⟩ := hshare
  exact hdisjoint i hi j hj hne hcls hover hsi hsj _ hpi hpj

end TargetAgnosticRegAlloc

end Vuma.Codegen
