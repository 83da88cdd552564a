import Vuma.Codegen.RegAllocSlots

/-!
# Every register has a home

`LiveRangeComputer::compute` makes an interval for every register that an instruction reads or
writes and for every register that a terminator reads, but none for a register that only an `Invoke`
writes. The scan maps the register of every interval to a physical one, also when it is spilled or
evicted, and nothing is ever taken out of that map: exactly the registers with an interval have a
home (`allocateFunction_homes_iff`).
-/

namespace Vuma.Codegen

open IR

/-! ## The property -/

/-- The registers that a terminator writes. -/
def terminatorDefs : IRTerminator → List VReg
  | .invoke dst .. => (dst.bind IRValue.asRegister).toList
  | _ => []

/-- An instruction reads or writes the register, or a terminator reads it. -/
def Mentions (f : IRFunction) (v : VReg) : Prop :=
  ∃ b ∈ f.blocks, (∃ i ∈ b.instructions, v ∈ i.definedRegs ++ i.usedRegs) ∨
    v ∈ b.terminator.usedRegs

/-- A terminator writes the register. -/
def TerminatorWrites (f : IRFunction) (v : VReg) : Prop :=
  ∃ b ∈ f.blocks, v ∈ terminatorDefs b.terminator

/-- The register whose spill code it is. -/
def GenericSpillCode.vreg : GenericSpillCode → VReg
  | .spill vreg .. | .reload vreg .. => vreg

/-- The register was spilled or evicted in a round of the scan, or there is spill code for it. -/
def WasSpilled (a : TargetAgnosticRegAlloc) (r : RegAllocResult) (v : VReg) : Prop :=
  (∃ n k, r.liveIntervals[n]? = some k ∧ a.takesSlot (a.scan r.liveIntervals n) k = some v) ∨
    ∃ pos, ∃ code ∈ r.spillCode pos, code.vreg = v

/-- The representative of the register has a physical register and, if it was spilled, a slot. -/
structure HasHome (a : TargetAgnosticRegAlloc) (r : RegAllocResult) (v : VReg) : Prop where
  preg : (r.vregToPreg.lookup (r.resolveVreg v)).isSome = true
  slot : WasSpilled a r (r.resolveVreg v) →
    (r.spillSlots.lookup (r.resolveVreg v)).isSome = true

/-! ## The registers with an interval -/

/-- The interval of a mentioned register, with nothing merged into it. -/
structure LiveInterval.Own (f : IRFunction) (i : LiveInterval) : Prop where
  mentioned : Mentions f i.vreg
  coalescedVregs : i.coalescedVregs = [i.vreg]

theorem LiveInterval.Grows.own {f : IRFunction} {i j : LiveInterval} (h : i.Grows j)
    (hi : i.Own f) : j.Own f :=
  ⟨h.vreg ▸ hi.mentioned, by rw [h.coalescedVregs, h.vreg, hi.coalescedVregs]⟩

/-- Every interval is that of a mentioned register. -/
def AllOwn (f : IRFunction) (is : List LiveInterval) : Prop := ∀ i ∈ is, i.Own f

section

variable (classOf : VReg → RegClass) {f : IRFunction} {s : Ranges}

theorem AllOwn.foldl_upsert {change : LiveInterval → LiveInterval}
    (hgrow : ∀ i, LiveInterval.Grows i (change i)) (pos : Nat) {vregs : List VReg}
    (hvregs : ∀ v ∈ vregs, Mentions f v) {is : List LiveInterval} (h : AllOwn f is) :
    AllOwn f (vregs.foldl (fun is v =>
      upsert { vreg := v, cls := classOf v, start := pos, stop := pos } change is) is) := by
  refine List.foldlRecOn vregs _ h fun is his v hv => ?_
  intro i hi
  rcases mem_upsert hi with hi | rfl | ⟨j, hj, -, rfl⟩
  · exact his i hi
  · exact (hgrow _).own ⟨hvregs v hv, rfl⟩
  · exact (hgrow j).own (his j hj)

theorem AllOwn.addInstr {i : IRInstr} (hi : ∀ v ∈ i.definedRegs ++ i.usedRegs, Mentions f v)
    (h : AllOwn f s.intervals) : AllOwn f (s.addInstr classOf i).intervals := by
  have hdefs := h.foldl_upsert classOf (fun i => i.grows_addDef s.pos) s.pos
    fun v hv => hi v (List.mem_append_left _ hv)
  exact hdefs.foldl_upsert classOf (fun i => i.grows_addUse s.pos) s.pos
    fun v hv => hi v (List.mem_append_right _ hv)

theorem AllOwn.addBlock {b : IRBlock} (hb : b ∈ f.blocks) (h : AllOwn f s.intervals) :
    AllOwn f (s.addBlock classOf b).intervals := by
  have hinstrs : AllOwn f (b.instructions.foldl (Ranges.addInstr classOf) s).intervals :=
    List.foldlRecOn b.instructions (motive := fun s : Ranges => AllOwn f s.intervals) _ h
      fun s hs i hi => hs.addInstr classOf fun v hv => ⟨b, hb, .inl ⟨i, hi, hv⟩⟩
  exact hinstrs.foldl_upsert classOf (fun i => i.grows_addUse _) _ fun v hv => ⟨b, hb, .inr hv⟩

theorem allOwn_computeRanges (f : IRFunction) : AllOwn f (computeRanges classOf f).intervals :=
  List.foldlRecOn f.blocks (motive := fun s : Ranges => AllOwn f s.intervals) _
    (fun _ hi => absurd hi List.not_mem_nil) fun _ hs _ hb => hs.addBlock classOf hb

theorem allOwn_liveIntervals (f : IRFunction) (live : BlockLiveness) :
    AllOwn f (liveIntervals classOf f live) := by
  intro i hi
  rw [liveIntervals_eq] at hi
  obtain ⟨j, hj, rfl⟩ := List.mem_map.mp hi
  exact (grows_borders live _ j).own (allOwn_computeRanges classOf f j hj)

theorem mem_instrRefs {is : List IRInstr} {i : IRInstr} (hi : i ∈ is) {v : VReg}
    (hv : v ∈ i.definedRegs ++ i.usedRegs) (pos : Nat) : ∃ p, (v, p) ∈ instrRefs is pos := by
  induction is generalizing pos with
  | nil => cases hi
  | cons j is ih =>
    rcases List.mem_cons.mp hi with rfl | hi
    · exact ⟨pos, List.mem_append_left _ (List.mem_map_of_mem hv)⟩
    · obtain ⟨p, hp⟩ := ih hi (pos + 2)
      exact ⟨p, List.mem_append_right _ hp⟩

theorem mem_blockRefs {bs : List IRBlock} {b : IRBlock} (hb : b ∈ bs) {v : VReg}
    (hv : (∃ i ∈ b.instructions, v ∈ i.definedRegs ++ i.usedRegs) ∨ v ∈ b.terminator.usedRegs)
    (pos : Nat) : ∃ p, (v, p) ∈ blockRefs bs pos := by
  induction bs generalizing pos with
  | nil => cases hb
  | cons c bs ih =>
    rcases List.mem_cons.mp hb with rfl | hb
    · rcases hv with ⟨i, hi, hv⟩ | hv
      · obtain ⟨p, hp⟩ := mem_instrRefs hi hv pos
        exact ⟨p, List.mem_append_left _ hp⟩
      · refine ⟨_, List.mem_append_right _ (List.mem_append_left _ (List.mem_map_of_mem hv))⟩
    · obtain ⟨p, hp⟩ := ih hb (pos + 2 * c.instructions.length + 2)
      exact ⟨p, List.mem_append_right _ (List.mem_append_right _ hp)⟩

/-- Every mentioned register has an interval. -/
theorem exists_interval {v : VReg} (h : Mentions f v) (live : BlockLiveness) :
    ∃ i ∈ liveIntervals classOf f live, i.vreg = v := by
  obtain ⟨b, hb, hv⟩ := h
  obtain ⟨p, hp⟩ := mem_blockRefs hb hv 0
  obtain ⟨i, hi, hvreg, -⟩ := covers_liveIntervals classOf f live hp
  exact ⟨i, hi, hvreg⟩

end

/-! ## Spill code -/

namespace TargetAgnosticRegAlloc

section

variable {Q : GenericSpillCode → Prop} {r : RegAllocResult}

/-- All spill code has the property. -/
def AllCode (Q : GenericSpillCode → Prop) (r : RegAllocResult) : Prop :=
  ∀ pos, ∀ code ∈ r.spillCode pos, Q code

theorem mem_update_code {m : Nat → List GenericSpillCode} {pos pos' : Nat}
    {l : List GenericSpillCode} {c : GenericSpillCode} (h : c ∈ Function.update m pos l pos') :
    c ∈ l ∨ c ∈ m pos' := by
  by_cases hpos : pos' = pos
  · subst hpos
    rw [Function.update_self] at h
    exact .inl h
  · rw [Function.update_of_ne hpos] at h
    exact .inr h

theorem AllCode.pushCode (h : AllCode Q r) (pos : Nat) {code : GenericSpillCode} (hcode : Q code) :
    AllCode Q (r.pushCode pos code) := by
  intro pos' c hc
  rcases mem_update_code hc with hc | hc
  · rcases List.mem_append.mp hc with hc | hc
    · exact h _ c hc
    · rw [List.mem_singleton.mp hc]
      exact hcode
  · exact h _ c hc

theorem AllCode.prependCode (h : AllCode Q r) (pos : Nat) {code : GenericSpillCode}
    (hcode : Q code) : AllCode Q (r.prependCode pos code) := by
  intro pos' c hc
  rcases mem_update_code hc with hc | hc
  · rcases List.mem_cons.mp hc with rfl | hc
    · exact hcode
    · exact h _ c hc
  · exact h _ c hc

theorem AllCode.foldl (h : AllCode Q r) {code : GenericSpillCode} (hcode : Q code)
    (g : Nat → Nat) (ps : List Nat) :
    AllCode Q (ps.foldl (fun r pos => r.pushCode (g pos) code) r) :=
  List.foldlRecOn ps (motive := AllCode Q) _ h fun _ hr pos _ => hr.pushCode (g pos) hcode

theorem AllCode.genSpillReload (h : AllCode Q r) (interval : LiveInterval) {scratch : PhysicalReg}
    {slot : GenericSpillSlot} (hspill : Q (.spill interval.vreg scratch slot))
    (hreload : Q (.reload interval.vreg scratch slot)) :
    AllCode Q (r.genSpillReload interval scratch slot) :=
  (h.foldl hspill (· + 1) _).foldl hreload id _

theorem AllCode.genEvictionSpillReload (h : AllCode Q r) {vreg : VReg} {preg scratch : PhysicalReg}
    (interval : Option LiveInterval) (pos : Nat) {slot : GenericSpillSlot}
    (hboundary : Q (.spill vreg preg slot)) (hspill : Q (.spill vreg scratch slot))
    (hreload : Q (.reload vreg scratch slot)) :
    AllCode Q (r.genEvictionSpillReload vreg preg scratch interval pos slot) := by
  have hstart := h.prependCode pos hboundary
  cases interval with
  | none => exact hstart
  | some interval => exact (hstart.foldl hreload id _).foldl hspill (· + 1) _

theorem genEvictionSpillReload_coalescedMap (vreg : VReg) (preg scratch : PhysicalReg)
    (interval : Option LiveInterval) (pos : Nat) (slot : GenericSpillSlot) (r : RegAllocResult) :
    (r.genEvictionSpillReload vreg preg scratch interval pos slot).coalescedMap =
      r.coalescedMap := by
  unfold RegAllocResult.genEvictionSpillReload
  cases interval with
  | none => rfl
  | some interval => exact (foldl_pushCode _).2.2.2.trans (foldl_pushCode _).2.2.2

end

/-! ## What all steps keep -/

/-- The intervals in `done` are mapped, only mentioned registers are, nothing is coalesced, and
there is spill code only for registers with a slot. -/
structure HomeInv (f : IRFunction) (done : List LiveInterval) (r : RegAllocResult) : Prop where
  mapped : ∀ i ∈ done, i.vreg ∈ r.vregToPreg
  keys : ∀ v ∈ r.vregToPreg, Mentions f v
  coalesced : ∀ v, r.coalescedMap v = none
  code : AllCode (fun c => c.vreg ∈ r.spillSlots) r

section

variable {f : IRFunction} {done : List LiveInterval} {r r' : RegAllocResult}

/-- One more register is mapped. -/
theorem HomeInv.insert (h : HomeInv f done r) {done' : List LiveInterval} {v : VReg}
    {p : PhysicalReg} (hv : Mentions f v) (hpregs : r'.vregToPreg = r.vregToPreg.insert v p)
    (hdone : ∀ i ∈ done', i ∈ done ∨ i.vreg = v) (hmap : r'.coalescedMap = r.coalescedMap)
    (hcode : AllCode (fun c => c.vreg ∈ r'.spillSlots) r') : HomeInv f done' r' where
  mapped i hi := by
    rw [hpregs, AList.mem_insert]
    rcases hdone i hi with hi | hi
    · exact .inr (h.mapped i hi)
    · exact .inl hi
  keys w hw := by
    rw [hpregs, AList.mem_insert] at hw
    rcases hw with rfl | hw
    · exact hv
    · exact h.keys w hw
  coalesced w := by
    rw [hmap]
    exact h.coalesced w
  code := hcode

theorem mem_or_of_mem_snoc {i k : LiveInterval} (h : i ∈ done ++ [k]) :
    i ∈ done ∨ i.vreg = k.vreg := by
  rcases List.mem_append.mp h with h | h
  · exact .inl h
  · exact .inr (congrArg LiveInterval.vreg (List.mem_singleton.mp h))

variable {a : TargetAgnosticRegAlloc} {k : LiveInterval}

theorem assign_coalescedMap (hk : k.Own f) (p : PhysicalReg) (r : RegAllocResult) :
    (a.assign k p r).coalescedMap = r.coalescedMap := by
  have hnone : k.coalescedVregs.filter (· ≠ k.vreg) = [] := by
    rw [hk.coalescedVregs]
    simp
  unfold assign
  dsimp only
  rw [hnone, List.foldl_nil]
  split <;> rfl

theorem assign_spillCode (k : LiveInterval) (p : PhysicalReg) (r : RegAllocResult) :
    (a.assign k p r).spillCode = r.spillCode := by
  unfold assign
  dsimp only
  split <;> rfl

theorem HomeInv.assign (h : HomeInv f done r) (hk : k.Own f) (p : PhysicalReg) :
    HomeInv f (done ++ [k]) (a.assign k p r) := by
  refine h.insert hk.mentioned (assign_vregToPreg ..) (fun i => mem_or_of_mem_snoc)
    (assign_coalescedMap hk p r) ?_
  unfold AllCode
  rw [assign_spillSlots, assign_spillCode]
  exact h.code

theorem HomeInv.allCode_insert (h : HomeInv f done r) (v : VReg) (slot : GenericSpillSlot) :
    AllCode (fun c => c.vreg ∈ r.spillSlots.insert v slot) r :=
  fun pos c hc => (AList.mem_insert _).mpr (.inr (h.code pos c hc))

theorem HomeInv.spillInterval {s : ScanState} (h : HomeInv f done s.result) (hk : k.Own f) :
    HomeInv f (done ++ [k]) (a.spillInterval k s).result := by
  have hself : k.vreg ∈ s.result.spillSlots.insert k.vreg (slotOf s.nextSpillIndex k.cls) :=
    (AList.mem_insert _).mpr (.inl rfl)
  refine h.insert hk.mentioned (RegAllocResult.genSpillReload_vregToPreg ..)
    (fun i => mem_or_of_mem_snoc) ((foldl_pushCode _).2.2.2.trans (foldl_pushCode _).2.2.2) ?_
  rw [spillInterval_slots]
  have hstart : AllCode (fun c => c.vreg ∈ s.result.spillSlots.insert k.vreg
      (slotOf s.nextSpillIndex k.cls)) (s.result.insertPreg k.vreg (a.spillScratch k.cls)) :=
    h.allCode_insert k.vreg _
  exact hstart.genSpillReload k hself hself

theorem HomeInv.evict {intervals : List LiveInterval} {s : ScanState}
    (h : HomeInv f done s.result) (hk : k.Own f) {idx : Nat} {entry : ActiveEntry}
    (hentry : Mentions f entry.vreg) :
    HomeInv f (done ++ [k]) (a.evict intervals k idx entry s).result := by
  have hself : entry.vreg ∈ s.result.spillSlots.insert entry.vreg
      (slotOf s.nextSpillIndex k.cls) := (AList.mem_insert _).mpr (.inl rfl)
  -- the map and the slots after the eviction, before the new interval is assigned
  let r : RegAllocResult :=
    { (s.result.insertSlot entry.vreg (slotOf s.nextSpillIndex k.cls)).insertPreg entry.vreg
        (a.spillScratch k.cls) with
      usedCalleeSaved := s.result.usedCalleeSaved.erase entry.preg }
  obtain ⟨hpregs, hslots, -⟩ := genEvictionSpillReload_same entry.vreg entry.preg
    (a.spillScratch k.cls) (intervals.find? (·.vreg == entry.vreg)) k.start
    (slotOf s.nextSpillIndex k.cls) r
  have hevicted : HomeInv f done (r.genEvictionSpillReload entry.vreg entry.preg
      (a.spillScratch k.cls) (intervals.find? (·.vreg == entry.vreg)) k.start
      (slotOf s.nextSpillIndex k.cls)) := by
    refine h.insert hentry hpregs (fun i hi => .inl hi)
      (genEvictionSpillReload_coalescedMap ..) ?_
    rw [hslots]
    have hstart : AllCode (fun c => c.vreg ∈ r.spillSlots) r := h.allCode_insert entry.vreg _
    exact hstart.genEvictionSpillReload _ _ hself hself hself
  exact hevicted.assign hk entry.preg

theorem HomeInv.resolveSingleConflict {intervals : List LiveInterval} (h : HomeInv f done r)
    {v : VReg} (hv : v ∈ r.vregToPreg) (p : PhysicalReg) :
    HomeInv f done (a.resolveSingleConflict intervals v p r) := by
  have hmentioned := h.keys v hv
  unfold TargetAgnosticRegAlloc.resolveSingleConflict
  dsimp only
  split
  · exact h.insert hmentioned rfl (fun i hi => .inl hi) rfl h.code
  · split
    · next interval hfind =>
      have hvreg : interval.vreg = v := by simpa using List.find?_some hfind
      refine h.insert hmentioned (RegAllocResult.genSpillReload_vregToPreg ..)
        (fun i hi => .inl hi) ((foldl_pushCode _).2.2.2.trans (foldl_pushCode _).2.2.2) ?_
      rw [RegAllocResult.genSpillReload_spillSlots]
      refine AllCode.genSpillReload ?_ interval ?_ ?_
      · exact h.allCode_insert v _
      · exact (AList.mem_insert _).mpr (.inl hvreg)
      · exact (AList.mem_insert _).mpr (.inl hvreg)
    · exact h.insert hmentioned rfl (fun i hi => .inl hi) rfl (h.allCode_insert v _)

end

/-! ## The scan -/

section

variable {f : IRFunction} {a : TargetAgnosticRegAlloc} {intervals : List LiveInterval}

/-- The active intervals belong to mentioned registers. -/
def ActiveMentioned (f : IRFunction) (s : ScanState) : Prop :=
  ∀ cls, ∀ e ∈ (s.pools cls).active, Mentions f e.vreg

theorem ActiveMentioned.expire {s : ScanState} (h : ActiveMentioned f s) (pos : Nat) :
    ActiveMentioned f (a.expire pos s) :=
  fun cls e he => h cls e (List.mem_filter.mp he).1

theorem ActiveMentioned.update {s s' : ScanState} {cls : RegClass} {p : Pools}
    (h : ActiveMentioned f s) (hpools : s'.pools = Function.update s.pools cls p)
    (hp : ∀ e ∈ p.active, Mentions f e.vreg) : ActiveMentioned f s' := by
  intro cls' e he
  rw [hpools] at he
  by_cases hcls : cls' = cls
  · subst hcls
    rw [Function.update_self] at he
    exact hp e he
  · rw [Function.update_of_ne hcls] at he
    exact h cls' e he

theorem homeInv_scanStep {done : List LiveInterval} {s : ScanState} {k : LiveInterval}
    (h : HomeInv f done s.result) (hactive : ActiveMentioned f s) (hk : k.Own f) :
    HomeInv f (done ++ [k]) (a.scanStep intervals s k).result ∧
      ActiveMentioned f (a.scanStep intervals s k) := by
  have hexp := hactive.expire (a := a) k.start
  have hnew : ∀ (as : List ActiveEntry) (p : PhysicalReg), (∀ e ∈ as, Mentions f e.vreg) →
      ∀ e ∈ as ++ [⟨k.vreg, p, k.stop, k.weightPerLength⟩], Mentions f e.vreg := by
    intro as p has e he
    rcases List.mem_append.mp he with he | he
    · exact has e he
    · rw [List.mem_singleton.mp he]
      exact hk.mentioned
  unfold scanStep tryAllocReg
  split
  · next r p hpop =>
    refine ⟨h.assign hk r, hexp.update rfl ?_⟩
    refine hnew p.active r fun e he => hexp k.cls e ?_
    rwa [(popFree_some hpop).2] at he
  · split
    · exact ⟨h.spillInterval (s := a.expire k.start s) hk, hexp⟩
    · next idx entry hmin =>
      have hentry := hexp k.cls entry (mem_of_minBy hmin)
      split
      · exact ⟨h.spillInterval (s := a.expire k.start s) hk, hexp⟩
      · refine ⟨h.evict (s := a.expire k.start s) hk hentry, hexp.update rfl ?_⟩
        exact hnew _ entry.preg fun e he => hexp k.cls e (List.mem_of_mem_eraseIdx he)

theorem mem_slots_scanStep {s : ScanState} (k : LiveInterval) {v : VReg}
    (h : v ∈ s.result.spillSlots) : v ∈ (a.scanStep intervals s k).result.spillSlots := by
  cases htakes : a.takesSlot s k with
  | none => rwa [(scanStep_of_none intervals htakes).1]
  | some w =>
    rw [(scanStep_of_some intervals htakes).1]
    exact (AList.mem_insert _).mpr (.inr h)

theorem homeInv_scan (hown : AllOwn f intervals) (n : Nat) :
    HomeInv f (intervals.take n) (a.scan intervals n).result ∧
      ActiveMentioned f (a.scan intervals n) := by
  induction n with
  | zero => exact ⟨⟨nofun, nofun, fun _ => rfl, nofun⟩, nofun⟩
  | succ n ih =>
    cases hk : intervals[n]? with
    | none => rwa [scan_of_ge hk, List.take_add_one, hk, Option.toList_none, List.append_nil]
    | some k =>
      rw [scan_succ hk, List.take_add_one, hk, Option.toList_some]
      exact homeInv_scanStep ih.1 ih.2 (hown k (List.mem_of_getElem? hk))

/-- A slot that is given in a round stays. -/
theorem mem_slots_scan {m n : Nat} (hmn : m < n) {k : LiveInterval} {v : VReg}
    (hk : intervals[m]? = some k) (htakes : a.takesSlot (a.scan intervals m) k = some v) :
    v ∈ (a.scan intervals n).result.spillSlots := by
  induction n, hmn using Nat.le_induction with
  | base =>
    rw [scan_succ hk, (scanStep_of_some intervals htakes).1]
    exact (AList.mem_insert _).mpr (.inl rfl)
  | succ n hmn ih =>
    cases hk' : intervals[n]? with
    | none => rwa [scan_of_ge hk']
    | some k' =>
      rw [scan_succ hk']
      exact mem_slots_scanStep k' ih

theorem mem_slots_resolveSingleConflict {r : RegAllocResult} (v : VReg) (p : PhysicalReg)
    {w : VReg} (h : w ∈ r.spillSlots) :
    w ∈ (a.resolveSingleConflict intervals v p r).spillSlots := by
  unfold resolveSingleConflict
  dsimp only
  split
  · exact h
  · split
    · rw [RegAllocResult.genSpillReload_spillSlots]
      exact (AList.mem_insert _).mpr (.inr h)
    · exact (AList.mem_insert _).mpr (.inr h)

end

/-! ## Functions -/

/-- Every register that an instruction or a terminator reads or writes has a home, if and only if
every register that a terminator writes is also read by a terminator, or read or written by an
instruction. -/
theorem allocateFunction_homes_iff {target : TargetDesc} {f : IRFunction} {fuel : Nat}
    {r : RegAllocResult} (h : (new target).allocateFunction f fuel = some r) :
    (∀ v, Mentions f v ∨ TerminatorWrites f v → HasHome (new target) r v) ↔
      ∀ v, TerminatorWrites f v → Mentions f v := by
  obtain ⟨is, his, hr⟩ := Option.map_eq_some_iff.mp h
  obtain ⟨live, -, rfl⟩ := Option.map_eq_some_iff.mp his
  have hlive : r.liveIntervals = sortIntervals (liveIntervals (fun _ => .gpr) f live) := by
    rw [← hr]
    exact resolveRegisterReuseConflicts_liveIntervals ..
  have hmem : ∀ i, i ∈ r.liveIntervals ↔ i ∈ liveIntervals (fun _ => .gpr) f live := by
    rw [hlive]
    exact fun i => (List.perm_insertionSort _ _).mem_iff
  have hown : AllOwn f r.liveIntervals :=
    fun i hi => allOwn_liveIntervals (fun _ => .gpr) f live i ((hmem i).mp hi)
  rw [← hlive] at hr
  -- the scan, then the repairs
  have hscan := (homeInv_scan (a := new target) hown r.liveIntervals.length).1
  rw [List.take_length] at hscan
  have hinv : HomeInv f r.liveIntervals r := by
    have hstart : HomeInv f r.liveIntervals
        ((new target).allocateIntervals r.liveIntervals) :=
      ⟨hscan.mapped, hscan.keys, hscan.coalesced, hscan.code⟩
    have hrepair : HomeInv f r.liveIntervals ((new target).resolveRegisterReuseConflicts f
        r.liveIntervals ((new target).allocateIntervals r.liveIntervals)) :=
      resolveRegisterReuseConflicts_induction (P := HomeInv f r.liveIntervals)
        (fun _ _ _ hv hr => hr.resolveSingleConflict hv _) f hstart
    rwa [hr] at hrepair
  have hslots : ∀ n k v, r.liveIntervals[n]? = some k →
      (new target).takesSlot ((new target).scan r.liveIntervals n) k = some v →
        v ∈ r.spillSlots := by
    intro n k v hk htakes
    have hlt := (List.getElem?_eq_some_iff.mp hk).1
    have hgiven : v ∈ ((new target).allocateIntervals r.liveIntervals).spillSlots :=
      mem_slots_scan hlt hk htakes
    have hrepair : v ∈ ((new target).resolveRegisterReuseConflicts f r.liveIntervals
        ((new target).allocateIntervals r.liveIntervals)).spillSlots :=
      resolveRegisterReuseConflicts_induction (P := fun r => v ∈ r.spillSlots)
        (fun _ _ _ _ hv => mem_slots_resolveSingleConflict _ _ hv) f hgiven
    rwa [hr] at hrepair
  have hroot : ∀ v, r.resolveVreg v = v := fun v => by
    rw [RegAllocResult.resolveVreg, hinv.coalesced, Option.getD_none]
  constructor
  · intro hhome v hv
    have hpreg := (hhome v (.inr hv)).preg
    rw [hroot, AList.lookup_isSome] at hpreg
    exact hinv.keys v hpreg
  · intro hdefs v hv
    have hmentioned : Mentions f v := hv.elim id (hdefs v)
    obtain ⟨i, hi, rfl⟩ := exists_interval (fun _ => .gpr) hmentioned live
    refine ⟨?_, fun hspilled => ?_⟩
    · rw [hroot, AList.lookup_isSome]
      exact hinv.mapped i ((hmem i).mpr hi)
    · rw [hroot] at hspilled ⊢
      rw [AList.lookup_isSome]
      rcases hspilled with ⟨n, k, hk, htakes⟩ | ⟨pos, code, hcode, hvreg⟩
      · exact hslots n k _ hk htakes
      · rw [← hvreg]
        exact hinv.code pos code hcode

/-- All registers of the sum have a home. -/
theorem allocateFunction_homes_returnSum : ∃ r,
    (new oneRegister).allocateFunction returnSum 2 = some r ∧
      ∀ v, Mentions returnSum v ∨ TerminatorWrites returnSum v → HasHome (new oneRegister) r v := by
  refine ⟨_, (Option.some_get isSome_returnSum).symm,
    (allocateFunction_homes_iff (Option.some_get isSome_returnSum).symm).mpr fun v hv => ?_⟩
  obtain ⟨b, hb, hv⟩ := hv
  rw [List.mem_singleton.mp hb] at hv
  cases hv

/-- A call whose result nothing reads. -/
def invokeOnly : IRFunction where
  name := "invoke_only"
  blocks :=
    [{ label := "entry"
       instructions := []
       terminator := .invoke (some (.register 0)) "g" [] "done" "done" },
      { label := "done"
        instructions := []
        terminator := .ret [] }]

theorem isSome_invokeOnly :
    ((new oneRegister).allocateFunction invokeOnly 2).isSome = true := by
  decide

/-- The result of the call has no register. -/
theorem not_allocateFunction_homes : ¬∀ (target : TargetDesc) f fuel r,
    (new target).allocateFunction f fuel = some r →
      ∀ v, Mentions f v ∨ TerminatorWrites f v → HasHome (new target) r v := by
  intro h
  have hhome := h oneRegister invokeOnly 2 _ (Option.some_get isSome_invokeOnly).symm 0
    (.inr ⟨_, List.mem_cons_self, List.mem_cons_self⟩)
  have hnone : ((Option.get _ isSome_invokeOnly).vregToPreg.lookup
      ((Option.get _ isSome_invokeOnly).resolveVreg 0)).isSome = false := by
    decide
  rw [hhome.preg] at hnone
  cases hnone

end TargetAgnosticRegAlloc

end Vuma.Codegen
