import Vuma.Codegen.SchedulerCorrect

/-!
# In which order the scheduler issues

The comments of `scheduler.rs` say that the ready instruction with the longest critical path is
issued first. `ReadyEntry::cmp` compares the paths the wrong way round for a heap that gives out its
greatest entry, and in the same way the tie-breakers: what is issued is the ready instruction that
should come last (`listSchedule_greatest`). The two agree exactly when there never is a choice
(`scheduleBlockInner_byPriority`).
-/

namespace Vuma.Codegen

open IR Lib

/-! ## What the order should be -/

/-- After `done`, the dependence predecessors of the instruction `j` are issued, and it is not. -/
abbrev ReadyAfter (preds : List (List Nat)) : List Nat → Nat → Prop :=
  Ready preds.length (predsAt preds)

/-- `a` goes before `b`: a longer critical path, then a smaller pressure delta, then the smaller
index. -/
def Preferred (a b : ReadyEntry) : Prop :=
  b.criticalPath < a.criticalPath ∨ a.criticalPath = b.criticalPath ∧
    (a.pressureDelta < b.pressureDelta ∨ a.pressureDelta = b.pressureDelta ∧ a.idx < b.idx)

/-- Every instruction is ready when it is issued, and preferred to all others that are ready. -/
def ByPriority (preds : List (List Nat)) (entry : Nat → ReadyEntry) : List Nat → Prop :=
  Stepwise fun done i =>
    ReadyAfter preds done i ∧ ∀ j, ReadyAfter preds done j → j ≠ i → Preferred (entry i) (entry j)

/-- Every instruction is ready when it is issued, and preferred to nothing that is ready. -/
def ByReversedPriority (preds : List (List Nat)) (entry : Nat → ReadyEntry) : List Nat → Prop :=
  Stepwise fun done i =>
    ReadyAfter preds done i ∧ ∀ j, ReadyAfter preds done j → ¬Preferred (entry i) (entry j)

/-- A path of dependences from `i` to an instruction nothing depends on, with the sum of its
latencies. -/
inductive DepPath (preds : List (List Nat)) (latency : Nat → Nat) : Nat → Nat → Prop
  | leaf {i : Nat} (h : succsAt preds i = []) : DepPath preds latency i (latency i)
  | step {i j w : Nat} (h : j ∈ succsAt preds i) (hpath : DepPath preds latency j w) :
    DepPath preds latency i (latency i + w)

/-- The greatest latency of a path from `i` to a leaf. -/
def LongestPath (preds : List (List Nat)) (latency : Nat → Nat) (i w : Nat) : Prop :=
  DepPath preds latency i w ∧ ∀ w', DepPath preds latency i w' → w' ≤ w

section Entries

variable (latencyTable : String → Nat) (instructions : List IRInstr)

/-- The latency of the instruction at an index. -/
def latencyAt (i : Nat) : Nat :=
  (instructions[i]?.map fun instr => latencyTable (classifyInstr instr)).getD 0

/-- The entry the code puts into the heap for the instruction at an index. -/
def readyEntry (i : Nat) : ReadyEntry where
  idx := i
  criticalPath := criticalPaths (ddg instructions) (latencyAt latencyTable instructions)
    instructions.length instructions.length i
  pressureDelta := (instructions[i]?.map pressureDelta).getD 0

/-- The code never has a choice, or reorders nothing and finds the instructions in order.
- With more than two instructions, each depends directly on the one before it.
- With at most two, and when reordering is turned off, each is preferred to every later one that
  depends only on what comes before the first. -/
def NoChoice (noReorder : Bool) : Prop :=
  if instructions.length ≤ 2 ∨ noReorder = true then
    ∀ i j, i < j → j < instructions.length → (∀ p ∈ predsAt (ddg instructions) j, p < i) →
      Preferred (readyEntry latencyTable instructions i) (readyEntry latencyTable instructions j)
  else
    ∀ i, i + 1 < instructions.length → i ∈ predsAt (ddg instructions) (i + 1)

end Entries

/-! ## The heap -/

theorem lt_iff_preferred {a b : ReadyEntry} : a.lt b = true ↔ Preferred a b := by
  unfold ReadyEntry.lt Preferred
  split_ifs with hpath hdelta
  · rw [decide_eq_true_eq]
    omega
  · rw [decide_eq_true_eq]
    omega
  · rw [decide_eq_true_eq]
    omega

theorem Preferred.trans {a b c : ReadyEntry} (h : Preferred a b) (h' : Preferred b c) :
    Preferred a c := by
  unfold Preferred at *
  omega

/-- What is popped comes after all others. -/
theorem popReady_spec {es rest : List ReadyEntry} {e : ReadyEntry}
    (h : popReady es = some (e, rest)) :
    es.Perm (e :: rest) ∧ ∀ e' ∈ es, ¬Preferred e e' := by
  have hirrefl (a : ReadyEntry) : ¬Preferred a a := by
    unfold Preferred
    omega
  induction es generalizing e rest with
  | nil => cases h
  | cons a es ih =>
    rw [popReady] at h
    cases hpop : popReady es with
    | none =>
      rw [hpop] at h
      cases h
      rw [eq_nil_of_popReady hpop]
      exact ⟨.refl _, by simpa using hirrefl _⟩
    | some p =>
      obtain ⟨m, rest'⟩ := p
      obtain ⟨hperm, hmax⟩ := ih hpop
      rw [hpop] at h
      dsimp only at h
      split at h
      · next hlt =>
        cases h
        refine ⟨.refl _, List.forall_mem_cons.mpr ⟨hirrefl a, fun e' he' hpref => ?_⟩⟩
        exact hmax e' he' ((lt_iff_preferred.mp hlt).trans hpref)
      · next hlt =>
        cases h
        refine ⟨(hperm.cons a).trans (.swap _ _ rest'), List.forall_mem_cons.mpr ⟨?_, hmax⟩⟩
        exact fun hpref => hlt (lt_iff_preferred.mpr hpref)

/-! ## The dependence graph -/

theorem pushNew_nodup {preds : List Nat} (h : preds.Nodup) (js : List Nat) :
    (pushNew preds js).Nodup := by
  induction js generalizing preds with
  | nil => exact h
  | cons j js ih =>
    rw [pushNew]
    refine ih ?_
    split
    · exact h
    · next hnew =>
      refine List.nodup_append.mpr ⟨h, List.nodup_singleton j, ?_⟩
      rintro a ha _ hb rfl
      rw [List.mem_singleton] at hb
      subst hb
      exact hnew (by simpa using ha)

theorem mem_pushNew {preds js : List Nat} {k : Nat} :
    k ∈ pushNew preds js ↔ k ∈ preds ∨ k ∈ js := by
  induction js generalizing preds with
  | nil => simp [pushNew]
  | cons j js ih =>
    rw [pushNew, ih, List.mem_cons]
    split
    · next hin =>
      have hj : j ∈ preds := by simpa using hin
      constructor
      · rintro (h | h)
        · exact Or.inl h
        · exact Or.inr (Or.inr h)
      · rintro (h | rfl | h)
        · exact Or.inl h
        · exact Or.inl hj
        · exact Or.inr h
    · rw [List.mem_append, List.mem_singleton, or_assoc]

theorem predsOfInstr_spec {before : List IRInstr} {lastDef : VReg → Option Nat}
    (hdef : ∀ r k, lastDef r = some k → k < before.length) (instr : IRInstr) :
    (predsOfInstr before lastDef instr).Nodup ∧
      ∀ k ∈ predsOfInstr before lastDef instr, k < before.length := by
  unfold predsOfInstr
  extract_lets data memory
  have hdata : data.Nodup ∧ ∀ k ∈ data, k < before.length := by
    refine ⟨pushNew_nodup .nil _, fun k hk => ?_⟩
    rcases mem_pushNew.mp hk with hk | hk
    · cases hk
    · obtain ⟨r, -, hr⟩ := List.mem_filterMap.mp hk
      exact hdef r k hr
  have hmemory : memory.Nodup ∧ ∀ k ∈ memory, k < before.length := by
    unfold memory
    split
    · refine ⟨pushNew_nodup hdata.1 _, fun k hk => ?_⟩
      rcases mem_pushNew.mp hk with hk | hk
      · exact hdata.2 k hk
      · obtain ⟨⟨i, k'⟩, hik, rfl⟩ := List.mem_map.mp hk
        have := List.snd_lt_of_mem_zipIdx (List.mem_filter.mp hik).1
        simpa using this
    · exact hdata
  split
  · refine ⟨pushNew_nodup hmemory.1 _, fun k hk => ?_⟩
    rcases mem_pushNew.mp hk with hk | hk
    · exact hmemory.2 k hk
    · exact List.mem_range.mp hk
  · exact hmemory

theorem buildPreds_spec {before : List IRInstr} {lastDef : VReg → Option Nat}
    (hdef : ∀ r k, lastDef r = some k → k < before.length) (is : List IRInstr) (j : Nat) :
    (predsAt (buildPreds before lastDef is) j).Nodup ∧
      ∀ k ∈ predsAt (buildPreds before lastDef is) j, k < before.length + j := by
  induction is generalizing before lastDef j with
  | nil => simp [predsAt, buildPreds]
  | cons instr is ih =>
    cases j with
    | zero => exact predsOfInstr_spec hdef instr
    | succ j =>
      have hnext : ∀ r k, (if instr.definedRegs.contains r then some before.length
          else lastDef r) = some k → k < (before ++ [instr]).length := by
        intro r k hk
        rw [List.length_append, List.length_singleton]
        split at hk
        · injection hk with hk
          omega
        · have := hdef r k hk
          omega
      have hrest := ih hnext j
      rw [List.length_append, List.length_singleton, Nat.add_assoc, Nat.add_comm 1 j] at hrest
      exact hrest

theorem forward_ddg (is : List IRInstr) : Forward (predsAt (ddg is)) where
  nodup j := (buildPreds_spec (by simp) is j).1
  lt j i hi := by simpa using (buildPreds_spec (by simp) is j).2 i hi

section Graph

variable {preds : List (List Nat)}

theorem mem_succsAt {i j : Nat} : j ∈ succsAt preds i ↔ j < preds.length ∧ i ∈ predsAt preds j := by
  simp only [succsAt, List.mem_flatMap, List.mem_range, List.mem_map, List.mem_filter,
    beq_iff_eq]
  constructor
  · rintro ⟨k, hk, p, ⟨hp, rfl⟩, rfl⟩
    exact ⟨hk, hp⟩
  · rintro ⟨hj, hi⟩
    exact ⟨j, hj, i, ⟨hi, rfl⟩, rfl⟩

theorem nodup_succsAt (hfwd : Forward (predsAt preds)) (i : Nat) : (succsAt preds i).Nodup := by
  rw [succsAt, List.nodup_flatMap]
  constructor
  · intro j _
    have hsingle : (predsAt preds j).filter (· == i) = [] ∨
        (predsAt preds j).filter (· == i) = [i] := by
      rw [List.filter_beq]
      have hcount := List.nodup_iff_count_le_one.mp (hfwd.nodup j) i
      rcases Nat.le_one_iff_eq_zero_or_eq_one.mp hcount with h | h
      · exact Or.inl (by rw [h]; rfl)
      · exact Or.inr (by rw [h]; rfl)
    rcases hsingle with h | h
    · simp [h]
    · simp [h]
  · refine List.nodup_range.imp fun {a b} hab => ?_
    simp only [Function.onFun, List.disjoint_left, List.mem_map]
    rintro x ⟨_, _, rfl⟩ ⟨_, _, rfl⟩
    exact hab rfl

end Graph

/-! ## The loop -/

/-- What holds between two iterations. -/
structure LoopInv (preds : List (List Nat)) (entry : Nat → ReadyEntry) (s : SchedState) : Prop where
  order : ByReversedPriority preds entry s.scheduled
  remaining : ∀ j < preds.length, s.remainingPreds j = waiting (predsAt preds) s.scheduled j
  ready : ∀ e, e ∈ s.ready ↔ ∃ j, ReadyAfter preds s.scheduled j ∧ e = entry j
  nodup : s.ready.Nodup

/-- Releasing the successors lowers their counts and adds those that waited for one only. -/
theorem releaseSuccs_spec {entry : Nat → ReadyEntry} {succs : List Nat} (hnodup : succs.Nodup)
    {s : SchedState} (hpos : ∀ j ∈ succs, 0 < s.remainingPreds j) :
    let s' := releaseSuccs entry succs s
    s'.scheduled = s.scheduled ∧
      (∀ j, s'.remainingPreds j =
        if j ∈ succs then s.remainingPreds j - 1 else s.remainingPreds j) ∧
      s'.ready.Perm (((succs.filter fun j => s.remainingPreds j = 1).map entry) ++ s.ready) := by
  induction succs generalizing s with
  | nil => exact ⟨rfl, by simp [releaseSuccs], .refl _⟩
  | cons k succs ih =>
    obtain ⟨hk, hrest⟩ := List.nodup_cons.mp hnodup
    have hkpos := hpos k List.mem_cons_self
    have hother : ∀ j ∈ succs, Function.update s.remainingPreds k (s.remainingPreds k - 1) j =
        s.remainingPreds j := by
      intro j hj
      refine Function.update_of_ne ?_ _ _
      rintro rfl
      exact hk hj
    rw [releaseSuccs, if_pos hkpos]
    dsimp only
    obtain ⟨hsched, hcount, hready⟩ := ih hrest (s :=
      { s with
        ready := if s.remainingPreds k - 1 = 0 then entry k :: s.ready else s.ready
        remainingPreds := Function.update s.remainingPreds k (s.remainingPreds k - 1) })
      (fun j hj => by
        dsimp only
        rw [hother j hj]
        exact hpos j (List.mem_cons_of_mem k hj))
    refine ⟨hsched, fun j => ?_, hready.trans ?_⟩
    · rw [hcount]
      dsimp only
      by_cases hjk : j = k
      · subst hjk
        simp [hk]
      · simp [hjk]
    · have hfilter : succs.filter (fun j => decide
          (Function.update s.remainingPreds k (s.remainingPreds k - 1) j = 1)) =
          succs.filter fun j => s.remainingPreds j = 1 := by
        refine List.filter_congr fun j hj => ?_
        rw [hother j hj]
      dsimp only
      rw [hfilter, List.filter_cons]
      by_cases hone : s.remainingPreds k = 1
      · rw [if_pos (by omega), if_pos (by simpa using hone), List.map_cons]
        exact List.perm_middle
      · rw [if_neg (by omega), if_neg (by simpa using hone)]

section Loop

variable {preds : List (List Nat)} {entry : Nat → ReadyEntry}

theorem LoopInv.step (hfwd : Forward (predsAt preds)) (hentry : ∀ i, (entry i).idx = i)
    {s : SchedState} (h : LoopInv preds entry s) :
    LoopInv preds entry (schedStep preds entry s) := by
  unfold schedStep
  cases hpop : popReady s.ready with
  | none => exact h
  | some p =>
    obtain ⟨e, rest⟩ := p
    obtain ⟨hperm, hlast⟩ := popReady_spec hpop
    obtain ⟨i, hi, rfl⟩ := (h.ready e).mp (hperm.mem_iff.mpr List.mem_cons_self)
    have hinj : Function.Injective entry := fun a b hab => by
      rw [← hentry a, ← hentry b, hab]
    obtain ⟨hnotin, hrest⟩ := List.nodup_cons.mp (hperm.nodup_iff.mp h.nodup)
    have hclosed := (h.order.imp fun _ _ hQ => hQ.1).closed
    have hsnoc := ready_snoc hfwd hi hclosed
    have hcount : ∀ j ∈ succsAt preds i,
        s.remainingPreds j = waiting (predsAt preds) s.scheduled j ∧
          waiting (predsAt preds) s.scheduled j =
            waiting (predsAt preds) (s.scheduled ++ [i]) j + 1 := by
      intro j hj
      have hmem := mem_succsAt.mp hj
      have hw := waiting_snoc hfwd hi.fresh j
      rw [if_pos hmem.2] at hw
      exact ⟨h.remaining j hmem.1, hw⟩
    dsimp only
    rw [hentry, if_neg (by simpa using hi.fresh)]
    have hpos : ∀ j ∈ succsAt preds i, 0 < s.remainingPreds j := by
      intro j hj
      have := hcount j hj
      omega
    obtain ⟨hsched, hremaining, hready⟩ := @releaseSuccs_spec entry _ (nodup_succsAt hfwd i)
      { s with scheduled := s.scheduled ++ [i], ready := rest } hpos
    dsimp only at hsched hremaining hready
    have hrestMem (e : ReadyEntry) :
        e ∈ rest ↔ ∃ j, (ReadyAfter preds s.scheduled j ∧ j ≠ i) ∧ e = entry j := by
      constructor
      · intro he
        obtain ⟨j, hj, rfl⟩ := (h.ready e).mp (hperm.mem_iff.mpr (List.mem_cons_of_mem _ he))
        refine ⟨j, ⟨hj, ?_⟩, rfl⟩
        rintro rfl
        exact hnotin he
      · rintro ⟨j, ⟨hj, hne⟩, rfl⟩
        have hmem := hperm.mem_iff.mp ((h.ready _).mpr ⟨j, hj, rfl⟩)
        rcases List.mem_cons.mp hmem with heq | hmem
        · exact absurd (hinj heq) hne
        · exact hmem
    refine ⟨?_, fun j hj => ?_, fun e => ?_, ?_⟩
    · rw [hsched]
      refine h.order.snoc ⟨hi, fun j hj => hlast _ ?_⟩
      exact (h.ready _).mpr ⟨j, hj, rfl⟩
    · rw [hremaining, hsched, h.remaining j hj]
      have hw := waiting_snoc hfwd hi.fresh j
      simp only [mem_succsAt, hj, true_and]
      split_ifs at hw ⊢ <;> omega
    · rw [hready.mem_iff, List.mem_append, hrestMem, hsched]
      simp only [List.mem_map, List.mem_filter, decide_eq_true_eq, hsnoc, ← mem_succsAt]
      constructor
      · rintro (⟨j, ⟨hj, hone⟩, rfl⟩ | ⟨j, hj, rfl⟩)
        · exact ⟨j, Or.inl ⟨hj, (hcount j hj).1 ▸ hone⟩, rfl⟩
        · exact ⟨j, Or.inr hj, rfl⟩
      · rintro ⟨j, ⟨hj, hone⟩ | hj, rfl⟩
        · exact Or.inl ⟨j, ⟨hj, (hcount j hj).1 ▸ hone⟩, rfl⟩
        · exact Or.inr ⟨j, hj, rfl⟩
    · rw [hready.nodup_iff]
      refine List.nodup_append.mpr
        ⟨((nodup_succsAt hfwd i).filter _).map hinj, hrest, ?_⟩
      rintro a ha b hb rfl
      obtain ⟨j, hj, rfl⟩ := List.mem_map.mp ha
      obtain ⟨hsucc, hone⟩ := List.mem_filter.mp hj
      obtain ⟨k, ⟨hk, -⟩, hjk⟩ := (hrestMem _).mp hb
      obtain rfl := hinj hjk
      have := waiting_eq_zero.mpr hk.issued
      have := (hcount j hsucc).1
      have : s.remainingPreds j = 1 := by simpa using hone
      omega

theorem LoopInv.run (hfwd : Forward (predsAt preds)) (hentry : ∀ i, (entry i).idx = i) (fuel : Nat)
    {s : SchedState} (h : LoopInv preds entry s) :
    LoopInv preds entry (schedLoop preds entry fuel s) := by
  induction fuel generalizing s with
  | zero => exact h
  | succ fuel ih =>
    rw [schedLoop]
    split
    · exact h
    · exact ih (h.step hfwd hentry)

/-- When the heap is empty, everything is issued. -/
theorem LoopInv.complete (hfwd : Forward (predsAt preds)) {s : SchedState}
    (h : LoopInv preds entry s) (hempty : s.ready = []) :
    s.scheduled.Perm (List.range preds.length) := by
  refine Stepwise.complete hfwd (h.order.imp fun _ _ hQ => hQ.1) fun j hj => ?_
  have hmem := (h.ready (entry j)).mpr ⟨j, hj, rfl⟩
  rw [hempty] at hmem
  cases hmem

end Loop

/-! ## The schedule -/

section Schedule

variable (latencyTable : String → Nat) (is : List IRInstr)

/-- The schedule has every instruction once, and at every step issues the ready instruction that
should come last. -/
theorem listSchedule_reversed :
    ByReversedPriority (ddg is) (readyEntry latencyTable is) (listSchedule latencyTable is) ∧
      (listSchedule latencyTable is).Perm (List.range is.length) := by
  have hfwd := forward_ddg is
  have hlen := length_ddg is
  let ready := ((List.range is.length).filter fun i => (predsAt (ddg is) i).length = 0).map
    (readyEntry latencyTable is)
  let start : SchedState := ⟨[], ready, fun i => (predsAt (ddg is) i).length⟩
  let fuel := ready.length + ((List.range is.length).map fun i => (predsAt (ddg is) i).length).sum
  have hrun : listSchedule latencyTable is =
      (schedLoop (ddg is) (readyEntry latencyTable is) fuel start).scheduled := rfl
  have hinj : Function.Injective (readyEntry latencyTable is) :=
    fun a b hab => congrArg ReadyEntry.idx hab
  have hstart : LoopInv (ddg is) (readyEntry latencyTable is) start := by
    refine ⟨.nil _, fun j _ => ?_, fun e => ?_, (List.nodup_range.filter _).map hinj⟩
    · simp [start, waiting]
    · simp only [start, ready, List.mem_map, List.mem_filter, List.mem_range, decide_eq_true_eq]
      constructor
      · rintro ⟨j, ⟨hj, hnone⟩, rfl⟩
        refine ⟨j, ⟨hlen ▸ hj, by simp, fun p hp => ?_⟩, rfl⟩
        rw [List.eq_nil_of_length_eq_zero hnone] at hp
        cases hp
      · rintro ⟨j, hj, rfl⟩
        refine ⟨j, ⟨hlen ▸ hj.lt, ?_⟩, rfl⟩
        rw [List.length_eq_zero_iff, List.eq_nil_iff_forall_not_mem]
        exact fun p hp => absurd (hj.issued p hp) (by simp)
  have hfuel : start.work (ddg is).length ≤ fuel := by
    rw [hlen]
    exact Nat.le_refl _
  have hinv := hstart.run hfwd (fun _ => rfl) fuel
  have hall := hinv.complete hfwd (schedLoop_ready hfuel)
  rw [← hrun, hlen] at hall
  exact ⟨hrun ▸ hinv.order, hall⟩

theorem respects_listSchedule : respects (ddg is) (listSchedule latencyTable is) = true := by
  obtain ⟨horder, hperm⟩ := listSchedule_reversed latencyTable is
  simp only [respects, List.all_eq_true, List.mem_range, decide_eq_true_eq]
  intro i hi p hp
  have hmem : i ∈ listSchedule latencyTable is :=
    hperm.mem_iff.mpr (List.mem_range.mpr (length_ddg is ▸ hi))
  exact ((horder.imp fun _ _ hQ => hQ.1).idxOf_lt (.single hp) hmem).2

/-- The checks at the end of the scheduler never fail. -/
theorem scheduleBlockInner_eq {noReorder : Bool} (h : ¬(is.length ≤ 2 ∨ noReorder = true)) :
    scheduleBlockInner latencyTable noReorder is = listSchedule latencyTable is := by
  obtain ⟨hshort, hreorder⟩ := not_or.mp h
  have hlen := (listSchedule_reversed latencyTable is).2.length_eq
  rw [List.length_range] at hlen
  unfold scheduleBlockInner
  dsimp only
  rw [if_neg hshort, if_neg hreorder, if_neg (not_not.mpr hlen),
    if_pos (respects_listSchedule latencyTable is)]

theorem scheduleBlockInner_eq_range {noReorder : Bool} (h : is.length ≤ 2 ∨ noReorder = true) :
    scheduleBlockInner latencyTable noReorder is = List.range is.length := by
  unfold scheduleBlockInner
  dsimp only
  by_cases hshort : is.length ≤ 2
  · rw [if_pos hshort]
  · rw [if_neg hshort, if_pos (h.resolve_left hshort)]

end Schedule

/-! ## Without a choice -/

section Chain

variable {preds : List (List Nat)} {entry : Nat → ReadyEntry}

theorem byPriority_iff_chain (hfwd : Forward (predsAt preds)) {order : List Nat}
    (hperm : order.Perm (List.range preds.length)) (hrev : ByReversedPriority preds entry order) :
    ByPriority preds entry order ↔ ∀ i, i + 1 < preds.length → i ∈ predsAt preds (i + 1) := by
  have hlen : order.length = preds.length := by rw [hperm.length_eq, List.length_range]
  rw [chain_iff hfwd]
  constructor
  · intro hprio k j hj
    have hsingle : Stepwise (fun done i => ∀ k, done = List.range k → ∀ j, ReadyAfter preds done j →
        j = i) order := by
      intro done i rest hsplit _ _ j hj
      by_contra hne
      exact (hrev done i rest hsplit).2 j hj ((hprio done i rest hsplit).2 j hj hne)
    have htake := take_eq_range hfwd hperm hsingle
    have hk : k < preds.length := by
      have := hj.lt
      have : ¬j < k := fun hlt => hj.fresh (List.mem_range.mpr hlt)
      omega
    have hlt : k < order.length := by omega
    have hsplit : order = order.take k ++ order[k] :: order.drop (k + 1) := by
      rw [List.getElem_cons_drop, List.take_append_drop]
    have hbefore := htake k (by omega)
    have hall := hsingle _ _ _ hsplit k hbefore
    rw [hbefore] at hall
    exact (hall j hj).trans (hall k (ready_range hfwd hk)).symm
  · intro honly done i rest hsplit
    have hready := (hrev done i rest hsplit).1
    have hsingle : Stepwise (fun done i => ∀ k, done = List.range k → ∀ j, ReadyAfter preds done j →
        j = i) order := by
      rintro done i rest hsplit k rfl j hj
      have hi := (hrev _ i rest hsplit).1
      exact (honly k j hj).trans (honly k i hi).symm
    have hdone : done = List.range done.length := by
      have hle : done.length ≤ preds.length := by
        rw [← hlen, hsplit, List.length_append]
        omega
      have htake := take_eq_range hfwd hperm hsingle done.length hle
      rw [hsplit, List.take_left] at htake
      exact htake
    exact ⟨hready, fun j hj hne => absurd (hsingle done i rest hsplit _ hdone j hj) hne⟩

/-- When the original order is by priority. -/
theorem byPriority_range (hfwd : Forward (predsAt preds)) :
    ByPriority preds entry (List.range preds.length) ↔
      ∀ i j, i < j → j < preds.length → (∀ p ∈ predsAt preds j, p < i) →
        Preferred (entry i) (entry j) := by
  constructor
  · intro hprio i j hij hj hpreds
    have hsplit : List.range preds.length =
        List.range i ++ i :: (List.range preds.length).drop (i + 1) := by
      have hlt : i < (List.range preds.length).length := by
        rw [List.length_range]
        omega
      conv_lhs => rw [← List.take_append_drop i (List.range preds.length),
        List.drop_eq_getElem_cons hlt, List.take_range, Nat.min_eq_left (by omega),
        List.getElem_range]
    refine (hprio _ i _ hsplit).2 j ⟨hj, ?_, fun p hp => List.mem_range.mpr (hpreds p hp)⟩ ?_
    · rw [List.mem_range]
      omega
    · omega
  · intro h done i rest hsplit
    obtain ⟨rfl, hi⟩ := range_split hsplit
    refine ⟨ready_range hfwd hi, fun j hj hne => h i j ?_ hj.lt fun p hp => ?_⟩
    · have : ¬j < i := fun hlt => hj.fresh (List.mem_range.mpr hlt)
      omega
    · exact List.mem_range.mp (hj.issued p hp)

end Chain

/-! ## The critical path -/

theorem foldl_max_spec (l : List Nat) (a : Nat) :
    a ≤ l.foldl max a ∧ (∀ x ∈ l, x ≤ l.foldl max a) ∧
      (l.foldl max a = a ∨ l.foldl max a ∈ l) := by
  induction l generalizing a with
  | nil => simp
  | cons b l ih =>
    obtain ⟨hle, hall, hmem⟩ := ih (max a b)
    rw [List.foldl_cons]
    refine ⟨by omega, List.forall_mem_cons.mpr ⟨by omega, hall⟩, ?_⟩
    rcases hmem with heq | hmem
    · rw [heq, List.mem_cons]
      omega
    · exact Or.inr (List.mem_cons_of_mem b hmem)

theorem longestPath_of_succs {preds : List (List Nat)} {latency paths : Nat → Nat} {i : Nat}
    (h : ∀ j ∈ succsAt preds i, LongestPath preds latency j (paths j)) :
    LongestPath preds latency i (latency i + ((succsAt preds i).map paths).foldl max 0) := by
  obtain ⟨-, hall, hmem⟩ := foldl_max_spec ((succsAt preds i).map paths) 0
  constructor
  · have hattained : succsAt preds i = [] ∨
        ((succsAt preds i).map paths).foldl max 0 ∈ (succsAt preds i).map paths := by
      rcases hmem with hzero | hmem
      · cases hsuccs : succsAt preds i with
        | nil => exact Or.inl rfl
        | cons j js =>
          rw [hsuccs] at hzero hall
          have := hall (paths j) List.mem_cons_self
          have hj : paths j = 0 := by omega
          exact Or.inr (by rw [hzero, ← hj]; exact List.mem_cons_self)
      · exact Or.inr hmem
    rcases hattained with hleaf | hmem
    · rw [hleaf]
      exact .leaf hleaf
    · obtain ⟨j, hj, heq⟩ := List.mem_map.mp hmem
      rw [← heq]
      exact .step hj (h j hj).1
  · intro w hw
    cases hw with
    | leaf hleaf => exact Nat.le_add_right _ _
    | step hj hpath =>
      have := (h _ hj).2 _ hpath
      have := hall _ (List.mem_map_of_mem hj)
      omega

theorem criticalPaths_longest {preds : List (List Nat)} (hfwd : Forward (predsAt preds))
    (latency : Nat → Nat) (k : Nat) (hk : k ≤ preds.length) :
    ∀ i, preds.length - k ≤ i → i < preds.length →
      LongestPath preds latency i (criticalPaths preds latency preds.length k i) := by
  induction k with
  | zero =>
    intro i hge hlt
    omega
  | succ k ih =>
    intro i hge hlt
    rw [criticalPaths]
    by_cases hi : i = preds.length - (k + 1)
    · subst hi
      rw [Function.update_self]
      refine longestPath_of_succs fun j hj => ?_
      obtain ⟨hlt', hmem⟩ := mem_succsAt.mp hj
      have := hfwd.lt j _ hmem
      exact ih (by omega) j (by omega) hlt'
    · rw [Function.update_of_ne hi]
      exact ih (by omega) i (by omega) hlt

/-! ## Issuing by priority -/

/-- `critical_path` is what its name says, and the instructions are issued by it and the
tie-breakers iff there never is a choice. -/
theorem scheduleBlockInner_byPriority (latencyTable : String → Nat) (noReorder : Bool)
    (is : List IRInstr) :
    (∀ i < is.length, LongestPath (ddg is) (latencyAt latencyTable is) i
      (readyEntry latencyTable is i).criticalPath) ∧
    (ByPriority (ddg is) (readyEntry latencyTable is)
        (scheduleBlockInner latencyTable noReorder is) ↔ NoChoice latencyTable is noReorder) := by
  have hfwd := forward_ddg is
  have hlen := length_ddg is
  constructor
  · intro i hi
    have hlongest := criticalPaths_longest hfwd (latencyAt latencyTable is) is.length
      (by omega) i (by omega) (by omega)
    rw [hlen] at hlongest
    exact hlongest
  · unfold NoChoice
    split
    · next hearly =>
      rw [scheduleBlockInner_eq_range latencyTable is hearly, ← hlen]
      exact byPriority_range hfwd
    · next hlate =>
      obtain ⟨hrev, hperm⟩ := listSchedule_reversed latencyTable is
      rw [scheduleBlockInner_eq latencyTable is hlate, ← hlen]
      exact byPriority_iff_chain hfwd (hlen ▸ hperm) hrev

/-- Of three independent instructions the multiplication has the longest critical path, and is
issued last. -/
theorem not_scheduleBlockInner_byPriority :
    ¬∀ (latencyTable : String → Nat) (noReorder : Bool) (is : List IRInstr),
      ByPriority (ddg is) (readyEntry latencyTable is)
        (scheduleBlockInner latencyTable noReorder is) := by
  intro h
  let is : List IRInstr :=
    [.mul (.register 1) (.register 2) (.register 3) none,
      .add (.register 4) (.register 5) (.register 6) none,
      .sub (.register 7) (.register 8) (.register 9) none]
  have horder : scheduleBlockInner (fun c => if c = "multiply" then 3 else 1) false is =
      [] ++ 2 :: [1, 0] := by decide
  have hfirst := (h (fun c => if c = "multiply" then 3 else 1) false is [] 2 _ horder).2 0
    ⟨by decide, by simp, by decide⟩ (by decide)
  exact absurd (lt_iff_preferred.mpr hfirst) (by decide)

end Vuma.Codegen
