import Vuma.Codegen.LiveRange

/-!
# What live intervals cover

The intervals of `LiveRangeComputer::compute` belong to different registers, and each covers every
position at which its register is read or written. A copy reads its source and writes its
destination at one position, so the intervals of both contain it and overlap: coalescing never
merges anything.
-/

namespace Vuma.Codegen

open IR

/-- The same register, over at least the same positions. -/
structure LiveInterval.Grows (i j : LiveInterval) : Prop where
  vreg : j.vreg = i.vreg
  cls : j.cls = i.cls
  coalescedVregs : j.coalescedVregs = i.coalescedVregs
  start : j.start ≤ i.start
  stop : i.stop ≤ j.stop

namespace LiveInterval

theorem Grows.refl (i : LiveInterval) : i.Grows i := ⟨rfl, rfl, rfl, le_rfl, le_rfl⟩

theorem Grows.trans {i j k : LiveInterval} (h : i.Grows j) (h' : j.Grows k) : i.Grows k :=
  ⟨h'.vreg.trans h.vreg, h'.cls.trans h.cls, h'.coalescedVregs.trans h.coalescedVregs,
    h'.start.trans h.start, h.stop.trans h'.stop⟩

theorem grows_extendTo (i : LiveInterval) (pos : Nat) : i.Grows (i.extendTo pos) :=
  ⟨rfl, rfl, rfl, min_le_left _ _, le_max_left _ _⟩

theorem grows_addDef (i : LiveInterval) (pos : Nat) : i.Grows (i.addDef pos) :=
  ⟨rfl, rfl, rfl, min_le_left _ _, le_max_left _ _⟩

theorem grows_addUse (i : LiveInterval) (pos : Nat) : i.Grows (i.addUse pos) :=
  ⟨rfl, rfl, rfl, min_le_left _ _, le_max_left _ _⟩

end LiveInterval

/-- An interval of the register contains the position. -/
def CoversPos (is : List LiveInterval) (v : VReg) (p : Nat) : Prop :=
  ∃ i ∈ is, i.vreg = v ∧ i.start ≤ p ∧ p ≤ i.stop

/-- One interval for each register, in the order of the registers. -/
def SortedByVReg (is : List LiveInterval) : Prop := is.Pairwise fun i j => i.vreg < j.vreg

/-! ## The ordered map of intervals -/

section

variable {change : LiveInterval → LiveInterval}

theorem mem_upsert {new : LiveInterval} {is : List LiveInterval} {j : LiveInterval}
    (h : j ∈ upsert new change is) :
    j ∈ is ∨ j = change new ∨ ∃ i ∈ is, i.vreg = new.vreg ∧ j = change i := by
  induction is with
  | nil => exact .inr (.inl (List.mem_singleton.mp h))
  | cons i is ih =>
    rw [upsert] at h
    split at h
    · rcases List.mem_cons.mp h with rfl | h
      · exact .inr (.inl rfl)
      · exact .inl h
    · split at h
      · next heq =>
        rcases List.mem_cons.mp h with rfl | h
        · exact .inr (.inr ⟨i, List.mem_cons_self, heq.symm, rfl⟩)
        · exact .inl (List.mem_cons_of_mem _ h)
      · rcases List.mem_cons.mp h with rfl | h
        · exact .inl List.mem_cons_self
        · rcases ih h with h | h | ⟨k, hk, h⟩
          · exact .inl (List.mem_cons_of_mem _ h)
          · exact .inr (.inl h)
          · exact .inr (.inr ⟨k, List.mem_cons_of_mem _ hk, h⟩)

theorem exists_upsert_self (new : LiveInterval) (change : LiveInterval → LiveInterval)
    (is : List LiveInterval) :
    ∃ i j, j ∈ upsert new change is ∧ i.vreg = new.vreg ∧ j = change i := by
  induction is with
  | nil => exact ⟨new, _, List.mem_singleton_self _, rfl, rfl⟩
  | cons i is ih =>
    rw [upsert]
    split
    · exact ⟨new, _, List.mem_cons_self, rfl, rfl⟩
    · split
      · next heq => exact ⟨i, _, List.mem_cons_self, heq.symm, rfl⟩
      · obtain ⟨k, j, hj, hvreg, he⟩ := ih
        exact ⟨k, j, List.mem_cons_of_mem _ hj, hvreg, he⟩

variable (hgrow : ∀ i, LiveInterval.Grows i (change i))
include hgrow

theorem sortedByVReg_upsert (new : LiveInterval) {is : List LiveInterval} (h : SortedByVReg is) :
    SortedByVReg (upsert new change is) := by
  induction is with
  | nil => exact List.pairwise_singleton _ _
  | cons i is ih =>
    obtain ⟨hhead, htail⟩ := List.pairwise_cons.mp h
    rw [upsert]
    split
    · next hlt =>
      refine List.pairwise_cons.mpr ⟨fun j hj => ?_, h⟩
      rw [(hgrow new).vreg]
      rcases List.mem_cons.mp hj with rfl | hj
      · exact hlt
      · exact hlt.trans (hhead j hj)
    · split
      · refine List.pairwise_cons.mpr ⟨fun j hj => ?_, htail⟩
        rw [(hgrow i).vreg]
        exact hhead j hj
      · next hlt hne =>
        have hgt : i.vreg < new.vreg := lt_of_le_of_ne (not_lt.mp hlt) (Ne.symm hne)
        refine List.pairwise_cons.mpr ⟨fun j hj => ?_, ih htail⟩
        rcases mem_upsert hj with hj | rfl | ⟨k, hk, hvreg, rfl⟩
        · exact hhead j hj
        · rwa [(hgrow new).vreg]
        · rw [(hgrow k).vreg]
          exact hhead k hk

theorem exists_grows_upsert (new : LiveInterval) {is : List LiveInterval} {i : LiveInterval}
    (h : i ∈ is) :
    ∃ j ∈ upsert new change is, i.Grows j := by
  induction is with
  | nil => cases h
  | cons k is ih =>
    rw [upsert]
    split
    · exact ⟨i, List.mem_cons_of_mem _ h, .refl i⟩
    · split
      · rcases List.mem_cons.mp h with rfl | h
        · exact ⟨_, List.mem_cons_self, hgrow i⟩
        · exact ⟨i, List.mem_cons_of_mem _ h, .refl i⟩
      · rcases List.mem_cons.mp h with rfl | h
        · exact ⟨i, List.mem_cons_self, .refl i⟩
        · obtain ⟨j, hj, hgr⟩ := ih h
          exact ⟨j, List.mem_cons_of_mem _ hj, hgr⟩

/-- Intervals that stay or grow cover what they covered. -/
theorem covers_upsert (new : LiveInterval) {is : List LiveInterval} {v : VReg} {p : Nat}
    (h : CoversPos is v p) :
    CoversPos (upsert new change is) v p := by
  obtain ⟨i, hi, hvreg, hstart, hstop⟩ := h
  obtain ⟨j, hj, hgr⟩ := exists_grows_upsert hgrow new hi
  exact ⟨j, hj, hgr.vreg.trans hvreg, hgr.start.trans hstart, hstop.trans hgr.stop⟩

end

/-! ## The pass over the instructions -/

/-- The registers of instructions with the positions at which they are read or written. -/
def instrRefs : List IRInstr → Nat → List (VReg × Nat)
  | [], _ => []
  | i :: is, pos => (i.definedRegs ++ i.usedRegs).map (·, pos) ++ instrRefs is (pos + 2)

/-- The same for blocks and their terminators. -/
def blockRefs : List IRBlock → Nat → List (VReg × Nat)
  | [], _ => []
  | b :: bs, pos =>
    instrRefs b.instructions pos ++
      (b.terminator.usedRegs.map (·, pos + 2 * b.instructions.length) ++
        blockRefs bs (pos + 2 * b.instructions.length + 2))

/-- What holds along the pass: one interval for each register, the positions in `refs` are covered,
and a copy reads and writes its registers at a position in `refs`. -/
structure Ranges.Ok (s : Ranges) (refs : List (VReg × Nat)) : Prop where
  sorted : SortedByVReg s.intervals
  covers : ∀ c ∈ refs, CoversPos s.intervals c.1 c.2
  copies : ∀ c ∈ s.copies, (c.src, c.pos) ∈ refs ∧ (c.dst, c.pos) ∈ refs

section

variable (classOf : VReg → RegClass) {s : Ranges} {refs : List (VReg × Nat)}

theorem foldl_upsert {change : LiveInterval → LiveInterval}
    (hgrow : ∀ i, LiveInterval.Grows i (change i)) {pos : Nat}
    (hcover : ∀ i, (change i).start ≤ pos ∧ pos ≤ (change i).stop) {new : VReg → LiveInterval}
    (hnew : ∀ v, (new v).vreg = v) {is : List LiveInterval} (hsorted : SortedByVReg is)
    (vregs : List VReg) (hrefs : ∀ c ∈ refs, CoversPos is c.1 c.2) :
    SortedByVReg (vregs.foldl (fun is v => upsert (new v) change is) is) ∧
      ∀ c ∈ refs ++ vregs.map (·, pos),
        CoversPos (vregs.foldl (fun is v => upsert (new v) change is) is) c.1 c.2 := by
  induction vregs generalizing is refs with
  | nil =>
    rw [List.map_nil, List.append_nil]
    exact ⟨hsorted, hrefs⟩
  | cons v vregs ih =>
    rw [List.map_cons, List.append_cons, List.foldl_cons]
    refine ih (sortedByVReg_upsert hgrow (new v) hsorted) fun c hc => ?_
    rcases List.mem_append.mp hc with hc | hc
    · exact covers_upsert hgrow (new v) (hrefs c hc)
    · obtain rfl := List.mem_singleton.mp hc
      obtain ⟨i, j, hj, hvreg, rfl⟩ := exists_upsert_self (new v) change is
      exact ⟨_, hj, (hgrow i).vreg.trans (hvreg.trans (hnew v)), hcover i⟩

/-- The interval of a register that is met for the first time. -/
theorem Ranges.vreg_new (classOf : VReg → RegClass) (s : Ranges) (v : VReg) :
    ({ vreg := v, cls := classOf v, start := s.pos, stop := s.pos } : LiveInterval).vreg = v := rfl

theorem Ranges.Ok.addDefs (h : s.Ok refs) (vregs : List VReg) :
    (s.addDefs classOf vregs).Ok (refs ++ vregs.map (·, s.pos)) := by
  obtain ⟨hsorted, hcovers⟩ := foldl_upsert (fun i => i.grows_addDef s.pos)
    (fun i => ⟨min_le_right i.start s.pos, le_max_right i.stop s.pos⟩) (s.vreg_new classOf)
    h.sorted vregs h.covers
  exact ⟨hsorted, hcovers, fun c hc => (h.copies c hc).imp (List.mem_append_left _)
    (List.mem_append_left _)⟩

theorem Ranges.Ok.addUses (h : s.Ok refs) (vregs : List VReg) :
    (s.addUses classOf vregs).Ok (refs ++ vregs.map (·, s.pos)) := by
  obtain ⟨hsorted, hcovers⟩ := foldl_upsert (fun i => i.grows_addUse s.pos)
    (fun i => ⟨min_le_right i.start s.pos, le_max_right i.stop s.pos⟩) (s.vreg_new classOf)
    h.sorted vregs h.covers
  exact ⟨hsorted, hcovers, fun c hc => (h.copies c hc).imp (List.mem_append_left _)
    (List.mem_append_left _)⟩

theorem refs_of_copyOf {i : IRInstr} {pos : Nat} {c : CopyInfo} (h : copyOf pos i = some c) :
    c.pos = pos ∧ c.src ∈ i.usedRegs ∧ c.dst ∈ i.definedRegs := by
  unfold copyOf at h
  split at h
  · cases h
    exact ⟨rfl, List.mem_singleton_self _, List.mem_singleton_self _⟩
  · cases h

theorem Ranges.Ok.addInstr (h : s.Ok refs) (i : IRInstr) :
    (s.addInstr classOf i).Ok (refs ++ (i.definedRegs ++ i.usedRegs).map (·, s.pos)) := by
  have hrefs := (h.addDefs classOf i.definedRegs).addUses classOf i.usedRegs
  rw [List.append_assoc, Ranges.addDefs, ← List.map_append] at hrefs
  refine ⟨hrefs.sorted, hrefs.covers, fun c hc => ?_⟩
  rcases List.mem_append.mp hc with hc | hc
  · exact (h.copies c hc).imp (List.mem_append_left _) (List.mem_append_left _)
  · obtain ⟨hpos, hsrc, hdst⟩ := refs_of_copyOf (Option.mem_toList.mp hc)
    rw [hpos]
    exact ⟨List.mem_append_right _ (List.mem_map_of_mem (List.mem_append_right _ hsrc)),
      List.mem_append_right _ (List.mem_map_of_mem (List.mem_append_left _ hdst))⟩

theorem Ranges.Ok.addInstrs (h : s.Ok refs) (is : List IRInstr) :
    (is.foldl (Ranges.addInstr classOf) s).Ok (refs ++ instrRefs is s.pos) ∧
      (is.foldl (Ranges.addInstr classOf) s).pos = s.pos + 2 * is.length := by
  induction is generalizing s refs with
  | nil =>
    rw [instrRefs, List.append_nil]
    exact ⟨h, rfl⟩
  | cons i is ih =>
    obtain ⟨hok, hpos⟩ := ih (h.addInstr classOf i)
    rw [instrRefs, ← List.append_assoc, List.foldl_cons]
    refine ⟨hok, hpos.trans ?_⟩
    change s.pos + 2 + 2 * is.length = s.pos + 2 * (is.length + 1)
    omega

theorem Ranges.Ok.addBlock (h : s.Ok refs) (b : IRBlock) :
    (s.addBlock classOf b).Ok (refs ++ (instrRefs b.instructions s.pos ++
        b.terminator.usedRegs.map (·, s.pos + 2 * b.instructions.length))) ∧
      (s.addBlock classOf b).pos = s.pos + 2 * b.instructions.length + 2 := by
  obtain ⟨hinstrs, hpos⟩ := h.addInstrs classOf b.instructions
  have hterm := hinstrs.addUses classOf b.terminator.usedRegs
  rw [hpos, List.append_assoc] at hterm
  exact ⟨⟨hterm.sorted, hterm.covers, hterm.copies⟩, congrArg (· + 2) hpos⟩

theorem Ranges.Ok.addBlocks (h : s.Ok refs) (bs : List IRBlock) :
    (bs.foldl (Ranges.addBlock classOf) s).Ok (refs ++ blockRefs bs s.pos) := by
  induction bs generalizing s refs with
  | nil =>
    rw [blockRefs, List.append_nil]
    exact h
  | cons b bs ih =>
    obtain ⟨hok, hpos⟩ := h.addBlock classOf b
    have hrest := ih hok
    rwa [hpos, List.append_assoc, List.append_assoc] at hrest

/-- Every reference of a function is covered. -/
theorem computeRanges_ok (f : IRFunction) :
    (computeRanges classOf f).Ok (blockRefs f.blocks 0) := by
  have hstart : ({} : Ranges).Ok [] := ⟨List.Pairwise.nil, nofun, nofun⟩
  exact hstart.addBlocks classOf f.blocks

end

/-! ## Coalescing -/

theorem SortedByVReg.eq_of_vreg {is : List LiveInterval} (h : SortedByVReg is) {i j : LiveInterval}
    (hi : i ∈ is) (hj : j ∈ is) (hvreg : i.vreg = j.vreg) : i = j := by
  induction is with
  | nil => cases hi
  | cons k is ih =>
    obtain ⟨hhead, htail⟩ := List.pairwise_cons.mp h
    rcases List.mem_cons.mp hi with hi | hi <;> rcases List.mem_cons.mp hj with hj | hj
    · rw [hi, hj]
    · rw [hi] at hvreg
      exact absurd hvreg (hhead j hj).ne
    · rw [hj] at hvreg
      exact absurd hvreg (hhead i hi).ne'
    · exact ih htail hi hj

theorem SortedByVReg.covers_of_find {is : List LiveInterval} (h : SortedByVReg is) {v : VReg}
    {p : Nat} (hcov : CoversPos is v p) {i : LiveInterval}
    (hfind : is.find? (·.vreg == v) = some i) : i.start ≤ p ∧ p ≤ i.stop := by
  obtain ⟨j, hj, hvreg, hcover⟩ := hcov
  have hi : i.vreg = v := by simpa using List.find?_some hfind
  rwa [h.eq_of_vreg (List.mem_of_find?_eq_some hfind) hj (hi.trans hvreg.symm)]

theorem coalesceCopy_of_covers {is : List LiveInterval} (h : SortedByVReg is) {c : CopyInfo}
    (hsrc : CoversPos is c.src c.pos) (hdst : CoversPos is c.dst c.pos) (parent : Parents) :
    coalesceCopy is parent c = parent := by
  unfold coalesceCopy
  split
  · next src dst hfsrc hfdst =>
    obtain ⟨hs, hs'⟩ := h.covers_of_find hsrc hfsrc
    obtain ⟨hd, hd'⟩ := h.covers_of_find hdst hfdst
    have hover : src.overlaps dst = true := by
      rw [LiveInterval.overlaps, Bool.and_eq_true, decide_eq_true_eq, decide_eq_true_eq]
      exact ⟨hs.trans hd', hd.trans hs'⟩
    rw [if_pos hover, ite_self]
  · rfl

theorem find_id (fuel : Nat) (x : VReg) : Parents.find fuel id x = (id, x) := by
  cases fuel with
  | zero => rfl
  | succ fuel => exact if_pos rfl

theorem addToGroup_of_lt {root : VReg} {i : LiveInterval} {gs : List (VReg × List LiveInterval)}
    (h : ∀ g ∈ gs, g.1 < root) : addToGroup root i gs = gs ++ [(root, [i])] := by
  induction gs with
  | nil => rfl
  | cons g gs ih =>
    have hlt := h g List.mem_cons_self
    rw [addToGroup, if_neg hlt.not_gt, if_neg hlt.ne',
      ih fun g' hg' => h g' (List.mem_cons_of_mem _ hg'), List.cons_append]

theorem foldl_addToGroup {fuel : Nat} {is : List LiveInterval} (h : SortedByVReg is)
    (gs : List (VReg × List LiveInterval)) (hgs : ∀ g ∈ gs, ∀ i ∈ is, g.1 < i.vreg) :
    is.foldl
        (fun (s : Parents × List (VReg × List LiveInterval)) i =>
          let (parent, root) := s.1.find fuel i.vreg
          (parent, addToGroup root i s.2)) (id, gs) =
      (id, gs ++ is.map fun i => (i.vreg, [i])) := by
  induction is generalizing gs with
  | nil => rw [List.foldl_nil, List.map_nil, List.append_nil]
  | cons i is ih =>
    obtain ⟨hhead, htail⟩ := List.pairwise_cons.mp h
    rw [List.foldl_cons, find_id]
    dsimp only
    rw [addToGroup_of_lt fun g hg => hgs g hg i List.mem_cons_self, ih htail _, List.map_cons,
      List.append_assoc, List.singleton_append]
    intro g hg j hj
    rcases List.mem_append.mp hg with hg | hg
    · exact hgs g hg j (List.mem_cons_of_mem _ hj)
    · obtain rfl := List.mem_singleton.mp hg
      exact hhead j hj

/-- Nothing is merged. -/
theorem coalesceIntervals_of_covers {is : List LiveInterval} (h : SortedByVReg is)
    {copies : List CopyInfo}
    (hcopies : ∀ c ∈ copies, CoversPos is c.src c.pos ∧ CoversPos is c.dst c.pos) :
    coalesceIntervals is copies = is := by
  have hparent : copies.foldl (coalesceCopy is) id = id := by
    induction copies with
    | nil => rfl
    | cons c copies ih =>
      obtain ⟨hsrc, hdst⟩ := hcopies c List.mem_cons_self
      rw [List.foldl_cons, coalesceCopy_of_covers h hsrc hdst]
      exact ih fun c' hc' => hcopies c' (List.mem_cons_of_mem _ hc')
  unfold coalesceIntervals
  split
  · rfl
  · dsimp only
    rw [hparent, foldl_addToGroup h [] fun _ hg => absurd hg List.not_mem_nil,
      List.nil_append, List.flatMap_map]
    exact List.flatMap_singleton' is

/-! ## All intervals -/

theorem grows_extendLive (live : BlockLiveness) (ranges : List (String × Nat × Nat))
    (i : LiveInterval) : i.Grows (extendLive live ranges i) := by
  unfold extendLive
  induction ranges generalizing i with
  | nil => exact .refl i
  | cons r ranges ih =>
    rw [List.foldl_cons]
    refine LiveInterval.Grows.trans ?_ (ih _)
    split
    · exact (i.grows_extendTo _).trans (LiveInterval.grows_extendTo _ _)
    · exact .refl i

theorem grows_markCalls (callPositions : List Nat) (i : LiveInterval) :
    i.Grows (markCalls callPositions i) := by
  unfold markCalls
  split
  · exact ⟨rfl, rfl, rfl, le_rfl, le_rfl⟩
  · exact .refl i

theorem CoversPos.map {is : List LiveInterval} {v : VReg} {p : Nat} (h : CoversPos is v p)
    {g : LiveInterval → LiveInterval} (hg : ∀ i, LiveInterval.Grows i (g i)) :
    CoversPos (is.map g) v p := by
  obtain ⟨i, hi, hvreg, hstart, hstop⟩ := h
  exact ⟨g i, List.mem_map_of_mem hi, (hg i).vreg.trans hvreg, (hg i).start.trans hstart,
    hstop.trans (hg i).stop⟩

theorem SortedByVReg.map {is : List LiveInterval} (h : SortedByVReg is)
    {g : LiveInterval → LiveInterval} (hg : ∀ i, LiveInterval.Grows i (g i)) :
    SortedByVReg (is.map g) := by
  refine List.pairwise_map.mpr (h.imp fun {i j} hlt => ?_)
  rwa [(hg i).vreg, (hg j).vreg]

section

variable (classOf : VReg → RegClass) (f : IRFunction) (live : BlockLiveness)

theorem grows_borders (s : Ranges) (i : LiveInterval) :
    i.Grows (markCalls s.callPositions (extendLive live s.ranges i)) :=
  (grows_extendLive live s.ranges i).trans (grows_markCalls s.callPositions _)

theorem liveIntervals_eq : liveIntervals classOf f live =
    (computeRanges classOf f).intervals.map fun i =>
      markCalls (computeRanges classOf f).callPositions
        (extendLive live (computeRanges classOf f).ranges i) := by
  have hok := computeRanges_ok classOf f
  unfold liveIntervals
  dsimp only
  rw [List.map_map]
  refine coalesceIntervals_of_covers (hok.sorted.map (grows_borders live _)) fun c hc => ?_
  obtain ⟨hsrc, hdst⟩ := hok.copies c hc
  exact ⟨(hok.covers _ hsrc).map (grows_borders live _),
    (hok.covers _ hdst).map (grows_borders live _)⟩

theorem sortedByVReg_liveIntervals : SortedByVReg (liveIntervals classOf f live) := by
  rw [liveIntervals_eq]
  exact (computeRanges_ok classOf f).sorted.map (grows_borders live _)

theorem covers_liveIntervals {c : VReg × Nat} (hc : c ∈ blockRefs f.blocks 0) :
    CoversPos (liveIntervals classOf f live) c.1 c.2 := by
  rw [liveIntervals_eq]
  exact ((computeRanges_ok classOf f).covers c hc).map (grows_borders live _)

end

end Vuma.Codegen
