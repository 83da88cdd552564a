import Vuma.Opt.ProofSchedule

/-!
# What the proof-directed scheduler preserves

The schedule keeps every edge of the happens-before graph and every instruction at its side of a
barrier. What is left is to look at the pairs that conflict and have no edge: `Hazard` lists them. A
block whose hazards are connected by other edges does what it did.
-/

namespace Vuma.Opt

open IR Lib Codegen

/-! ## The condition -/

/-- Two instructions that conflict without an edge of their own: the second redefines a register
that the first reads, or they access memory through registers of different regions and one writes,
or one stores and the other may trap. -/
def Hazard (prov : Provenance) (x y : IRInstr) : Prop :=
  y.definedRegs.any x.usedRegs.contains = true ∨
    (∃ a wa b wb, memOp x = some (a, wa) ∧ memOp y = some (b, wb) ∧ (wa || wb) = true ∧
      nonAliasing prov a b = true) ∨
    (isStore x && y.mayTrap || x.mayTrap && isStore y) = true

/-- The instruction at `i` has an edge to the one at `j`, or one of the two is a barrier. -/
def Connected (prov : Provenance) (instrs : List IRInstr) (i j : Nat) : Prop :=
  i < j ∧ ∃ x y, instrs[i]? = some x ∧ instrs[j]? = some y ∧
    (happensBefore prov x y || isSchedulerBarrier x || isSchedulerBarrier y) = true

/-- Every hazard of the block is connected through other instructions. -/
def HazardsConnected (prov : Provenance) (instrs : List IRInstr) : Prop :=
  ∀ i j x y, i < j → instrs[i]? = some x → instrs[j]? = some y → Hazard prov x y →
    Relation.TransGen (Connected prov instrs) i j

/-! ## The order -/

section Block

variable {instrs : List IRInstr} {base : Nat} {dag : List (Nat × Nat)}

theorem mem_schedPreds {i j : Nat} :
    i ∈ schedPreds instrs base dag j ↔
      i < instrs.length ∧ schedEdge instrs base dag i j = true := by
  rw [schedPreds, List.mem_filter, List.mem_range]

theorem mem_schedSuccs {i j : Nat} (hi : i < instrs.length) :
    j ∈ schedSuccs instrs base dag i ↔ j < instrs.length ∧ i ∈ schedPreds instrs base dag j := by
  rw [mem_schedPreds, schedSuccs, List.mem_filter, List.mem_range, and_iff_right hi]

theorem forward_schedPreds : Forward (schedPreds instrs base dag) where
  nodup _ := List.nodup_range.filter _
  lt j i hi := by
    have hedge := (mem_schedPreds.mp hi).2
    simp only [schedEdge, Bool.and_eq_true, decide_eq_true_eq] at hedge
    exact hedge.1

variable (instrs base dag)

/-- What holds between two rounds. -/
structure ListInv (s : ListState) : Prop where
  order : Stepwise (Ready instrs.length (schedPreds instrs base dag)) s.order
  indeg : ∀ j < instrs.length, s.indeg j = waiting (schedPreds instrs base dag) s.order j
  ready : ∀ j, j ∈ s.ready ↔ Ready instrs.length (schedPreds instrs base dag) s.order j
  nodup : s.ready.Nodup

theorem listInv_start : ListInv instrs base dag
    ⟨(List.range instrs.length).filter fun i => (schedPreds instrs base dag i).length = 0,
      fun j => (schedPreds instrs base dag j).length, []⟩ where
  order := .nil _
  indeg j _ := by simp [waiting]
  ready j := by
    simp only [List.mem_filter, List.mem_range, decide_eq_true_eq, List.length_eq_zero_iff]
    constructor
    · rintro ⟨hj, hnone⟩
      exact ⟨hj, by simp, by simp [hnone]⟩
    · intro h
      exact ⟨h.lt, List.eq_nil_iff_forall_not_mem.mpr fun p hp => absurd (h.issued p hp) (by simp)⟩
  nodup := List.nodup_range.filter _

variable {instrs base dag}

/-- A round emits a ready node. -/
theorem ListInv.step {s : ListState} (h : ListInv instrs base dag s) (hne : s.ready ≠ []) :
    ListInv instrs base dag (listStep instrs base dag s) ∧
      (listStep instrs base dag s).order.length = s.order.length + 1 := by
  have hperm := List.perm_insertionSort (pickedFirst instrs) s.ready
  unfold listStep
  cases hsort : s.ready.insertionSort (pickedFirst instrs) with
  | nil =>
    rw [hsort] at hperm
    exact absurd (List.nil_perm.mp hperm) hne
  | cons i rest =>
    rw [hsort] at hperm
    have hi := (h.ready i).mp (hperm.mem_iff.mp List.mem_cons_self)
    obtain ⟨hnotin, hrest⟩ := List.nodup_cons.mp (hperm.nodup_iff.mpr h.nodup)
    have hfwd := @forward_schedPreds instrs base dag
    have hsnoc := ready_snoc hfwd hi h.order.closed
    have hw := waiting_snoc hfwd hi.fresh
    have hsuccs (j : Nat) := @mem_schedSuccs instrs base dag i j hi.lt
    -- a successor waits for one node more than after this round
    have hone : ∀ j ∈ schedSuccs instrs base dag i,
        s.indeg j = waiting (schedPreds instrs base dag) s.order j ∧ 0 < s.indeg j := by
      intro j hj
      obtain ⟨hlt, hmem⟩ := (hsuccs j).mp hj
      have hwj := hw j
      rw [if_pos hmem] at hwj
      have := h.indeg j hlt
      omega
    have hrestMem (j : Nat) : j ∈ rest ↔
        Ready instrs.length (schedPreds instrs base dag) s.order j ∧ j ≠ i := by
      rw [← h.ready, ← hperm.mem_iff, List.mem_cons]
      constructor
      · intro hj
        refine ⟨Or.inr hj, ?_⟩
        rintro rfl
        exact hnotin hj
      · rintro ⟨hj | hj, hne⟩
        · exact absurd hj hne
        · exact hj
    have hnew (j : Nat) :
        j ∈ (schedSuccs instrs base dag i).filter (fun j =>
          decide ((if j ∈ schedSuccs instrs base dag i then s.indeg j - 1 else s.indeg j) = 0)) ↔
        (j < instrs.length ∧ i ∈ schedPreds instrs base dag j) ∧
          waiting (schedPreds instrs base dag) s.order j = 1 := by
      rw [List.mem_filter, ← hsuccs]
      refine and_congr_right fun hj => ?_
      have := hone j hj
      rw [decide_eq_true_eq, if_pos hj]
      omega
    dsimp only
    refine ⟨⟨h.order.snoc hi, fun j hj => ?_, fun j => ?_, ?_⟩, by simp⟩
    · have hwj := hw j
      have hsucc := hsuccs j
      dsimp only
      rw [h.indeg j hj]
      by_cases hmem : i ∈ schedPreds instrs base dag j
      · rw [if_pos hmem] at hwj
        rw [if_pos (hsucc.mpr ⟨hj, hmem⟩)]
        omega
      · rw [if_neg hmem] at hwj
        rw [if_neg fun hin => hmem (hsucc.mp hin).2]
        omega
    · rw [hsnoc, List.mem_append, hrestMem, hnew, or_comm]
    · refine List.nodup_append.mpr ⟨hrest, (List.nodup_range.filter _).filter _, ?_⟩
      rintro j hj _ hj' rfl
      have hready := ((hrestMem j).mp hj).1
      have hwait := ((hnew j).mp hj').2
      have := waiting_eq_zero.mpr hready.issued
      omega

theorem ListInv.run {s : ListState} (h : ListInv instrs base dag s) (fuel : Nat)
    (hfuel : instrs.length ≤ fuel + s.order.length) :
    ListInv instrs base dag (listLoop instrs base dag fuel s) ∧
      (listLoop instrs base dag fuel s).ready = [] := by
  induction fuel generalizing s with
  | zero =>
    refine ⟨h, List.eq_nil_iff_forall_not_mem.mpr fun j hj => ?_⟩
    have hready := (h.ready j).mp hj
    -- all nodes are emitted
    have hsub : s.order ⊆ List.range instrs.length := fun i hi =>
      List.mem_range.mpr (h.order.lt i hi)
    have hlen : (List.range instrs.length).length ≤ s.order.length := by
      rw [List.length_range]
      omega
    have hperm := (List.subperm_of_subset h.order.nodup hsub).perm_of_length_le hlen
    exact hready.fresh (hperm.mem_iff.mpr (List.mem_range.mpr hready.lt))
  | succ fuel ih =>
    rw [listLoop]
    split
    · next hempty => exact ⟨h, hempty⟩
    · next hne =>
      obtain ⟨hstep, hlen⟩ := h.step hne
      exact ih hstep (by omega)

variable (instrs base dag)

theorem listOrder_spec :
    Stepwise (Ready instrs.length (schedPreds instrs base dag)) (listOrder instrs base dag) ∧
      (listOrder instrs base dag).Perm (List.range instrs.length) := by
  obtain ⟨hinv, hempty⟩ := (listInv_start instrs base dag).run instrs.length (by simp)
  refine ⟨hinv.order, Stepwise.complete forward_schedPreds hinv.order fun j hj => ?_⟩
  have hmem := (hinv.ready j).mpr hj
  rw [hempty] at hmem
  cases hmem

theorem scheduleBlockInstructions_eq :
    ∃ order : List Nat, scheduleBlockInstructions instrs base dag = pick instrs order ∧
      Stepwise (Ready instrs.length (schedPreds instrs base dag)) order ∧
      order.Perm (List.range instrs.length) := by
  unfold scheduleBlockInstructions
  split
  · refine ⟨List.range instrs.length, (pick_range instrs).symm, fun done i rest hsplit => ?_,
      .refl _⟩
    obtain ⟨rfl, hi⟩ := range_split hsplit
    exact ready_range forward_schedPreds hi
  · obtain ⟨horder, hperm⟩ := listOrder_spec instrs base dag
    have hlen := hperm.length_eq
    rw [List.length_range] at hlen
    dsimp only
    rw [if_neg (not_not.mpr hlen)]
    exact ⟨_, rfl, horder, hperm⟩

theorem length_scheduleBlockInstructions :
    (scheduleBlockInstructions instrs base dag).length = instrs.length := by
  obtain ⟨order, heq, -, hperm⟩ := scheduleBlockInstructions_eq instrs base dag
  have hpick : (pick instrs order).Perm (pick instrs (List.range instrs.length)) :=
    hperm.filterMap _
  rw [heq, hpick.length_eq, pick_range]

end Block

/-! ## The meaning of a block -/

theorem isStore_of_isLoud {x : IRInstr} (h : x.isLoud = true)
    (hbarrier : isSchedulerBarrier x = false) : isStore x = true := by
  cases x <;> first | rfl | exact absurd h Bool.false_ne_true |
    exact absurd hbarrier.symm Bool.false_ne_true

theorem isLoad_of_isRead {x : IRInstr} (h : x.isRead = true)
    (hbarrier : isSchedulerBarrier x = false) : isLoad x = true := by
  cases x <;> first | rfl | exact absurd h Bool.false_ne_true |
    exact absurd hbarrier.symm Bool.false_ne_true

theorem memOp_of_isStore {x : IRInstr} (h : isStore x = true) : ∃ a, memOp x = some (a, true) := by
  cases x with
  | store value addr off ty => exact ⟨_, rfl⟩
  | _ => cases h

theorem memOp_of_isLoad {x : IRInstr} (h : isLoad x = true) : ∃ a, memOp x = some (a, false) := by
  cases x with
  | load dst addr off ty => exact ⟨_, rfl⟩
  | _ => cases h

theorem memEdge_or_hazard {prov : Provenance} {x y : IRInstr} {a b : Option VReg} {wa wb : Bool}
    (hx : memOp x = some (a, wa)) (hy : memOp y = some (b, wb)) (hwrite : (wa || wb) = true) :
    memEdge prov x y = true ∨ Hazard prov x y := by
  cases hna : nonAliasing prov a b with
  | true => exact Or.inr (Or.inr (Or.inl ⟨a, wa, b, wb, hx, hy, hwrite, hna⟩))
  | false =>
    left
    simp [memEdge, hx, hy, hwrite, hna]

theorem conflicts_cases {prov : Provenance} {x y : IRInstr} (h : x.conflicts y = true) :
    (happensBefore prov x y || isSchedulerBarrier x || isSchedulerBarrier y) = true ∨
      Hazard prov x y := by
  cases hx : isSchedulerBarrier x with
  | true => simp
  | false =>
    cases hy : isSchedulerBarrier y with
    | true => simp
    | false =>
      have hmem (hedge : memEdge prov x y = true ∨ Hazard prov x y) :
          (happensBefore prov x y || false || false) = true ∨ Hazard prov x y :=
        hedge.imp_left fun hedge => by simp [happensBefore, hedge]
      have hreads {z : IRInstr} {r : VReg} (hr : r ∈ z.reads) : r ∈ z.usedRegs := by
        unfold IRInstr.reads at hr
        split at hr
        · cases hr
        · exact hr
      simp only [IRInstr.conflicts, Bool.or_eq_true, Bool.and_eq_true, List.any_eq_true,
        List.contains_iff_mem, List.mem_append] at h
      rcases h with ((⟨r, hr, hread | hdef⟩ | ⟨r, hr, hread⟩) | ⟨hloud, hother⟩) | ⟨hloud, hother⟩
      · left
        have hraw : rawEdge x y = true := by
          simpa [rawEdge] using ⟨r, hr, hreads hread⟩
        simp [happensBefore, hraw]
      · left
        have hwaw : wawEdge x y = true := by
          simpa [wawEdge] using ⟨r, hr, hdef⟩
        simp [happensBefore, hwaw]
      · exact Or.inr (Or.inl (by simpa using ⟨r, hr, hreads hread⟩))
      · have hstore := isStore_of_isLoud hloud hx
        obtain ⟨a, ha⟩ := memOp_of_isStore hstore
        rcases hother with (hloud' | hread) | htrap
        · obtain ⟨b, hb⟩ := memOp_of_isStore (isStore_of_isLoud hloud' hy)
          exact hmem (memEdge_or_hazard ha hb rfl)
        · obtain ⟨b, hb⟩ := memOp_of_isLoad (isLoad_of_isRead hread hy)
          exact hmem (memEdge_or_hazard ha hb rfl)
        · exact Or.inr (Or.inr (Or.inr (by simp [hstore, htrap])))
      · have hstore := isStore_of_isLoud hloud hy
        obtain ⟨b, hb⟩ := memOp_of_isStore hstore
        rcases hother with hread | htrap
        · obtain ⟨a, ha⟩ := memOp_of_isLoad (isLoad_of_isRead hread hx)
          exact hmem (memEdge_or_hazard ha hb rfl)
        · exact Or.inr (Or.inr (Or.inr (by simp [hstore, htrap])))

theorem mem_blockDag {prov : Provenance} {base : Nat} {instrs : List IRInstr} {i j : Nat}
    {x y : IRInstr} (hij : i < j) (hi : instrs[i]? = some x) (hj : instrs[j]? = some y)
    (h : happensBefore prov x y = true) : (base + i, base + j) ∈ blockDag prov base instrs := by
  simp only [blockDag, List.mem_flatMap, List.mem_filterMap]
  refine ⟨(x, i), List.mem_zipIdx_iff_getElem?.mpr hi, (y, j),
    List.mem_zipIdx_iff_getElem?.mpr hj, ?_⟩
  rw [if_pos (Or.inl ⟨hij, h⟩)]

theorem schedPreds_of_connected {prov : Provenance} {base : Nat} {instrs : List IRInstr}
    {dag : List (Nat × Nat)} (hdag : ∀ e ∈ blockDag prov base instrs, e ∈ dag) {i j : Nat}
    (h : Connected prov instrs i j) : i ∈ schedPreds instrs base dag j := by
  obtain ⟨hij, x, y, hi, hj, hedge⟩ := h
  have hlt : i < instrs.length := (List.getElem?_eq_some_iff.mp hi).1
  refine mem_schedPreds.mpr ⟨hlt, ?_⟩
  simp only [Bool.or_eq_true] at hedge
  simp only [schedEdge, barrierAt, hi, hj, Option.any_some, Bool.and_eq_true, Bool.or_eq_true,
    decide_eq_true_eq, List.contains_iff_mem]
  refine ⟨hij, ?_⟩
  rcases hedge with (hbefore | hx) | hy
  · exact Or.inl (Or.inl (hdag _ (mem_blockDag hij hi hj hbefore)))
  · exact Or.inl (Or.inr hx)
  · exact Or.inr hy

theorem isControl_of_not_barrier {x : IRInstr} (h : isSchedulerBarrier x = false) :
    x.isControl = false := by
  cases x <;> first | rfl | cases h

theorem execInstrs_scheduleBlockInstructions {prov : Provenance} {base : Nat}
    {instrs : List IRInstr} {dag : List (Nat × Nat)}
    (hdag : ∀ e ∈ blockDag prov base instrs, e ∈ dag) (h : HazardsConnected prov instrs)
    (M : Machine) (label : String) (pred : Option String) (edge σ : Regs) (w : World) :
    execInstrs M label pred edge (scheduleBlockInstructions instrs base dag) σ w =
      execInstrs M label pred edge instrs σ w := by
  obtain ⟨order, heq, horder, hperm⟩ := scheduleBlockInstructions_eq instrs base dag
  have hreorder := @execInstrs_reorder M label pred edge instrs [] [] order hperm ?_ σ w
  · rw [heq]
    simpa using hreorder
  · intro i j x y hij hi hj hsub
    have hnot : ¬Relation.TransGen (Connected prov instrs) i j := by
      intro hpath
      have hkept := Relation.TransGen.mono (fun _ _ => schedPreds_of_connected hdag) _ _ hpath
      exact horder.not_sublist hkept hsub
    have hedge : ¬(happensBefore prov x y || isSchedulerBarrier x || isSchedulerBarrier y) = true :=
      fun hedge => hnot (.single ⟨hij, x, y, hi, hj, hedge⟩)
    refine ⟨?_, ?_, ?_⟩
    · by_contra hconf
      rcases conflicts_cases (by simpa using hconf) with hc | hazard
      · exact hedge hc
      · exact hnot (h i j x y hij hi hj hazard)
    · exact isControl_of_not_barrier (by simp at hedge; exact hedge.1.2)
    · exact isControl_of_not_barrier (by simp at hedge; exact hedge.2)

/-- The same label and terminator, and from every state the same registers, memory and effects. -/
def SameMeaning (b' b : IRBlock) : Prop :=
  b'.label = b.label ∧ b'.terminator = b.terminator ∧
    ∀ (M : Machine) (pred : Option String) (σ : Regs) (w : World),
      execInstrs M b'.label pred σ b'.instructions σ w =
        execInstrs M b.label pred σ b.instructions σ w

theorem scheduleBlocks_sameMeaning {prov : Provenance} {dag : List (Nat × Nat)} {base : Nat}
    {blocks : List IRBlock} (hdag : ∀ e ∈ dagFrom prov base blocks, e ∈ dag)
    (h : ∀ b ∈ blocks, HazardsConnected prov b.instructions) :
    List.Forall₂ SameMeaning (scheduleBlocks dag base blocks) blocks := by
  induction blocks generalizing base with
  | nil => exact .nil
  | cons b bs ih =>
    obtain ⟨hb, hbs⟩ := List.forall_mem_cons.mp h
    rw [scheduleBlocks, length_scheduleBlockInstructions]
    refine .cons ⟨rfl, rfl, fun M pred σ w => ?_⟩ (ih (fun e he => hdag e ?_) hbs)
    · exact execInstrs_scheduleBlockInstructions
        (fun e he => hdag e (List.mem_append_left _ he)) hb M b.label pred σ σ w
    · exact List.mem_append_right _ he

/-- Every block of the scheduled function does what it did, when the hazards of the function are
connected. -/
theorem scheduleWithProvenance_preserves (f : IRFunction)
    (h : ∀ b ∈ f.blocks, HazardsConnected (markIveProvenNonaliasing f) b.instructions) :
    List.Forall₂ SameMeaning (scheduleWithProvenance f (markIveProvenNonaliasing f)).blocks
      f.blocks :=
  scheduleBlocks_sameMeaning (fun _ he => he) h

/-- A function with one block. -/
def oneBlockOf (instrs : List IRInstr) : IRFunction where
  name := "f"
  blocks := [{ label := "entry", instructions := instrs, terminator := .ret [] }]

/-- A cell is read, and overwritten by what is computed from it. -/
def bumpCell : List IRInstr :=
  [.load (.register 1) (.register 0) 0 .i64,
    .add (.register 2) (.register 1) (.immediate 1) none,
    .store (.register 2) (.register 0) 0 .i64]

theorem hazardsConnected_bumpCell (prov : Provenance) : HazardsConnected prov bumpCell := by
  intro i j x y hij hi hj hazard
  have hraw : ∀ {k l z t}, k < l → bumpCell[k]? = some z → bumpCell[l]? = some t →
      rawEdge z t = true → Connected prov bumpCell k l := fun hkl hk hl hraw =>
    ⟨hkl, _, _, hk, hl, by simp [happensBefore, hraw]⟩
  have h01 : Connected prov bumpCell 0 1 := hraw (by decide) rfl rfl (by decide)
  have h12 : Connected prov bumpCell 1 2 := hraw (by decide) rfl rfl (by decide)
  have hlt : j < 3 := (List.getElem?_eq_some_iff.mp hj).1
  obtain ⟨rfl, rfl⟩ | ⟨rfl, rfl⟩ | ⟨rfl, rfl⟩ :
      (i = 0 ∧ j = 1) ∨ (i = 0 ∧ j = 2) ∨ (i = 1 ∧ j = 2) := by omega
  · exact .single h01
  · exact (Relation.TransGen.single h01).tail h12
  · exact .single h12

theorem scheduleWithProvenance_bumpCell :
    List.Forall₂ SameMeaning
      (scheduleWithProvenance (oneBlockOf bumpCell)
        (markIveProvenNonaliasing (oneBlockOf bumpCell))).blocks (oneBlockOf bumpCell).blocks := by
  refine scheduleWithProvenance_preserves _ ?_
  intro b hb
  rw [List.mem_singleton.mp hb]
  exact hazardsConnected_bumpCell _

/-- A register is read, and then loaded anew. -/
def reusedRegister : List IRInstr :=
  [.add (.register 1) (.register 2) (.immediate 0) none,
    .load (.register 2) (.register 3) 0 .i64]

/-- The load moves to the front, and the sum reads what it has loaded. -/
theorem not_scheduleWithProvenance_preserves :
    ¬∀ f, List.Forall₂ SameMeaning
      (scheduleWithProvenance f (markIveProvenNonaliasing f)).blocks f.blocks := by
  intro h
  have hsched : (scheduleWithProvenance (oneBlockOf reusedRegister)
      (markIveProvenNonaliasing (oneBlockOf reusedRegister))).blocks =
      (oneBlockOf reusedRegister.reverse).blocks := by decide
  have hsame := h (oneBlockOf reusedRegister)
  rw [hsched] at hsame
  obtain ⟨⟨-, -, hexec⟩, -⟩ := List.forall₂_cons.mp hsame
  have hregs := congrArg (fun flow : IR.Flow =>
      IR.Flow.casesOn (motive := fun _ => Word) flow (fun σ _ => σ 1) fun _ => 0)
    (hexec default none countingRegs ⟨fun _ => 0, []⟩)
  revert hregs
  decide

end Vuma.Opt
