import Vuma.IR.Paths
import Vuma.Opt.DeadCode

/-!
# Dead state elimination

`dead_state_eliminate` of `src/codegen/src/opt.rs` removes, for the registers that a linearity proof
found consumed, the `Alloc` of the state, the stores through it and the loads through it whose
destination nothing reads. An `Alloc` is removed whatever else reads its register.

What is removed leaves the paths of the function as they are, so a register stays defined before use
exactly when each reader that stays sees a definition that is no `Alloc` of a consumed register
(`deadStateEliminate_definedBeforeUse`).
-/

namespace Vuma.Opt

open IR

/-! ## The pass -/

/-- `as_register().is_some_and(|id| consumed_vregs.contains(&id))`. -/
def isConsumedReg (consumed : Finset VReg) (v : IRValue) : Bool :=
  v.asRegister.any fun id => decide (id ∈ consumed)

/-- `drop_instr`. -/
def dropsState (used : List VReg) (consumed : Finset VReg) : IRInstr → Bool
  | .alloc dst _ => isConsumedReg consumed dst
  | .store _ addr _ _ => isConsumedReg consumed addr
  | .load dst addr _ _ =>
    isConsumedReg consumed addr && dst.asRegister.all fun id => !used.contains id
  | _ => false

def deadStateEliminate (f : IRFunction) (consumed : Finset VReg) : IRFunction :=
  if consumed = ∅ then f
  else f.filterInstrs fun i => !dropsState (globallyUsed f) consumed i

/-! ## The condition -/

/-- The event is an allocation. -/
def isAlloc : Passed → Bool
  | .instr (.alloc ..) => true
  | _ => false

/-- On every path, what stays and reads a consumed register finds it defined by other means than an
allocation. -/
def ReadersKeepState (f : IRFunction) (consumed : Finset VReg) : Prop :=
  ∀ p, f.Path p → (∀ i ∈ p.rest.head?, dropsState (globallyUsed f) consumed i = false) →
    ∀ r ∈ p.reads, r ∈ consumed →
      r ∈ f.params.flatMap IRValue.regs ∨ ∃ e ∈ p.seen, r ∈ e.definedRegs ∧ isAlloc e = false

/-! ## What is removed -/

section Removed

variable {f : IRFunction} {consumed : Finset VReg}

theorem isConsumedReg_iff {v : IRValue} :
    isConsumedReg consumed v = true ↔ ∃ r ∈ consumed, v = .register r := by
  cases v <;> simp [isConsumedReg, IRValue.asRegister]

theorem not_dropsState_of_isControl (used : List VReg) {i : IRInstr}
    (h : i.isControl = true) : dropsState used consumed i = false := by
  cases i <;> first | rfl | cases h

/-- A removed definition is the allocation of a consumed register, or defines a register that
nothing reads. -/
theorem dropsState_defines {used : List VReg} {i : IRInstr} {r : VReg}
    (h : dropsState used consumed i = true) (hr : r ∈ i.definedRegs) :
    (∃ size, i = .alloc (.register r) size) ∧ r ∈ consumed ∨ r ∉ used := by
  cases i with
  | alloc dst size =>
    obtain ⟨r', hmem, rfl⟩ := isConsumedReg_iff.mp h
    obtain rfl : r = r' := by simpa [IRInstr.definedRegs] using hr
    exact Or.inl ⟨⟨size, rfl⟩, hmem⟩
  | load dst addr off ty =>
    right
    simp only [dropsState, Bool.and_eq_true] at h
    obtain rfl : dst = .register r := IRValue.mem_regs.mp hr
    simpa [IRValue.asRegister] using h.2
  | store value addr off ty => cases hr
  | _ => cases h

theorem path_block {p : Point} (h : f.Path p) :
    p.block ∈ f.blocks ∧ ∀ i ∈ p.rest, i ∈ p.block.instructions := by
  induction h with
  | entry hb => exact ⟨List.mem_of_mem_head? hb, fun _ hi => hi⟩
  | next _ _ ih => exact ⟨ih.1, fun i hi => ih.2 i (List.mem_cons_of_mem _ hi)⟩
  | leave _ _ hb _ => exact ⟨List.mem_of_find?_eq_some hb, fun _ hi => hi⟩
  | exit _ _ hb _ => exact ⟨List.mem_of_find?_eq_some hb, fun _ hi => hi⟩

theorem mem_usedRegs_of_reads {i : IRInstr} {is : List IRInstr} {p : Point} {r : VReg}
    (hp : p.rest = i :: is) (hr : r ∈ p.reads) : r ∈ i.usedRegs := by
  unfold Point.reads at hr
  rw [hp] at hr
  cases i with
  | phi dst incoming =>
    simp only [List.mem_flatMap, Option.mem_toList, IRValue.mem_regs] at hr
    obtain ⟨e, he, hreg⟩ := hr
    refine List.mem_filterMap.mpr ⟨e, List.mem_of_find?_eq_some he, ?_⟩
    rw [hreg]
    rfl
  | _ => exact hr

theorem globallyUsed_of_reads {p : Point} (h : f.Path p) {r : VReg} (hr : r ∈ p.reads) :
    r ∈ globallyUsed f := by
  obtain ⟨hblock, hinstrs⟩ := path_block h
  cases hrest : p.rest with
  | nil =>
    unfold Point.reads at hr
    rw [hrest] at hr
    exact mem_globallyUsed_of_terminator hblock hr
  | cons i is =>
    exact mem_globallyUsed_of_instr hblock (hinstrs i (by simp [hrest]))
      (mem_usedRegs_of_reads hrest hr)

theorem stays_iff {e : Passed} {r : VReg} (hused : r ∈ globallyUsed f)
    (hr : r ∈ e.definedRegs) :
    e.stays (fun i => !dropsState (globallyUsed f) consumed i) = true ↔
      (r ∈ consumed → isAlloc e = false) := by
  cases e with
  | invoked dst => simp [Passed.stays, isAlloc]
  | instr i =>
    by_cases hdrop : dropsState (globallyUsed f) consumed i = true
    · refine iff_of_false (by simp [Passed.stays, hdrop]) ?_
      rcases dropsState_defines hdrop hr with ⟨⟨size, rfl⟩, hmem⟩ | hunused
      · exact fun h => absurd (h hmem) (by simp [isAlloc])
      · exact absurd hused hunused
    · refine iff_of_true (by simp [Passed.stays, hdrop]) fun hmem => ?_
      cases i with
      | alloc dst size =>
        obtain rfl : dst = .register r := IRValue.mem_regs.mp hr
        exact absurd (isConsumedReg_iff.mpr ⟨r, hmem, rfl⟩) hdrop
      | _ => rfl

end Removed

/-! ## Defined before use -/

/-- The result of the pass is defined before use iff the readers that stay need no allocation that
is removed. -/
theorem deadStateEliminate_definedBeforeUse (f : IRFunction) (consumed : Finset VReg)
    (hdef : f.DefinedBeforeUse) :
    (deadStateEliminate f consumed).DefinedBeforeUse ↔ ReadersKeepState f consumed := by
  by_cases hempty : consumed = ∅
  · subst hempty
    rw [deadStateEliminate, if_pos rfl]
    exact iff_of_true hdef fun p _ _ r _ hr => absurd hr (Finset.notMem_empty r)
  rw [deadStateEliminate, if_neg hempty]
  generalize hkeepdef : (fun i => !dropsState (globallyUsed f) consumed i) = keep
  have hkeep : ∀ i : IRInstr, i.isControl = true → keep i = true := by
    intro i hi
    simp [← hkeepdef, not_dropsState_of_isControl _ hi]
  have hstays (p : Point) : p.Stays keep ↔
      ∀ i ∈ p.rest.head?, dropsState (globallyUsed f) consumed i = false := by
    simp [Point.Stays, ← hkeepdef]
  constructor
  · -- a reader that stays is a reader of the result
    intro hres p hp hstay r hr hmem
    rw [← hstays] at hstay
    obtain ⟨hreads, hseen⟩ := Point.reads_filterInstrs hstay
    rcases hres _ (path_filter hkeep hp) r (hreads ▸ hr) with hparam | ⟨e, he, hdefs⟩
    · exact Or.inl hparam
    · rw [hseen, List.mem_filter, ← hkeepdef] at he
      exact Or.inr ⟨e, he.1, hdefs,
        (stays_iff (globallyUsed_of_reads hp hr) hdefs).mp he.2 hmem⟩
  · -- a reader of the result is a reader that stays
    intro hcond q hq r hr
    obtain ⟨p, hp, rfl, hstay⟩ := filter_path hkeep hq
    obtain ⟨hreads, hseen⟩ := Point.reads_filterInstrs hstay
    rw [hreads] at hr
    rw [hseen]
    have hused := globallyUsed_of_reads hp hr
    have hkept : r ∈ f.params.flatMap IRValue.regs ∨
        ∃ e ∈ p.seen, r ∈ e.definedRegs ∧ (r ∈ consumed → isAlloc e = false) := by
      by_cases hmem : r ∈ consumed
      · rcases hcond p hp ((hstays p).mp hstay) r hr hmem with hparam | ⟨e, he, hdefs, halloc⟩
        · exact Or.inl hparam
        · exact Or.inr ⟨e, he, hdefs, fun _ => halloc⟩
      · rcases hdef p hp r hr with hparam | ⟨e, he, hdefs⟩
        · exact Or.inl hparam
        · exact Or.inr ⟨e, he, hdefs, fun h => absurd h hmem⟩
    rcases hkept with hparam | ⟨e, he, hdefs, halloc⟩
    · exact Or.inl hparam
    · refine Or.inr ⟨e, List.mem_filter.mpr ⟨he, ?_⟩, hdefs⟩
      rw [← hkeepdef]
      exact (stays_iff hused hdefs).mpr halloc

/-- A state that is written and given up. -/
def writtenState : IRFunction where
  name := "written"
  blocks := [{ label := "entry"
               instructions := [.alloc (.register 0) 16, .store (.immediate 7) (.register 0) 0 .i64]
               terminator := .ret [] }]

theorem writtenState_definedBeforeUse : writtenState.DefinedBeforeUse :=
  definedBeforeUse_of_single rfl rfl (by decide) (by decide)

theorem deadStateEliminate_writtenState :
    writtenState.DefinedBeforeUse ∧
      ((deadStateEliminate writtenState {0}).DefinedBeforeUse ↔
        ReadersKeepState writtenState {0}) :=
  ⟨writtenState_definedBeforeUse,
    deadStateEliminate_definedBeforeUse _ _ writtenState_definedBeforeUse⟩

/-- A state whose second word is returned by address. -/
def addressedState : IRFunction where
  name := "addressed"
  blocks := [{ label := "entry"
               instructions := [.alloc (.register 0) 16,
                 .offset (.register 1) (.register 0) (.immediate 8)]
               terminator := .ret [.register 1] }]

theorem not_deadStateEliminate_definedBeforeUse :
    ¬∀ (f : IRFunction) (consumed : Finset VReg), f.DefinedBeforeUse →
      (deadStateEliminate f consumed).DefinedBeforeUse := by
  intro h
  have hdef : addressedState.DefinedBeforeUse :=
    definedBeforeUse_of_single rfl rfl (by decide) (by decide)
  rcases h addressedState {0} hdef _ (.entry rfl) 0 (by decide) with hparam | ⟨e, he, -⟩
  · cases hparam
  · cases he

end Vuma.Opt
