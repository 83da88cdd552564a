import Vuma.IR.Lockstep

/-!
# Dead code elimination

`dead_code_eliminate` of `opt.rs` walks every block backwards and keeps an instruction when it
defines a register that is used somewhere in the function, or when `has_side_effects` says so. The
classification ends in `_ => false`, and four effectful instructions fall through to it: `BulkCopy`,
`BulkFill`, `CallIndirect` and `Transform`, which `ir.rs` documents as effectful. The pass preserves
what a run does as long as it drops none of them (`deadCodeEliminate_preserves`); these four are the
only instructions it may drop whose absence can be noticed (`silent_iff_harmless`).
-/

namespace Vuma.Opt

open IR

def hasSideEffects : IRInstr → Bool
  | .store .. | .atomicStore .. | .atomicLoad .. | .atomicCas .. | .call .. | .syscall .. | .free _
  | .ret _ | .branch _ | .condBranch .. | .channelOpen .. | .channelSend .. | .channelRecv ..
  | .channelRecvTimeout .. | .channelRecvResult .. | .channelClose _ | .starkProof .. => true
  | .binOp op .. => op == .sdiv || op == .udiv || op == .srem || op == .urem
  | .div .. => true
  | _ => false

/-- Phase 1: the registers read by some instruction or terminator. -/
def globallyUsed (f : IRFunction) : List VReg :=
  f.blocks.flatMap fun b => b.instructions.flatMap IRInstr.usedRegs ++ b.terminator.usedRegs

/-- The reverse walk of phase 2 over the reversed instructions. -/
def dceWalk : List IRInstr → List VReg → List IRInstr
  | [], _ => []
  | i :: is, used =>
    if i.definedRegs.any used.contains || hasSideEffects i then i :: dceWalk is (used ++ i.usedRegs)
    else dceWalk is used

/-- The registers the walk of a block starts with. -/
def dceSeed (global : List VReg) (b : IRBlock) : List VReg :=
  b.terminator.usedRegs ++ (b.instructions.flatMap IRInstr.definedRegs).filter global.contains

/-- Phase 2 for one block. -/
def dceBlock (global : List VReg) (b : IRBlock) : IRBlock :=
  { b with instructions := (dceWalk b.instructions.reverse (dceSeed global b)).reverse }

def deadCodeEliminate (f : IRFunction) : IRFunction := f.mapBlocks (dceBlock (globallyUsed f))

/-! ## What the walk keeps -/

/-- The instruction defines no register that is used anywhere, and counts as free of side
effects. -/
def isDead (global : List VReg) (i : IRInstr) : Bool :=
  !(i.definedRegs.any global.contains || hasSideEffects i)

theorem dceWalk_eq_filter (global : List VReg) (is : List IRInstr) (used : List VReg)
    (hused : ∀ r ∈ used, r ∈ global) (hreads : ∀ i ∈ is, ∀ r ∈ i.usedRegs, r ∈ global)
    (hdefs : ∀ i ∈ is, ∀ r ∈ i.definedRegs, r ∈ global → r ∈ used) :
    dceWalk is used = is.filter (fun i => !isDead global i) := by
  induction is generalizing used with
  | nil => rfl
  | cons i is ih =>
    -- the seed makes the two tests agree on every register the block defines
    have hany : i.definedRegs.any used.contains = i.definedRegs.any global.contains := by
      rw [Bool.eq_iff_iff, List.any_eq_true, List.any_eq_true]
      constructor
      · rintro ⟨r, hr, hu⟩
        exact ⟨r, hr, by simpa using hused r (by simpa using hu)⟩
      · rintro ⟨r, hr, hg⟩
        exact ⟨r, hr, by simpa using hdefs i List.mem_cons_self r hr (by simpa using hg)⟩
    have hreads' : ∀ j ∈ is, ∀ r ∈ j.usedRegs, r ∈ global :=
      fun j hj => hreads j (List.mem_cons_of_mem _ hj)
    rw [dceWalk, hany, List.filter_cons, isDead, Bool.not_not]
    split
    · rw [ih (used ++ i.usedRegs) ?_ hreads' ?_]
      · intro r hr
        rcases List.mem_append.mp hr with hr | hr
        · exact hused r hr
        · exact hreads i List.mem_cons_self r hr
      · intro j hj r hr hg
        exact List.mem_append_left _ (hdefs j (List.mem_cons_of_mem _ hj) r hr hg)
    · exact ih used hused hreads' (fun j hj => hdefs j (List.mem_cons_of_mem _ hj))

theorem mem_globallyUsed_of_instr {f : IRFunction} {b : IRBlock} (hb : b ∈ f.blocks) {i : IRInstr}
    (hi : i ∈ b.instructions) {r : VReg} (hr : r ∈ i.usedRegs) : r ∈ globallyUsed f :=
  List.mem_flatMap.mpr ⟨b, hb, List.mem_append_left _ (List.mem_flatMap.mpr ⟨i, hi, hr⟩)⟩

theorem mem_globallyUsed_of_terminator {f : IRFunction} {b : IRBlock} (hb : b ∈ f.blocks)
    {r : VReg} (hr : r ∈ b.terminator.usedRegs) : r ∈ globallyUsed f :=
  List.mem_flatMap.mpr ⟨b, hb, List.mem_append_right _ hr⟩

theorem dceBlock_instructions {f : IRFunction} {b : IRBlock} (hb : b ∈ f.blocks) :
    (dceBlock (globallyUsed f) b).instructions =
      b.instructions.filter (fun i => !isDead (globallyUsed f) i) := by
  have hwalk := dceWalk_eq_filter (globallyUsed f) b.instructions.reverse
    (dceSeed (globallyUsed f) b) ?_ ?_ ?_
  · simp only [dceBlock, hwalk, List.filter_reverse, List.reverse_reverse]
  · intro r hr
    rcases List.mem_append.mp hr with hr | hr
    · exact mem_globallyUsed_of_terminator hb hr
    · simpa using (List.mem_filter.mp hr).2
  · intro i hi r hr
    exact mem_globallyUsed_of_instr hb (List.mem_reverse.mp hi) hr
  · intro i hi r hr hg
    refine List.mem_append_right _ (List.mem_filter.mpr ⟨?_, by simpa using hg⟩)
    exact List.mem_flatMap.mpr ⟨i, List.mem_reverse.mp hi, hr⟩

/-! ## What the classification misses -/

/-- Executing the instruction does nothing but write its destinations. -/
def Silent (M : Machine) (i : IRInstr) : Prop :=
  ∀ ev edge pred w, ∃ ws, i.effect M ev edge pred w = .next ws w

/-- The instructions that `has_side_effects` does not list although they have an effect: bulk memory
operations, indirect calls, and transforms between layouts of different sizes. -/
def harmless (M : Machine) : IRInstr → Prop
  | .bulkCopy .. | .bulkFill .. | .callIndirect .. => False
  | .transform _ _ fromLayout toLayout => M.layoutSize fromLayout = M.layoutSize toLayout
  | _ => True

theorem binOp_isSome {M : Machine} {op : BinOpKind} (ty : Option IRType) (a b : Word)
    (h : (op == .sdiv || op == .udiv || op == .srem || op == .urem) = false) :
    ∃ v, M.binOp op ty a b = some v := by
  have hint : ∃ v, intBinOp op ty a b = some v := by
    cases op <;> first | exact ⟨_, rfl⟩ | simp at h
  unfold Machine.binOp
  split
  · exact ⟨_, rfl⟩
  · exact ⟨_, rfl⟩
  · exact hint

theorem silent_of_harmless {M : Machine} {i : IRInstr} (hs : hasSideEffects i = false)
    (h : harmless M i) : Silent M i := by
  intro ev edge pred w
  cases i with
  | binOp op dst lhs rhs ty =>
    obtain ⟨v, hv⟩ := binOp_isSome (M := M) ty (ev lhs) (ev rhs) hs
    exact ⟨[(dst, v)], by simp only [IRInstr.effect, hv]⟩
  | phi dst incoming =>
    simp only [IRInstr.effect]
    split <;> exact ⟨_, rfl⟩
  | alloc dst size => cases dst <;> exact ⟨_, rfl⟩
  | transform dst src fromLayout toLayout => exact ⟨_, if_pos h⟩
  | bulkCopy _ _ _ | bulkFill _ _ _ | callIndirect _ _ _ => exact h.elim
  | load _ _ _ _ | unaryOp _ _ _ _ | cast _ _ _ _ _ | getAddress _ _ | offset _ _ _
  | select _ _ _ _ _ | add _ _ _ _ | sub _ _ _ _ | mul _ _ _ _ | cmp _ _ _ _ _
  | ctSelect _ _ _ _ _ | ctEq _ _ _ _ | vectorOp _ _ _ _ _ _ => exact ⟨_, rfl⟩
  | _ => simp [hasSideEffects] at hs

/-- Among the instructions that `has_side_effects` clears, the harmless ones are exactly those whose
absence cannot be noticed. -/
theorem silent_iff_harmless {M : Machine} {i : IRInstr} (hs : hasSideEffects i = false) :
    Silent M i ↔ harmless M i := by
  refine ⟨fun h => ?_, silent_of_harmless hs⟩
  -- an effect shows in the trace, or as a trap
  obtain ⟨ws, hw⟩ := h (fun _ => 0) (fun _ => 0) none ⟨fun _ => 0, []⟩
  cases i with
  | bulkCopy dst src len => simp [IRInstr.effect, World.bulkCopy] at hw
  | bulkFill dst val len => simp [IRInstr.effect, World.bulkFill] at hw
  | callIndirect dst ptr args =>
    simp only [IRInstr.effect, Machine.external] at hw
    split at hw <;> simp at hw
  | transform dst src fromLayout toLayout =>
    simp only [IRInstr.effect] at hw
    split at hw
    · assumption
    · cases hw
  | _ => trivial

theorem silent_iff_harmless_bulkCopy :
    Silent default (.bulkCopy (.register 0) (.register 1) (.register 2)) ↔ False :=
  silent_iff_harmless rfl

/-! ## Preservation -/

theorem execInstrs_filter_agree {M : Machine} {P : VReg → Prop} {drop : IRInstr → Bool}
    {label : String} {pred : Option String} {edge edge' : Regs}
    (hedge : ∀ r, P r → edge r = edge' r) (is : List IRInstr)
    (hread : ∀ i ∈ is, ∀ r ∈ i.usedRegs, P r)
    (hdrop : ∀ i ∈ is, drop i = true → Silent M i ∧ ∀ r, P r → r ∉ i.definedRegs)
    {σ τ : Regs} (w : World) (hP : ∀ r, P r → σ r = τ r) :
    (execInstrs M label pred edge is σ w).AgreeOn P
      (execInstrs M label pred edge' (is.filter (fun i => !drop i)) τ w) := by
  induction is generalizing σ τ w with
  | nil => exact ⟨rfl, hP⟩
  | cons i is ih =>
    have hread' : ∀ j ∈ is, ∀ r ∈ j.usedRegs, P r := fun j hj =>
      hread j (List.mem_cons_of_mem _ hj)
    have hdrop' : ∀ j ∈ is, drop j = true → Silent M j ∧ ∀ r, P r → r ∉ j.definedRegs :=
      fun j hj => hdrop j (List.mem_cons_of_mem _ hj)
    cases hd : drop i with
    | true =>
      -- only the first run executes `i`
      obtain ⟨hsilent, hdef⟩ := hdrop i List.mem_cons_self hd
      obtain ⟨ws, hws⟩ := hsilent (·.eval M σ) (·.eval M edge) pred w
      rw [List.filter_cons_of_neg (by simp [hd]), execInstrs_cons, hws]
      refine ih hread' hdrop' w (fun r hr => ?_)
      rw [IRInstr.effect_frame hws (hdef r hr)]
      exact hP r hr
    | false =>
      rw [List.filter_cons_of_pos (by simp [hd]), execInstrs_cons, execInstrs_cons,
        IRInstr.effect_congr M pred w i (fun r hr => hP r (hread i List.mem_cons_self r hr))
          (fun r hr => hedge r (hread i List.mem_cons_self r hr))]
      exact Flow.andThen_agree (Effect.flow_agree _ hP) (fun r hr => hr)
        (fun σ' τ' w' hP' => ih hread' hdrop' w' hP')

theorem not_mem_definedRegs_of_isDead {global : List VReg} {i : IRInstr}
    (h : isDead global i = true) : hasSideEffects i = false ∧ ∀ r ∈ global, r ∉ i.definedRegs := by
  simp only [isDead, Bool.not_eq_true', Bool.or_eq_false_iff, List.any_eq_false] at h
  exact ⟨h.2, fun r hg hr => h.1 r hr (by simpa using hg)⟩

/-- The pass preserves every run of a function of which it drops no bulk memory operation, no
indirect call, and no transform between layouts of different sizes. -/
theorem deadCodeEliminate_preserves (M : Machine) (f : IRFunction)
    (h : ∀ b ∈ f.blocks, ∀ i ∈ b.instructions, isDead (globallyUsed f) i = true → harmless M i)
    (regs : Regs) (w : World) (n : Nat) :
    ((deadCodeEliminate f).run M regs w n).obs = (f.run M regs w n).obs := by
  refine f.mapBlocks_obs (P := (· ∈ globallyUsed f)) (g := dceBlock (globallyUsed f))
    (fun _ => rfl) ?_ regs w n
  intro b hb pred σ τ w hP
  rw [IRBlock.exec, IRBlock.exec, dceBlock_instructions hb]
  refine Flow.finish_agree ?_ (fun σ' τ' w' hP' => ?_)
  · refine execInstrs_filter_agree hP b.instructions
      (fun i hi r hr => mem_globallyUsed_of_instr hb hi hr) (fun i hi hd => ?_) w hP
    obtain ⟨hs, hdef⟩ := not_mem_definedRegs_of_isDead hd
    exact ⟨silent_of_harmless hs (h b hb i hi hd), hdef⟩
  · exact IRTerminator.exec_agree M b.label w' b.terminator hP'
      (fun r hr => mem_globallyUsed_of_terminator hb hr)

/-- A store survives, the unused sum before it goes, and no run changes. -/
theorem deadCodeEliminate_preserves_store :
    let f : IRFunction :=
      { name := "f"
        blocks := [{ label := "entry"
                     instructions := [.add (.register 1) (.register 0) (.immediate 1) none,
                       .store (.register 0) (.address 64) 0 .i64]
                     terminator := .ret [] }] }
    deadCodeEliminate f =
        { f with
          blocks := [{ label := "entry"
                       instructions := [.store (.register 0) (.address 64) 0 .i64]
                       terminator := .ret [] }] } ∧
      ∀ M regs w n, ((deadCodeEliminate f).run M regs w n).obs = (f.run M regs w n).obs := by
  refine ⟨by decide, fun M => deadCodeEliminate_preserves M _ ?_⟩
  intro b hb i hi _
  simp only [List.mem_singleton] at hb
  subst hb
  simp only [List.mem_cons, List.not_mem_nil, or_false] at hi
  rcases hi with rfl | rfl <;> trivial

/-- A function whose only purpose is to clear a buffer loses its `BulkFill`. -/
theorem deadCodeEliminate_drops_bulkFill :
    let f : IRFunction :=
      { name := "clear"
        params := [.register 0]
        blocks := [{ label := "entry"
                     instructions := [.bulkFill (.register 0) (.immediate 0) (.immediate 16)]
                     terminator := .ret [] }] }
    ¬ ∀ M regs w n, ((deadCodeEliminate f).run M regs w n).obs = (f.run M regs w n).obs := by
  intro f h
  have htrace := congrArg (fun o => o.2.2) (h default (fun _ => 4096) ⟨fun _ => 1, []⟩ 1)
  exact absurd htrace (by decide)

end Vuma.Opt
