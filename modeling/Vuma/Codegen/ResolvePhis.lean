import Vuma.Codegen.ParallelCopies
import Vuma.IR.Liveness
import Vuma.IR.Lockstep

/-!
# Resolving phis

`IRBuilder::resolve_phis` of `scg_to_ir.rs` replaces the phis of a function by copies at the end of
the predecessors: the copies of all phis that name a block are sequentialised together and inserted
before its trailing `Branch` or `CondBranch`.

Four things can go wrong, and each is a condition of `SafeCopies`: the sequentialisation itself, when
a source is also a destination (see `ParallelCopies`); a copy that overwrites the register the exit
of the block still reads; a copy that overwrites a register which is live on an edge that does not
lead to the phi (the lost copy: the copies run on every outgoing edge); and an `Invoke`, whose result
is written after the copies have read it. Without these the pass preserves every run
(`resolvePhis_preserves`).
-/

namespace Vuma.Codegen

open IR

/-- `all_phis`: the destination and the entries of every phi of the function. -/
def allPhis (f : IRFunction) : List (IRValue × List (IRValue × String)) :=
  f.blocks.flatMap fun b => b.instructions.filterMap fun
    | .phi dst incoming => some (dst, incoming)
    | _ => none

/-- `copies_by_pred[pred]`: an entry whose value is the destination itself is skipped. -/
def copiesFor (f : IRFunction) (pred : String) : List Copy :=
  (allPhis f).flatMap fun p =>
    (p.2.filter (fun e => e.2 == pred && e.1 != p.1)).map fun e => (p.1, e.1)

/-- The keys of `copies_by_pred`, sorted. -/
def sortedPreds (f : IRFunction) : List String :=
  ((allPhis f).flatMap fun p =>
    (p.2.filter (fun e => e.1 != p.1)).map Prod.snd).dedup.insertionSort (· ≤ ·)

/-- Insert the copies at the end of the block, before a trailing `Branch` or `CondBranch`. -/
def insertCopies (emitted : List IRInstr) (b : IRBlock) : IRBlock :=
  match b.instructions.getLast? with
  | some (.branch target) =>
    { b with instructions := b.instructions.dropLast ++ emitted ++ [.branch target] }
  | some (.condBranch cond t f) =>
    { b with instructions := b.instructions.dropLast ++ emitted ++ [.condBranch cond t f] }
  | _ => { b with instructions := b.instructions ++ emitted }

/-- One iteration of the loop over the predecessors; the temporaries are registered in `vregs`. -/
def resolveStep (f : IRFunction) (st : IRFunction × VReg) (pred : String) : IRFunction × VReg :=
  match f.labelToIdx pred with
  | none => st
  | some idx =>
    let emitted := emitParallelCopies (copiesFor f pred) st.2
    ({ st.1 with
        vregs := st.1.vregs ++ (List.range' st.2 (emitted.2 - st.2)).map fun id => { id := id }
        blocks := st.1.blocks.modify idx (insertCopies emitted.1) }, emitted.2)

/-- The final `retain`. -/
def dropPhis (b : IRBlock) : IRBlock :=
  { b with instructions := b.instructions.filter (fun i => !i.isPhi) }

/-- `IRBuilder::resolve_phis`: the new function and the next free register. -/
def resolvePhis (f : IRFunction) (nextVreg : VReg) : IRFunction × VReg :=
  let st := (sortedPreds f).foldl (resolveStep f) (f, nextVreg)
  (st.1.mapBlocks dropPhis, st.2)

/-! ## The domain and the condition -/

/-- Functions as `resolve_phis` gets them: labels are unique, every register is defined once, phis
sit at the block heads with one entry per predecessor, control instructions only end a block, and
the next free register is above all registers in use. -/
structure PhiForm (f : IRFunction) (nextVreg : VReg) : Prop where
  labels_nodup : (f.blocks.map (·.label)).Nodup
  phis_first : ∀ b ∈ f.blocks, ∀ i ∈ b.rest, i.isPhi = false
  control_last : ∀ b ∈ f.blocks, ∀ i ∈ b.instructions.dropLast, i.isControl = false
  ssa : (f.blocks.flatMap fun b =>
    b.instructions.flatMap IRInstr.definedRegs ++ b.terminator.definedRegs).Nodup
  phi_dst : ∀ p ∈ allPhis f, ∃ r, p.1 = .register r
  incoming_nodup : ∀ p ∈ allPhis f, (p.2.map Prod.snd).Nodup
  incoming_pred : ∀ c ∈ f.blocks, ∀ dst incoming, .phi dst incoming ∈ c.phis →
    ∀ b ∈ f.blocks, c.label ∈ b.exitLabels → b.label ∈ incoming.map Prod.snd
  fresh_instr : ∀ b ∈ f.blocks, ∀ i ∈ b.instructions, ∀ r,
    r ∈ i.definedRegs ∨ r ∈ i.usedRegs → r < nextVreg
  fresh_terminator : ∀ b ∈ f.blocks, ∀ r ∈ b.terminator.usedRegs, r < nextVreg

/-- The copies placed in `b` are harmless: no source is a destination, the exit does not read a
destination, no destination is live on an edge that does not lead to its phi, and an `Invoke` does
not define a source. -/
structure SafeCopies (f : IRFunction) (b : IRBlock) : Prop where
  disjoint : ∀ c ∈ copiesFor f b.label, ∀ d ∈ copiesFor f b.label, c.2 ≠ d.1
  exit : ∀ c ∈ copiesFor f b.label, ∀ r ∈ b.exitRegs, c.1 ≠ .register r
  edges : ∀ s ∈ b.exitLabels, ∀ t, f.blockAt s = some t → ∀ r, LiveIn f s r → r ∉ t.phiDsts →
    ∀ c ∈ copiesFor f b.label, c.1 ≠ .register r
  invoke : ∀ r ∈ b.terminator.definedRegs, ∀ c ∈ copiesFor f b.label, c.2 ≠ .register r

/-! ## The resolved blocks -/

@[simp] theorem insertCopies_label (emitted : List IRInstr) (b : IRBlock) :
    (insertCopies emitted b).label = b.label := by
  unfold insertCopies
  split <;> rfl

@[simp] theorem insertCopies_terminator (emitted : List IRInstr) (b : IRBlock) :
    (insertCopies emitted b).terminator = b.terminator := by
  unfold insertCopies
  split <;> rfl

theorem insertCopies_nil (b : IRBlock) : insertCopies [] b = b := by
  unfold insertCopies
  split
  · rename_i target h
    rw [List.append_nil, List.dropLast_append_getLast? _ h]
  · rename_i cond t f h
    rw [List.append_nil, List.dropLast_append_getLast? _ h]
  · rw [List.append_nil]

/-- With unique labels, modifying the block at the index of a label is modifying the block that
carries it. -/
theorem modify_labelToIdx {f : IRFunction} (hnd : (f.blocks.map (·.label)).Nodup) {l : String}
    {i : Nat} (h : f.labelToIdx l = some i) {bs : List IRBlock}
    (hbs : bs.map (·.label) = f.blocks.map (·.label)) (g : IRBlock → IRBlock) :
    bs.modify i g = bs.map (fun b => if b.label = l then g b else b) := by
  obtain ⟨b₀, hb₀, hl₀⟩ := labelToIdx_some h
  have hi : (bs.map (·.label))[i]? = some l := by
    rw [hbs, List.getElem?_map, hb₀, Option.map_some, hl₀]
  refine List.ext_getElem? (fun j => ?_)
  rw [List.getElem?_modify, List.getElem?_map]
  cases hj : bs[j]? with
  | none => rfl
  | some b =>
    have hj' : (bs.map (·.label))[j]? = some b.label := by rw [List.getElem?_map, hj]; rfl
    have hiff : i = j ↔ b.label = l := by
      constructor
      · rintro rfl
        rw [hi] at hj'
        exact (Option.some.inj hj').symm
      · intro e
        rw [← hbs] at hnd
        have hlt : i < (bs.map (·.label)).length := (List.getElem?_eq_some_iff.mp hi).1
        exact (List.getElem?_inj hlt hnd).mp (by rw [hi, hj', e])
    by_cases he : i = j
    · simp [he, hiff.mp he]
    · simp [he, mt hiff.mpr he]

theorem emitParallelCopies_next_le (copies : List Copy) (next : VReg) :
    next ≤ (emitParallelCopies copies next).2 :=
  copyLoop_next_le _ copies next

/-- The loop over the predecessors: each block gets the copies for its own label, with temporaries
from some `k` on. -/
theorem foldl_resolveStep {f : IRFunction} (hnd : (f.blocks.map (·.label)).Nodup)
    (ps : List String) (hps : ps.Nodup) (st : IRFunction × VReg)
    (hst : st.1.blocks.map (·.label) = f.blocks.map (·.label)) :
    ∃ k : String → VReg, (∀ l, st.2 ≤ k l) ∧ (ps.foldl (resolveStep f) st).1.blocks =
      st.1.blocks.map (fun b => if b.label ∈ ps then
        insertCopies (emitParallelCopies (copiesFor f b.label) (k b.label)).1 b else b) := by
  induction ps generalizing st with
  | nil => exact ⟨fun _ => st.2, fun _ => Nat.le_refl _, by simp⟩
  | cons p ps ih =>
    rw [List.nodup_cons] at hps
    -- one iteration, as a map over the blocks
    have hstep : (resolveStep f st p).1.blocks = st.1.blocks.map (fun b => if b.label = p then
        insertCopies (emitParallelCopies (copiesFor f p) st.2).1 b else b) ∧
        st.2 ≤ (resolveStep f st p).2 := by
      unfold resolveStep
      cases hi : f.labelToIdx p with
      | none =>
        refine ⟨?_, Nat.le_refl _⟩
        have hno : ∀ b ∈ st.1.blocks, b.label ≠ p := by
          intro b hb e
          have : p ∈ f.blocks.map (·.label) := by
            rw [← hst, ← e]
            exact List.mem_map_of_mem hb
          obtain ⟨b', hb', e'⟩ := List.mem_map.mp this
          exact labelToIdx_none hi b' hb' e'
        symm
        refine (List.map_congr_left (fun b hb => ?_)).trans (List.map_id _)
        simp [hno b hb]
      | some idx =>
        exact ⟨modify_labelToIdx hnd hi hst _, emitParallelCopies_next_le _ _⟩
    have hlabels : (resolveStep f st p).1.blocks.map (·.label) = f.blocks.map (·.label) := by
      rw [hstep.1, List.map_map, ← hst]
      refine List.map_congr_left (fun b _ => ?_)
      simp only [Function.comp]
      split <;> simp
    obtain ⟨k, hk, hfold⟩ := ih hps.2 (resolveStep f st p) hlabels
    refine ⟨fun l => if l = p then st.2 else k l, fun l => ?_, ?_⟩
    · by_cases hl : l = p
      · simp [hl]
      · simpa [hl] using Nat.le_trans hstep.2 (hk l)
    · rw [List.foldl_cons, hfold, hstep.1, List.map_map]
      refine List.map_congr_left (fun b _ => ?_)
      simp only [Function.comp]
      by_cases hb : b.label = p
      · simp [hb, hps.1]
      · simp [hb]

/-- The block that `resolve_phis` makes of `b`, with temporaries from `k` on. -/
def resolveBlock (f : IRFunction) (k : VReg) (b : IRBlock) : IRBlock :=
  dropPhis (insertCopies (emitParallelCopies (copiesFor f b.label) k).1 b)

theorem copiesFor_eq_nil {f : IRFunction} {l : String} (h : l ∉ sortedPreds f) :
    copiesFor f l = [] := by
  simp only [copiesFor, List.flatMap_eq_nil_iff, List.map_eq_nil_iff, List.filter_eq_nil_iff]
  intro p hp e he hsel
  simp only [Bool.and_eq_true, beq_iff_eq] at hsel
  refine h ?_
  simp only [sortedPreds, List.mem_insertionSort, List.mem_dedup, List.mem_flatMap]
  exact ⟨p, hp, List.mem_map.mpr ⟨e, List.mem_filter.mpr ⟨he, hsel.2⟩, hsel.1⟩⟩

theorem resolvePhis_blocks {f : IRFunction} (hnd : (f.blocks.map (·.label)).Nodup)
    (nextVreg : VReg) : ∃ k : String → VReg, (∀ l, nextVreg ≤ k l) ∧
      (resolvePhis f nextVreg).1.blocks = f.blocks.map (fun b => resolveBlock f (k b.label) b) := by
  have hps : (sortedPreds f).Nodup :=
    (List.perm_insertionSort _ _).nodup_iff.mpr (List.nodup_dedup _)
  obtain ⟨k, hk, hblocks⟩ := foldl_resolveStep hnd (sortedPreds f) hps (f, nextVreg) rfl
  refine ⟨k, hk, ?_⟩
  simp only [resolvePhis, IRFunction.mapBlocks, hblocks, List.map_map]
  refine List.map_congr_left (fun b _ => ?_)
  simp only [Function.comp, resolveBlock]
  split
  · rfl
  · rename_i hb
    rw [copiesFor_eq_nil hb]
    exact congrArg dropPhis (insertCopies_nil b).symm

/-! ## The copies of a block -/

theorem mem_allPhis {f : IRFunction} {p : IRValue × List (IRValue × String)} :
    p ∈ allPhis f ↔ ∃ b ∈ f.blocks, .phi p.1 p.2 ∈ b.instructions := by
  simp only [allPhis, List.mem_flatMap, List.mem_filterMap]
  constructor
  · rintro ⟨b, hb, i, hi, hp⟩
    cases i with
    | phi dst incoming =>
      cases hp
      exact ⟨b, hb, hi⟩
    | _ => cases hp
  · rintro ⟨b, hb, hi⟩
    exact ⟨b, hb, _, hi, rfl⟩

theorem mem_copiesFor {f : IRFunction} {l : String} {c : Copy} :
    c ∈ copiesFor f l ↔ ∃ p ∈ allPhis f, p.1 = c.1 ∧ (c.2, l) ∈ p.2 ∧ c.2 ≠ c.1 := by
  simp only [copiesFor, List.mem_flatMap, List.mem_map, List.mem_filter, Bool.and_eq_true,
    beq_iff_eq, bne_iff_ne]
  constructor
  · rintro ⟨p, hp, e, ⟨he, hl, hne⟩, rfl⟩
    exact ⟨p, hp, rfl, hl ▸ he, hne⟩
  · rintro ⟨p, hp, he, hc, hne⟩
    exact ⟨p, hp, (c.2, l), ⟨hc, rfl, by rw [he]; exact hne⟩, by rw [he]⟩

theorem phiDefs_sublist (is : List IRInstr) :
    ((is.filterMap fun
      | .phi dst incoming => some (dst, incoming)
      | _ => none).flatMap fun p : IRValue × List (IRValue × String) => p.1.regs).Sublist
      (is.flatMap IRInstr.definedRegs) := by
  induction is with
  | nil => exact List.Sublist.refl _
  | cons i is ih =>
    cases i with
    | phi dst incoming =>
      simp only [List.filterMap_cons, List.flatMap_cons]
      exact List.Sublist.append_left ih _
    | _ =>
      simp only [List.filterMap_cons, List.flatMap_cons]
      exact ih.trans (List.sublist_append_right _ _)

theorem PhiForm.phi_nodup {f : IRFunction} {next : VReg} (h : PhiForm f next) :
    ((allPhis f).map Prod.fst).Nodup := by
  have hsub : ((allPhis f).flatMap fun p => p.1.regs).Sublist (f.blocks.flatMap fun b =>
      b.instructions.flatMap IRInstr.definedRegs ++ b.terminator.definedRegs) := by
    rw [allPhis, List.flatMap_assoc]
    generalize f.blocks = bs
    induction bs with
    | nil => exact List.Sublist.refl _
    | cons b bs ih =>
      rw [List.flatMap_cons, List.flatMap_cons]
      exact ((phiDefs_sublist b.instructions).trans (List.sublist_append_left _ _)).append ih
  have hmap : (allPhis f).map Prod.fst =
      ((allPhis f).flatMap fun p => p.1.regs).map IRValue.register := by
    have hdst := h.phi_dst
    generalize allPhis f = ps at hdst
    induction ps with
    | nil => rfl
    | cons p ps ih =>
      obtain ⟨r, hr⟩ := hdst p List.mem_cons_self
      rw [List.map_cons, ih (fun q hq => hdst q (List.mem_cons_of_mem _ hq)), List.flatMap_cons,
        List.map_append, hr]
      rfl
  rw [hmap]
  exact (h.ssa.sublist hsub).map (fun a b e => IRValue.register.inj e)

/-- Two phis with the same destination are the same. -/
theorem PhiForm.phi_unique {f : IRFunction} {next : VReg} (h : PhiForm f next)
    {p q : IRValue × List (IRValue × String)} (hp : p ∈ allPhis f) (hq : q ∈ allPhis f)
    (he : p.1 = q.1) : p = q :=
  List.inj_on_of_nodup_map h.phi_nodup hp hq he

theorem PhiForm.entry_unique {f : IRFunction} {next : VReg} (h : PhiForm f next)
    {p : IRValue × List (IRValue × String)} (hp : p ∈ allPhis f) {u v : IRValue} {l : String}
    (hu : (u, l) ∈ p.2) (hv : (v, l) ∈ p.2) : u = v :=
  congrArg Prod.fst (List.inj_on_of_nodup_map (h.incoming_nodup p hp) hu hv rfl)

theorem PhiForm.copies_wellFormed {f : IRFunction} {next : VReg} (h : PhiForm f next) (l : String)
    {k : VReg} (hk : next ≤ k) : WellFormed (copiesFor f l) k := by
  refine ⟨?_, ?_, ?_, ?_⟩
  · intro c hc
    obtain ⟨p, hp, he, -⟩ := mem_copiesFor.mp hc
    obtain ⟨r, hr⟩ := h.phi_dst p hp
    exact ⟨r, he ▸ hr⟩
  · rw [copiesFor, List.map_flatMap, List.nodup_flatMap]
    refine ⟨fun p hp => ?_, ?_⟩
    · -- at most one entry of a phi names `l`
      rw [List.map_map]
      have hfilter : ((p.2.filter (fun e => e.2 == l && e.1 != p.1)).map Prod.snd).Nodup :=
        (h.incoming_nodup p hp).sublist ((List.filter_sublist).map _)
      rw [List.Nodup, List.pairwise_map] at hfilter ⊢
      refine hfilter.imp_of_mem (fun {a b} ha hb hne => ?_)
      simp only [List.mem_filter, Bool.and_eq_true, beq_iff_eq] at ha hb
      exact absurd (ha.2.1.trans hb.2.1.symm) hne
    · have hnd := h.phi_nodup
      rw [List.Nodup, List.pairwise_map] at hnd
      refine hnd.imp (fun {p q} hpq => ?_)
      intro x hx hx'
      simp only [List.mem_map] at hx hx'
      obtain ⟨c, ⟨e, -, hc⟩, hx⟩ := hx
      obtain ⟨c', ⟨e', -, hc'⟩, hx'⟩ := hx'
      exact hpq (by rw [← hc] at hx; rw [← hc'] at hx'; exact hx.trans hx'.symm)
  · intro c hc
    obtain ⟨-, -, -, -, hne⟩ := mem_copiesFor.mp hc
    exact Ne.symm hne
  · intro c hc r hr
    obtain ⟨p, hp, he, hmem, -⟩ := mem_copiesFor.mp hc
    obtain ⟨b, hb, hi⟩ := mem_allPhis.mp hp
    refine Nat.lt_of_lt_of_le (h.fresh_instr b hb _ hi r ?_) hk
    rcases hr with hr | hr
    · exact .inl (IRValue.mem_regs.mpr (he.trans hr))
    · exact .inr (List.mem_filterMap.mpr ⟨_, hmem, by rw [hr]; rfl⟩)

/-! ## Blocks -/

theorem isPhi_emitParallelCopies (copies : List Copy) (next : VReg) :
    ∀ i ∈ (emitParallelCopies copies next).1, i.isPhi = false := by
  intro i hi
  obtain ⟨c, -, rfl⟩ := List.mem_map.mp hi
  rfl

/-- How control leaves a block after its straight-line part: by its trailing control instruction
`ctl`, or by its terminator. -/
inductive Exit (b : IRBlock) : List IRInstr → Prop
  | branch {target} (hlabels : b.exitLabels = [target]) : Exit b [.branch target]
  | condBranch {cond t f} (hlabels : b.exitLabels = [t, f]) (hregs : b.exitRegs = cond.regs) :
    Exit b [.condBranch cond t f]
  | terminator (hlabels : b.exitLabels = b.terminator.successorLabels)
    (hregs : b.exitRegs = b.terminator.usedRegs) : Exit b []

/-- The instructions of a resolved block: the straight-line part, the copies, the exit. A block
that ends in `Ret` keeps it in the straight-line part. -/
theorem resolveBlock_instructions {f : IRFunction} {next : VReg} (h : PhiForm f next)
    {b : IRBlock} (hb : b ∈ f.blocks) (k : VReg) :
    ∃ main ctl, b.rest = main ++ ctl ∧
      (resolveBlock f k b).instructions =
        main ++ (emitParallelCopies (copiesFor f b.label) k).1 ++ ctl ∧
      (∀ i ∈ main, i.isPhi = false) ∧ (∀ i ∈ main, i.isControl = true → ∃ vs, i = .ret vs) ∧
      (Exit b ctl ∨ ∃ vs, main.getLast? = some (.ret vs)) := by
  have hsplit := b.phis_append_rest
  have hphis : b.phis.filter (fun i => !i.isPhi) = [] := by
    refine List.filter_eq_nil_iff.mpr (fun i hi => ?_)
    simp [IRBlock.isPhi_of_mem_phis hi]
  have hkeep : ∀ is : List IRInstr, (∀ i ∈ is, i.isPhi = false) →
      is.filter (fun i => !i.isPhi) = is := by
    intro is his
    exact List.filter_eq_self.mpr (fun i hi => by simp [his i hi])
  have hem := hkeep _ (isPhi_emitParallelCopies (copiesFor f b.label) k)
  have hrest := h.phis_first b hb
  rcases List.eq_nil_or_concat b.rest with hnil | ⟨rs, i, hcat⟩
  · -- nothing but phis
    rw [hnil, List.append_nil] at hsplit
    have hlast : ∀ i, b.instructions.getLast? = some i → i.isPhi = true := fun i hi =>
      IRBlock.isPhi_of_mem_phis (b := b) (by rw [hsplit]; exact List.mem_of_getLast? hi)
    refine ⟨[], [], by rw [hnil]; rfl, ?_, by simp, by simp, .inl (.terminator ?_ ?_)⟩
    · simp only [resolveBlock, dropPhis, insertCopies]
      split
      · exact absurd (hlast _ ‹_›) (by simp [IRInstr.isPhi])
      · exact absurd (hlast _ ‹_›) (by simp [IRInstr.isPhi])
      · rw [List.filter_append, ← hsplit, hphis, hem]
        simp
    · simp only [IRBlock.exitLabels]
      split <;> first | rfl | exact absurd (hlast _ ‹_›) (by simp [IRInstr.isPhi])
    · simp only [IRBlock.exitRegs]
      split <;> first | rfl | exact absurd (hlast _ ‹_›) (by simp [IRInstr.isPhi])
  · rw [List.concat_eq_append] at hcat
    have hlast : b.instructions.getLast? = some i := by
      rw [← hsplit, hcat, ← List.append_assoc, List.getLast?_concat]
    have hdrop : b.instructions.dropLast = b.phis ++ rs := by
      rw [← hsplit, hcat, ← List.append_assoc, List.dropLast_concat]
    have hrs : ∀ j ∈ rs, j.isPhi = false := fun j hj => hrest j (by rw [hcat]; simp [hj])
    have hctl : ∀ j ∈ rs, j.isControl = false := fun j hj =>
      h.control_last b hb j (by rw [hdrop]; simp [hj])
    have hi : i.isPhi = false := hrest i (by rw [hcat]; simp)
    have hrest' := hkeep b.rest hrest
    -- the instruction is not inserted before: `Ret`, or no control instruction at all
    have happend : (∀ t, i ≠ .branch t) → (∀ c t f, i ≠ .condBranch c t f) →
        (resolveBlock f k b).instructions =
          b.rest ++ (emitParallelCopies (copiesFor f b.label) k).1 ++ [] := by
      intro hnb hnc
      simp only [resolveBlock, dropPhis, insertCopies, hlast]
      split
      · rename_i t e
        exact absurd (Option.some.inj e) (hnb t)
      · rename_i c t f' e
        exact absurd (Option.some.inj e) (hnc c t f')
      · rw [List.filter_append, ← hsplit, List.filter_append, hphis, hrest', hem]
        simp
    cases hci : i.isControl with
    | true =>
      cases i with
      | branch target =>
        refine ⟨rs, [.branch target], hcat, ?_, hrs, fun j hj hc => ?_,
          .inl (.branch (by simp [IRBlock.exitLabels, hlast]))⟩
        · simp only [resolveBlock, dropPhis, insertCopies, hlast, hdrop, List.filter_append, hphis,
            hkeep rs hrs, hem]
          simp [IRInstr.isPhi]
        · rw [hctl j hj] at hc
          cases hc
      | condBranch cond t f' =>
        refine ⟨rs, [.condBranch cond t f'], hcat, ?_, hrs, fun j hj hc => ?_,
          .inl (.condBranch (by simp [IRBlock.exitLabels, hlast])
            (by simp [IRBlock.exitRegs, hlast]))⟩
        · simp only [resolveBlock, dropPhis, insertCopies, hlast, hdrop, List.filter_append, hphis,
            hkeep rs hrs, hem]
          simp [IRInstr.isPhi]
        · rw [hctl j hj] at hc
          cases hc
      | ret vs =>
        refine ⟨b.rest, [], by simp, happend (by simp) (by simp), hrest, fun j hj hc => ?_,
          .inr ⟨vs, by rw [hcat, List.getLast?_concat]⟩⟩
        rw [hcat, List.mem_append, List.mem_singleton] at hj
        rcases hj with hj | rfl
        · rw [hctl j hj] at hc
          cases hc
        · exact ⟨vs, rfl⟩
      | _ => simp [IRInstr.isControl] at hci
    | false =>
      refine ⟨b.rest, [], by simp, happend ?_ ?_, hrest, fun j hj hc => ?_, .inl (.terminator ?_ ?_)⟩
      · rintro t rfl
        cases hci
      · rintro c t f' rfl
        cases hci
      · rw [hcat, List.mem_append, List.mem_singleton] at hj
        rcases hj with hj | rfl
        · rw [hctl j hj] at hc
          cases hc
        · rw [hci] at hc
          cases hc
      · simp only [IRBlock.exitLabels, hlast]
        cases i <;> first | rfl | cases hci
      · simp only [IRBlock.exitRegs, hlast]
        cases i <;> first | rfl | cases hci

theorem execInstrs_ret_ne_stay {M : Machine} {label : String} {pred : Option String} {edge : Regs}
    {is : List IRInstr} {vs : List IRValue} (h : is.getLast? = some (.ret vs)) {σ σ' : Regs}
    {w w' : World} : execInstrs M label pred edge is σ w ≠ .stay σ' w' := by
  rw [← List.dropLast_append_getLast? _ h, execInstrs_append]
  cases execInstrs M label pred edge is.dropLast σ w with
  | stay τ w₁ => exact fun e => IR.Flow.noConfusion e
  | leave c => exact fun e => IR.Flow.noConfusion e

theorem Exit.exec_cases {M : Machine} {b : IRBlock} {ctl : List IRInstr} (h : Exit b ctl)
    (pred : Option String) (edge edge' : Regs) {σ τ : Regs} (w : World)
    (hregs : ∀ r ∈ b.exitRegs, σ r = τ r) :
    (∃ o w',
      (execInstrs M b.label pred edge ctl σ w).finish (b.terminator.exec M b.label) = .done o w' ∧
      (execInstrs M b.label pred edge' ctl τ w).finish (b.terminator.exec M b.label) =
        .done o w') ∨
    ∃ s ∈ b.exitLabels, ∃ ws w',
      (∀ p ∈ ws, ∀ r, p.1 = .register r → r ∈ b.terminator.definedRegs) ∧
      (execInstrs M b.label pred edge ctl σ w).finish (b.terminator.exec M b.label) =
        .enter s (some b.label) (σ.writes ws) w' ∧
      (execInstrs M b.label pred edge' ctl τ w).finish (b.terminator.exec M b.label) =
        .enter s (some b.label) (τ.writes ws) w' := by
  have hno : ∀ p ∈ ([] : List (IRValue × Word)), ∀ r, p.1 = .register r →
      r ∈ b.terminator.definedRegs := fun p hp => absurd hp List.not_mem_nil
  cases h with
  | @branch target hlabels =>
    exact .inr ⟨target, by simp [hlabels], [], w, hno, rfl, rfl⟩
  | @condBranch cond t f hlabels hcond =>
    have hv : cond.eval M σ = cond.eval M τ :=
      IRValue.eval_congr M (fun r hr => hregs r (hcond ▸ hr))
    refine .inr ⟨if cond.eval M τ = 0 then f else t, ?_, [], w, hno, ?_, rfl⟩
    · rw [hlabels]
      split <;> simp
    · rw [← hv]
      rfl
  | terminator hlabels hused =>
    have := b.terminator.exec_cases M b.label w (fun r hr => hregs r (hused ▸ hr))
    rw [← hlabels] at this
    exact this

theorem PhiForm.lt_of_liveBefore {f : IRFunction} {next : VReg} (h : PhiForm f next)
    {b : IRBlock} (hb : b ∈ f.blocks) {is : List IRInstr} (his : ∀ i ∈ is, i ∈ b.instructions)
    {out : VReg → Prop} {r : VReg} (hlive : liveBefore is out r) (hout : out r → r < next) :
    r < next := by
  induction is with
  | nil => exact hout hlive
  | cons i is ih =>
    rcases hlive with hu | ⟨hl, -⟩
    · exact h.fresh_instr b hb i (his i List.mem_cons_self) r (.inr hu)
    · exact ih (fun j hj => his j (List.mem_cons_of_mem _ hj)) hl

theorem PhiForm.lt_of_exitRegs {f : IRFunction} {next : VReg} (h : PhiForm f next)
    {b : IRBlock} (hb : b ∈ f.blocks) {r : VReg} (hr : r ∈ b.exitRegs) : r < next := by
  simp only [IRBlock.exitRegs] at hr
  split at hr
  · simp at hr
  · simp at hr
  · rename_i cond t f' hlast
    exact h.fresh_instr b hb _ (List.mem_of_getLast? hlast) r (.inr hr)
  · exact h.fresh_terminator b hb r hr

theorem PhiForm.lt_of_liveIn {f : IRFunction} {next : VReg} (h : PhiForm f next) {l : String}
    {r : VReg} (hlive : LiveIn f l r) : r < next := by
  induction hlive with
  | @here l b r hb hl =>
    have hmem := List.mem_of_find?_eq_some hb
    refine h.lt_of_liveBefore hmem (fun i hi => ?_) hl (h.lt_of_exitRegs hmem)
    rw [← b.phis_append_rest]
    exact List.mem_append_right _ hi
  | @phi l b s c r dst incoming hb hs hc hphi he hkill =>
    refine h.fresh_instr c (List.mem_of_find?_eq_some hc) (.phi dst incoming) ?_ r (.inr ?_)
    · rw [← c.phis_append_rest]
      exact List.mem_append_left _ hphi
    · exact List.mem_filterMap.mpr ⟨_, he, rfl⟩
  | through hb hs hc hlive hphi hkill ih => exact ih

theorem mem_allPhis_of_phis {f : IRFunction} {c : IRBlock} (hc : c ∈ f.blocks) {dst : IRValue}
    {incoming : List (IRValue × String)} (h : .phi dst incoming ∈ c.phis) :
    (dst, incoming) ∈ allPhis f := by
  refine mem_allPhis.mpr ⟨c, hc, ?_⟩
  rw [← c.phis_append_rest]
  exact List.mem_append_left _ h

theorem PhiForm.phi_ne_terminator {f : IRFunction} {next : VReg} (h : PhiForm f next)
    {c : IRBlock} (hc : c ∈ f.blocks) {r : VReg} {incoming : List (IRValue × String)}
    (hphi : .phi (.register r) incoming ∈ c.instructions) {b : IRBlock} (hb : b ∈ f.blocks) :
    r ∉ b.terminator.definedRegs := by
  intro hr
  have hdef : r ∈ c.instructions.flatMap IRInstr.definedRegs :=
    List.mem_flatMap.mpr ⟨_, hphi, List.mem_cons_self⟩
  have hssa := h.ssa
  rw [List.nodup_flatMap] at hssa
  by_cases hbc : b = c
  · subst hbc
    exact (List.nodup_append.mp (hssa.1 b hb)).2.2 r hdef r hr rfl
  · have : Std.Symm (Function.onFun List.Disjoint fun b : IRBlock =>
        b.instructions.flatMap IRInstr.definedRegs ++ b.terminator.definedRegs) :=
      ⟨fun x y hxy => List.Disjoint.symm hxy⟩
    have hdisj : List.Disjoint _ _ := hssa.2.forall hb hc hbc
    exact hdisj (List.mem_append_right _ hr) (List.mem_append_left _ hdef)

/-- On entering `s` from `b`: the phis of `s` have, in the original function, the values that the
copies at the end of `b` have given to their destinations, and the other live registers agree. -/
theorem edge_agree {f : IRFunction} {next : VReg} (h : PhiForm f next) {M : Machine} {b : IRBlock}
    (hb : b ∈ f.blocks) (hsafe : SafeCopies f b) {s : String} (hs : s ∈ b.exitLabels) {c : IRBlock}
    (hc : f.blockAt s = some c) {σ τ τ' : Regs} (hout : ∀ r, LiveOut f b r → σ r = τ r)
    (hcopy : ∀ d ∈ copiesFor f b.label, d.1.eval M τ' = d.2.eval M τ)
    (hframe : ∀ r, (∀ d ∈ copiesFor f b.label, d.1 ≠ .register r) → r < next → τ' r = τ r)
    {ws : List (IRValue × Word)}
    (hws : ∀ p ∈ ws, ∀ r, p.1 = .register r → r ∈ b.terminator.definedRegs) {r : VReg}
    (hlive : LiveIn f s r) :
    (σ.writes ws).writes (phiWrites M (σ.writes ws) (some b.label) c.phis) r = τ'.writes ws r := by
  have hcm : c ∈ f.blocks := List.mem_of_find?_eq_some hc
  have hcl : c.label = s := by simpa using List.find?_some hc
  by_cases hphi : r ∈ c.phiDsts
  · -- the destination of a phi of `s`
    obtain ⟨i, hi, hri⟩ := List.mem_flatMap.mp hphi
    cases i with
    | phi dst incoming =>
      have hdst : dst = .register r := IRValue.mem_regs.mp hri
      subst hdst
      have hp : (.register r, incoming) ∈ allPhis f := mem_allPhis_of_phis hcm hi
      obtain ⟨⟨v, l⟩, he, hl⟩ := List.mem_map.mp (h.incoming_pred c hcm _ _ hi b hb (hcl ▸ hs))
      simp only at hl
      subst hl
      have hinstr : IRInstr.phi (.register r) incoming ∈ c.instructions := by
        rw [← c.phis_append_rest]
        exact List.mem_append_left _ hi
      have hrdef : r ∉ b.terminator.definedRegs := h.phi_ne_terminator hcm hinstr hb
      have hrws : ∀ p ∈ ws, p.1 ≠ .register r := fun p hp' e => hrdef (hws p hp' r e)
      -- the value of the phi
      have hval : ∀ p ∈ phiWrites M (σ.writes ws) (some b.label) c.phis, p.1 = .register r →
          p.2 = v.eval M (σ.writes ws) := by
        intro p hp' hpr
        obtain ⟨dst', incoming', e', hi', hfind, rfl⟩ := mem_phiWrites.mp hp'
        simp only at hpr
        subst hpr
        have hsame := h.phi_unique (mem_allPhis_of_phis hcm hi') hp rfl
        obtain rfl : incoming' = incoming := congrArg Prod.snd hsame
        have hl' : e'.2 = b.label := by simpa using List.find?_some hfind
        have hmem := List.mem_of_find?_eq_some hfind
        rw [h.entry_unique hp (u := e'.1) (v := v) (l := b.label) (by rw [← hl']; exact hmem) he]
      have hfound : (.register r, v.eval M (σ.writes ws)) ∈
          phiWrites M (σ.writes ws) (some b.label) c.phis := by
        cases hfind : incoming.find? (fun e => some e.2 == some b.label) with
        | none =>
          have := List.find?_eq_none.mp hfind _ he
          simp at this
        | some e' =>
          have hmem : (.register r, e'.1.eval M (σ.writes ws)) ∈
              phiWrites M (σ.writes ws) (some b.label) c.phis :=
            mem_phiWrites.mpr ⟨_, incoming, e', hi, hfind, rfl⟩
          rwa [← hval _ hmem rfl]
      rw [Regs.writes_of_mem hfound hval, Regs.writes_of_not_mem hrws]
      have hlive_v : ∀ q, v = .register q → LiveOut f b q := fun q hq =>
        .inr ⟨s, hs, c, hc, .inl ⟨_, incoming, hi, hq ▸ he⟩⟩
      by_cases hself : v = .register r
      · -- the entry is skipped: the register keeps its value
        subst hself
        have hnot : ∀ d ∈ copiesFor f b.label, d.1 ≠ .register r := by
          intro d hd e
          obtain ⟨p, hp', hpe, hmem, hne⟩ := mem_copiesFor.mp hd
          obtain rfl := h.phi_unique hp' hp (hpe.trans e)
          exact hne ((h.entry_unique hp hmem he).trans e.symm)
        rw [hframe r hnot (h.lt_of_liveIn hlive), ← hout r (hlive_v r rfl)]
        exact Regs.writes_of_not_mem hrws σ
      · have hd : (.register r, v) ∈ copiesFor f b.label :=
          mem_copiesFor.mpr ⟨_, hp, rfl, he, hself⟩
        have heq : v.eval M (σ.writes ws) = v.eval M τ := by
          refine IRValue.eval_congr M (fun q hq => ?_)
          rw [IRValue.mem_regs] at hq
          rw [← hout q (hlive_v q hq)]
          refine Regs.writes_of_not_mem (fun p hp' e => ?_) σ
          exact hsafe.invoke q (hws p hp' q e) _ hd hq
        rw [heq]
        exact (hcopy _ hd).symm
    | _ => exact absurd (IRBlock.isPhi_of_mem_phis hi) (by simp [IRInstr.isPhi])
  · have hkeep : ∀ p ∈ phiWrites M (σ.writes ws) (some b.label) c.phis, p.1 ≠ .register r := by
      intro p hp e
      obtain ⟨dst, incoming, e', hi, -, rfl⟩ := mem_phiWrites.mp hp
      exact hphi (List.mem_flatMap.mpr ⟨_, hi, IRValue.mem_regs.mpr e⟩)
    rw [Regs.writes_of_not_mem hkeep]
    by_cases hw : ∃ p ∈ ws, p.1 = .register r
    · exact Regs.writes_eq_of_mem hw σ τ'
    · have hno : ∀ p ∈ ws, p.1 ≠ .register r := fun p hp e => hw ⟨p, hp, e⟩
      rw [Regs.writes_of_not_mem hno, Regs.writes_of_not_mem hno,
        hout r (.inr ⟨s, hs, c, hc, .inr ⟨hlive, hphi⟩⟩)]
      exact (hframe r (hsafe.edges s hs c hc r hlive hphi) (h.lt_of_liveIn hlive)).symm

/-! ## Preservation -/

/-- The registers of the original function on an edge into `label`, after the phis, agree with those
of the resolved function on what is live. -/
def PhiAgree (M : Machine) (f : IRFunction) (label : String) (pred : Option String)
    (σ τ : Regs) : Prop :=
  ∀ b, f.blockAt label = some b → ∀ r, LiveIn f label r →
    σ.writes (phiWrites M σ pred b.phis) r = τ r

theorem resolveBlock_exec {f : IRFunction} {next : VReg} (h : PhiForm f next) (M : Machine)
    {label : String} {b : IRBlock} (hb : f.blockAt label = some b) (hsafe : SafeCopies f b)
    {k : VReg} (hk : next ≤ k) {pred : Option String} {σ τ : Regs} (w : World)
    (hR : PhiAgree M f label pred σ τ) :
    (b.exec M pred σ w).Related (PhiAgree M f) ((resolveBlock f k b).exec M pred τ w) := by
  have hmem : b ∈ f.blocks := List.mem_of_find?_eq_some hb
  obtain ⟨main, ctl, hrest, hinstr, hphi, hctl, hexit⟩ := resolveBlock_instructions h hmem k
  have hlabel : (resolveBlock f k b).label = b.label := insertCopies_label _ b
  have hterm : (resolveBlock f k b).terminator = b.terminator := insertCopies_terminator _ b
  -- both blocks as: straight-line part, then copies, then exit
  rw [IRBlock.exec, IRBlock.exec, hinstr, hlabel, hterm, ← b.phis_append_rest, hrest,
    execInstrs_append, execInstrs_phis M _ _ _ (fun i hi => IRBlock.isPhi_of_mem_phis hi),
    Flow.andThen, execInstrs_append, execInstrs_append, execInstrs_append]
  have hlive : ∀ r, liveBefore main (liveBefore ctl (LiveOut f b)) r →
      σ.writes (phiWrites M σ pred b.phis) r = τ r := by
    intro r hr
    refine hR b hb r (LiveIn.of_liveBefore hb ?_)
    rwa [hrest, liveBefore_append]
  rcases execInstrs_live M b.label pred σ τ main hphi hctl w hlive with
    ⟨σ', τ', w', hσ, hτ, hout⟩ | ⟨o, w', hσ, hτ⟩
  · rw [hσ, hτ]
    rcases hexit with hexit | ⟨vs, hvs⟩
    · have hout' : ∀ r, LiveOut f b r → σ' r = τ' r := by
        intro r hr
        refine hout r ?_
        cases hexit with
        | branch hl => exact .inr ⟨hr, List.not_mem_nil⟩
        | condBranch hl hc => exact .inr ⟨hr, List.not_mem_nil⟩
        | terminator hl hu => exact hr
      obtain ⟨τ'', hτ'', hcopy, hframe⟩ :=
        copiesCorrect_of_disjoint (h.copies_wellFormed b.label hk) hsafe.disjoint M b.label pred τ
          τ' w'
      simp only [Flow.andThen, hτ'']
      have hframe' : ∀ r, (∀ d ∈ copiesFor f b.label, d.1 ≠ .register r) → r < next →
          τ'' r = τ' r := fun r hd hr => hframe r hd (.inl (Nat.lt_of_lt_of_le hr hk))
      have hregs : ∀ r ∈ b.exitRegs, σ' r = τ'' r := by
        intro r hr
        rw [hout' r (.inl hr)]
        exact (hframe' r (fun d hd => hsafe.exit d hd r hr) (h.lt_of_exitRegs hmem hr)).symm
      rcases hexit.exec_cases (M := M) pred σ τ w' hregs with
        ⟨o, w₁, h₁, h₂⟩ | ⟨s, hs, ws, w₁, hws, h₁, h₂⟩
      · rw [h₁, h₂]
        exact ⟨rfl, rfl⟩
      · rw [h₁, h₂]
        refine ⟨rfl, rfl, rfl, fun c hc r hr => ?_⟩
        exact edge_agree h hmem hsafe hs hc hout' hcopy hframe' hws hr
    · exact absurd hσ (execInstrs_ret_ne_stay hvs)
  · rw [hσ, hτ]
    exact ⟨rfl, rfl⟩

/-- `resolve_phis` leaves no phi, and preserves every run of a function whose blocks all get
harmless copies. -/
theorem resolvePhis_preserves {f : IRFunction} {nextVreg : VReg} (hf : PhiForm f nextVreg)
    (hsafe : ∀ b ∈ f.blocks, SafeCopies f b) :
    (∀ b ∈ (resolvePhis f nextVreg).1.blocks, ∀ i ∈ b.instructions, i.isPhi = false) ∧
    ∀ M regs w n,
      ((resolvePhis f nextVreg).1.run M regs w n).obs = (f.run M regs w n).obs := by
  obtain ⟨k, hk, hblocks⟩ := resolvePhis_blocks hf.labels_nodup nextVreg
  have hlabel : ∀ b, (resolveBlock f (k b.label) b).label = b.label :=
    fun b => insertCopies_label _ b
  refine ⟨fun b hb i hi => ?_, fun M regs w n => ?_⟩
  · rw [hblocks] at hb
    obtain ⟨b', -, rfl⟩ := List.mem_map.mp hb
    simpa using (List.mem_filter.mp hi).2
  · refine (Config.Related.obs_eq (IRFunction.run_related (R := PhiAgree M f) ?_ ?_ n)).symm
    · intro label pred σ τ w hR
      simp only [IRFunction.step, IRFunction.blockAt_of_map hblocks hlabel label]
      cases hb : f.blockAt label with
      | none => exact ⟨rfl, rfl⟩
      | some b =>
        exact resolveBlock_exec hf M hb (hsafe b (List.mem_of_find?_eq_some hb)) (hk b.label) w hR
    · rw [IRFunction.start_of_map hblocks hlabel]
      cases hs : f.blocks with
      | nil =>
        simp only [IRFunction.start, hs]
        exact ⟨rfl, rfl⟩
      | cons b bs =>
        simp only [IRFunction.start, hs]
        refine ⟨rfl, rfl, rfl, fun c hc r _ => Regs.writes_of_not_mem (fun p hp => ?_) regs⟩
        -- no phi has an entry for the start of the function
        obtain ⟨dst, incoming, e, -, hfind, -⟩ := mem_phiWrites.mp hp
        exact absurd (List.find?_some hfind) (by simp)

/-- `r2 = if r0 { 5 } else { 1 }`, with a critical edge into the phi. -/
def phiDiamond : IRFunction :=
  { name := "f"
    params := [.register 0]
    blocks :=
      [{ label := "entry"
         instructions := [.condBranch (.register 0) "then" "merge"]
         terminator := .branch (.register 0) "then" "merge" },
       { label := "then"
         instructions := [.add (.register 1) (.immediate 5) (.immediate 0) none, .branch "merge"]
         terminator := .jump "merge" },
       { label := "merge"
         instructions := [.phi (.register 2) [(.register 1, "then"), (.immediate 1, "entry")],
           .ret [.register 2]]
         terminator := .ret [.register 2] }] }

theorem phiForm_phiDiamond : PhiForm phiDiamond 3 where
  labels_nodup := by decide
  phis_first := by decide
  control_last := by decide
  ssa := by decide
  phi_dst := by simp [allPhis, phiDiamond]
  incoming_nodup := by decide
  incoming_pred := by
    simp [phiDiamond, IRBlock.phis, IRInstr.isPhi, IRBlock.exitLabels, List.takeWhile]
  fresh_instr := by
    simp [phiDiamond, IRInstr.definedRegs, IRInstr.usedRegs, IRValue.asRegister]
  fresh_terminator := by decide

theorem not_liveIn_phiDiamond : ¬ LiveIn phiDiamond "then" 2 := by
  intro h
  cases h with
  | here hb h =>
    cases hb
    simp [liveBefore, IRBlock.rest, IRBlock.exitRegs, IRInstr.isPhi, IRInstr.usedRegs,
      List.dropWhile] at h
  | phi hb hs hc hphi he hkill =>
    cases hb
    obtain rfl := List.mem_singleton.mp hs
    cases hc
    cases List.mem_singleton.mp hphi
    simp at he
  | through hb hs hc hlive hphi hkill =>
    cases hb
    obtain rfl := List.mem_singleton.mp hs
    cases hc
    exact hphi (by decide)

theorem safeCopies_phiDiamond : ∀ b ∈ phiDiamond.blocks, SafeCopies phiDiamond b := by
  intro b hb
  refine ⟨?_, ?_, ?_, ?_⟩
  · revert b
    decide
  · revert b
    decide
  · intro s hs t ht r hr hphi c hc e
    have hphis : ∀ p ∈ allPhis phiDiamond, p.1 = .register 2 := by decide
    obtain ⟨p, hp, hpc, -⟩ := mem_copiesFor.mp hc
    obtain rfl : 2 = r := IRValue.register.inj ((hphis p hp).symm.trans (hpc.trans e))
    have hexits : ∀ b ∈ phiDiamond.blocks, ∀ s ∈ b.exitLabels, s = "then" ∨ s = "merge" := by
      decide
    rcases hexits b hb s hs with rfl | rfl
    · exact not_liveIn_phiDiamond hr
    · cases ht
      exact hphi (by decide)
  · revert b
    decide

theorem resolvePhis_preserves_phiDiamond :
    PhiForm phiDiamond 3 ∧ (∀ b ∈ phiDiamond.blocks, SafeCopies phiDiamond b) ∧
    ∀ M regs w n,
      ((resolvePhis phiDiamond 3).1.run M regs w n).obs = (phiDiamond.run M regs w n).obs :=
  ⟨phiForm_phiDiamond, safeCopies_phiDiamond,
    (resolvePhis_preserves phiForm_phiDiamond safeCopies_phiDiamond).2⟩

/-- A loop whose phi is read after the loop: the copy `r1 = r2`, meant for the back edge, also runs
on the way out, and the function returns 2 instead of 1. -/
theorem resolvePhis_lostCopy_wrong :
    let f : IRFunction :=
      { name := "f"
        params := [.register 0]
        blocks :=
          [{ label := "entry", instructions := [.branch "loop"], terminator := .jump "loop" },
           { label := "loop"
             instructions := [.phi (.register 1) [(.immediate 1, "entry"), (.register 2, "loop")],
               .add (.register 2) (.register 1) (.immediate 1) none,
               .condBranch (.register 0) "loop" "exit"]
             terminator := .branch (.register 0) "loop" "exit" },
           { label := "exit"
             instructions := [.ret [.register 1]]
             terminator := .ret [.register 1] }] }
    PhiForm f 3 ∧ ¬ ∀ M regs w n,
      ((resolvePhis f 3).1.run M regs w n).obs = (f.run M regs w n).obs := by
  intro f
  refine ⟨?_, fun h => ?_⟩
  · constructor
    · decide
    · decide
    · decide
    · decide
    · simp [allPhis, f]
    · decide
    · simp [f, IRBlock.phis, IRInstr.isPhi, IRBlock.exitLabels, List.takeWhile]
    · simp [f, IRInstr.definedRegs, IRInstr.usedRegs, IRValue.asRegister]
    · decide
  · have hret := congrArg Prod.fst (h default (fun _ => 0) ⟨fun _ => 0, []⟩ 3)
    exact absurd hret (by decide)

end Vuma.Codegen
