import Vuma.Opt.LicmHoist
import Vuma.IR.Relabel

/-!
# Loop-invariant code motion, one loop after another

At the boundaries of blocks the runs before and after the motion agree on all registers: a block of
the loop leaves the moved instructions settled, and the preheader is entered exactly where the header
was entered from outside. `LoopSafe` collects what this takes.
-/

namespace Vuma.Opt

open IR

/-! ## Marks -/

theorem map_fst_markInvariant (f : IRFunction) (l : Loop) (outside : List VReg)
    (is : List IRInstr) : (markInvariant f l outside is).map Prod.fst = is := by
  induction is generalizing outside with
  | nil => rfl
  | cons i is ih =>
    simp only [markInvariant]
    split
    · rw [List.map_cons, ih]
    · rw [List.map_cons, ih]

theorem of_mem_markInvariant {f : IRFunction} {l : Loop} {outside : List VReg} {is : List IRInstr}
    {i : IRInstr} (h : (i, true) ∈ markInvariant f l outside is) :
    isHoistable f l i = true ∧ ∀ r ∈ i.usedRegs, r ∉ loopModified f l := by
  induction is generalizing outside with
  | nil => cases h
  | cons j is ih =>
    simp only [markInvariant] at h
    split at h
    · rename_i hj
      rcases List.mem_cons.mp h with h | h
      · cases h
        simp only [Bool.and_eq_true, List.all_eq_true, Bool.not_eq_true', List.contains_eq_mem,
          decide_eq_true_eq, decide_eq_false_iff_not] at hj
        exact ⟨hj.1, fun r hr => (hj.2 r hr).2⟩
      · exact ih h
    · rcases List.mem_cons.mp h with h | h
      · cases h
      · exact ih h

theorem markInvariant_phis (f : IRFunction) (l : Loop) (outside : List VReg)
    {phis : List IRInstr} (h : ∀ i ∈ phis, i.isPhi = true) (is : List IRInstr) :
    markInvariant f l outside (phis ++ is) =
      phis.map (·, false) ++ markInvariant f l outside is := by
  induction phis with
  | nil => rfl
  | cons i phis ih =>
    have hi : isHoistable f l i = false := by simp [isHoistable, h i List.mem_cons_self]
    simp only [List.cons_append, markInvariant, hi, Bool.false_and, Bool.false_eq_true, if_false,
      List.map_cons]
    rw [ih (fun j hj => h j (List.mem_cons_of_mem _ hj))]

theorem mem_moved {ms : List (IRInstr × Bool)} {i : IRInstr} : i ∈ moved ms ↔ (i, true) ∈ ms := by
  simp [moved]

theorem mem_kept {ms : List (IRInstr × Bool)} {i : IRInstr} : i ∈ kept ms ↔ (i, false) ∈ ms := by
  simp [kept]

theorem kept_append (ms ms' : List (IRInstr × Bool)) : kept (ms ++ ms') = kept ms ++ kept ms' := by
  simp [kept]

theorem kept_map_false (is : List IRInstr) : kept (is.map (·, false)) = is := by
  simp [kept, List.filter_map, Function.comp_def]

/-- The instructions of the header, marked. -/
def headerMarks (f : IRFunction) (l : Loop) (header : IRBlock) : List (IRInstr × Bool) :=
  markInvariant f l (outsideDefs f l) header.instructions

theorem hasSideEffects_of_isHoistable {f : IRFunction} {l : Loop} {i : IRInstr}
    (h : isHoistable f l i = true) : i.isPhi = false ∧ hasSideEffects i = false := by
  simp only [isHoistable, Bool.and_eq_true, Bool.not_eq_true', Bool.or_eq_true] at h
  refine ⟨h.1, ?_⟩
  rcases h.2 with hload | hs
  · cases i with
    | load _ _ _ _ => rfl
    | _ => simp [isHoistableLoad] at hload
  · exact hs.1

/-! ## What the pass takes for granted -/

/-- Executing the block leaves the values alone that the instructions `is` load. -/
def BlockKeepsLoads (M : Machine) (is : List IRInstr) (b : IRBlock) (pred : Option String)
    (σ : Regs) (w : World) : Prop :=
  KeepsLoads M is pred σ b.instructions σ w ∧
    ∀ σ₁ w₁, execInstrs M b.label pred σ b.instructions σ w = .stay σ₁ w₁ →
      ∀ t q σ₂ w₂, b.terminator.exec M b.label σ₁ w₁ = .enter t q σ₂ w₂ →
        ∀ i ∈ is, LoadSame M i σ₁ w₁ w₂

/-- The conditions under which moving the marked instructions of the header is right. -/
structure LoopSafe (M : Machine) (f : IRFunction) (l : Loop) (header : IRBlock) : Prop where
  /-- The label of the preheader is new. -/
  fresh : ∀ b ∈ f.blocks, preheaderLabel l.1 ∉ b.labels
  /-- No bulk memory operation, indirect call or failing transform is moved. -/
  pure : ∀ i ∈ moved (headerMarks f l header), harmless M i
  /-- What a moved instruction defines, nothing else in the loop defines. -/
  single : ((moved (headerMarks f l header)).flatMap IRInstr.definedRegs).Nodup
  unique : ∀ b ∈ f.blocks, b.label ∈ l.2 →
    ∀ j ∈ (if b.label = l.1 then kept (headerMarks f l header) else b.instructions),
      ∀ i ∈ moved (headerMarks f l header), ∀ r ∈ i.definedRegs, r ∉ j.definedRegs
  terminators : ∀ b ∈ f.blocks, b.label ∈ l.2 → ∀ r ∈ b.terminator.definedRegs,
    ∀ i ∈ moved (headerMarks f l header), r ∉ i.usedRegs ∧ r ∉ i.definedRegs
  /-- The phis of the header come first. -/
  phisFirst : ∀ i ∈ header.rest, i.isPhi = false
  /-- Before a moved instruction, the header neither ends nor reads what it defines. -/
  order : ∀ before j after, headerMarks f l header = before ++ (j, false) :: after →
    j.isPhi = false → ∀ i, (i, true) ∈ after →
      j.isControl = false ∧ ∀ r ∈ j.usedRegs, r ∉ i.definedRegs
  /-- The redirected predecessors agree on the values of the phis, which are no moved results. -/
  phis : ∀ dst incoming, .phi dst incoming ∈ header.instructions →
    (∀ p ∈ redirectedPreds l f.blocks,
      (incoming.find? (fun e => some e.2 == some p)).map Prod.fst =
        preheaderVal (redirectedPreds l f.blocks) incoming) ∧
    (f.blocks.head?.map (·.label) = some l.1 →
      preheaderVal (redirectedPreds l f.blocks) incoming = none) ∧
    ∀ r, preheaderVal (redirectedPreds l f.blocks) incoming = some (.register r) →
      ∀ i ∈ moved (headerMarks f l header), r ∉ i.definedRegs
  /-- Every edge from outside to the header is redirected. -/
  edges : ∀ b ∈ f.blocks, b.label ∉ l.2 →
    (l.1 ∈ b.instructions.flatMap IRInstr.targets → l.1 ∈ b.terminator.successorLabels) ∧
    ∀ dst func args normal unwind, b.terminator = .invoke dst func args normal unwind →
      normal ≠ l.1 ∧ unwind ≠ l.1
  /-- The loop is entered through its header. -/
  closed : ∀ b ∈ f.blocks, b.label ∉ l.2 → ∀ t ∈ b.targets, t ∈ l.2 → t = l.1
  start : ∀ b ∈ f.blocks.head?, b.label ∈ l.2 → b.label = l.1
  /-- In no run does the loop write what a moved load reads. -/
  loads : ∀ regs w n t p σ w', f.run M regs w n = .enter t p σ w' → t ∈ l.2 →
    ∀ b, f.blockAt t = some b → BlockKeepsLoads M (moved (headerMarks f l header)) b p σ w'

/-! ## Redirection -/

/-- The configuration with the header replaced by the preheader. -/
def Config.redirect (source target : String) : Config → Config
  | .enter t p σ w => .enter (if t = source then target else t) p σ w
  | .done o w => .done o w

theorem execInstrs_redirectBranch (M : Machine) (source target label : String)
    (pred : Option String) (edge : Regs) (is : List IRInstr) (σ : Regs) (w : World) :
    execInstrs M label pred edge (is.map (redirectBranch source target)) σ w =
      match execInstrs M label pred edge is σ w with
      | .stay σ' w' => .stay σ' w'
      | .leave c => .leave (Config.redirect source target c) := by
  induction is generalizing σ w with
  | nil => rfl
  | cons i is ih =>
    rw [List.map_cons, execInstrs_cons, execInstrs_cons]
    cases hctl : i.isControl with
    | false =>
      have hi : redirectBranch source target i = i := by
        cases i with
        | branch _ | condBranch _ _ _ => cases hctl
        | _ => rfl
      rw [hi]
      rcases IRInstr.effect_straight M (·.eval M σ) (·.eval M edge) pred w hctl with
        ⟨ws, w', he⟩ | ⟨o, w', he, -⟩
      · rw [he]
        exact ih _ w'
      · rw [he]
        rfl
    | true =>
      cases i with
      | branch t => rfl
      | condBranch cond t e =>
        simp only [redirectBranch, IRInstr.effect, Effect.flow, Flow.andThen, Config.redirect]
        split <;> rfl
      | ret vs => rfl
      | _ => cases hctl

theorem exec_redirectTerminator (M : Machine) {source target label : String} {t : IRTerminator}
    (hinvoke : ∀ dst func args normal unwind, t = .invoke dst func args normal unwind →
      normal ≠ source ∧ unwind ≠ source) (σ : Regs) (w : World) :
    (redirectTerminator source target t).exec M label σ w =
      Config.redirect source target (t.exec M label σ w) := by
  cases t with
  | branch cond tb fb =>
    simp only [redirectTerminator, IRTerminator.exec, Config.redirect]
    split <;> rfl
  | switch discr targets default =>
    have hcomp : (fun e : Word × String => e.1 == discr.eval M σ) ∘
        (fun e : Word × String => (e.1, if e.2 = source then target else e.2)) =
        fun e => e.1 == discr.eval M σ := rfl
    simp only [redirectTerminator, IRTerminator.exec, Config.redirect, List.find?_map, hcomp]
    cases targets.find? (fun e => e.1 == discr.eval M σ) <;> rfl
  | invoke dst func args normal unwind =>
    obtain ⟨hn, hu⟩ := hinvoke dst func args normal unwind rfl
    simp only [redirectTerminator, IRTerminator.exec]
    cases M.call w func (args.map (·.eval M σ)) with
    | returned vs w' => simp only [Config.redirect, hn, if_false]
    | unwound v w' => simp only [Config.redirect, hu, if_false]
    | stopped o w' => rfl
  | tailCall func args =>
    simp only [redirectTerminator, IRTerminator.exec]
    cases M.call w func (args.map (·.eval M σ)) <;> rfl
  | _ => rfl

theorem redirectBlock_label (l : Loop) (b : IRBlock) : (redirectBlock l b).label = b.label := by
  unfold redirectBlock
  split <;> rfl

theorem redirectBlock_of_mem {l : Loop} {b : IRBlock} (h : b.label ∈ l.2) :
    redirectBlock l b = b := by
  simp [redirectBlock, isRedirected, h]

/-- A block outside of the loop goes to the preheader where it went to the header. -/
theorem exec_redirectBlock {M : Machine} {f : IRFunction} {l : Loop} {header : IRBlock}
    (h : LoopSafe M f l header) {b : IRBlock} (hb : b ∈ f.blocks) (hout : b.label ∉ l.2)
    (pred : Option String) (σ : Regs) (w : World) :
    (redirectBlock l b).exec M pred σ w =
      Config.redirect l.1 (preheaderLabel l.1) (b.exec M pred σ w) := by
  obtain ⟨htargets, hinvoke⟩ := h.edges b hb hout
  by_cases hr : isRedirected l b = true
  · have hblock : redirectBlock l b =
        { b with
          instructions := b.instructions.map (redirectBranch l.1 (preheaderLabel l.1))
          terminator := redirectTerminator l.1 (preheaderLabel l.1) b.terminator } := if_pos hr
    rw [hblock, IRBlock.exec, IRBlock.exec]
    simp only [execInstrs_redirectBranch]
    cases execInstrs M b.label pred σ b.instructions σ w with
    | stay σ' w' => exact exec_redirectTerminator M hinvoke σ' w'
    | leave c => rfl
  · have hsucc : l.1 ∉ b.terminator.successorLabels := by
      simpa [isRedirected, hout] using hr
    have hno : l.1 ∉ b.targets := by
      intro hm
      rcases List.mem_append.mp hm with hm | hm
      · exact hsucc (htargets hm)
      · exact hsucc hm
    rw [redirectBlock, if_neg hr]
    cases he : b.exec M pred σ w with
    | enter t p σ' w' =>
      have hne : t ≠ l.1 := fun e => hno (e ▸ (IRBlock.exec_enter he).1)
      simp only [Config.redirect, hne, if_false]
    | done o w' => rfl

/-! ## The blocks of the loop -/

theorem Settled.terminator {M : Machine} {i : IRInstr} (hs : hasSideEffects i = false)
    (hh : harmless M i) {σ₁ : Regs} {w₁ : World} (hset : Settled M i σ₁ w₁) {label : String}
    {t : IRTerminator} (ht : ∀ r ∈ t.definedRegs, r ∉ i.usedRegs ∧ r ∉ i.definedRegs)
    {l : String} {p : Option String} {σ₂ : Regs} {w₂ : World}
    (he : t.exec M label σ₁ w₁ = .enter l p σ₂ w₂) (hload : LoadSame M i σ₁ w₁ w₂) :
    Settled M i σ₂ w₂ := by
  rcases IRTerminator.exec_cases M label t w₁ (fun r _ => rfl : ∀ r ∈ t.usedRegs, σ₁ r = σ₁ r) with
    ⟨o, w', ho, -⟩ | ⟨l', -, ws, w', hws, henter, -⟩
  · rw [ho] at he
    cases he
  · rw [henter] at he
    cases he
    exact hset.step hs hh (fun r hr q hq e => (ht r (hws q hq r e)).1 hr)
      (fun r hr q hq e => (ht r (hws q hq r e)).2 hr) hload

section

variable {M : Machine} {f : IRFunction} {l : Loop} {header : IRBlock} (hl : l.1 ∈ l.2)
  (hblock : f.blockAt l.1 = some header) (h : LoopSafe M f l header)

include h in
theorem LoopSafe.movable (hhead : l.1 ∈ l.2) (hat : f.blockAt l.1 = some header) :
    Movable M (moved (headerMarks f l header)) := by
  have hmem := List.mem_of_find?_eq_some hat
  have hlabel : header.label = l.1 := by simpa using List.find?_some hat
  refine ⟨fun i hi => ?_, fun i hi => ?_, fun i hi j hj r hr hd => ?_, h.single⟩
  · exact (hasSideEffects_of_isHoistable (of_mem_markInvariant (mem_moved.mp hi)).1).1
  · exact ⟨(hasSideEffects_of_isHoistable (of_mem_markInvariant (mem_moved.mp hi)).1).2,
      h.pure i hi⟩
  · -- what is read is not modified in the loop
    refine (of_mem_markInvariant (mem_moved.mp hi)).2 r hr ?_
    have hjm : j ∈ header.instructions := by
      rw [← map_fst_markInvariant f l (outsideDefs f l) header.instructions]
      exact List.mem_map.mpr ⟨(j, true), mem_moved.mp hj, rfl⟩
    exact List.mem_flatMap.mpr ⟨header,
      List.mem_filter.mpr ⟨hmem, by simpa [hlabel] using hhead⟩, List.mem_flatMap.mpr ⟨j, hjm, hd⟩⟩

include h in
theorem LoopSafe.other {b : IRBlock} (hb : b ∈ f.blocks) (hin : b.label ∈ l.2) {j : IRInstr}
    (hj : j ∈ (if b.label = l.1 then kept (headerMarks f l header) else b.instructions))
    (hjb : j ∈ b.instructions) {i : IRInstr} (hi : i ∈ moved (headerMarks f l header)) {r : VReg}
    (hr : r ∈ j.definedRegs) : r ∉ i.usedRegs ∧ r ∉ i.definedRegs := by
  refine ⟨fun hu => ?_, fun hd => h.unique b hb hin j hj i hi r hd hr⟩
  refine (of_mem_markInvariant (mem_moved.mp hi)).2 r hu ?_
  exact List.mem_flatMap.mpr ⟨b, List.mem_filter.mpr ⟨hb, by simpa using hin⟩,
    List.mem_flatMap.mpr ⟨j, hjb, hr⟩⟩

include hl hblock h in
theorem LoopSafe.finish {b : IRBlock} (hb : b ∈ f.blocks) (hin : b.label ∈ l.2)
    {pred : Option String} {σ : Regs} {w : World}
    (hkeep : BlockKeepsLoads M (moved (headerMarks f l header)) b pred σ w) {F : Flow}
    (hF : (∃ σ' w', execInstrs M b.label pred σ b.instructions σ w = .stay σ' w' ∧
          F = .stay σ' w' ∧ ∀ i ∈ moved (headerMarks f l header), Settled M i σ' w') ∨
        ∃ c, execInstrs M b.label pred σ b.instructions σ w = .leave c ∧ F = .leave c ∧
          ∀ t p σ' w', c = .enter t p σ' w' →
            ∀ i ∈ moved (headerMarks f l header), Settled M i σ' w') :
    F.finish (fun regs w => b.terminator.exec M b.label regs w) = b.exec M pred σ w ∧
      ∀ t p σ' w', b.exec M pred σ w = .enter t p σ' w' →
        ∀ i ∈ moved (headerMarks f l header), Settled M i σ' w' := by
  have hmov := h.movable hl hblock
  rcases hF with ⟨σ', w', he, rfl, hset⟩ | ⟨c, he, rfl, hset⟩
  · have hexec : b.exec M pred σ w = b.terminator.exec M b.label σ' w' := by
      rw [IRBlock.exec, he]
      rfl
    refine ⟨hexec.symm, fun t p σ₂ w₂ henter i hi => ?_⟩
    rw [hexec] at henter
    exact (hset i hi).terminator (hmov.pure i hi).1 (hmov.pure i hi).2
      (fun r hr => h.terminators b hb hin r hr i hi) henter (hkeep.2 σ' w' he t p σ₂ w₂ henter i hi)
  · have hexec : b.exec M pred σ w = c := by
      rw [IRBlock.exec, he]
      rfl
    refine ⟨hexec.symm, fun t p σ₂ w₂ henter => ?_⟩
    rw [hexec] at henter
    exact hset t p σ₂ w₂ henter

include hl hblock h in
theorem LoopSafe.exec_other {b : IRBlock} (hb : b ∈ f.blocks) (hin : b.label ∈ l.2)
    (hne : b.label ≠ l.1) {pred : Option String} {σ : Regs} {w : World}
    (hkeep : BlockKeepsLoads M (moved (headerMarks f l header)) b pred σ w)
    (hset : ∀ i ∈ moved (headerMarks f l header), Settled M i σ w) :
    ∀ t p σ' w', b.exec M pred σ w = .enter t p σ' w' →
      ∀ i ∈ moved (headerMarks f l header), Settled M i σ' w' := by
  have hfst : (b.instructions.map (·, false)).map Prod.fst = b.instructions := by
    simp [Function.comp_def]
  have hms : MarksOk (moved (headerMarks f l header)) (b.instructions.map (·, false)) := by
    refine ⟨fun i hi => by simp at hi, fun j hj i hi r hr => ?_, fun before j after e i hi => ?_⟩
    · have hjb : j ∈ b.instructions := by simpa using hj
      exact h.other hb hin (by rw [if_neg hne]; exact hjb) hjb hi hr
    · have : (i, true) ∈ b.instructions.map (·, false) := by rw [e]; simp [hi]
      simp at this
  have hwalk := execInstrs_kept (h.movable hl hblock) b.label pred pred σ σ hms
    (fun j _ => Or.inr ⟨rfl, rfl⟩) (fun r _ => rfl) hset (by rw [hfst]; exact hkeep.1)
  rw [hfst] at hwalk
  exact (h.finish hl hblock hb hin hkeep hwalk).2

/-- The header after the motion. -/
def movedHeader (f : IRFunction) (l : Loop) (header : IRBlock) : IRBlock :=
  { header with
    instructions := mergePhis (redirectedPreds l f.blocks) (preheaderLabel l.1)
      (kept (headerMarks f l header)) }

/-- The marks of the header: its phis, and the marks of the rest. -/
theorem headerMarks_eq (f : IRFunction) (l : Loop) (header : IRBlock) :
    headerMarks f l header = header.phis.map (·, false) ++
      markInvariant f l (outsideDefs f l) header.rest := by
  have := markInvariant_phis f l (outsideDefs f l)
    (fun i hi => IRBlock.isPhi_of_mem_phis hi : ∀ i ∈ header.phis, i.isPhi = true) header.rest
  rwa [IRBlock.phis_append_rest] at this

theorem isPhi_mergePhi (redirected : List String) (preheader : String) (i : IRInstr) :
    (mergePhi redirected preheader i).isPhi = i.isPhi := by
  cases i <;> rfl

include h in
theorem LoopSafe.movedHeader_instructions : (movedHeader f l header).instructions =
    header.phis.map (mergePhi (redirectedPreds l f.blocks) (preheaderLabel l.1)) ++
      kept (markInvariant f l (outsideDefs f l) header.rest) := by
  have hkept : kept (headerMarks f l header) =
      header.phis ++ kept (markInvariant f l (outsideDefs f l) header.rest) := by
    rw [headerMarks_eq, kept_append, kept_map_false]
  have hrest : ∀ i ∈ kept (markInvariant f l (outsideDefs f l) header.rest), i.isPhi = false := by
    intro i hi
    refine h.phisFirst i ?_
    rw [← map_fst_markInvariant f l (outsideDefs f l) header.rest]
    exact List.mem_map.mpr ⟨(i, false), mem_kept.mp hi, rfl⟩
  have hphis : ∀ i ∈ header.phis, i.isPhi = true := fun i hi => IRBlock.isPhi_of_mem_phis hi
  simp only [movedHeader, mergePhis, hkept]
  rw [List.takeWhile_append_of_pos hphis, List.dropWhile_append_of_pos hphis]
  cases hk : kept (markInvariant f l (outsideDefs f l) header.rest) with
  | nil => simp
  | cons j js =>
    have hj : j.isPhi = false := hrest j (by rw [hk]; exact List.mem_cons_self)
    simp [hj]

include hl hblock h in
theorem LoopSafe.exec_header (pred pred' : Option String) {σ τ : Regs} {w : World}
    (hτ : ∀ r, (∀ i ∈ moved (headerMarks f l header), r ∉ i.definedRegs) → τ r = σ r)
    (hset : ∀ i ∈ moved (headerMarks f l header), Settled M i τ w)
    (hphi : phiWrites M τ pred'
        (header.phis.map (mergePhi (redirectedPreds l f.blocks) (preheaderLabel l.1))) =
      phiWrites M σ pred header.phis)
    (hkeep : BlockKeepsLoads M (moved (headerMarks f l header)) header pred σ w) :
    (movedHeader f l header).exec M pred' τ w = header.exec M pred σ w ∧
      ∀ t p σ' w', header.exec M pred σ w = .enter t p σ' w' →
        ∀ i ∈ moved (headerMarks f l header), Settled M i σ' w' := by
  have hmem := List.mem_of_find?_eq_some hblock
  have hlabel : header.label = l.1 := by simpa using List.find?_some hblock
  have hin : header.label ∈ l.2 := hlabel ▸ hl
  have hmov := h.movable hl hblock
  have hphis : ∀ i ∈ header.phis, i.isPhi = true := fun i hi => IRBlock.isPhi_of_mem_phis hi
  have hsub : ∀ m ∈ markInvariant f l (outsideDefs f l) header.rest,
      m ∈ headerMarks f l header ∧ m.1 ∈ header.rest ∧ m.1 ∈ header.instructions := by
    intro m hm
    have hr : m.1 ∈ header.rest := by
      rw [← map_fst_markInvariant f l (outsideDefs f l) header.rest]
      exact List.mem_map_of_mem hm
    refine ⟨by rw [headerMarks_eq]; exact List.mem_append_right _ hm, hr, ?_⟩
    rw [← IRBlock.phis_append_rest]
    exact List.mem_append_right _ hr
  -- the phis
  have hold := execInstrs_phis M header.label pred σ hphis σ w
  have hnew := execInstrs_phis M header.label pred' τ
    (fun i hi => by
      obtain ⟨j, hj, rfl⟩ := List.mem_map.mp hi
      rw [isPhi_mergePhi]
      exact hphis j hj : ∀ i ∈ header.phis.map
        (mergePhi (redirectedPreds l f.blocks) (preheaderLabel l.1)), i.isPhi = true) τ w
  rw [hphi] at hnew
  have hset₁ : ∀ i ∈ moved (headerMarks f l header),
      Settled M i (τ.writes (phiWrites M σ pred header.phis)) w := by
    intro i hi
    have hdst : ∀ p ∈ phiWrites M σ pred header.phis, ∀ r, p.1 = .register r →
        r ∉ i.usedRegs ∧ r ∉ i.definedRegs := by
      intro p hp r hr
      obtain ⟨dst, incoming, e, hmemphi, -, rfl⟩ := mem_phiWrites.mp hp
      have hinstr : .phi dst incoming ∈ header.instructions := by
        rw [← IRBlock.phis_append_rest]
        exact List.mem_append_left _ hmemphi
      refine h.other hmem hin ?_ hinstr hi (by simp [IRInstr.definedRegs, show dst = _ from hr])
      rw [if_pos hlabel, mem_kept, headerMarks_eq]
      exact List.mem_append_left _ (List.mem_map_of_mem hmemphi)
    exact (hset i hi).step (hmov.pure i hi).1 (hmov.pure i hi).2
      (fun r hr p hp e => (hdst p hp r e).1 hr) (fun r hr p hp e => (hdst p hp r e).2 hr)
      (LoadSame.refl M i τ w)
  -- the rest
  have hms : MarksOk (moved (headerMarks f l header))
      (markInvariant f l (outsideDefs f l) header.rest) := by
    refine ⟨fun i hi => mem_moved.mpr (hsub _ hi).1, fun j hj i hi r hr => ?_,
      fun before j after e i hi => ?_⟩
    · obtain ⟨hm, -, hjb⟩ := hsub _ hj
      exact h.other hmem hin (by rw [if_pos hlabel]; exact mem_kept.mpr hm) hjb hi hr
    · refine h.order (header.phis.map (·, false) ++ before) j after ?_ ?_ i hi
      · rw [headerMarks_eq, e, List.append_assoc]
      · exact h.phisFirst j (hsub (j, false) (by rw [e]; simp)).2.1
  have hfst := map_fst_markInvariant f l (outsideDefs f l) header.rest
  have hkeep₁ : KeepsLoads M (moved (headerMarks f l header)) pred σ
      ((markInvariant f l (outsideDefs f l) header.rest).map Prod.fst)
      (σ.writes (phiWrites M σ pred header.phis)) w := by
    rw [hfst]
    refine KeepsLoads.append ?_ hold
    rw [IRBlock.phis_append_rest]
    exact hkeep.1
  have hwalk := execInstrs_kept hmov header.label pred pred' σ τ hms
    (fun j hj => Or.inl (h.phisFirst j (hsub _ hj).2.1))
    (fun r hr => Regs.writes_agree (P := fun r => ∀ i ∈ moved (headerMarks f l header),
      r ∉ i.definedRegs) _ hτ r (fun i hi => by
        have hm := mem_moved.mp hi
        rw [headerMarks_eq] at hm
        rcases List.mem_append.mp hm with hm | hm
        · simp at hm
        · exact hr i hm)) hset₁ hkeep₁
  rw [hfst] at hwalk
  -- both put together
  have horig : execInstrs M header.label pred σ header.instructions σ w =
      execInstrs M header.label pred σ header.rest
        (σ.writes (phiWrites M σ pred header.phis)) w := by
    rw [← IRBlock.phis_append_rest, execInstrs_append, hold]
    rfl
  have hfin := h.finish hl hblock hmem hin hkeep
    (F := execInstrs M header.label pred' τ (movedHeader f l header).instructions τ w) (by
      rw [horig, h.movedHeader_instructions, execInstrs_append, hnew]
      exact hwalk)
  exact hfin

/-! ## The phis of the header -/

/-- An entry that is not redirected is found as before. -/
theorem find?_mergePhi {redirected : List String} {preheader q : String}
    {incoming : List (IRValue × String)} (hq : q ∉ redirected) (hne : q ≠ preheader) :
    (incoming.filter (fun e => !redirected.contains e.2) ++
      ((preheaderVal redirected incoming).map (·, preheader)).toList).find?
        (fun e => some e.2 == some q) = incoming.find? (fun e => some e.2 == some q) := by
  have hlast : (((preheaderVal redirected incoming).map (·, preheader)).toList).find?
      (fun e => some e.2 == some q) = none := by
    refine find?_phi_eq_none ?_
    cases preheaderVal redirected incoming with
    | none => simp
    | some v => simpa using hne
  rw [List.find?_append, hlast, Option.or_none, List.find?_filter]
  congr 1
  funext e
  by_cases he : e.2 = q
  · simp [he, hq]
  · simp [he]

theorem find?_mergePhi_preheader {redirected : List String} {preheader : String}
    {incoming : List (IRValue × String)} (hnew : preheader ∉ incoming.map Prod.snd) :
    (incoming.filter (fun e => !redirected.contains e.2) ++
      ((preheaderVal redirected incoming).map (·, preheader)).toList).find?
        (fun e => some e.2 == some preheader) =
      (preheaderVal redirected incoming).map (·, preheader) := by
  have hfirst : (incoming.filter (fun e => !redirected.contains e.2)).find?
      (fun e => some e.2 == some preheader) = none := by
    refine find?_phi_eq_none fun hm => hnew ?_
    obtain ⟨e, he, rfl⟩ := List.mem_map.mp hm
    exact List.mem_map_of_mem (List.mem_of_mem_filter he)
  rw [List.find?_append, hfirst, Option.none_or]
  cases preheaderVal redirected incoming <;> simp

theorem phiWrites_mergePhi (M : Machine) {σ τ : Regs} {pred pred' : Option String}
    {redirected : List String} {preheader : String} {phis : List IRInstr}
    (hfind : ∀ dst incoming, .phi dst incoming ∈ phis →
      ((incoming.filter (fun e => !redirected.contains e.2) ++
        ((preheaderVal redirected incoming).map (·, preheader)).toList).find?
          (fun e => some e.2 == pred')).map (fun e => e.1.eval M τ) =
      (incoming.find? (fun e => some e.2 == pred)).map (fun e => e.1.eval M σ)) :
    phiWrites M τ pred' (phis.map (mergePhi redirected preheader)) = phiWrites M σ pred phis := by
  induction phis with
  | nil => rfl
  | cons i phis ih =>
    have htail := ih (fun dst inc hm => hfind dst inc (List.mem_cons_of_mem _ hm))
    simp only [phiWrites, List.map_cons, List.flatMap_cons] at htail ⊢
    rw [htail]
    congr 1
    cases i with
    | phi dst incoming =>
      have := congrArg (fun o => (o.map (dst, ·)).toList) (hfind dst incoming List.mem_cons_self)
      simpa only [mergePhi, Option.map_map, Function.comp_def] using this
    | _ => rfl

/-! ## The runs side by side -/

/-- The header is entered from outside: at the start, or from a redirected predecessor. -/
def FromOutside (f : IRFunction) (l : Loop) (p : Option String) : Prop :=
  (p = none ∧ f.blocks.head?.map (·.label) = some l.1) ∨
    ∃ q, p = some q ∧ q ∈ redirectedPreds l f.blocks

/-- The same point of both runs, with the same registers: the preheader stands for the header when
this is entered from outside, and inside the loop the moved instructions are settled. -/
def LoopRel (M : Machine) (f : IRFunction) (l : Loop) (is : List IRInstr) (c d : Config) : Prop :=
  (∃ regs w n, c = f.run M regs w n) ∧
    match c with
    | .enter t p σ w =>
      (t = l.1 ∧ FromOutside f l p ∧ d = .enter (preheaderLabel l.1) p σ w) ∨
        ((t = l.1 → ∃ q, p = some q ∧ q ∈ l.2 ∧ q ≠ preheaderLabel l.1) ∧
          t ≠ preheaderLabel l.1 ∧ d = .enter t p σ w ∧
          (t ∈ l.2 → ∀ i ∈ is, Settled M i σ w))
    | .done o w => d = .done o w

theorem LoopRel.obs {M : Machine} {f : IRFunction} {l : Loop} {is : List IRInstr} {c d : Config}
    (h : LoopRel M f l is c d) : d.obs = c.obs := by
  obtain ⟨-, h⟩ := h
  cases c with
  | enter t p σ w => rcases h with ⟨-, -, rfl⟩ | ⟨-, -, rfl, -⟩ <;> rfl
  | done o w =>
    simp only at h
    rw [h]

/-- The preheader. -/
def preheaderBlock (f : IRFunction) (l : Loop) (header : IRBlock) : IRBlock :=
  { label := preheaderLabel l.1
    instructions := moved (headerMarks f l header)
    terminator := .jump l.1 }

include hl hblock in
/-- The blocks after the motion. -/
theorem blocks_licmLoop (hmoved : moved (headerMarks f l header) ≠ []) :
    ∃ before after, f.blocks = before ++ header :: after ∧ (∀ b ∈ before, b.label ≠ l.1) ∧
      (licmLoop f l).blocks = before.map (redirectBlock l) ++ preheaderBlock f l header ::
        movedHeader f l header :: after.map (redirectBlock l) := by
  obtain ⟨hlabel, before, after, hf, hbefore⟩ := List.find?_eq_some_iff_append.mp hblock
  have hlabel' : header.label = l.1 := by simpa using hlabel
  have hne : ∀ b ∈ before, (b.label != l.1) = true := by
    intro b hb
    simpa using hbefore b hb
  have htake : f.blocks.takeWhile (fun b => b.label != l.1) = before := by
    rw [hf, List.takeWhile_append_of_pos hne]
    simp [hlabel']
  have hdrop : f.blocks.dropWhile (fun b => b.label != l.1) = header :: after := by
    rw [hf, List.dropWhile_append_of_pos hne]
    simp [hlabel']
  have hpreds : redirectedPreds l (before ++ after) = redirectedPreds l f.blocks := by
    have hout : isRedirected l header = false := by simp [isRedirected, hlabel', hl]
    simp [redirectedPreds, hf, hout]
  have hempty :
      (moved (markInvariant f l (outsideDefs f l) header.instructions)).isEmpty = false := by
    simpa [headerMarks] using hmoved
  refine ⟨before, after, hf, fun b hb => by simpa using hne b hb, ?_⟩
  simp only [licmLoop, htake, hdrop, hempty, hpreds, Bool.false_eq_true, if_false]
  rfl

include hl hblock h in
theorem LoopSafe.blockAt (hmoved : moved (headerMarks f l header) ≠ []) :
    (licmLoop f l).blockAt (preheaderLabel l.1) = some (preheaderBlock f l header) ∧
      (licmLoop f l).blockAt l.1 = some (movedHeader f l header) ∧
      ∀ t, t ≠ l.1 → t ≠ preheaderLabel l.1 →
        (licmLoop f l).blockAt t = (f.blockAt t).map (redirectBlock l) := by
  obtain ⟨before, after, hf, hbefore, hblocks⟩ := blocks_licmLoop hl hblock hmoved
  have hlabel : header.label = l.1 := by simpa using List.find?_some hblock
  have hheader : (movedHeader f l header).label = l.1 := hlabel
  have hpre : (preheaderBlock f l header).label = preheaderLabel l.1 := rfl
  have hfresh : ∀ b ∈ f.blocks, b.label ≠ preheaderLabel l.1 :=
    fun b hb e => h.fresh b hb (e ▸ List.mem_cons_self)
  have hneq : preheaderLabel l.1 ≠ l.1 := by
    have := hfresh header (List.mem_of_find?_eq_some hblock)
    rw [hlabel] at this
    exact this.symm
  have hcomp : ∀ t, (fun b : IRBlock => b.label == t) ∘ redirectBlock l =
      fun b => b.label == t := fun t => by
    funext b
    simp [redirectBlock_label]
  refine ⟨?_, ?_, fun t ht htp => ?_⟩
  · rw [IRFunction.blockAt, hblocks, List.find?_append, List.find?_map, hcomp,
      List.find?_eq_none.mpr (fun b hb => by simpa using hfresh b (by simp [hf, hb])),
      Option.map_none, Option.none_or, List.find?_cons_of_pos (by simp [hpre])]
  · rw [IRFunction.blockAt, hblocks, List.find?_append, List.find?_map, hcomp,
      List.find?_eq_none.mpr (fun b hb => by simpa using hbefore b hb),
      Option.map_none, Option.none_or, List.find?_cons_of_neg (by simpa [hpre] using hneq),
      List.find?_cons_of_pos (by simp [hheader])]
  · rw [IRFunction.blockAt, IRFunction.blockAt, hblocks, hf, List.find?_append, List.find?_append,
      List.find?_map, hcomp, List.find?_cons_of_neg (by simpa [hpre] using htp.symm),
      List.find?_cons_of_neg (by simpa [hheader] using ht.symm), List.find?_map, hcomp,
      List.find?_cons_of_neg (by simpa [hlabel] using ht.symm), Option.map_or]

include hl hblock h in
theorem LoopSafe.step_outside (hmoved : moved (headerMarks f l header) ≠ [])
    {p : Option String} (hp : FromOutside f l p) {σ : Regs} {w : World}
    (hkeep : BlockKeepsLoads M (moved (headerMarks f l header)) header p σ w) :
    ((licmLoop f l).step M)^[2] (.enter (preheaderLabel l.1) p σ w) = header.exec M p σ w ∧
      ∀ t q σ' w', header.exec M p σ w = .enter t q σ' w' →
        ∀ i ∈ moved (headerMarks f l header), Settled M i σ' w' := by
  obtain ⟨hpre, hhead, -⟩ := h.blockAt hl hblock hmoved
  have hmem := List.mem_of_find?_eq_some hblock
  have hmov := h.movable hl hblock
  obtain ⟨τ, hexec, hframe, hset⟩ := execInstrs_preheader (preheaderLabel l.1) p σ w []
    (moved (headerMarks f l header)) (by simpa using hmov) (σ := σ) (by simp)
  have hstep₁ : (licmLoop f l).step M (.enter (preheaderLabel l.1) p σ w) =
      .enter l.1 (some (preheaderLabel l.1)) τ w := by
    simp only [IRFunction.step, hpre, IRBlock.exec, preheaderBlock, hexec, Flow.finish]
    rfl
  have hphi : phiWrites M τ (some (preheaderLabel l.1))
      (header.phis.map (mergePhi (redirectedPreds l f.blocks) (preheaderLabel l.1))) =
      phiWrites M σ p header.phis := by
    refine phiWrites_mergePhi M fun dst incoming hm => ?_
    have hinstr : .phi dst incoming ∈ header.instructions := by
      rw [← IRBlock.phis_append_rest]
      exact List.mem_append_left _ hm
    have hnew : preheaderLabel l.1 ∉ incoming.map Prod.snd := fun hc =>
      h.fresh header hmem (List.mem_cons_of_mem _ (List.mem_append_right _
        (List.mem_flatMap.mpr ⟨_, hinstr, hc⟩)))
    obtain ⟨hagree, hstart, hreads⟩ := h.phis dst incoming hinstr
    have hval : (incoming.find? (fun e => some e.2 == p)).map Prod.fst =
        preheaderVal (redirectedPreds l f.blocks) incoming := by
      rcases hp with ⟨rfl, hfirst⟩ | ⟨q, rfl, hq⟩
      · rw [hstart hfirst]
        simp
      · exact hagree q hq
    have heval : ∀ v, preheaderVal (redirectedPreds l f.blocks) incoming = some v →
        v.eval M τ = v.eval M σ := fun v hv => IRValue.eval_congr M fun r hr => by
      refine hframe r (hreads r ?_)
      rw [hv, IRValue.mem_regs.mp hr]
    rw [find?_mergePhi_preheader hnew]
    cases hfind : incoming.find? (fun e => some e.2 == p) with
    | none =>
      rw [hfind] at hval
      rw [← hval]
      rfl
    | some e =>
      rw [hfind] at hval
      rw [← hval]
      exact congrArg some (heval e.1 hval.symm)
  obtain ⟨heq, hsettled⟩ := h.exec_header hl hblock p (some (preheaderLabel l.1))
    (fun r hr => hframe r hr) (by simpa using hset) hphi hkeep
  refine ⟨?_, hsettled⟩
  rw [Function.iterate_succ_apply, hstep₁, Function.iterate_one]
  simp only [IRFunction.step, hhead]
  exact heq

include hl hblock h in
theorem LoopSafe.step_inside {q : String} (hq : q ∈ l.2) (hne : q ≠ preheaderLabel l.1) {σ : Regs}
    {w : World} (hset : ∀ i ∈ moved (headerMarks f l header), Settled M i σ w)
    (hkeep : BlockKeepsLoads M (moved (headerMarks f l header)) header (some q) σ w) :
    (movedHeader f l header).exec M (some q) σ w = header.exec M (some q) σ w ∧
      ∀ t p σ' w', header.exec M (some q) σ w = .enter t p σ' w' →
        ∀ i ∈ moved (headerMarks f l header), Settled M i σ' w' := by
  have hred : q ∉ redirectedPreds l f.blocks := by
    intro hm
    obtain ⟨b, hb, rfl⟩ := List.mem_map.mp hm
    have hb := (List.mem_filter.mp hb).2
    simp [isRedirected, hq] at hb
  refine h.exec_header hl hblock (some q) (some q) (fun _ _ => rfl) hset ?_ hkeep
  refine phiWrites_mergePhi M fun dst incoming _ => ?_
  rw [find?_mergePhi hred hne]

theorem run_step {c : Config} (hc : ∃ regs w n, c = f.run M regs w n) :
    ∃ regs w n, f.step M c = f.run M regs w n := by
  obtain ⟨regs, w, n, rfl⟩ := hc
  exact ⟨regs, w, n + 1, by rw [IRFunction.run, IRFunction.run, Function.iterate_succ_apply']⟩

include h in
theorem LoopSafe.rel_inside {c : Config} (hc : ∃ regs w n, c = f.run M regs w n) {b : IRBlock}
    (hb : b ∈ f.blocks) (hin : b.label ∈ l.2) {p : Option String} {σ : Regs} {w : World}
    (he : c = b.exec M p σ w)
    (hset : ∀ t q σ' w', b.exec M p σ w = .enter t q σ' w' →
      ∀ i ∈ moved (headerMarks f l header), Settled M i σ' w') :
    LoopRel M f l (moved (headerMarks f l header)) c c := by
  refine ⟨hc, ?_⟩
  cases hcase : c with
  | done o w' => rfl
  | enter t q σ' w' =>
    rw [hcase] at he
    obtain ⟨ht, hq⟩ := IRBlock.exec_enter he.symm
    refine Or.inr ⟨fun _ => ⟨b.label, hq, hin, fun e => ?_⟩, fun e => ?_, rfl, fun _ => ?_⟩
    · exact h.fresh b hb (e ▸ List.mem_cons_self)
    · exact h.fresh b hb (e ▸ List.mem_cons_of_mem _ (List.mem_append_left _ ht))
    · exact hset t q σ' w' he.symm

include h in
theorem LoopSafe.rel_outside {c : Config} (hc : ∃ regs w n, c = f.run M regs w n) {b : IRBlock}
    (hb : b ∈ f.blocks) (hout : b.label ∉ l.2) {p : Option String} {σ : Regs} {w : World}
    (he : c = b.exec M p σ w) :
    LoopRel M f l (moved (headerMarks f l header)) c
      ((redirectBlock l b).exec M p σ w) := by
  refine ⟨hc, ?_⟩
  rw [exec_redirectBlock h hb hout, ← he]
  cases hcase : c with
  | done o w' => rfl
  | enter t q σ' w' =>
    rw [hcase] at he
    obtain ⟨ht, hq⟩ := IRBlock.exec_enter he.symm
    by_cases hth : t = l.1
    · refine Or.inl ⟨hth, Or.inr ⟨b.label, hq, ?_⟩, by simp only [Config.redirect, hth, if_true]⟩
      -- the edge is one of those that are redirected
      have hsucc : l.1 ∈ b.terminator.successorLabels := by
        rcases List.mem_append.mp (hth ▸ ht) with ht | ht
        · exact (h.edges b hb hout).1 ht
        · exact ht
      exact List.mem_map.mpr ⟨b, List.mem_filter.mpr
        ⟨hb, by simpa [isRedirected, hout] using hsucc⟩, rfl⟩
    · refine Or.inr ⟨fun e => absurd e hth, fun e => ?_, ?_, fun hin => ?_⟩
      · exact h.fresh b hb (e ▸ List.mem_cons_of_mem _ (List.mem_append_left _ ht))
      · simp only [Config.redirect, hth, if_false]
      · exact absurd (h.closed b hb hout t ht hin) hth

include hl hblock h in
theorem LoopSafe.refines (hmoved : moved (headerMarks f l header) ≠ []) :
    f.Refines M (licmLoop f l) := by
  obtain ⟨hpre, hhead, hother⟩ := h.blockAt hl hblock hmoved
  have hmem := List.mem_of_find?_eq_some hblock
  have hlabel : header.label = l.1 := by simpa using List.find?_some hblock
  refine IRFunction.Refines.of_stutter
    (R := LoopRel M f l (moved (headerMarks f l header)))
    (fun c d hR => hR.obs) (fun regs w => ⟨⟨regs, w, 0, rfl⟩, ?_⟩) (fun c d hR => ?_)
  · obtain ⟨before, after, hf, hbefore, hblocks⟩ := blocks_licmLoop hl hblock hmoved
    cases before with
    | nil =>
      simp only [IRFunction.start, hf, hblocks, List.nil_append, List.map_nil, hlabel]
      exact Or.inl ⟨trivial, Or.inl ⟨rfl, by simp [hf, hlabel]⟩, rfl⟩
    | cons b bs =>
      have hb : b ∈ f.blocks := by simp [hf]
      have hne := hbefore b List.mem_cons_self
      simp only [IRFunction.start, hf, hblocks, List.cons_append, List.map_cons,
        redirectBlock_label]
      refine Or.inr ⟨fun e => absurd e hne, fun e => h.fresh b hb (e ▸ List.mem_cons_self), trivial,
        fun hin => absurd (h.start b (by simp [hf]) hin) hne⟩
  · obtain ⟨hreach, hR⟩ := hR
    have hreach' := run_step hreach
    cases c with
    | done o w =>
      simp only at hR
      subst hR
      exact ⟨0, hreach', rfl⟩
    | enter t p σ w =>
      rcases hR with ⟨rfl, hp, rfl⟩ | ⟨hhd, htp, rfl, hset⟩
      · -- the header, from outside
        obtain ⟨regs, w₀, n, hrun⟩ := hreach
        have hkeep := h.loads regs w₀ n _ p σ w hrun.symm hl header hblock
        obtain ⟨heq, hsettled⟩ := h.step_outside hl hblock hmoved hp hkeep
        have hstep : f.step M (.enter l.1 p σ w) = header.exec M p σ w := by
          simp only [IRFunction.step, hblock]
        refine ⟨1, ?_⟩
        rw [heq, ← hstep]
        exact h.rel_inside hreach' hmem (hlabel ▸ hl) hstep hsettled
      · refine ⟨0, ?_⟩
        rw [Function.iterate_one]
        by_cases hth : t = l.1
        · -- the header, from inside
          subst hth
          obtain ⟨q, rfl, hq, hqp⟩ := hhd rfl
          obtain ⟨regs, w₀, n, hrun⟩ := hreach
          have hkeep := h.loads regs w₀ n _ _ σ w hrun.symm hl header hblock
          obtain ⟨heq, hsettled⟩ := h.step_inside hl hblock hq hqp (hset hl) hkeep
          have hstep : f.step M (.enter l.1 (some q) σ w) = header.exec M (some q) σ w := by
            simp only [IRFunction.step, hblock]
          have hstep' : (licmLoop f l).step M (.enter l.1 (some q) σ w) =
              header.exec M (some q) σ w := by
            simp only [IRFunction.step, hhead, heq]
          rw [hstep', ← hstep]
          exact h.rel_inside hreach' hmem (hlabel ▸ hl) hstep hsettled
        · cases hb : f.blockAt t with
          | none =>
            have hstep : f.step M (.enter t p σ w) = .done .noBlock w := by
              simp only [IRFunction.step, hb]
            have hstep' : (licmLoop f l).step M (.enter t p σ w) = .done .noBlock w := by
              simp only [IRFunction.step, hother t hth htp, hb, Option.map_none]
            rw [hstep']
            rw [hstep] at hreach' ⊢
            exact ⟨hreach', rfl⟩
          | some b =>
            have hbm := List.mem_of_find?_eq_some hb
            have hbl : b.label = t := by simpa using List.find?_some hb
            have hstep : f.step M (.enter t p σ w) = b.exec M p σ w := by
              simp only [IRFunction.step, hb]
            have hstep' : (licmLoop f l).step M (.enter t p σ w) =
                (redirectBlock l b).exec M p σ w := by
              simp only [IRFunction.step, hother t hth htp, hb, Option.map_some]
            rw [hstep']
            by_cases hin : b.label ∈ l.2
            · obtain ⟨regs, w₀, n, hrun⟩ := hreach
              have hkeep := h.loads regs w₀ n _ _ σ w hrun.symm (hbl ▸ hin) b hb
              have hsettled := h.exec_other hl hblock hbm hin (hbl ▸ hth) hkeep (hset (hbl ▸ hin))
              rw [redirectBlock_of_mem hin, ← hstep]
              exact h.rel_inside hreach' hbm hin hstep hsettled
            · exact h.rel_outside hreach' hbm hin hstep

end

/-! ## The pass -/

/-- Every loop from which something is moved is one that the motion handles, in the function as it is
when the loop is processed. -/
def LicmSafe (M : Machine) : IRFunction → List Loop → Prop
  | _, [] => True
  | f, l :: ls =>
    (∀ header, f.blockAt l.1 = some header → moved (headerMarks f l header) ≠ [] →
      LoopSafe M f l header) ∧ LicmSafe M (licmLoop f l) ls

/-- A loop from which nothing is moved is left alone. -/
theorem licmLoop_eq_self {f : IRFunction} {l : Loop}
    (h : ∀ header, f.blockAt l.1 = some header → moved (headerMarks f l header) = []) :
    licmLoop f l = f := by
  have hhead : f.blockAt l.1 = (f.blocks.dropWhile (fun b => b.label != l.1)).head? :=
    List.find?_eq_head?_dropWhile_not _ _
  unfold licmLoop
  cases hdrop : f.blocks.dropWhile (fun b => b.label != l.1) with
  | nil => rfl
  | cons header after =>
    rw [hdrop] at hhead
    have hnone : moved (markInvariant f l (outsideDefs f l) header.instructions) = [] :=
      h header hhead
    simp only [hnone, List.isEmpty_nil, if_true]

/-- Every loop has its header among its blocks. -/
def Headed (loops : List Loop) : Prop := ∀ l ∈ loops, l.1 ∈ l.2

theorem mem_iterate_loopBodyStep (f : IRFunction) {label : String} (n : Nat)
    {s : List String × List String} (h : label ∈ s.2) : label ∈ ((loopBodyStep f)^[n] s).2 := by
  induction n generalizing s with
  | zero => exact h
  | succ n ih =>
    rw [Function.iterate_succ_apply]
    refine ih ?_
    obtain ⟨stack, body⟩ := s
    cases stack with
    | nil => exact h
    | cons top stack =>
      simp only [loopBodyStep]
      split
      · exact h
      · exact List.mem_cons_of_mem _ h

theorem Headed.absorb {loops : List Loop} (h : Headed loops) (i j : Nat) :
    Headed (absorb loops i j) := by
  unfold Vuma.Opt.absorb
  split
  · rename_i li lj hi hj
    split
    · intro l hl
      rcases List.mem_or_eq_of_mem_set hl with hl | rfl
      · exact h l hl
      · exact List.mem_append_left _ (h li (List.mem_of_getElem? hi))
    · exact h
  · exact h

theorem Headed.mergeRound {loops : List Loop} (h : Headed loops) : Headed (mergeRound loops) := by
  unfold Vuma.Opt.mergeRound
  generalize (List.range loops.length).product (List.range loops.length) = pairs
  induction pairs generalizing loops with
  | nil => exact h
  | cons p pairs ih => exact ih (h.absorb p.1 p.2)

theorem headed_findNaturalLoops (f : IRFunction) : Headed (findNaturalLoops f) := by
  unfold findNaturalLoops
  refine Function.Iterate.rec Headed ?_ (fun ls h => h.mergeRound) _
  intro l hl
  obtain ⟨e, _, rfl⟩ := List.mem_map.mp hl
  exact mem_iterate_loopBodyStep f _ List.mem_cons_self

theorem headed_sortedLoops (f : IRFunction) : Headed (sortedLoops f) := by
  intro l hl
  exact headed_findNaturalLoops f l
    ((List.perm_insertionSort _ _).mem_iff.mp (List.mem_of_mem_filter hl))

/-- Processing loops that the motion handles, one after another. -/
theorem LicmSafe.refines {M : Machine} {f : IRFunction} {ls : List Loop} (hs : LicmSafe M f ls)
    (hl : Headed ls) : f.Refines M (ls.foldl licmLoop f) := by
  induction ls generalizing f with
  | nil => exact .of_obs_eq fun _ _ _ => rfl
  | cons l ls ih =>
    obtain ⟨hfirst, hrest⟩ := hs
    refine IRFunction.Refines.trans ?_ (ih hrest fun m hm => hl m (List.mem_cons_of_mem _ hm))
    by_cases hnone : ∀ header, f.blockAt l.1 = some header → moved (headerMarks f l header) = []
    · rw [licmLoop_eq_self hnone]
      exact .of_obs_eq fun _ _ _ => rfl
    · push Not at hnone
      obtain ⟨header, hblock, hmoved⟩ := hnone
      exact (hfirst header hblock hmoved).refines (hl l List.mem_cons_self) hblock hmoved

/-- Where every loop is one that the motion handles, `licm` refines the function: the same effects in
the same order, and the same outcome. -/
theorem licm_refines (M : Machine) (f : IRFunction)
    (h : LicmSafe M f.rebuildCfg (sortedLoops f.rebuildCfg)) : f.Refines M (licm f) := by
  have hrebuild : ∀ g : IRFunction, g.Refines M g.rebuildCfg := fun g =>
    .of_obs_eq fun regs w n => g.rebuildCfg_obs M regs w n
  exact (hrebuild f).trans ((h.refines (headed_sortedLoops _)).trans (hrebuild _))

/-! ## Examples -/

theorem keepsLoads_of_not_load (M : Machine) {is : List IRInstr}
    (h : ∀ i ∈ is, ∀ dst addr off ty, i ≠ .load dst addr off ty) (pred : Option String)
    (edge : Regs) (js : List IRInstr) (σ : Regs) (w : World) : KeepsLoads M is pred edge js σ w := by
  induction js generalizing σ w with
  | nil => trivial
  | cons j js ih =>
    simp only [KeepsLoads]
    split
    · exact ⟨fun i hi dst addr off ty e => absurd e (h i hi dst addr off ty), ih _ _⟩
    · trivial

theorem blockKeepsLoads_of_not_load (M : Machine) {is : List IRInstr}
    (h : ∀ i ∈ is, ∀ dst addr off ty, i ≠ .load dst addr off ty) (b : IRBlock)
    (pred : Option String) (σ : Regs) (w : World) : BlockKeepsLoads M is b pred σ w :=
  ⟨keepsLoads_of_not_load M h pred σ b.instructions σ w,
    fun _ _ _ _ _ _ _ _ i hi dst addr off ty e => absurd e (h i hi dst addr off ty)⟩

/-- A loop that counts to one, with the given instructions in its header and in its body. -/
def countedLoop (header body : List IRInstr) : IRFunction where
  name := "counted"
  results := [.register 0]
  blocks :=
    [{ label := "entry", instructions := [.add (.register 1) (.immediate 0) (.immediate 0) none],
       terminator := .jump "loop" },
     { label := "loop",
       instructions := header ++ [.cmp .ult (.register 2) (.register 1) (.immediate 1) none],
       terminator := .branch (.register 2) "body" "exit" },
     { label := "body",
       instructions := body ++ [.add (.register 1) (.register 1) (.immediate 1) none],
       terminator := .jump "loop" },
     { label := "exit", instructions := [], terminator := .ret [.register 0] }]

/-- A product that is the same in every iteration. -/
def sixTimesSeven : IRInstr := .mul (.register 0) (.immediate 6) (.immediate 7) none

theorem loopSafe_sixTimesSeven (M : Machine) {header : IRBlock}
    (hb : (countedLoop [sixTimesSeven] []).rebuildCfg.blockAt "loop" = some header) :
    LoopSafe M (countedLoop [sixTimesSeven] []).rebuildCfg ("loop", ["body", "loop"]) header := by
  have hheader : header = ((countedLoop [sixTimesSeven] []).rebuildCfg.blocks.get ⟨1, by decide⟩) :=
    Option.some.inj (hb.symm.trans (by decide +kernel))
  have hmarks : headerMarks (countedLoop [sixTimesSeven] []).rebuildCfg ("loop", ["body", "loop"])
      header = [(sixTimesSeven, true),
        (.cmp .ult (.register 2) (.register 1) (.immediate 1) none, false)] := by
    rw [hheader]
    decide +kernel
  have hmoved : moved (headerMarks (countedLoop [sixTimesSeven] []).rebuildCfg
      ("loop", ["body", "loop"]) header) = [sixTimesSeven] := by rw [hmarks]; rfl
  have hkept : kept (headerMarks (countedLoop [sixTimesSeven] []).rebuildCfg
      ("loop", ["body", "loop"]) header) =
        [.cmp .ult (.register 2) (.register 1) (.immediate 1) none] := by rw [hmarks]; rfl
  constructor
  case fresh => decide +kernel
  case pure => rw [hmoved]; simp [sixTimesSeven, harmless]
  case single => rw [hmoved]; decide
  case unique => rw [hmoved, hkept]; decide +kernel
  case terminators => rw [hmoved]; decide +kernel
  case phisFirst => rw [hheader]; decide +kernel
  case order =>
    rw [hmarks]
    rintro (_ | ⟨_, _ | ⟨_, _⟩⟩) j after h hphi i hi <;> simp_all
  case phis =>
    rw [hheader]
    intro dst incoming hm
    simp [countedLoop, IRFunction.rebuildCfg, sixTimesSeven] at hm
  case edges =>
    have hjumps : ∀ b ∈ (countedLoop [sixTimesSeven] []).rebuildCfg.blocks,
        b.terminator ∈ [.jump "loop", .branch (.register 2) "body" "exit", .ret [.register 0]] ∧
          b.instructions.flatMap IRInstr.targets = [] := by decide +kernel
    intro b hmem _
    obtain ⟨ht, htargets⟩ := hjumps b hmem
    refine ⟨by simp [htargets], fun dst func args normal unwind e => ?_⟩
    simp [e] at ht
  case closed => decide +kernel
  case start => decide +kernel
  case loads =>
    intro _ _ _ _ p σ w _ _ b _
    rw [hmoved]
    exact blockKeepsLoads_of_not_load M (by simp [sixTimesSeven]) b p σ w

/-- The product is moved, and the function does what it did. -/
theorem licm_sixTimesSeven :
    (licm (countedLoop [sixTimesSeven] [])).blocks.map (·.label) =
        ["entry", "preheader_loop", "loop", "body", "exit"] ∧
      (countedLoop [sixTimesSeven] []).Refines default (licm (countedLoop [sixTimesSeven] [])) := by
  refine ⟨by decide +kernel, licm_refines default _ ?_⟩
  have hloops : sortedLoops (countedLoop [sixTimesSeven] []).rebuildCfg =
      [("loop", ["body", "loop"])] := by decide +kernel
  rw [hloops]
  exact ⟨fun header hb _ => loopSafe_sixTimesSeven default hb, trivial⟩

/-- The header and the body of the loop define the same register. -/
def overtaken : IRFunction :=
  countedLoop [.add (.register 0) (.immediate 1) (.immediate 0) none]
    [.add (.register 0) (.immediate 2) (.immediate 0) none]

/-- The header fills the byte it loads, and the body stores to it. -/
def refilled : IRFunction :=
  countedLoop
    [.bulkFill (.immediate 4096) (.immediate 1) (.immediate 1),
     .load (.register 0) (.immediate 4096) 0 .u8]
    [.store (.immediate 2) (.immediate 4096) 0 .u8]

/-- The header loads a byte that the body fills. -/
def reloaded : IRFunction :=
  countedLoop [.load (.register 0) (.immediate 4096) 0 .u8]
    [.bulkFill (.immediate 4096) (.immediate 2) (.immediate 1)]

/-- A phi in the header has different values for two predecessors outside of the loop. -/
def twoEntries : IRFunction where
  name := "twoEntries"
  results := [.register 0]
  blocks :=
    [{ label := "entry", instructions := [], terminator := .branch (.immediate 1) "left" "right" },
     { label := "left", instructions := [], terminator := .jump "loop" },
     { label := "right", instructions := [], terminator := .jump "loop" },
     { label := "loop",
       instructions :=
        [.phi (.register 0)
          [(.immediate 1, "left"), (.immediate 0, "right"), (.register 0, "loop")],
         .add (.register 1) (.immediate 5) (.immediate 0) none],
       terminator := .branch (.immediate 0) "loop" "exit" },
     { label := "exit", instructions := [], terminator := .ret [.register 0] }]

/-- After the motion the four functions return 2 for 1, 2 for 1, 0 for 2 and 0 for 1. -/
theorem licm_unsound :
    ¬ overtaken.Refines default (licm overtaken) ∧ ¬ refilled.Refines default (licm refilled) ∧
      ¬ reloaded.Refines default (licm reloaded) ∧
      ¬ twoEntries.Refines default (licm twoEntries) := by
  let w : World := ⟨fun _ => 0, []⟩
  let regs : Regs := fun _ => 0
  have hoff : ∀ {f : IRFunction} (v v' : Word), v ≠ v' →
      (f.run default regs w 5).obs.1 = some (.returned [v]) →
      ((licm f).run default regs w 6).obs.1 = some (.returned [v']) →
      ¬ f.Refines default (licm f) := by
    intro f v v' hne hv hv' h
    have := h.outcome_eq hv hv'
    simp [hne] at this
  refine ⟨hoff 1 2 (by decide) ?_ ?_, hoff 1 2 (by decide) ?_ ?_, hoff 2 0 (by decide) ?_ ?_,
    hoff 1 0 (by decide) ?_ ?_⟩
  all_goals decide +kernel

end Vuma.Opt
