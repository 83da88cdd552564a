import Vuma.IR.Footprint
import Vuma.Lib.Simulation

/-!
# Edges between blocks

A block knows the label it was entered from only through its phis, and it hands its own label to the
block it enters. A pass that splits blocks or puts a block on an edge changes these labels and the
number of blocks a run goes through; `IRFunction.Refines` is what it keeps.
-/

namespace Vuma.IR

/-- The labels an instruction can transfer control to. -/
def IRInstr.targets : IRInstr → List String
  | .branch target => [target]
  | .condBranch _ t f => [t, f]
  | _ => []

/-- The labels a block can transfer control to. -/
def IRBlock.targets (b : IRBlock) : List String :=
  b.instructions.flatMap IRInstr.targets ++ b.terminator.successorLabels

/-- The predecessors a phi has entries for. -/
def IRInstr.phiLabels : IRInstr → List String
  | .phi _ incoming => incoming.map Prod.snd
  | _ => []

/-- All labels a block mentions. -/
def IRBlock.labels (b : IRBlock) : List String :=
  b.label :: (b.targets ++ b.instructions.flatMap IRInstr.phiLabels)

/-- Every register the block reads is below `c`. -/
def IRBlock.UsesBelow (b : IRBlock) (c : VReg) : Prop :=
  (∀ i ∈ b.instructions, ∀ r ∈ i.usedRegs, r < c) ∧ ∀ r ∈ b.terminator.usedRegs, r < c

/-! ## Where a block leads -/

theorem IRInstr.mem_targets {M : Machine} {ev edge : IRValue → Word} {pred : Option String}
    {w w' : World} {i : IRInstr} {target : String}
    (h : i.effect M ev edge pred w = .jump target w') : target ∈ i.targets := by
  have hctl := isControl_of_jump h
  cases i with
  | branch t =>
    cases h
    exact List.mem_cons_self
  | condBranch cond t f =>
    cases h
    simp only [targets]
    split <;> simp
  | ret values => cases h
  | _ => simp [isControl] at hctl

theorem execInstrs_enter {M : Machine} {label : String} {pred : Option String} {edge : Regs}
    {is : List IRInstr} {σ : Regs} {w : World} {l : String} {p : Option String} {τ : Regs}
    {w' : World} (h : execInstrs M label pred edge is σ w = .leave (.enter l p τ w')) :
    l ∈ is.flatMap IRInstr.targets ∧ p = some label := by
  induction is generalizing σ w with
  | nil => cases h
  | cons i is ih =>
    rw [execInstrs_cons] at h
    cases he : i.effect M (·.eval M σ) (·.eval M edge) pred w with
    | next ws w₁ =>
      rw [he] at h
      obtain ⟨hl, hp⟩ := ih h
      exact ⟨List.mem_append_right _ hl, hp⟩
    | jump target w₁ =>
      rw [he] at h
      cases h
      exact ⟨List.mem_append_left _ (IRInstr.mem_targets he), rfl⟩
    | ret vs w₁ => rw [he] at h; cases h
    | stop o w₁ => rw [he] at h; cases h

theorem IRTerminator.exec_enter {M : Machine} {label : String} {t : IRTerminator} {σ : Regs}
    {w : World} {l : String} {p : Option String} {τ : Regs} {w' : World}
    (h : t.exec M label σ w = .enter l p τ w') : l ∈ t.successorLabels ∧ p = some label := by
  cases t with
  | jump target =>
    cases h
    exact ⟨List.mem_cons_self, rfl⟩
  | branch cond tb fb =>
    cases h
    refine ⟨?_, rfl⟩
    simp only [successorLabels]
    split <;> simp
  | switch discr targets default =>
    cases h
    refine ⟨?_, rfl⟩
    simp only [successorLabels, List.mem_append, List.mem_singleton]
    cases hf : targets.find? (fun t => t.1 == discr.eval M σ) with
    | none => exact Or.inr rfl
    | some e => exact Or.inl (List.mem_map_of_mem (List.mem_of_find?_eq_some hf))
  | invoke dst func args normal unwind =>
    simp only [exec] at h
    split at h
    · cases h
      exact ⟨List.mem_cons_self, rfl⟩
    · cases h
      exact ⟨by simp [successorLabels], rfl⟩
    · cases h
  | tailCall func args =>
    simp only [exec] at h
    split at h <;> cases h
  | ret _ | unreachable | resume _ => cases h

theorem IRBlock.exec_enter {M : Machine} {b : IRBlock} {pred : Option String} {σ : Regs}
    {w : World} {l : String} {p : Option String} {τ : Regs} {w' : World}
    (h : b.exec M pred σ w = .enter l p τ w') : l ∈ b.targets ∧ p = some b.label := by
  rw [IRBlock.exec] at h
  cases he : execInstrs M b.label pred σ b.instructions σ w with
  | stay σ' w₁ =>
    rw [he] at h
    obtain ⟨hl, hp⟩ := IRTerminator.exec_enter h
    exact ⟨List.mem_append_right _ hl, hp⟩
  | leave c =>
    rw [he] at h
    simp only [Flow.finish] at h
    subst h
    obtain ⟨hl, hp⟩ := execInstrs_enter he
    exact ⟨List.mem_append_left _ hl, hp⟩

/-! ## Changing the label a block is entered from -/

/-- The configuration with another label to come from. -/
def Config.setPred (p : Option String) : Config → Config
  | .enter label _ regs w => .enter label p regs w
  | .done o w => .done o w

def Flow.setPred (p : Option String) : Flow → Flow
  | .stay regs w => .stay regs w
  | .leave c => .leave (c.setPred p)

/-- The label of a block matters only to the blocks it leads to. -/
theorem execInstrs_label (M : Machine) (label label' : String) (pred : Option String) (edge : Regs)
    (is : List IRInstr) (σ : Regs) (w : World) :
    execInstrs M label' pred edge is σ w =
      (execInstrs M label pred edge is σ w).setPred (some label') := by
  induction is generalizing σ w with
  | nil => rfl
  | cons i is ih =>
    rw [execInstrs_cons, execInstrs_cons]
    cases i.effect M (·.eval M σ) (·.eval M edge) pred w with
    | next ws w' => exact ih _ w'
    | _ => rfl

theorem IRTerminator.exec_label (M : Machine) (label label' : String) (t : IRTerminator) (σ : Regs)
    (w : World) : t.exec M label' σ w = (t.exec M label σ w).setPred (some label') := by
  cases t with
  | invoke dst func args normal unwind =>
    simp only [exec]
    cases M.call w func (args.map (·.eval M σ)) <;> rfl
  | tailCall func args =>
    simp only [exec]
    cases M.call w func (args.map (·.eval M σ)) <;> rfl
  | _ => rfl

theorem execInstrs_pred (M : Machine) (label : String) {pred pred' : Option String} (edge : Regs)
    {is : List IRInstr}
    (h : ∀ dst incoming, .phi dst incoming ∈ is →
      incoming.find? (fun e => some e.2 == pred) = incoming.find? (fun e => some e.2 == pred'))
    (σ : Regs) (w : World) :
    execInstrs M label pred edge is σ w = execInstrs M label pred' edge is σ w := by
  induction is generalizing σ w with
  | nil => rfl
  | cons i is ih =>
    have heff : i.effect M (·.eval M σ) (·.eval M edge) pred w =
        i.effect M (·.eval M σ) (·.eval M edge) pred' w := by
      cases i with
      | phi dst incoming => simp only [IRInstr.effect, h dst incoming List.mem_cons_self]
      | _ => rfl
    rw [execInstrs_cons, execInstrs_cons, heff]
    cases i.effect M (·.eval M σ) (·.eval M edge) pred' w with
    | next ws w' => exact ih (fun dst inc hm => h dst inc (List.mem_cons_of_mem _ hm)) _ w'
    | _ => rfl

theorem execInstrs_noPhi (M : Machine) (label : String) (pred pred' : Option String)
    (edge edge' : Regs) {is : List IRInstr} (h : ∀ i ∈ is, i.isPhi = false) (σ : Regs) (w : World) :
    execInstrs M label pred edge is σ w = execInstrs M label pred' edge' is σ w := by
  induction is generalizing σ w with
  | nil => rfl
  | cons i is ih =>
    rw [execInstrs_cons, execInstrs_cons, IRInstr.effect_edge M _ (·.eval M edge) (·.eval M edge')
      pred pred' w (h i List.mem_cons_self)]
    cases i.effect M (·.eval M σ) (·.eval M edge') pred' w with
    | next ws w' => exact ih (fun j hj => h j (List.mem_cons_of_mem _ hj)) _ w'
    | _ => rfl

theorem find?_phi_eq_none {incoming : List (IRValue × String)} {l : String}
    (h : l ∉ incoming.map Prod.snd) : incoming.find? (fun e => some e.2 == some l) = none := by
  refine List.find?_eq_none.mpr fun e he => ?_
  have hne : e.2 ≠ l := fun hl => h (List.mem_map.mpr ⟨e, he, hl⟩)
  simpa using hne

/-! ## Register files that agree on what a block reads -/

theorem execInstrs_agree (M : Machine) {P : VReg → Prop} (label : String) (pred : Option String)
    {edge edge' : Regs} {is : List IRInstr} (huse : ∀ i ∈ is, ∀ r ∈ i.usedRegs, P r)
    (hedge : ∀ r, P r → edge r = edge' r) {σ τ : Regs} (w : World) (h : ∀ r, P r → σ r = τ r) :
    (execInstrs M label pred edge is σ w).AgreeOn P (execInstrs M label pred edge' is τ w) := by
  induction is generalizing σ τ w with
  | nil => exact ⟨rfl, h⟩
  | cons i is ih =>
    have hi := huse i List.mem_cons_self
    rw [execInstrs_cons, execInstrs_cons, IRInstr.effect_congr M pred w i
      (fun r hr => h r (hi r hr)) (fun r hr => hedge r (hi r hr))]
    refine Flow.andThen_agree (Effect.flow_agree _ h) (fun _ hr => hr) ?_
    exact fun σ τ w hστ => ih (fun j hj => huse j (List.mem_cons_of_mem _ hj)) w hστ

theorem IRBlock.exec_agree (M : Machine) {P : VReg → Prop} {b : IRBlock} (pred : Option String)
    (huse : ∀ i ∈ b.instructions, ∀ r ∈ i.usedRegs, P r) (ht : ∀ r ∈ b.terminator.usedRegs, P r)
    {σ τ : Regs} (w : World) (h : ∀ r, P r → σ r = τ r) :
    (b.exec M pred σ w).AgreeOn P (b.exec M pred τ w) := by
  refine Flow.finish_agree (execInstrs_agree M b.label pred huse h w h) ?_
  exact fun σ τ w hστ => IRTerminator.exec_agree M b.label w b.terminator hστ ht

/-! ## Refinement -/

/-- Every point of a run of `f` is matched by a point of the run of `f'` on the same input that is
no earlier. -/
def IRFunction.Refines (M : Machine) (f f' : IRFunction) : Prop :=
  ∀ (regs : Regs) (w : World) (n : Nat),
    ∃ m, n ≤ m ∧ (f'.run M regs w m).obs = (f.run M regs w n).obs

namespace IRFunction

theorem Refines.of_obs_eq {M : Machine} {f f' : IRFunction}
    (h : ∀ regs w n, (f'.run M regs w n).obs = (f.run M regs w n).obs) : f.Refines M f' :=
  fun regs w n => ⟨n, Nat.le_refl n, h regs w n⟩

theorem Refines.trans {M : Machine} {f g h : IRFunction} (hfg : f.Refines M g)
    (hgh : g.Refines M h) : f.Refines M h := by
  intro regs w n
  obtain ⟨m, hm, hobs⟩ := hfg regs w n
  obtain ⟨k, hk, hobs'⟩ := hgh regs w m
  exact ⟨k, Nat.le_trans hm hk, hobs'.trans hobs⟩

/-- The rule for a pass that lets each block of a run be matched by one or more blocks. -/
theorem Refines.of_stutter {M : Machine} {f f' : IRFunction} {R : Config → Config → Prop}
    (hobs : ∀ c d, R c d → d.obs = c.obs)
    (hstart : ∀ regs w, R (f.start regs w) (f'.start regs w))
    (hstep : ∀ c d, R c d → ∃ k, R (f.step M c) ((f'.step M)^[k + 1] d)) : f.Refines M f' := by
  intro regs w n
  obtain ⟨m, hm, hR⟩ := Lib.iterate_stutter hstep n (hstart regs w)
  exact ⟨m, hm, hobs _ _ hR⟩

theorem run_of_done {M : Machine} {f : IRFunction} {regs : Regs} {w w' : World} {n m : Nat}
    {o : Outcome} (h : f.run M regs w n = .done o w') (hnm : n ≤ m) :
    f.run M regs w m = .done o w' := by
  induction hnm with
  | refl => exact h
  | step _ ih =>
    rw [run, Function.iterate_succ_apply']
    exact congrArg (f.step M) ih

theorem Refines.outcome_eq {M : Machine} {f f' : IRFunction} (h : f.Refines M f') {regs : Regs}
    {w : World} {n m : Nat} {o o' : Outcome} (hn : (f.run M regs w n).obs.1 = some o)
    (hm : (f'.run M regs w m).obs.1 = some o') : o = o' := by
  obtain ⟨k, -, hobs⟩ := h regs w n
  have hk : (f'.run M regs w k).obs.1 = some o := by rw [hobs, hn]
  have hdone : ∀ {j : Nat} {u : Outcome}, (f'.run M regs w j).obs.1 = some u →
      ∃ w', f'.run M regs w j = .done u w' := by
    intro j u hj
    cases hc : f'.run M regs w j with
    | enter l p σ w' => rw [hc] at hj; cases hj
    | done u' w' => rw [hc] at hj; cases hj; exact ⟨w', rfl⟩
  obtain ⟨w₁, hk⟩ := hdone hk
  obtain ⟨w₂, hm⟩ := hdone hm
  rcases Nat.le_total k m with hkm | hkm
  · rw [run_of_done hk hkm] at hm
    cases hm
    rfl
  · rw [run_of_done hm hkm] at hk
    cases hk
    rfl

end IRFunction

end Vuma.IR
