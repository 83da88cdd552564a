import Vuma.IR.Footprint
import Vuma.Lib.Simulation

/-!
# Renaming block labels

Block labels are names inside a function. Renaming them injectively, in the labels of the blocks, the
targets of the jumps and the entries of the phis, changes nothing that can be observed.
-/

namespace Vuma.IR

variable (ρ : String → String)

def IRInstr.relabel : IRInstr → IRInstr
  | .phi dst incoming => .phi dst (incoming.map fun e => (e.1, ρ e.2))
  | .branch target => .branch (ρ target)
  | .condBranch cond t f => .condBranch cond (ρ t) (ρ f)
  | i => i

def IRTerminator.relabel : IRTerminator → IRTerminator
  | .jump target => .jump (ρ target)
  | .branch cond t f => .branch cond (ρ t) (ρ f)
  | .switch discr targets default => .switch discr (targets.map fun t => (t.1, ρ t.2)) (ρ default)
  | .invoke dst func args normal unwind => .invoke dst func args (ρ normal) (ρ unwind)
  | t => t

/-- A configuration with its labels renamed. -/
def Config.relabel : Config → Config
  | .enter label pred regs w => .enter (ρ label) (pred.map ρ) regs w
  | .done o w => .done o w

theorem Config.obs_relabel (c : Config) : (c.relabel ρ).obs = c.obs := by
  cases c <;> rfl

/-- `b'` is `b` with its labels renamed, as far as execution is concerned. -/
structure IRBlock.IsRelabel (b b' : IRBlock) : Prop where
  label : b'.label = ρ b.label
  instructions : b'.instructions = b.instructions.map (IRInstr.relabel ρ)
  terminator : b'.terminator = b.terminator.relabel ρ

/-- The blocks of `f'` are those of `f`, in order, with their labels renamed. -/
def IRFunction.IsRelabel (f f' : IRFunction) : Prop :=
  List.Forall₂ (IRBlock.IsRelabel ρ) f.blocks f'.blocks

theorem IRFunction.isRelabel_id (f : IRFunction) : f.IsRelabel id f := by
  have hi : ∀ i : IRInstr, i.relabel id = i := by
    intro i
    cases i <;> simp [IRInstr.relabel]
  have ht : ∀ t : IRTerminator, t.relabel id = t := by
    intro t
    cases t <;> simp [IRTerminator.relabel]
  refine List.forall₂_same.mpr fun b _ => ⟨rfl, ?_, (ht _).symm⟩
  simp [funext hi]

variable {ρ}

def Effect.relabel (ρ : String → String) : Effect → Effect
  | .jump target w => .jump (ρ target) w
  | e => e

def Flow.relabel (ρ : String → String) : Flow → Flow
  | .stay regs w => .stay regs w
  | .leave c => .leave (c.relabel ρ)

theorem IRInstr.effect_relabel (hρ : Function.Injective ρ) (M : Machine)
    (ev edge : IRValue → Word) (pred : Option String) (w : World) (i : IRInstr) :
    (i.relabel ρ).effect M ev edge (pred.map ρ) w = (i.effect M ev edge pred w).relabel ρ := by
  have hkeep : ∀ e : Effect, (∀ t w', e ≠ .jump t w') → e.relabel ρ = e := by
    intro e he
    cases e with
    | jump t w' => exact absurd rfl (he t w')
    | _ => rfl
  cases i with
  | phi dst incoming =>
    have hcomp : (fun e : IRValue × String => some e.2 == pred.map ρ) ∘
        (fun e : IRValue × String => (e.1, ρ e.2)) =
        fun e : IRValue × String => some e.2 == pred := by
      funext e
      cases pred with
      | none => rfl
      | some p => simp [hρ.eq_iff]
    simp only [relabel, effect, List.find?_map, hcomp]
    cases incoming.find? (fun e => some e.2 == pred) <;> rfl
  | branch target => rfl
  | ret values => rfl
  | condBranch cond t f =>
    simp only [relabel, effect, Effect.relabel]
    split <;> rfl
  | _ =>
    rw [hkeep _ (fun t w' he => by simpa [isControl] using isControl_of_jump he)]
    exact IRInstr.effect_edge M ev edge edge _ _ w rfl

theorem execInstrs_relabel (hρ : Function.Injective ρ) (M : Machine) (label : String)
    (pred : Option String) (edge : Regs) (is : List IRInstr) (σ : Regs) (w : World) :
    execInstrs M (ρ label) (pred.map ρ) edge (is.map (IRInstr.relabel ρ)) σ w =
      (execInstrs M label pred edge is σ w).relabel ρ := by
  induction is generalizing σ w with
  | nil => rfl
  | cons i is ih =>
    rw [List.map_cons, execInstrs_cons, execInstrs_cons, IRInstr.effect_relabel hρ]
    cases i.effect M (·.eval M σ) (·.eval M edge) pred w with
    | next ws w' => exact ih _ w'
    | _ => rfl

theorem IRTerminator.exec_relabel (M : Machine) (label : String) (σ : Regs) (w : World)
    (t : IRTerminator) :
    (t.relabel ρ).exec M (ρ label) σ w = (t.exec M label σ w).relabel ρ := by
  cases t with
  | branch cond tb fb =>
    simp only [relabel, exec, Config.relabel]
    split <;> rfl
  | switch discr targets default =>
    have hcomp : (fun t : Word × String => t.1 == discr.eval M σ) ∘
        (fun t : Word × String => (t.1, ρ t.2)) =
        fun t : Word × String => t.1 == discr.eval M σ := rfl
    simp only [relabel, exec, Config.relabel, List.find?_map, hcomp]
    cases targets.find? (fun t => t.1 == discr.eval M σ) <;> rfl
  | invoke dst func args normal unwind =>
    simp only [relabel, exec]
    cases M.call w func (args.map (·.eval M σ)) <;> rfl
  | tailCall func args =>
    simp only [relabel, exec]
    cases M.call w func (args.map (·.eval M σ)) <;> rfl
  | _ => rfl

theorem IRBlock.IsRelabel.exec {b b' : IRBlock} (h : b.IsRelabel ρ b')
    (hρ : Function.Injective ρ) (M : Machine) (pred : Option String) (σ : Regs) (w : World) :
    b'.exec M (pred.map ρ) σ w = (b.exec M pred σ w).relabel ρ := by
  rw [IRBlock.exec, IRBlock.exec, h.label, h.instructions, h.terminator, execInstrs_relabel hρ]
  cases execInstrs M b.label pred σ b.instructions σ w with
  | stay σ' w' => exact IRTerminator.exec_relabel M b.label σ' w' b.terminator
  | leave c => rfl

/-- The blocks at corresponding labels correspond. -/
theorem IRFunction.IsRelabel.blockAt {f f' : IRFunction} (h : f.IsRelabel ρ f')
    (hρ : Function.Injective ρ) (label : String) :
    Option.Rel (IRBlock.IsRelabel ρ) (f.blockAt label) (f'.blockAt (ρ label)) := by
  simp only [IRFunction.IsRelabel] at h
  simp only [IRFunction.blockAt]
  generalize f.blocks = bs, f'.blocks = bs' at h
  induction h with
  | nil => exact Option.Rel.none
  | @cons b b' bs bs' hb hbs ih =>
    by_cases hl : b.label = label
    · rw [List.find?_cons_of_pos (by simp [hl]), List.find?_cons_of_pos (by simp [hb.label, hl])]
      exact Option.Rel.some hb
    · rw [List.find?_cons_of_neg (by simp [hl]),
        List.find?_cons_of_neg (by simp [hb.label, hρ.eq_iff, hl])]
      exact ih

theorem IRFunction.IsRelabel.step {f f' : IRFunction} (h : f.IsRelabel ρ f')
    (hρ : Function.Injective ρ) (M : Machine) (c : Config) :
    f'.step M (c.relabel ρ) = (f.step M c).relabel ρ := by
  cases c with
  | done o w => rfl
  | enter label pred σ w =>
    have hb := h.blockAt hρ label
    simp only [Config.relabel, IRFunction.step]
    generalize f.blockAt label = o, f'.blockAt (ρ label) = o' at hb
    cases hb with
    | none => rfl
    | some hb => exact hb.exec hρ M pred σ w

theorem IRFunction.IsRelabel.run_obs {f f' : IRFunction} (h : f.IsRelabel ρ f')
    (hρ : Function.Injective ρ) (M : Machine) (regs : Regs) (w : World) (n : Nat) :
    (f'.run M regs w n).obs = (f.run M regs w n).obs := by
  have hstart : f'.start regs w = (f.start regs w).relabel ρ := by
    simp only [IRFunction.IsRelabel] at h
    simp only [IRFunction.start]
    generalize f.blocks = bs, f'.blocks = bs' at h
    cases h with
    | nil => rfl
    | cons hb _ =>
      simp only [hb.label]
      rfl
  have hrun := Lib.iterate_lockstep (R := fun c d => d = Config.relabel ρ c) (f := f.step M)
    (g := f'.step M) (fun c d hcd => by rw [hcd]; exact h.step hρ M c) n hstart
  rw [IRFunction.run, hrun]
  exact Config.obs_relabel ρ _

theorem IRFunction.rebuildCfg_obs (f : IRFunction) (M : Machine) (regs : Regs) (w : World)
    (n : Nat) : (f.rebuildCfg.run M regs w n).obs = (f.run M regs w n).obs := by
  refine IRFunction.IsRelabel.run_obs (ρ := id) ?_ Function.injective_id M regs w n
  have hid := f.isRelabel_id
  have hzip : ∀ (bs bs' : List IRBlock) (g : IRBlock × Nat → IRBlock) (k : Nat),
      (∀ b i, (g (b, i)).label = b.label ∧ (g (b, i)).instructions = b.instructions ∧
        (g (b, i)).terminator = b.terminator) →
      List.Forall₂ (IRBlock.IsRelabel id) bs bs' →
      List.Forall₂ (IRBlock.IsRelabel id) bs ((bs'.zipIdx k).map g) := by
    intro bs bs' g k hg h
    induction h generalizing k with
    | nil => exact List.Forall₂.nil
    | @cons b b' bs bs' hb _ ih =>
      obtain ⟨hl, hi, ht⟩ := hg b' k
      refine List.Forall₂.cons
        ⟨hl.trans hb.label, hi.trans hb.instructions, ht.trans hb.terminator⟩ ?_
      exact ih (k + 1)
  refine hzip _ _ _ 0 (fun b i => ⟨rfl, rfl, rfl⟩) (List.forall₂_map_right_iff.mpr ?_)
  exact hid.imp fun b b' hb => ⟨hb.label, hb.instructions, hb.terminator⟩

end Vuma.IR
