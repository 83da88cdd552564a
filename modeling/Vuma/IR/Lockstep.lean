import Vuma.IR.Footprint
import Vuma.Lib.Simulation

/-!
# Passes that rewrite the blocks one by one

A pass that replaces every block `b` of a function by `g b`, under the same label, is correct when
`g b` does what `b` does. The rule is stated for a relation between the register files that may
depend on the point of the run, and for the special case of agreement on a set of registers.
-/

namespace Vuma.IR

/-- The function with every block rewritten by `g`. -/
def IRFunction.mapBlocks (f : IRFunction) (g : IRBlock → IRBlock) : IRFunction :=
  { f with blocks := f.blocks.map g }

@[simp] theorem IRFunction.blocks_mapBlocks (f : IRFunction) (g : IRBlock → IRBlock) :
    (f.mapBlocks g).blocks = f.blocks.map g := rfl

theorem IRFunction.blockAt_of_map {f f' : IRFunction} {g : IRBlock → IRBlock}
    (hf : f'.blocks = f.blocks.map g) (hg : ∀ b, (g b).label = b.label) (label : String) :
    f'.blockAt label = (f.blockAt label).map g := by
  have hcomp : (fun b : IRBlock => b.label == label) ∘ g = fun b => b.label == label := by
    funext b
    simp [hg b]
  simp only [blockAt, hf, List.find?_map, hcomp]

theorem IRFunction.start_of_map {f f' : IRFunction} {g : IRBlock → IRBlock}
    (hf : f'.blocks = f.blocks.map g) (hg : ∀ b, (g b).label = b.label) (regs : Regs) (w : World) :
    f'.start regs w = f.start regs w := by
  cases hb : f.blocks with
  | nil => simp [start, hf, hb]
  | cons b bs => simp [start, hf, hb, hg b]

section

variable {M : Machine} {f f' : IRFunction} {R : String → Option String → Regs → Regs → Prop}

/-- One block of the run: related configurations lead to related configurations when the blocks
at each label do. -/
theorem IRFunction.step_related
    (hblock : ∀ label pred σ τ w, R label pred σ τ →
      (f.step M (.enter label pred σ w)).Related R (f'.step M (.enter label pred τ w)))
    {c d : Config} (h : c.Related R d) : (f.step M c).Related R (f'.step M d) := by
  cases c with
  | enter label pred σ w =>
    cases d with
    | enter label' pred' τ w' =>
      obtain ⟨rfl, rfl, rfl, hR⟩ := h
      exact hblock label pred σ τ w hR
    | done o w' => exact h.elim
  | done o w =>
    cases d with
    | enter label' pred' τ w' => exact h.elim
    | done o' w' => exact h

theorem IRFunction.run_related
    (hblock : ∀ label pred σ τ w, R label pred σ τ →
      (f.step M (.enter label pred σ w)).Related R (f'.step M (.enter label pred τ w)))
    {σ τ : Regs} {w : World} (hstart : (f.start σ w).Related R (f'.start τ w)) (n : Nat) :
    (f.run M σ w n).Related R (f'.run M τ w n) :=
  Lib.iterate_lockstep (R := Config.Related R)
    (fun _ _ h => IRFunction.step_related hblock h) n hstart

end

/-- A pass that rewrites the blocks one by one preserves what can be observed, when each new block
does what the old one did as far as the registers satisfying `P` are concerned. -/
theorem IRFunction.mapBlocks_obs {M : Machine} {P : VReg → Prop} (f : IRFunction)
    {g : IRBlock → IRBlock} (hg : ∀ b, (g b).label = b.label)
    (hblock : ∀ b ∈ f.blocks, ∀ pred σ τ w, (∀ r, P r → σ r = τ r) →
      (b.exec M pred σ w).AgreeOn P ((g b).exec M pred τ w)) (regs : Regs) (w : World) (n : Nat) :
    ((f.mapBlocks g).run M regs w n).obs = (f.run M regs w n).obs := by
  refine (Config.Related.obs_eq (IRFunction.run_related
    (R := fun _ _ σ τ => ∀ r, P r → σ r = τ r) ?_ ?_ n)).symm
  · intro label pred σ τ w hP
    simp only [step, blockAt_of_map (f.blocks_mapBlocks g) hg label]
    cases hb : f.blockAt label with
    | none => exact ⟨rfl, rfl⟩
    | some b => exact hblock b (List.mem_of_find?_eq_some hb) pred σ τ w hP
  · rw [start_of_map (f.blocks_mapBlocks g) hg]
    exact Config.AgreeOn.refl P _

/-- The special case in which each new block does exactly what the old one did. -/
theorem IRFunction.mapBlocks_obs_of_exec {M : Machine} (f : IRFunction) {g : IRBlock → IRBlock}
    (hg : ∀ b, (g b).label = b.label)
    (hblock : ∀ b ∈ f.blocks, ∀ pred σ w, (g b).exec M pred σ w = b.exec M pred σ w)
    (regs : Regs) (w : World) (n : Nat) :
    ((f.mapBlocks g).run M regs w n).obs = (f.run M regs w n).obs := by
  refine f.mapBlocks_obs (P := fun _ => True) hg (fun b hb pred σ τ w h => ?_) regs w n
  obtain rfl : σ = τ := funext (fun r => h r trivial)
  rw [hblock b hb pred σ w]
  exact Config.AgreeOn.refl _ _

end Vuma.IR
