import Vuma.IR.Edges
import Vuma.IR.Origins

/-!
# What a block leaves unchanged

A register that neither an instruction nor the terminator of a block writes has the value on leaving
the block that it had on entering it.
-/

namespace Vuma.IR

/-- The registers a block writes. -/
def IRBlock.definedRegs (b : IRBlock) : List VReg :=
  b.instructions.flatMap IRInstr.definedRegs ++ b.terminator.definedRegs

variable {M : Machine} {label : String} {pred : Option String} {edge σ τ : Regs} {w w' : World}
  {r : VReg}

/-- Instructions that do not write a register keep it, whether they stay in the block or leave it for
another one. -/
theorem execInstrs_frame {is : List IRInstr}
    (h : execInstrs M label pred edge is σ w = .stay τ w' ∨
      ∃ l p, execInstrs M label pred edge is σ w = .leave (.enter l p τ w'))
    (hr : ∀ i ∈ is, r ∉ i.definedRegs) : τ r = σ r := by
  induction is generalizing σ w with
  | nil => rcases h with h | ⟨l, p, h⟩ <;> cases h; rfl
  | cons i is ih =>
    simp only [execInstrs_cons] at h
    cases he : i.effect M (·.eval M σ) (·.eval M edge) pred w with
    | next ws w₁ =>
      rw [he] at h
      rw [ih h fun j hj => hr j (List.mem_cons_of_mem _ hj)]
      exact IRInstr.effect_frame he (hr i List.mem_cons_self) σ
    | jump target w₁ => rw [he] at h; rcases h with h | ⟨l, p, h⟩ <;> cases h; rfl
    | ret vs w₁ | stop o w₁ => rw [he] at h; rcases h with h | ⟨l, p, h⟩ <;> cases h

theorem IRTerminator.exec_frame {t : IRTerminator} {l : String} {p : Option String}
    (h : t.exec M label σ w = .enter l p τ w') (hr : r ∉ t.definedRegs) : τ r = σ r := by
  cases t with
  | jump target => cases h; rfl
  | branch cond tb fb => cases h; rfl
  | switch discr targets default => cases h; rfl
  | invoke dst func args normal unwind =>
    simp only [exec] at h
    split at h
    · cases h
      apply Regs.writes_of_not_mem
      intro q hq hreg
      cases dst with
      | none => cases hq
      | some d =>
        rw [Option.toList_some, List.map_singleton, List.mem_singleton] at hq
        rw [hq] at hreg
        apply hr
        simp only at hreg
        rw [hreg]
        exact List.mem_singleton_self r
    · cases h; rfl
    · cases h
  | tailCall func args =>
    simp only [exec] at h
    split at h <;> cases h
  | ret _ | unreachable | resume _ => cases h

theorem finish_frame {is : List IRInstr} {t : IRTerminator} {l : String} {p : Option String}
    (h : (execInstrs M label pred edge is σ w).finish (fun σ w => t.exec M label σ w) =
      .enter l p τ w') (hr : ∀ i ∈ is, r ∉ i.definedRegs) (ht : r ∉ t.definedRegs) : τ r = σ r := by
  cases he : execInstrs M label pred edge is σ w with
  | stay σ' w₁ =>
    rw [he] at h
    exact (IRTerminator.exec_frame h ht).trans (execInstrs_frame (.inl he) hr)
  | leave c =>
    rw [he] at h
    simp only [Flow.finish] at h
    subst h
    exact execInstrs_frame (.inr ⟨l, p, he⟩) hr

theorem IRBlock.exec_frame {b : IRBlock} {l : String} {p : Option String}
    (h : b.exec M pred σ w = .enter l p τ w') (hr : r ∉ b.definedRegs) : τ r = σ r := by
  rw [definedRegs, List.mem_append, not_or] at hr
  exact finish_frame h (fun i hi hd => hr.1 (List.mem_flatMap.2 ⟨i, hi, hd⟩)) hr.2

theorem execInstrs_straight (M : Machine) (label : String) (pred : Option String) (edge : Regs)
    {is : List IRInstr} (his : ∀ i ∈ is, i.isControl = false) (σ : Regs) (w : World) :
    (∃ τ w', execInstrs M label pred edge is σ w = .stay τ w') ∨
      ∃ o w', execInstrs M label pred edge is σ w = .leave (.done o w') := by
  induction is generalizing σ w with
  | nil => exact .inl ⟨σ, w, rfl⟩
  | cons i is ih =>
    rw [execInstrs_cons]
    rcases IRInstr.effect_straight M (·.eval M σ) (·.eval M edge) pred w
      (his i List.mem_cons_self) with ⟨ws, w₁, he⟩ | ⟨o, w₁, he, -⟩
    · rw [he]
      exact ih (fun j hj => his j (List.mem_cons_of_mem _ hj)) _ _
    · rw [he]
      exact .inr ⟨o, w₁, rfl⟩

end Vuma.IR
