import Vuma.Opt.Licm
import Vuma.IR.Edges
import Vuma.IR.Liveness

/-!
# Moving instructions out of a loop

An instruction is settled in a state when executing it there would change nothing. The preheader
settles the instructions moved to it; inside the loop nothing unsettles them, so that the places they
were taken from do not miss them.
-/

namespace Vuma.Opt

open IR

/-- The instruction, if a load, reads the same value in both worlds. -/
def LoadSame (M : Machine) (i : IRInstr) (σ : Regs) (w w' : World) : Prop :=
  ∀ dst addr off ty, i = .load dst addr off ty →
    M.load ty w'.mem (addr.eval M σ + BitVec.ofInt 64 off) =
      M.load ty w.mem (addr.eval M σ + BitVec.ofInt 64 off)

theorem LoadSame.refl (M : Machine) (i : IRInstr) (σ : Regs) (w : World) : LoadSame M i σ w w :=
  fun _ _ _ _ _ => rfl

/-- Executing the instruction would change nothing. -/
def Settled (M : Machine) (i : IRInstr) (σ : Regs) (w : World) : Prop :=
  ∃ ws, i.effect M (·.eval M σ) (·.eval M σ) none w = .next ws w ∧ σ.writes ws = σ

/-- The instructions that are moved: no phis, no effects, none reads what one of them defines, and no
two define the same register. -/
structure Movable (M : Machine) (is : List IRInstr) : Prop where
  phi : ∀ i ∈ is, i.isPhi = false
  pure : ∀ i ∈ is, hasSideEffects i = false ∧ harmless M i
  reads : ∀ i ∈ is, ∀ j ∈ is, ∀ r ∈ i.usedRegs, r ∉ j.definedRegs
  single : (is.flatMap IRInstr.definedRegs).Nodup

section

variable {M : Machine}

/-- What an instruction without effects computes depends on the world only through what it loads. -/
theorem effect_of_loadSame {i : IRInstr} (hs : hasSideEffects i = false) (h : harmless M i)
    {σ edge : Regs} {pred : Option String} {w w' : World} (hload : LoadSame M i σ w w')
    {ws : List (IRValue × Word)}
    (he : i.effect M (·.eval M σ) (·.eval M edge) pred w = .next ws w) :
    i.effect M (·.eval M σ) (·.eval M edge) pred w' = .next ws w' := by
  cases i with
  | load dst addr off ty =>
    simp only [IRInstr.effect, Effect.next.injEq, and_true] at he ⊢
    rw [hload dst addr off ty rfl]
    exact he
  | binOp op dst lhs rhs ty =>
    obtain ⟨v, hv⟩ := binOp_isSome (M := M) ty (lhs.eval M σ) (rhs.eval M σ) hs
    simp only [IRInstr.effect, hv, Effect.next.injEq, and_true] at he ⊢
    exact he
  | phi dst incoming =>
    simp only [IRInstr.effect] at he ⊢
    split at he
    · cases he
      rfl
    · cases he
      rfl
  | alloc dst size => cases dst <;> cases he <;> rfl
  | transform dst src fromLayout toLayout =>
    have hsize : M.layoutSize fromLayout = M.layoutSize toLayout := h
    simp only [IRInstr.effect, hsize, if_true] at he ⊢
    cases he
    rfl
  | bulkCopy _ _ _ | bulkFill _ _ _ | callIndirect _ _ _ => exact h.elim
  | unaryOp _ _ _ _ | cast _ _ _ _ _ | getAddress _ _ | offset _ _ _ | select _ _ _ _ _
  | add _ _ _ _ | sub _ _ _ _ | mul _ _ _ _ | cmp _ _ _ _ _ | ctSelect _ _ _ _ _ | ctEq _ _ _ _
  | vectorOp _ _ _ _ _ _ =>
    cases he
    rfl
  | _ => simp [hasSideEffects] at hs

theorem LoadSame.congr {i : IRInstr} {σ τ : Regs} {w w' : World} (h : LoadSame M i σ w w')
    (hr : ∀ r ∈ i.usedRegs, σ r = τ r) : LoadSame M i τ w w' := by
  rintro dst addr off ty rfl
  have haddr : addr.eval M σ = addr.eval M τ :=
    IRValue.eval_congr M (fun r hra => hr r (by simpa [IRInstr.usedRegs] using hra))
  have := h dst addr off ty rfl
  rwa [haddr] at this

theorem Settled.step {i : IRInstr} (hs : hasSideEffects i = false) (h : harmless M i) {σ : Regs}
    {w w' : World} (hset : Settled M i σ w) {ws : List (IRValue × Word)}
    (huse : ∀ r ∈ i.usedRegs, ∀ p ∈ ws, p.1 ≠ .register r)
    (hdef : ∀ r ∈ i.definedRegs, ∀ p ∈ ws, p.1 ≠ .register r) (hload : LoadSame M i σ w w') :
    Settled M i (σ.writes ws) w' := by
  obtain ⟨vs, he, hfix⟩ := hset
  have hread : ∀ r ∈ i.usedRegs, (σ.writes ws) r = σ r :=
    fun r hr => Regs.writes_of_not_mem (huse r hr) σ
  refine ⟨vs, ?_, ?_⟩
  · rw [IRInstr.effect_congr M none w' i hread hread]
    exact effect_of_loadSame hs h hload he
  · funext r
    by_cases hr : ∃ p ∈ vs, p.1 = .register r
    · obtain ⟨p, hp, hpr⟩ := hr
      have hd : r ∈ i.definedRegs := by
        by_contra hd
        exact IRInstr.effect_writes_mem he hd p hp hpr
      rw [Regs.writes_eq_of_mem ⟨p, hp, hpr⟩ (σ.writes ws) σ, hfix,
        Regs.writes_of_not_mem (hdef r hd)]
    · exact Regs.writes_of_not_mem (fun p hp hpr => hr ⟨p, hp, hpr⟩) _

/-! ## The preheader -/

theorem execInstrs_preheader (label : String) (pred : Option String) (edge : Regs) (w : World)
    (done is : List IRInstr) (h : Movable M (done ++ is)) {σ : Regs}
    (hdone : ∀ i ∈ done, Settled M i σ w) :
    ∃ σ', execInstrs M label pred edge is σ w = .stay σ' w ∧
      (∀ r, (∀ i ∈ is, r ∉ i.definedRegs) → σ' r = σ r) ∧
      ∀ i ∈ done ++ is, Settled M i σ' w := by
  induction is generalizing done σ with
  | nil => exact ⟨σ, rfl, fun _ _ => rfl, by simpa using hdone⟩
  | cons i is ih =>
    have him : i ∈ done ++ i :: is := by simp
    obtain ⟨hs, hharm⟩ := h.pure i him
    obtain ⟨ws, he⟩ := silent_of_harmless hs hharm (·.eval M σ) (·.eval M edge) pred w
    have he' : i.effect M (·.eval M σ) (·.eval M σ) none w = .next ws w := by
      rw [← he]
      exact IRInstr.effect_edge M _ _ _ _ _ w (h.phi i him)
    have hwrites : ∀ r, r ∉ i.definedRegs → ∀ p ∈ ws, p.1 ≠ .register r :=
      fun r hr => IRInstr.effect_writes_mem he hr
    -- the instruction itself
    have hself : Settled M i (σ.writes ws) w := by
      have hread : ∀ r ∈ i.usedRegs, (σ.writes ws) r = σ r := fun r hr =>
        Regs.writes_of_not_mem (hwrites r (h.reads i him i him r hr)) σ
      refine ⟨ws, ?_, ?_⟩
      · rw [IRInstr.effect_congr M none w i hread hread, he']
      · funext r
        by_cases hr : ∃ p ∈ ws, p.1 = .register r
        · exact Regs.writes_eq_of_mem hr _ _
        · exact Regs.writes_of_not_mem (fun p hp e => hr ⟨p, hp, e⟩) _
    -- the earlier ones
    have hsingle := h.single
    rw [List.flatMap_append, List.nodup_append] at hsingle
    have hdone' : ∀ j ∈ done ++ [i], Settled M j (σ.writes ws) w := by
      intro j hj
      rcases List.mem_append.mp hj with hj | hj
      · have hjm : j ∈ done ++ i :: is := List.mem_append_left _ hj
        refine (hdone j hj).step (h.pure j hjm).1 (h.pure j hjm).2
          (fun r hr => hwrites r (h.reads j hjm i him r hr)) (fun r hr => hwrites r ?_)
          (LoadSame.refl M j σ w)
        intro hri
        exact hsingle.2.2 r (List.mem_flatMap.mpr ⟨j, hj, hr⟩) r
          (List.mem_flatMap.mpr ⟨i, List.mem_cons_self, hri⟩) rfl
      · rw [List.mem_singleton.mp hj]
        exact hself
    obtain ⟨σ', hexec, hframe, hset⟩ := ih (done ++ [i]) (by simpa using h) hdone'
    refine ⟨σ', ?_, fun r hr => ?_, by simpa using hset⟩
    · rw [execInstrs_cons, he]
      exact hexec
    · rw [hframe r (fun j hj => hr j (List.mem_cons_of_mem _ hj)),
        Regs.writes_of_not_mem (hwrites r (hr i List.mem_cons_self))]

/-! ## A block of the loop -/

/-- Executing the instructions leaves the values alone that the instructions `is` load. -/
def KeepsLoads (M : Machine) (is : List IRInstr) (pred : Option String) (edge : Regs) :
    List IRInstr → Regs → World → Prop
  | [], _, _ => True
  | j :: js, σ, w =>
    match j.effect M (·.eval M σ) (·.eval M edge) pred w with
    | .next ws w' =>
      (∀ i ∈ is, LoadSame M i σ w w') ∧ KeepsLoads M is pred edge js (σ.writes ws) w'
    | _ => True

theorem KeepsLoads.append {is : List IRInstr} {label : String} {pred : Option String} {edge : Regs}
    {as bs : List IRInstr} {σ σ' : Regs} {w w' : World}
    (h : KeepsLoads M is pred edge (as ++ bs) σ w)
    (he : execInstrs M label pred edge as σ w = .stay σ' w') :
    KeepsLoads M is pred edge bs σ' w' := by
  induction as generalizing σ w with
  | nil =>
    cases he
    exact h
  | cons a as ih =>
    rw [execInstrs_cons] at he
    simp only [List.cons_append, KeepsLoads] at h
    cases hea : a.effect M (·.eval M σ) (·.eval M edge) pred w with
    | next ws w₁ =>
      rw [hea] at he h
      exact ih h.2 he
    | jump t w₁ => rw [hea] at he; cases he
    | ret vs w₁ => rw [hea] at he; cases he
    | stop o w₁ => rw [hea] at he; cases he

theorem IRInstr.world_of_jump {ev edge : IRValue → Word} {pred : Option String} {w w' : World}
    {i : IRInstr} {target : String} (h : i.effect M ev edge pred w = .jump target w') : w' = w := by
  have hctl := IRInstr.isControl_of_jump h
  cases i with
  | branch _ | condBranch _ _ _ =>
    cases h
    rfl
  | ret _ => cases h
  | _ => simp [IRInstr.isControl] at hctl

/-- What the marks of a block of the loop have to satisfy: the marked instructions are among those
moved, the others leave them alone, and before a marked one nothing leaves the block or reads what it
defines. -/
structure MarksOk (is : List IRInstr) (ms : List (IRInstr × Bool)) : Prop where
  marked : ∀ i, (i, true) ∈ ms → i ∈ is
  other : ∀ j, (j, false) ∈ ms → ∀ i ∈ is, ∀ r ∈ j.definedRegs,
    r ∉ i.usedRegs ∧ r ∉ i.definedRegs
  order : ∀ before j after, ms = before ++ (j, false) :: after → ∀ i, (i, true) ∈ after →
    j.isControl = false ∧ ∀ r ∈ j.usedRegs, r ∉ i.definedRegs

theorem MarksOk.tail {is : List IRInstr} {m : IRInstr × Bool} {ms : List (IRInstr × Bool)}
    (h : MarksOk is (m :: ms)) : MarksOk is ms :=
  ⟨fun i hi => h.marked i (List.mem_cons_of_mem _ hi),
    fun j hj => h.other j (List.mem_cons_of_mem _ hj),
    fun before j after e => h.order (m :: before) j after (by rw [e]; rfl)⟩

/-- Registers that agree but for what is still to be defined by marked instructions, all of them
settled: the block and the block without the marked instructions do the same. -/
theorem execInstrs_kept {is : List IRInstr} (hmov : Movable M is) (label : String)
    (pred pred' : Option String) (edge edge' : Regs) {ms : List (IRInstr × Bool)}
    (hms : MarksOk is ms)
    (hphi : ∀ j, (j, false) ∈ ms → j.isPhi = false ∨ (pred' = pred ∧ edge' = edge))
    {σ τ : Regs} {w : World}
    (hagree : ∀ r, (∀ i, (i, true) ∈ ms → r ∉ i.definedRegs) → τ r = σ r)
    (hset : ∀ i ∈ is, Settled M i τ w) (hkeep : KeepsLoads M is pred edge (ms.map Prod.fst) σ w) :
    (∃ σ' w', execInstrs M label pred edge (ms.map Prod.fst) σ w = .stay σ' w' ∧
        execInstrs M label pred' edge' (kept ms) τ w = .stay σ' w' ∧
        ∀ i ∈ is, Settled M i σ' w') ∨
      ∃ c, execInstrs M label pred edge (ms.map Prod.fst) σ w = .leave c ∧
        execInstrs M label pred' edge' (kept ms) τ w = .leave c ∧
        ∀ l p σ' w', c = .enter l p σ' w' → ∀ i ∈ is, Settled M i σ' w' := by
  induction ms generalizing σ τ w with
  | nil =>
    obtain rfl : τ = σ := funext fun r => hagree r (by simp)
    exact Or.inl ⟨τ, w, rfl, rfl, hset⟩
  | cons m ms ih =>
    obtain ⟨j, mark⟩ := m
    have hphi' := fun k hk => hphi k (List.mem_cons_of_mem (j, mark) hk)
    simp only [List.map_cons, KeepsLoads] at hkeep
    cases mark with
    | true =>
      have hj := hms.marked j List.mem_cons_self
      have hread : ∀ r ∈ j.usedRegs, τ r = σ r := fun r hr =>
        hagree r (fun i hi => hmov.reads j hj i (hms.marked i hi) r hr)
      obtain ⟨ws, he, hfix⟩ := hset j hj
      have heσ : j.effect M (·.eval M σ) (·.eval M edge) pred w = .next ws w := by
        rw [IRInstr.effect_edge M _ _ (·.eval M σ) pred none w (hmov.phi j hj),
          ← IRInstr.effect_congr M none w j hread hread, he]
      rw [heσ] at hkeep
      rw [List.map_cons, execInstrs_cons, heσ]
      have hagree' : ∀ r, (∀ i, (i, true) ∈ ms → r ∉ i.definedRegs) → τ r = σ.writes ws r := by
        intro r hr
        by_cases hd : r ∈ j.definedRegs
        · rw [Regs.writes_eq_of_mem (IRInstr.exists_write_of_defined he (hmov.phi j hj) hd) σ τ,
            hfix]
        · rw [Regs.writes_of_not_mem (IRInstr.effect_writes_mem he hd)]
          refine hagree r (fun i hi => ?_)
          rcases List.mem_cons.mp hi with hi | hi
          · cases hi
            exact hd
          · exact hr i hi
      exact ih hms.tail hphi' hagree' hset hkeep.2
    | false =>
      have hread : ∀ r ∈ j.usedRegs, τ r = σ r := fun r hr => hagree r (fun i hi => by
        rcases List.mem_cons.mp hi with hi | hi
        · cases hi
        · exact (hms.order [] j ms rfl i hi).2 r hr)
      have heff : j.effect M (·.eval M τ) (·.eval M edge') pred' w =
          j.effect M (·.eval M σ) (·.eval M edge) pred w := by
        rcases hphi j List.mem_cons_self with hj | ⟨rfl, rfl⟩
        · rw [IRInstr.effect_edge M _ _ (·.eval M edge) pred' pred w hj]
          exact IRInstr.effect_congr M pred w j hread (fun _ _ => rfl)
        · exact IRInstr.effect_congr M _ w j hread (fun _ _ => rfl)
      have hkept : kept ((j, false) :: ms) = j :: kept ms := rfl
      rw [hkept, List.map_cons, execInstrs_cons, execInstrs_cons, heff]
      cases he : j.effect M (·.eval M σ) (·.eval M edge) pred w with
      | next ws w' =>
        rw [he] at hkeep
        refine ih hms.tail hphi' (fun r hr => ?_) (fun i hi => ?_) hkeep.2
        · refine Regs.writes_agree (P := fun r => ∀ i, (i, true) ∈ ms → r ∉ i.definedRegs) ws
            (fun q hq => hagree q (fun i hi => ?_)) r hr
          rcases List.mem_cons.mp hi with hi | hi
          · cases hi
          · exact hq i hi
        · have hother := hms.other j List.mem_cons_self i hi
          have hiread : ∀ r ∈ i.usedRegs, σ r = τ r := fun r hr =>
            (hagree r (fun k hk => hmov.reads i hi k (hms.marked k hk) r hr)).symm
          exact (hset i hi).step (hmov.pure i hi).1 (hmov.pure i hi).2
            (fun r hr => IRInstr.effect_writes_mem he (fun hd => (hother r hd).1 hr))
            (fun r hr => IRInstr.effect_writes_mem he (fun hd => (hother r hd).2 hr))
            ((hkeep.1 i hi).congr hiread)
      | jump target w' =>
        -- nothing marked is left
        have hnone : ∀ i, (i, true) ∉ ms := by
          intro i hi
          have := (hms.order [] j ms rfl i hi).1
          rw [IRInstr.isControl_of_jump he] at this
          cases this
        obtain rfl : τ = σ := funext fun r => hagree r (fun i hi => by
          rcases List.mem_cons.mp hi with hi | hi
          · cases hi
          · exact absurd hi (hnone i))
        obtain rfl := IRInstr.world_of_jump he
        refine Or.inr ⟨_, rfl, rfl, ?_⟩
        intro l p σ' w'' e
        cases e
        exact hset
      | ret vs w' | stop o w' => exact Or.inr ⟨_, rfl, rfl, fun l p σ' w'' e => by cases e⟩

end

end Vuma.Opt
