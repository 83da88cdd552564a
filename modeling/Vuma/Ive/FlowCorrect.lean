import Vuma.IR.Noninterference
import Vuma.Ive.InformationFlow

/-!
# What the information-flow gate keeps secret

The sweep labels what is loaded and stored and nothing else, and it goes over the instructions once,
in the order in which they are written down. So it keeps secrets in programs whose other
instructions do not move them, and in which a secret is stored before it is loaded and loaded before
it is used. There the labels of the sweep are right, and runs let out the same whatever the secrets
are.
-/

namespace Vuma.IR

/-- The destination and the address of a load. -/
def IRInstr.loads : IRInstr → List (VReg × VReg)
  | .load (.register d) (.register a) _ _ => [(d, a)]
  | _ => []

/-- The value and the address of a store. -/
def IRInstr.stored : IRInstr → List (IRValue × IRValue)
  | .store value addr _ _ => [(value, addr)]
  | _ => []

/-- What an instruction stores or sends, and where. -/
def IRInstr.released : IRInstr → List (IRValue × IRValue)
  | .store value addr _ _ => [(value, addr)]
  | .channelSend ch msg _ => [(msg, ch)]
  | _ => []

/-- The registers on which it depends where an instruction leads. -/
def IRInstr.decidingRegs : IRInstr → List VReg
  | .condBranch cond _ _ => cond.regs
  | i => i.divisorRegs

/-- The registers of a load, store or send. -/
def IRInstr.accessRegs (i : IRInstr) : List VReg :=
  if i.isAccess then i.definedRegs ++ i.usedRegs else []

/-- A program of the instructions that are considered. -/
def IRProgram.IsPlain (program : IRProgram) : Prop :=
  ∀ f ∈ program.functions, ∀ b ∈ f.blocks,
    (∀ i ∈ b.instructions, i.isPlain) ∧ b.terminator.isPlain

instance (program : IRProgram) : Decidable program.IsPlain :=
  inferInstanceAs (Decidable (∀ f ∈ program.functions, ∀ b ∈ f.blocks,
    (∀ i ∈ b.instructions, i.isPlain) ∧ b.terminator.isPlain))

end Vuma.IR

namespace Vuma.Ive

open Lib IR

section

variable (secretVars : Finset String)

/-- A register has a secret name. -/
def Named (f : IRFunction) (r : VReg) : Prop := labelOfVreg secretVars f (.register r) = .secret

instance (f : IRFunction) : DecidablePred (Named secretVars f) :=
  fun r => inferInstanceAs (Decidable (labelOfVreg secretVars f (.register r) = .secret))

/-- A register has a secret name or is loaded through a register with a secret name. -/
def Carries (f : IRFunction) (r : VReg) : Prop :=
  Named secretVars f r ∨
    ∃ b ∈ f.blocks, ∃ i ∈ b.instructions, ∃ p ∈ i.loads, p.1 = r ∧ Named secretVars f p.2

instance (f : IRFunction) : DecidablePred (Carries secretVars f) :=
  fun r => inferInstanceAs (Decidable (Named secretVars f r ∨
    ∃ b ∈ f.blocks, ∃ i ∈ b.instructions, ∃ p ∈ i.loads, p.1 = r ∧ Named secretVars f p.2))

/-- Secrets go only where the sweep follows them. -/
structure Tracked (program : IRProgram) : Prop where
  /-- What is made of a secret goes to a register that can carry it. -/
  computed : ∀ s ∈ flowSites program, (∃ r ∈ s.instr.usedRegs, Carries secretVars s.func r) →
    ∀ d ∈ s.instr.definedRegs, Carries secretVars s.func d
  /-- No instruction branches or traps on a secret. -/
  decided : ∀ s ∈ flowSites program, ∀ r ∈ s.instr.decidingRegs, ¬ Carries secretVars s.func r
  /-- No block branches on a secret. -/
  ended : ∀ f ∈ program.functions, ∀ b ∈ f.blocks, b.terminator.Keeps (Carries secretVars f)
  /-- Before a load through a secret register, a secret is stored through it. -/
  loadedSecret : ∀ k, ∀ h : k < (flowSites program).length, ∀ p ∈ (flowSites program)[k].instr.loads,
    Named secretVars (flowSites program)[k].func p.2 →
      ∃ t ∈ (flowSites program).take k, ∃ q ∈ t.instr.stored,
        q.2 = .register p.2 ∧ ¬ q.1.Avoids (Carries secretVars t.func)
  /-- A register that can carry secrets is not loaded through another register. -/
  loadedPublic : ∀ s ∈ flowSites program, ∀ p ∈ s.instr.loads, ¬ Named secretVars s.func p.2 →
    ¬ Carries secretVars s.func p.1
  /-- Before a secret without a secret name is stored or sent, it is loaded. -/
  value : ∀ k, ∀ h : k < (flowSites program).length, ∀ q ∈ (flowSites program)[k].instr.released,
    ∀ r ∈ q.1.regs, Carries secretVars (flowSites program)[k].func r →
      Named secretVars (flowSites program)[k].func r ∨
        ∃ t ∈ (flowSites program).take k, ∃ p ∈ t.instr.loads, p.1 = r
  /-- No secret without a secret name is used as an address of a store or as a channel. -/
  target : ∀ s ∈ flowSites program, ∀ q ∈ s.instr.released, ∀ r ∈ q.2.regs,
    Carries secretVars s.func r → Named secretVars s.func r
  /-- A number stands for secrets in all functions that load, store or send by it, or in none. -/
  shared : ∀ s ∈ flowSites program, ∀ t ∈ flowSites program, ∀ r ∈ s.instr.accessRegs,
    r ∈ t.instr.accessRegs → (Named secretVars s.func r ↔ Named secretVars t.func r) ∧
      (Carries secretVars s.func r ↔ Carries secretVars t.func r)

end

variable {secretVars : Finset String} {program : IRProgram}

/-! ## The sweep -/

/-- What the tables of the sweep say after some instructions. -/
structure SweepInv (secretVars : Finset String) (l : List FlowSite) (s : FlowState) : Prop where
  cell : ∀ a label, s.memoryLabels.lookup a = some label → label = .pub ∨ label = .secret
  stored : ∀ a, s.memoryLabels.lookup a = some .secret ↔ ∃ t ∈ l, ∃ q ∈ t.instr.stored,
    q.2 = .register a ∧ ¬ q.1.Avoids (Carries secretVars t.func)
  loaded : ∀ d label, s.vregLabels.lookup d = some label → ∃ t ∈ l, ∃ p ∈ t.instr.loads, p.1 = d ∧
    label = if Carries secretVars t.func d then .secret else .pub
  unloaded : ∀ d, s.vregLabels.lookup d = none → ∀ t ∈ l, ∀ p ∈ t.instr.loads, p.1 ≠ d
  released : ∀ t ∈ l, ∀ q ∈ t.instr.released, ¬ q.1.Avoids (Carries secretVars t.func) →
    ¬ q.2.Avoids (Named secretVars t.func)

theorem labelOfVreg_eq (f : IRFunction) (r : VReg) :
    labelOfVreg secretVars f (.register r) = if Named secretVars f r then .secret else .pub := by
  have htwo : labelOfVreg secretVars f (.register r) = .secret ∨
      labelOfVreg secretVars f (.register r) = .pub := by
    simp only [labelOfVreg]
    split
    · exact ite_eq_or_eq _ _ _
    · exact .inr rfl
  rcases htwo with h | h
  · rw [if_pos (show Named secretVars f r from h), h]
  · rw [if_neg (show ¬ Named secretVars f r by simp [Named, h]), h]

/-- The label of a register that is loaded before it is used. -/
theorem SweepInv.resolveLabel_register {l : List FlowSite} {s : FlowState}
    (h : SweepInv secretVars l s) {f : IRFunction} {r : VReg}
    (hshared : ∀ t ∈ l, ∀ p ∈ t.instr.loads, p.1 = r →
      (Carries secretVars t.func r ↔ Carries secretVars f r))
    (hloaded : Carries secretVars f r →
      Named secretVars f r ∨ ∃ t ∈ l, ∃ p ∈ t.instr.loads, p.1 = r) :
    resolveLabel secretVars f s.vregLabels (.register r) =
      if Carries secretVars f r then .secret else .pub := by
  simp only [resolveLabel]
  cases hl : s.vregLabels.lookup r with
  | some label =>
    obtain ⟨t, ht, p, hp, hpr, rfl⟩ := h.loaded r label hl
    exact if_congr (hshared t ht p hp hpr) rfl rfl
  | none =>
    have hiff : Named secretVars f r ↔ Carries secretVars f r := by
      refine ⟨Or.inl, fun hc => ?_⟩
      rcases hloaded hc with hn | ⟨t, ht, p, hp, hpr⟩
      · exact hn
      · exact absurd hpr (h.unloaded r hl t ht p hp)
    exact (labelOfVreg_eq f r).trans (if_congr hiff rfl rfl)

theorem SweepInv.resolveLabel_eq {l : List FlowSite} {s : FlowState} (h : SweepInv secretVars l s)
    {f : IRFunction} {v : IRValue}
    (hshared : ∀ r ∈ v.regs, ∀ t ∈ l, ∀ p ∈ t.instr.loads, p.1 = r →
      (Carries secretVars t.func r ↔ Carries secretVars f r))
    (hloaded : ∀ r ∈ v.regs, Carries secretVars f r →
      Named secretVars f r ∨ ∃ t ∈ l, ∃ p ∈ t.instr.loads, p.1 = r) :
    resolveLabel secretVars f s.vregLabels v =
      if v.Avoids (Carries secretVars f) then .pub else .secret := by
  cases v with
  | register r =>
    have hmem : r ∈ (IRValue.register r).regs := by simp
    rw [h.resolveLabel_register (hshared r hmem) (hloaded r hmem)]
    by_cases hc : Carries secretVars f r
    · rw [if_pos hc, if_neg fun ha => IRValue.avoids_register.mp ha hc]
    · rw [if_neg hc, if_pos (IRValue.avoids_register.mpr hc)]
  | _ => exact (if_pos fun r hr => nomatch hr).symm

/-! ## One instruction -/

theorem mem_accessRegs_of_loads {i : IRInstr} {p : VReg × VReg} (h : p ∈ i.loads) :
    p.1 ∈ i.accessRegs ∧ p.2 ∈ i.accessRegs := by
  cases i with
  | load dst addr off ty =>
    cases dst with
    | register d =>
      cases addr with
      | register a =>
        obtain rfl := List.mem_singleton.mp h
        simp [IRInstr.accessRegs, IRInstr.isAccess, IRInstr.definedRegs, IRInstr.usedRegs]
      | _ => cases h
    | _ => cases h
  | _ => cases h

theorem mem_accessRegs_of_released {i : IRInstr} {q : IRValue × IRValue} (h : q ∈ i.released)
    {r : VReg} (hr : r ∈ q.1.regs ∨ r ∈ q.2.regs) : r ∈ i.accessRegs := by
  cases i with
  | store value addr off ty =>
    obtain rfl := List.mem_singleton.mp h
    simpa [IRInstr.accessRegs, IRInstr.isAccess, IRInstr.definedRegs, IRInstr.usedRegs] using hr
  | channelSend ch msg ty =>
    obtain rfl := List.mem_singleton.mp h
    simpa [IRInstr.accessRegs, IRInstr.isAccess, IRInstr.definedRegs, IRInstr.usedRegs] using hr.symm
  | _ => cases h

theorem released_of_stored {i : IRInstr} {q : IRValue × IRValue} (h : q ∈ i.stored) :
    q ∈ i.released := by
  cases i with
  | store => exact h
  | _ => cases h

theorem violations_of_released (s : FlowState) {site : FlowSite} {q : IRValue × IRValue}
    (hq : q ∈ site.instr.released)
    (hclean : ∀ e ∈ (flowStep secretVars s site).events, e.violations = []) :
    (resolveLabel secretVars site.func s.vregLabels q.1).canFlowTo
      (resolveLabel secretVars site.func s.vregLabels q.2) := by
  obtain ⟨atNode, func, instr⟩ := site
  cases instr with
  | store value addr off ty | channelSend ch msg ty =>
    obtain rfl := List.mem_singleton.mp hq
    have := hclean _ (List.mem_append_right _ (List.mem_singleton_self _))
    by_contra hflow
    simp [FlowEvent.violations, hflow] at this
  | _ => cases hq

theorem events_flowStep (s : FlowState) (site : FlowSite) :
    s.events ⊆ (flowStep secretVars s site).events := by
  obtain ⟨atNode, func, instr⟩ := site
  cases instr with
  | store | channelSend => exact List.subset_append_left _ _
  | call dst name args hint =>
    simp only [flowStep]
    split
    · exact List.subset_append_left _ _
    · exact List.Subset.refl _
  | _ => exact List.Subset.refl _

theorem flowSweep_concat (l : List FlowSite) (site : FlowSite) :
    flowSweep secretVars (l ++ [site]) = flowStep secretVars (flowSweep secretVars l) site := by
  simp only [flowSweep, List.foldl_append, List.foldl_cons, List.foldl_nil]

theorem events_flowSweep (l l' : List FlowSite) :
    (flowSweep secretVars l).events ⊆ (flowSweep secretVars (l ++ l')).events := by
  induction l' using List.reverseRecOn with
  | nil => rw [List.append_nil]; exact List.Subset.refl _
  | append_singleton l' site ih =>
    rw [← List.append_assoc, flowSweep_concat]
    exact List.Subset.trans ih (events_flowStep _ site)

theorem forall_split {α : Type*} {l l₁ l₂ : List α} {x : α} {P : α → List α → Prop}
    (h : ∀ k, ∀ hk : k < l.length, P l[k] (l.take k)) (hl : l = l₁ ++ x :: l₂) : P x l₁ := by
  subst hl
  simpa using h l₁.length (by simp)

section

variable {l₁ l₂ : List FlowSite} {site : FlowSite}

/-- The labels of what is stored or sent are right. -/
theorem Tracked.resolveLabel_eq (ht : Tracked secretVars program)
    (hl : flowSites program = l₁ ++ site :: l₂) {s : FlowState} (hinv : SweepInv secretVars l₁ s)
    {q : IRValue × IRValue} (hq : q ∈ site.instr.released) :
    (resolveLabel secretVars site.func s.vregLabels q.1 =
        if q.1.Avoids (Carries secretVars site.func) then .pub else .secret) ∧
      resolveLabel secretVars site.func s.vregLabels q.2 =
        if q.2.Avoids (Carries secretVars site.func) then .pub else .secret := by
  have hsite : site ∈ flowSites program := by simp [hl]
  have hshared : ∀ r, r ∈ q.1.regs ∨ r ∈ q.2.regs → ∀ t ∈ l₁, ∀ p ∈ t.instr.loads, p.1 = r →
      (Carries secretVars t.func r ↔ Carries secretVars site.func r) := by
    rintro r hr t hmem p hp rfl
    exact (ht.shared t (by simp [hl, hmem]) site hsite p.1 (mem_accessRegs_of_loads hp).1
      (mem_accessRegs_of_released hq hr)).2
  constructor
  · refine hinv.resolveLabel_eq (fun r hr => hshared r (.inl hr)) fun r hr hc => ?_
    exact forall_split (P := fun site l => ∀ q ∈ site.instr.released, ∀ r ∈ q.1.regs,
      Carries secretVars site.func r → Named secretVars site.func r ∨
        ∃ t ∈ l, ∃ p ∈ t.instr.loads, p.1 = r) ht.value hl q hq r hr hc
  · exact hinv.resolveLabel_eq (fun r hr => hshared r (.inr hr))
      fun r hr hc => .inl (ht.target site hsite q hq r hr hc)

theorem Tracked.named_of_released (ht : Tracked secretVars program)
    (hl : flowSites program = l₁ ++ site :: l₂)
    (hinv : SweepInv secretVars l₁ (flowSweep secretVars l₁))
    (hclean : ∀ e ∈ (flowSweep secretVars (flowSites program)).events, e.violations = [])
    {q : IRValue × IRValue} (hq : q ∈ site.instr.released)
    (hc : ¬ q.1.Avoids (Carries secretVars site.func)) :
    ¬ q.2.Avoids (Named secretVars site.func) := by
  have hstep : ∀ e ∈ (flowStep secretVars (flowSweep secretVars l₁) site).events,
      e.violations = [] := by
    intro e he
    refine hclean e ?_
    rw [hl, List.append_cons]
    rw [← flowSweep_concat] at he
    exact events_flowSweep _ _ he
  have hflow := violations_of_released _ hq hstep
  obtain ⟨hvalue, htarget⟩ := ht.resolveLabel_eq hl hinv hq
  rw [hvalue, htarget, if_neg hc] at hflow
  intro hn
  have havoid : q.2.Avoids (Carries secretVars site.func) :=
    fun r hr hcr => hn r hr (ht.target site (by simp [hl]) q hq r hr hcr)
  rw [if_pos havoid] at hflow
  cases hflow

theorem SweepInv.released_concat {l : List FlowSite} {s : FlowState} (h : SweepInv secretVars l s)
    (hrel : ∀ q ∈ site.instr.released, ¬ q.1.Avoids (Carries secretVars site.func) →
      ¬ q.2.Avoids (Named secretVars site.func)) :
    ∀ t ∈ l ++ [site], ∀ q ∈ t.instr.released, ¬ q.1.Avoids (Carries secretVars t.func) →
      ¬ q.2.Avoids (Named secretVars t.func) := by
  intro t ht
  rcases List.mem_append.mp ht with ht | ht
  · exact h.released t ht
  · obtain rfl := List.mem_singleton.mp ht
    exact hrel

theorem SweepInv.skip {l : List FlowSite} {s s' : FlowState} (h : SweepInv secretVars l s)
    (hm : s'.memoryLabels = s.memoryLabels) (hv : s'.vregLabels = s.vregLabels)
    (hst : site.instr.stored = []) (hld : site.instr.loads = [])
    (hrel : ∀ q ∈ site.instr.released, ¬ q.1.Avoids (Carries secretVars site.func) →
      ¬ q.2.Avoids (Named secretVars site.func)) :
    SweepInv secretVars (l ++ [site]) s' where
  cell := hm ▸ h.cell
  stored a := by
    rw [hm, h.stored a]
    simp [hst, or_and_right, exists_or]
  loaded d label hd := by
    rw [hv] at hd
    obtain ⟨t, ht, p, hp⟩ := h.loaded d label hd
    exact ⟨t, List.mem_append_left _ ht, p, hp⟩
  unloaded d hd t ht p hp := by
    rw [hv] at hd
    rcases List.mem_append.mp ht with ht | ht
    · exact h.unloaded d hd t ht p hp
    · obtain rfl := List.mem_singleton.mp ht
      rw [hld] at hp
      cases hp
  released := h.released_concat hrel

theorem SweepInv.store {l : List FlowSite} {s : FlowState} (h : SweepInv secretVars l s)
    {value : IRValue} {a : VReg} {off : Int} {ty : IRType}
    (hi : site.instr = .store value (.register a) off ty)
    (hlabel : resolveLabel secretVars site.func s.vregLabels value =
      if value.Avoids (Carries secretVars site.func) then .pub else .secret)
    (hrel : ∀ q ∈ site.instr.released, ¬ q.1.Avoids (Carries secretVars site.func) →
      ¬ q.2.Avoids (Named secretVars site.func)) :
    SweepInv secretVars (l ++ [site]) (flowStep secretVars s site) where
  cell a' label := by
    simp only [flowStep, hi, IRValue.asRegister, Option.getD_some, HashMap.lookup_insert_ite]
    by_cases ha : a' = a
    · rw [if_pos ha, Option.some.injEq]
      rintro rfl
      exact (ite_eq_or_eq _ _ _).symm
    · rw [if_neg ha]
      exact h.cell a' label
  stored a' := by
    have hnew : (∃ t ∈ l ++ [site], ∃ q ∈ t.instr.stored, q.2 = .register a' ∧
        ¬ q.1.Avoids (Carries secretVars t.func)) ↔
        s.memoryLabels.lookup a' = some .secret ∨
          (a' = a ∧ ¬ value.Avoids (Carries secretVars site.func)) := by
      rw [h.stored a']
      simp [hi, IRInstr.stored, or_and_right, exists_or, eq_comm]
    rw [hnew]
    simp only [flowStep, hi, IRValue.asRegister, Option.getD_some, HashMap.lookup_insert_ite, hlabel]
    by_cases ha : a' = a
    · subst ha
      by_cases hv : value.Avoids (Carries secretVars site.func) <;>
        cases hcell : s.memoryLabels.lookup a' <;> simp [hv]
    · simp [ha]
  loaded d label hd := by
    simp only [flowStep, hi] at hd
    obtain ⟨t, ht, p, hp⟩ := h.loaded d label hd
    exact ⟨t, List.mem_append_left _ ht, p, hp⟩
  unloaded d hd t ht p hp := by
    simp only [flowStep, hi] at hd
    rcases List.mem_append.mp ht with ht | ht
    · exact h.unloaded d hd t ht p hp
    · obtain rfl := List.mem_singleton.mp ht
      rw [hi] at hp
      cases hp
  released := h.released_concat hrel

theorem SweepInv.load {l : List FlowSite} {s : FlowState} (h : SweepInv secretVars l s)
    {d a : VReg} {off : Int} {ty : IRType}
    (hi : site.instr = .load (.register d) (.register a) off ty)
    (hcell : (s.memoryLabels.lookup a).getD .pub =
      if Carries secretVars site.func d then .secret else .pub) :
    SweepInv secretVars (l ++ [site]) (flowStep secretVars s site) where
  cell a' label := by
    simp only [flowStep, hi]
    exact h.cell a' label
  stored a' := by
    simp only [flowStep, hi]
    rw [h.stored a']
    simp [hi, IRInstr.stored, or_and_right, exists_or]
  loaded d' label hd := by
    simp only [flowStep, hi, IRValue.asRegister, Option.getD_some, HashMap.lookup_insert_ite,
      hcell] at hd
    by_cases hdd : d' = d
    · rw [if_pos hdd] at hd
      exact ⟨site, by simp, (d, a), by simp [hi, IRInstr.loads], hdd.symm,
        hdd ▸ (Option.some.inj hd).symm⟩
    · rw [if_neg hdd] at hd
      obtain ⟨t, ht, p, hp⟩ := h.loaded d' label hd
      exact ⟨t, List.mem_append_left _ ht, p, hp⟩
  unloaded d' hd t ht p hp := by
    simp only [flowStep, hi, IRValue.asRegister, Option.getD_some, HashMap.lookup_insert_ite] at hd
    split_ifs at hd with hdd
    rcases List.mem_append.mp ht with ht | ht
    · exact h.unloaded d' hd t ht p hp
    · obtain rfl := List.mem_singleton.mp ht
      rw [hi] at hp
      obtain rfl := List.mem_singleton.mp hp
      exact fun he => hdd he.symm
  released := h.released_concat fun q hq => by
    rw [hi] at hq
    cases hq

theorem Tracked.cell_eq (ht : Tracked secretVars program)
    (hl : flowSites program = l₁ ++ site :: l₂) {s : FlowState} (hinv : SweepInv secretVars l₁ s)
    {p : VReg × VReg} (hp : p ∈ site.instr.loads)
    (hb : ∃ b ∈ site.func.blocks, site.instr ∈ b.instructions) :
    (s.memoryLabels.lookup p.2).getD .pub =
      if Carries secretVars site.func p.1 then .secret else .pub := by
  have hsite : site ∈ flowSites program := by simp [hl]
  by_cases hc : Carries secretVars site.func p.1
  · have hnamed : Named secretVars site.func p.2 := by
      by_contra hn
      exact ht.loadedPublic site hsite p hp hn hc
    have hstored := forall_split (P := fun site l => ∀ p ∈ site.instr.loads,
      Named secretVars site.func p.2 → ∃ t ∈ l, ∃ q ∈ t.instr.stored,
        q.2 = .register p.2 ∧ ¬ q.1.Avoids (Carries secretVars t.func)) ht.loadedSecret hl p hp hnamed
    rw [(hinv.stored p.2).mpr hstored, if_pos hc]
    rfl
  · rw [if_neg hc]
    cases hcell : s.memoryLabels.lookup p.2 with
    | none => rfl
    | some label =>
      rcases hinv.cell p.2 label hcell with rfl | rfl
      · rfl
      · exfalso
        obtain ⟨t, hmem, q, hq, hqa, hqc⟩ := (hinv.stored p.2).mp hcell
        have hrel := released_of_stored hq
        have hnt : Named secretVars t.func p.2 := by
          by_contra hn
          refine hinv.released t hmem q hrel hqc ?_
          rw [hqa]
          exact IRValue.avoids_register.mpr hn
        have hns : Named secretVars site.func p.2 :=
          (ht.shared t (by simp [hl, hmem]) site hsite p.2
            (mem_accessRegs_of_released hrel (.inr (by simp [hqa])))
            (mem_accessRegs_of_loads hp).2).1.mp hnt
        obtain ⟨b, hb, hi⟩ := hb
        exact hc (.inr ⟨b, hb, _, hi, p, hp, rfl, hns⟩)

end

/-! ## Programs -/

theorem mem_flowSites {site : FlowSite} (h : site ∈ flowSites program) :
    site.func ∈ program.functions ∧ ∃ b ∈ site.func.blocks, site.instr ∈ b.instructions := by
  simp only [flowSites, List.mem_flatMap, List.mem_map] at h
  obtain ⟨⟨f, fi⟩, hf, ⟨b, bi⟩, hb, ⟨i, ii⟩, hi, rfl⟩ := h
  exact ⟨List.fst_mem_of_mem_zipIdx hf, b, List.fst_mem_of_mem_zipIdx hb,
    List.fst_mem_of_mem_zipIdx hi⟩

theorem exists_mem_flowSites {f : IRFunction} (hf : f ∈ program.functions) {b : IRBlock}
    (hb : b ∈ f.blocks) {i : IRInstr} (hi : i ∈ b.instructions) :
    ∃ n, ⟨n, f, i⟩ ∈ flowSites program := by
  obtain ⟨fi, hf⟩ := List.mem_iff_getElem?.mp hf
  obtain ⟨bi, hb⟩ := List.mem_iff_getElem?.mp hb
  obtain ⟨ii, hi⟩ := List.mem_iff_getElem?.mp hi
  refine ⟨fi * 10000 + bi * 100 + ii, ?_⟩
  simp only [flowSites, List.mem_flatMap, List.mem_map]
  exact ⟨_, List.mk_mem_zipIdx_iff_getElem?.mpr hf, _, List.mk_mem_zipIdx_iff_getElem?.mpr hb, _,
    List.mk_mem_zipIdx_iff_getElem?.mpr hi, rfl⟩

/-- The tables of the sweep are right all along. -/
theorem Tracked.sweepInv (ht : Tracked secretVars program)
    (hplain : program.IsPlain)
    (hclean : ∀ e ∈ (flowSweep secretVars (flowSites program)).events, e.violations = [])
    {l₁ l₂ : List FlowSite} (hl : flowSites program = l₁ ++ l₂) :
    SweepInv secretVars l₁ (flowSweep secretVars l₁) := by
  induction l₁ using List.reverseRecOn generalizing l₂ with
  | nil =>
    constructor <;> simp [flowSweep]
  | append_singleton l₁ site ih =>
    rw [List.append_assoc, List.singleton_append] at hl
    have hinv := ih hl
    have hrel : ∀ q ∈ site.instr.released, ¬ q.1.Avoids (Carries secretVars site.func) →
        ¬ q.2.Avoids (Named secretVars site.func) :=
      fun q hq => ht.named_of_released hl hinv hclean hq
    have hsite : site ∈ flowSites program := by simp [hl]
    obtain ⟨hfunc, b, hb, hmem⟩ := mem_flowSites hsite
    have hp := (hplain site.func hfunc b hb).1 _ hmem
    rw [flowSweep_concat]
    cases hi : site.instr with
    | load dst addr off ty =>
      cases dst with
      | register d =>
        cases addr with
        | register a =>
          have hld : (d, a) ∈ site.instr.loads := by simp [hi, IRInstr.loads]
          exact hinv.load hi (ht.cell_eq hl hinv hld ⟨b, hb, hmem⟩)
        | _ => rw [hi] at hp; cases hp
      | _ => rw [hi] at hp; cases hp
    | store value addr off ty =>
      cases addr with
      | register a =>
        have hq : (value, .register a) ∈ site.instr.released := by simp [hi, IRInstr.released]
        exact hinv.store hi (ht.resolveLabel_eq hl hinv hq).1 hrel
      | _ => rw [hi] at hp; cases hp
    | call => rw [hi] at hp; cases hp
    | _ =>
      refine hinv.skip ?_ ?_ ?_ ?_ hrel
      all_goals simp only [flowStep, hi, IRInstr.stored, IRInstr.loads]

theorem verifyInformationFlowFromIr_eq_nil_iff {debug : FlowViolation → String} :
    verifyInformationFlowFromIr debug program secretVars = [] ↔
      ∀ e ∈ (flowSweep secretVars (flowSites program)).events, e.violations = [] := by
  simp only [verifyInformationFlowFromIr, verifyInformationFlow, List.map_eq_nil_iff,
    List.flatMap_eq_nil_iff, List.mem_mergeSort]

theorem Tracked.keeps (ht : Tracked secretVars program)
    (hclean : ∀ e ∈ (flowSweep secretVars (flowSites program)).events, e.violations = [])
    {f : IRFunction} (hf : f ∈ program.functions)
    (hplain : program.IsPlain) :
    f.Keeps (Named secretVars f) (Carries secretVars f) := by
  have hinv := ht.sweepInv hplain hclean (List.append_nil (flowSites program)).symm
  intro b hb
  refine ⟨fun i hi => ⟨(hplain f hf b hb).1 i hi, ?_⟩, (hplain f hf b hb).2, ht.ended f hf b hb⟩
  obtain ⟨n, hsite⟩ := exists_mem_flowSites hf hb hi
  have hcomputed := ht.computed _ hsite
  have hdecided := ht.decided _ hsite
  have hreleased := hinv.released _ hsite
  have htarget := ht.target _ hsite
  dsimp only at hcomputed hdecided hreleased htarget
  cases i with
  | load dst addr off ty =>
    refine Decidable.or_iff_not_imp_left.mpr fun hc => hcomputed ?_
    simpa [IRInstr.usedRegs, IRValue.Avoids] using hc
  | store value addr off ty =>
    intro hn
    have hq : (value, addr) ∈ (IRInstr.store value addr off ty).released := List.mem_singleton_self _
    exact ⟨fun r hr hc => hn r hr (htarget _ hq r hr hc),
      Decidable.not_not.mp fun hc => hreleased _ hq hc hn⟩
  | channelSend ch msg ty =>
    intro hn
    have hq : (msg, ch) ∈ (IRInstr.channelSend ch msg ty).released := List.mem_singleton_self _
    exact ⟨fun r hr hc => hn r hr (htarget _ hq r hr hc),
      Decidable.not_not.mp fun hc => hreleased _ hq hc hn⟩
  | condBranch cond t f => exact hdecided
  | _ => exact ⟨hdecided, hcomputed⟩

theorem sendsQuietly_default : (default : Machine).SendsQuietly :=
  fun w _ _ _ => ⟨⟨0, 0, w.mem⟩, rfl, rfl⟩

/-- A run that is over after one block. -/
theorem run_succ_of_step_eq_done {M : Machine} {f : IRFunction} {σ : Regs} {w w' : World}
    {o : Outcome} (h : f.step M (f.start σ w) = .done o w') (n : Nat) :
    f.run M σ w (n + 1) = .done o w' := by
  rw [IRFunction.run, Function.iterate_succ_apply, h]
  exact Function.iterate_fixed rfl n

/-- A key is stored, loaded and stored again, and a constant is sent. -/
def keyFunction : IRFunction where
  name := "main"
  vregs := [⟨0, some "p"⟩, ⟨1, some "s"⟩, ⟨2, some "t"⟩, ⟨3, some "ch"⟩]
  blocks := [⟨"entry", [.store (.register 1) (.register 0) 0 .i64,
    .load (.register 2) (.register 0) 0 .i64, .store (.register 2) (.register 0) 0 .i64,
    .channelSend (.register 3) (.immediate 7) none], .ret [], [], []⟩]

theorem tracked_keyFunction : Tracked {"p", "s"} ⟨[keyFunction]⟩ := by
  constructor
  case ended =>
    intro f hf b hb
    obtain rfl := List.mem_singleton.mp hf
    obtain rfl := List.mem_singleton.mp hb
    trivial
  all_goals decide

/-- A register that is computed from a secret is sent. -/
def sumFunction : IRFunction where
  name := "main"
  vregs := [⟨0, some "s"⟩, ⟨1, some "x"⟩, ⟨2, some "ch"⟩]
  blocks := [⟨"entry", [.add (.register 1) (.register 0) (.immediate 1) none,
    .channelSend (.register 2) (.register 1) none], .ret [], [], []⟩]

/-- Register files in which the secret is `v`. -/
def secretIs (v : Word) : Regs := Function.update (fun _ => 0) 0 v

theorem eq_of_mem_sumFunction_outputs {n : Nat} {o : Output}
    (ho : o ∈ sumFunction.runOutputs default (Named {"s"} sumFunction) (secretIs 5)
      ⟨fun _ => 0, []⟩ n) : o = .send 0 6 none := by
  obtain ⟨k, -, hk⟩ := List.mem_flatMap.mp ho
  cases k with
  | zero =>
    have hout : sumFunction.outputs default (Named {"s"} sumFunction)
        (sumFunction.run default (secretIs 5) ⟨fun _ => 0, []⟩ 0) = [.send 0 6 none] := by
      decide
    rw [hout] at hk
    exact List.mem_singleton.mp hk
  | succ k =>
    rw [run_succ_of_step_eq_done rfl] at hk
    cases hk

end Vuma.Ive
