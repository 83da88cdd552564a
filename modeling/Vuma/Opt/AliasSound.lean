import Vuma.Opt.AliasAnalysis
import Vuma.IR.Origins

/-!
# When alias classes keep accesses apart

The class of an address should say which `Alloc` it is derived from. The sweep over the instructions
takes the class of a result from the left operand of a binary operation, from the base of an offset,
and from the last operand of a phi whose class differs from the one before; it takes the class of a
loaded pointer from the type of the load; and a register has only the class of its last definition.
In an execution in which none of these loses track of a block, addresses that may not alias access
disjoint bytes (`valuesMayAlias_sound`).
-/

namespace Vuma.Opt

open IR

/-! ## The classes that a sweep gives -/

/-- The instructions in layout order. -/
def sweepInstrs (f : IRFunction) : List IRInstr := f.blocks.flatMap (·.instructions)

/-- The sweep comes to the instruction with these classes. -/
def SweepMeets (f : IRFunction) (classes : AliasClasses) (i : IRInstr) : Prop :=
  ∃ pre post, sweepInstrs f = pre ++ i :: post ∧
    classes = pre.foldl AliasClasses.add fun _ => none

/-- The class that an instruction gives to its destination, if any. -/
def givenClass (classes : AliasClasses) : IRInstr → Option AliasClass
  | .alloc (.register d) _ => some (.unique d)
  | .binOp _ (.register _) (.register l) _ _ => classes l
  | .load (.register _) _ _ ty => some (loadClass ty)
  | .offset (.register _) (.register b) _ => classes b
  | .cast _ (.register _) (.register s) _ _ => classes s
  | .phi (.register _) incoming => some (phiClass classes incoming)
  | _ => none

/-- A definition of the register gives it the class. Terminators give none, and neither does the
caller to a register that is a pointer on entry. -/
inductive GivesClass (f : IRFunction) (entry : VReg → Set Origin) :
    VReg → Option AliasClass → Prop
  | instr {r : VReg} {classes : AliasClasses} {i : IRInstr} (h : SweepMeets f classes i)
      (hr : r ∈ i.definedRegs) : GivesClass f entry r (givenClass classes i)
  | terminator {r : VReg} {b : IRBlock} (hb : b ∈ f.blocks) (hr : r ∈ b.terminator.definedRegs) :
      GivesClass f entry r none
  | entry {r : VReg} (hr : (entry r).Nonempty) : GivesClass f entry r none

/-- All definitions of a register give it the same class. -/
def OneClass (f : IRFunction) (entry : VReg → Set Origin) : Prop :=
  ∀ r c c', GivesClass f entry r c → GivesClass f entry r c' → c = c'

theorem add_of_given {classes : AliasClasses} {i : IRInstr} {c : AliasClass}
    (h : givenClass classes i = some c) :
    ∃ d, i.definedRegs = [d] ∧ classes.add i = Function.update classes d (some c) := by
  unfold givenClass at h
  split at h
  all_goals first | cases h | skip
  all_goals refine ⟨_, rfl, ?_⟩
  all_goals first | rfl | simp [AliasClasses.add, AliasClasses.inherit, h]

theorem inherit_of_none {classes : AliasClasses} {dst src : IRValue}
    (h : ∀ d s, dst = .register d → src = .register s → classes s = none) :
    classes.inherit dst src = classes := by
  unfold AliasClasses.inherit
  split
  · next d s => rw [h d s rfl rfl]
  · rfl

theorem add_of_not_given {classes : AliasClasses} {i : IRInstr}
    (h : givenClass classes i = none) : classes.add i = classes := by
  unfold AliasClasses.add
  split
  · cases h
  · refine inherit_of_none ?_
    rintro d s rfl rfl
    exact h
  · cases h
  · refine inherit_of_none ?_
    rintro d s rfl rfl
    exact h
  · refine inherit_of_none ?_
    rintro d s rfl rfl
    exact h
  · cases h
  · rfl

/-- Some instruction has given the class that a register has. -/
theorem exists_given {l : List IRInstr} {r : VReg} {c : AliasClass}
    (h : l.foldl AliasClasses.add (fun _ => none) r = some c) :
    ∃ pre i post, l = pre ++ i :: post ∧ r ∈ i.definedRegs ∧
      givenClass (pre.foldl AliasClasses.add fun _ => none) i = some c := by
  induction l using List.reverseRecOn with
  | nil => cases h
  | append_singleton l i ih =>
    have hearlier : l.foldl AliasClasses.add (fun _ => none) r = some c →
        ∃ pre j post, l ++ [i] = pre ++ j :: post ∧ r ∈ j.definedRegs ∧
          givenClass (pre.foldl AliasClasses.add fun _ => none) j = some c := by
      intro hl
      obtain ⟨pre, j, post, rfl, hr, hgiven⟩ := ih hl
      exact ⟨pre, j, post ++ [i], by simp, hr, hgiven⟩
    rw [List.foldl_append, List.foldl_cons, List.foldl_nil] at h
    cases hgiven : givenClass (l.foldl AliasClasses.add fun _ => none) i with
    | none =>
      rw [add_of_not_given hgiven] at h
      exact hearlier h
    | some c' =>
      obtain ⟨d, hd, hadd⟩ := add_of_given hgiven
      rw [hadd] at h
      by_cases hrd : r = d
      · rw [hrd, Function.update_self] at h
        rw [h] at hgiven
        exact ⟨l, i, [], rfl, by rw [hd, hrd]; exact List.mem_singleton_self d, hgiven⟩
      · rw [Function.update_of_ne hrd] at h
        exact hearlier h

theorem foldl_add_ne_none {classes : AliasClasses} {r : VReg} (h : classes r ≠ none)
    (l : List IRInstr) : l.foldl AliasClasses.add classes r ≠ none := by
  induction l generalizing classes with
  | nil => exact h
  | cons i l ih =>
    refine ih ?_
    cases hgiven : givenClass classes i with
    | none => rwa [add_of_not_given hgiven]
    | some c =>
      obtain ⟨d, -, hadd⟩ := add_of_given hgiven
      rw [hadd]
      by_cases hrd : r = d
      · rw [hrd, Function.update_self]
        exact Option.some_ne_none c
      · rwa [Function.update_of_ne hrd]

section

variable {f : IRFunction} {entry : VReg → Set Origin}

theorem givesClass_of_state {classes : AliasClasses} {i : IRInstr} (h : SweepMeets f classes i)
    {r : VReg} {c : AliasClass} (hc : classes r = some c) : GivesClass f entry r (some c) := by
  obtain ⟨pre, post, hsplit, rfl⟩ := h
  obtain ⟨pre', j, post', rfl, hr, hgiven⟩ := exists_given hc
  rw [← hgiven]
  exact .instr ⟨pre', post' ++ i :: post, by simp [hsplit], rfl⟩ hr

theorem OneClass.analyze_eq (hone : OneClass f entry) {r : VReg} {c : Option AliasClass}
    (h : GivesClass f entry r c) : analyzeAliases f r = c := by
  have hfinal : ∀ c', analyzeAliases f r = some c' → c = some c' := by
    intro c' hc'
    obtain ⟨pre, i, post, hsplit, hr, hgiven⟩ := exists_given hc'
    refine hone r _ _ h ?_
    rw [← hgiven]
    exact .instr ⟨pre, post, hsplit, rfl⟩ hr
  cases hanalyze : analyzeAliases f r with
  | some c' => exact (hfinal c' hanalyze).symm
  | none =>
    cases h with
    | terminator | entry => rfl
    | @instr classes i hmeets hr =>
      cases hgiven : givenClass classes i with
      | none => rfl
      | some c =>
        obtain ⟨d, hd, hadd⟩ := add_of_given hgiven
        obtain ⟨pre, post, hsplit, rfl⟩ := hmeets
        rw [hd, List.mem_singleton] at hr
        have hkept : post.foldl AliasClasses.add
            ((pre.foldl AliasClasses.add fun _ => none).add i) r ≠ none := by
          refine foldl_add_ne_none ?_ post
          rw [hadd, hr, Function.update_self]
          exact Option.some_ne_none c
        refine absurd ?_ hkept
        rw [← List.foldl_cons, ← List.foldl_append, ← hsplit]
        exact hanalyze

end

/-! ## The condition -/

/-- A pointer of the class can be derived from the object. Only loads of one of the types `u8`,
`u32` and `u64` yield pointers, those of class `pointer`. -/
def AliasClass.Fits (c pointer : AliasClass) (o : Origin) : Prop :=
  match c with
  | .any => True
  | .unique d => ∃ size, o = .slot d size
  | c => c = pointer

section

variable (M : Machine) (K : Objects) (pointer : AliasClass) (f : IRFunction)

/-- The objects fit the class that the operand has in the sweep, if it has one. -/
def FitsOperand (i : IRInstr) (v : IRValue) (objects : Set Origin) : Prop :=
  ∀ classes, SweepMeets f classes i → ∀ c, v.asRegister.bind classes = some c →
    ∀ o ∈ objects, c.Fits pointer o

/-- The next instruction does not lose track of a block. The right operand of a binary operation and
the offset of an `Offset` are derived only from objects that fit the class of the left operand or of
the base; the operand that a phi takes is derived from no object, or it has the class that the phi
gets, or that is `Any`; and a loaded pointer is loaded as one of `u8`, `u32` and `u64` only if that
is the type of all of them. -/
def Tracks (p : ExecPoint) : IRInstr → Prop
  | .binOp op dst lhs rhs ty =>
    op.isComparison = true ∨
      FitsOperand pointer f (.binOp op dst lhs rhs ty) lhs (p.valueOrigins K rhs)
  | .offset dst base off => FitsOperand pointer f (.offset dst base off) base (p.valueOrigins K off)
  | .phi dst incoming =>
    ∀ e ∈ p.taken incoming, e.1.origins K p.edgeOrigins = ∅ ∨
      ∀ classes, SweepMeets f classes (.phi dst incoming) →
        phiClass classes incoming = .any ∨
          e.1.asRegister.bind classes = some (phiClass classes incoming)
  | .load _ addr off ty => ∀ o ∈ p.loaded (p.bytesAt M addr off ty), (loadClass ty).Fits pointer o
  | _ => True

/-- The accesses of the next instruction, if it is a load or a store through a register. -/
def nextAccess (p : ExecPoint) : List (VReg × Set Word) :=
  p.rest.head?.elim [] fun i => i.access M (·.eval M p.regs)

/-- The next access stays inside an object that its address is derived from. -/
def InBounds (p : ExecPoint) : Prop :=
  ∀ x ∈ nextAccess M p, ∃ o ∈ p.origins.regs x.1, x.2 ⊆ K.bytes o

end

/-! ## The invariant -/

/-- Every register is derived only from objects that fit its class. -/
structure Fitting (pointer : AliasClass) (f : IRFunction) (p : ExecPoint) : Prop where
  regs : ∀ r c, analyzeAliases f r = some c → ∀ o ∈ p.origins.regs r, c.Fits pointer o
  edge : ∀ r c, analyzeAliases f r = some c → ∀ o ∈ p.edgeOrigins r, c.Fits pointer o
  rest : ∀ i ∈ p.rest, i ∈ sweepInstrs f

section

variable {M : Machine} {K : Objects} {pointer : AliasClass} {f : IRFunction}
  {entry : VReg → Set Origin}

theorem exists_sweepMeets {i : IRInstr} (h : i ∈ sweepInstrs f) :
    ∃ classes, SweepMeets f classes i := by
  obtain ⟨pre, post, hsplit⟩ := List.append_of_mem h
  exact ⟨_, pre, post, hsplit, rfl⟩

theorem mem_sweepInstrs_of_blockAt {label : String} {b : IRBlock} (hb : f.blockAt label = some b)
    {i : IRInstr} (hi : i ∈ b.instructions) : i ∈ sweepInstrs f :=
  List.mem_flatMap.mpr ⟨b, List.mem_of_find?_eq_some hb, hi⟩

/-- A destination that is derived from objects of its class. -/
theorem Fitting.write {p : ExecPoint} (h : Fitting pointer f p) {dst : IRValue}
    {objects : Set Origin} (hdst : ∀ d, dst = .register d → ∀ c, analyzeAliases f d = some c →
      ∀ o ∈ objects, c.Fits pointer o) :
    ∀ r c, analyzeAliases f r = some c → ∀ o ∈ (p.origins.write dst objects).regs r,
      c.Fits pointer o := by
  unfold Origins.write
  split
  · next d =>
    intro r c hc o ho
    dsimp only at ho
    by_cases hr : r = d
    · subst hr
      rw [Function.update_self] at ho
      exact hdst r rfl c hc o ho
    · rw [Function.update_of_ne hr] at ho
      exact h.regs r c hc o ho
  · exact h.regs

theorem OneClass.fits_operand (hone : OneClass f entry) {regs : VReg → Set Origin}
    (h : ∀ r c, analyzeAliases f r = some c → ∀ o ∈ regs r, c.Fits pointer o)
    {classes : AliasClasses} {i : IRInstr} (hmeets : SweepMeets f classes i) {v : IRValue}
    {c : AliasClass} (hc : v.asRegister.bind classes = some c) :
    ∀ o ∈ v.origins K regs, c.Fits pointer o := by
  obtain ⟨r, hr, hclass⟩ := Option.bind_eq_some_iff.mp hc
  cases v with
  | register r' =>
    cases hr
    exact h _ c (hone.analyze_eq (givesClass_of_state hmeets hclass))
  | _ => cases hr

theorem Fitting.derives (hone : OneClass f entry) {p : ExecPoint} (h : Fitting pointer f p)
    {i : IRInstr} (hi : i ∈ sweepInstrs f) (htracks : Tracks M K pointer f p i) {g : Origins}
    (hderives : p.Derives M K i g) :
    ∀ r c, analyzeAliases f r = some c → ∀ o ∈ g.regs r, c.Fits pointer o := by
  obtain ⟨classes, hmeets⟩ := exists_sweepMeets hi
  have hgives : ∀ {d c}, d ∈ i.definedRegs → analyzeAliases f d = some c →
      givenClass classes i = some c := by
    intro d c hd hc
    rw [← hc]
    exact (hone.analyze_eq (.instr hmeets hd)).symm
  have hother : (∀ r, r ∉ i.definedRegs → g.regs r = p.origins.regs r) →
      givenClass classes i = none →
        ∀ r c, analyzeAliases f r = some c → ∀ o ∈ g.regs r, c.Fits pointer o := by
    intro hsame hnone r c hc o ho
    by_cases hr : r ∈ i.definedRegs
    · have hgiven := hgives hr hc
      rw [hnone] at hgiven
      cases hgiven
    · rw [hsame r hr] at ho
      exact h.regs r c hc o ho
  cases i with
  | alloc dst size =>
    cases dst with
    | register d =>
      obtain rfl : g = p.origins.write (.register d) {.slot d size} := hderives
      refine h.write fun d' hd' c hc o ho => ?_
      cases hd'
      cases hgives (List.mem_singleton_self d) hc
      exact ⟨size, ho⟩
    | _ => exact hother hderives rfl
  | binOp op dst lhs rhs ty =>
    obtain rfl : g = p.origins.write dst
      (if op.isComparison then ∅ else p.valueOrigins K lhs ∪ p.valueOrigins K rhs) := hderives
    refine h.write fun d hd c hc o ho => ?_
    subst hd
    split at ho
    · cases ho
    · next hcomp =>
      have hgiven := hgives (List.mem_singleton_self d) hc
      have hclass : lhs.asRegister.bind classes = some c := by
        cases lhs with
        | register l => exact hgiven
        | _ => cases hgiven
      rcases ho with ho | ho
      · exact hone.fits_operand h.regs hmeets hclass o ho
      · exact htracks.resolve_left hcomp classes hmeets c hclass o ho
  | offset dst base off =>
    obtain rfl : g = p.origins.write dst (p.valueOrigins K base ∪ p.valueOrigins K off) := hderives
    refine h.write fun d hd c hc o ho => ?_
    subst hd
    have hgiven := hgives (List.mem_singleton_self d) hc
    have hclass : base.asRegister.bind classes = some c := by
      cases base with
      | register b => exact hgiven
      | _ => cases hgiven
    rcases ho with ho | ho
    · exact hone.fits_operand h.regs hmeets hclass o ho
    · exact htracks classes hmeets c hclass o ho
  | cast kind dst src fromTy toTy =>
    obtain rfl : g = p.origins.write dst (p.valueOrigins K src) := hderives
    refine h.write fun d hd c hc o ho => ?_
    subst hd
    have hgiven := hgives (List.mem_singleton_self d) hc
    cases src with
    | register s => exact hone.fits_operand (v := .register s) h.regs hmeets hgiven o ho
    | _ => cases hgiven
  | phi dst incoming =>
    have hphi : g = ((p.taken incoming).map fun e =>
        p.origins.write dst (e.1.origins K p.edgeOrigins)).getD p.origins := hderives
    cases htaken : p.taken incoming with
    | none =>
      rw [htaken] at hphi
      rw [hphi]
      exact h.regs
    | some e =>
      rw [htaken] at hphi
      obtain rfl : g = p.origins.write dst (e.1.origins K p.edgeOrigins) := hphi
      refine h.write fun d hd c hc o ho => ?_
      subst hd
      have hgiven := hgives (List.mem_singleton_self d) hc
      have hclass : phiClass classes incoming = c := Option.some.inj hgiven
      rcases htracks e htaken with hnone | hjoin
      · rw [hnone] at ho
        cases ho
      · rcases hjoin classes hmeets with hany | hsame
        · rw [← hclass, hany]
          trivial
        · rw [hclass] at hsame
          exact hone.fits_operand h.edge hmeets hsame o ho
  | load dst addr off ty =>
    obtain rfl : g = p.origins.write dst (p.loaded (p.bytesAt M addr off ty)) := hderives
    refine h.write fun d hd c hc o ho => ?_
    subst hd
    cases hgives (List.mem_singleton_self d) hc
    exact htracks o ho
  | store value addr off ty =>
    rw [hderives]
    exact h.regs
  | _ => exact hother hderives rfl

/-- Every step keeps the invariant. -/
theorem Fitting.step (hone : OneClass f entry) {p q : ExecPoint} (h : Fitting pointer f p)
    (htracks : ∀ i ∈ p.rest.head?, Tracks M K pointer f p i) (hstep : f.PointStep M K p q) :
    Fitting pointer f q := by
  cases hstep with
  | @instr i is ws w g hrest heffect hderives =>
    have hi : i ∈ p.rest := by
      rw [hrest]
      exact List.mem_cons_self
    refine ⟨h.derives hone (h.rest i hi) (htracks i (by rw [hrest]; rfl)) hderives, h.edge, ?_⟩
    intro j hj
    exact h.rest j (by rw [hrest]; exact List.mem_cons_of_mem i hj)
  | jump hrest heffect hb =>
    exact ⟨h.regs, h.regs, fun i hi => mem_sweepInstrs_of_blockAt hb hi⟩
  | @terminator b b' target pred σ w g hrest hb hexec hb' horigins =>
    have hregs : ∀ r c, analyzeAliases f r = some c → ∀ o ∈ g.regs r, c.Fits pointer o := by
      intro r c hc o ho
      by_cases hr : r ∈ b.terminator.definedRegs
      · have hnone := hone.analyze_eq (.terminator (List.mem_of_find?_eq_some hb) hr)
        rw [hnone] at hc
        cases hc
      · rw [horigins r hr] at ho
        exact h.regs r c hc o ho
    exact ⟨hregs, hregs, fun i hi => mem_sweepInstrs_of_blockAt hb' hi⟩

/-- What is accessed lies in an object of the class of its address. -/
theorem Fitting.access {p : ExecPoint} (h : Fitting pointer f p) (hin : InBounds M K p)
    {x : VReg × Set Word} (hx : x ∈ nextAccess M p) :
    ∃ o, x.2 ⊆ K.bytes o ∧ ∀ c, analyzeAliases f x.1 = some c → c.Fits pointer o := by
  obtain ⟨o, ho, hsub⟩ := hin x hx
  exact ⟨o, hsub, fun c hc => h.regs x.1 c hc o ho⟩

theorem ne_of_not_mayAlias {c c' : AliasClass} (h : c.mayAlias c' = false) {o o' : Origin}
    (ho : c.Fits pointer o) (ho' : c'.Fits pointer o') : o ≠ o' ∧ ∃ r size, o = .slot r size := by
  cases c with
  | any => cases c' <;> cases h
  | unique a =>
    cases c' with
    | unique b =>
      obtain ⟨n, rfl⟩ := ho
      obtain ⟨m, rfl⟩ := ho'
      refine ⟨fun heq => ?_, a, n, rfl⟩
      cases heq
      simp [AliasClass.mayAlias] at h
    | _ => cases h
  | u8 | u32 | u64 =>
    -- the classes of loaded pointers: both are `pointer`
    cases c' with
    | any | unique => cases h
    | _ =>
      exfalso
      have hsame := ho.trans ho'.symm
      rw [← hsame] at h
      cases h

/-- In an execution that loses track of no block and stays inside the blocks, accesses through
registers that may not alias are disjoint. -/
theorem valuesMayAlias_sound (hK : K.SeparateBlocks M f) {run : List ExecPoint}
    (hrun : f.PointRun M K run) (hin : ∀ p ∈ run, InBounds M K p)
    (hone : ∀ p ∈ run.head?, OneClass f p.origins.regs)
    (htracks : ∀ p ∈ run, ∀ i ∈ p.rest.head?, Tracks M K pointer f p i) {p q : ExecPoint}
    (hp : p ∈ run) (hq : q ∈ run) {x y : VReg × Set Word} (hx : x ∈ nextAccess M p)
    (hy : y ∈ nextAccess M q)
    (halias : (analyzeAliases f).valuesMayAlias (.register x.1) (.register y.1) = false) :
    Disjoint x.2 y.2 := by
  have hfitting : ∀ p ∈ run, Fitting pointer f p := by
    cases hhead : run.head? with
    | none =>
      rw [List.head?_eq_none_iff.mp hhead]
      exact fun p hp => (nomatch hp)
    | some p₀ =>
      have hone₀ := hone p₀ hhead
      refine hrun.forall_mem (fun p hp => ?_) fun p hp q hstep hfit =>
        hfit.step hone₀ (htracks p hp) hstep
      obtain rfl : p₀ = p := Option.some.inj (hhead.symm.trans hp)
      obtain ⟨b, σ, w, g, hb, rfl⟩ := hrun.start p₀ hp
      -- a pointer on entry is in a register without a class
      have hentry : ∀ r c, analyzeAliases f r = some c → ∀ o ∈ g.regs r, c.Fits pointer o := by
        intro r c hc o ho
        have hnone := hone₀.analyze_eq (.entry ⟨o, ho⟩)
        rw [hnone] at hc
        cases hc
      exact ⟨hentry, hentry, fun i hi =>
        List.mem_flatMap.mpr ⟨b, List.mem_of_mem_head? hb, hi⟩⟩
  obtain ⟨o, hsub, hfits⟩ := (hfitting p hp).access (hin p hp) hx
  obtain ⟨o', hsub', hfits'⟩ := (hfitting q hq).access (hin q hq) hy
  have hclass : ∀ {r : VReg} {o : Origin},
      (∀ c, analyzeAliases f r = some c → c.Fits pointer o) →
        ((analyzeAliases f r).getD .any).Fits pointer o := by
    intro r o h
    cases hr : analyzeAliases f r with
    | none => trivial
    | some c => exact h c hr
  obtain ⟨hne, r, size, rfl⟩ := ne_of_not_mayAlias halias (hclass hfits) (hclass hfits')
  exact (hK.disjoint r size o' hne.symm).mono hsub hsub'

end

theorem OneClass.of_nodup {f : IRFunction} {entry : VReg → Set Origin}
    (hdefs : ((sweepInstrs f).flatMap IRInstr.definedRegs ++
      f.blocks.flatMap (·.terminator.definedRegs)).Nodup)
    (hentry : ∀ r ∈ (sweepInstrs f).flatMap IRInstr.definedRegs, entry r = ∅) :
    OneClass f entry := by
  obtain ⟨hinstrs, -, hterms⟩ := List.nodup_append.mp hdefs
  -- an instruction and something else do not define the same register
  have hother : ∀ {r classes i}, SweepMeets f classes i → r ∈ i.definedRegs → ∀ {c},
      GivesClass f entry r c → c = givenClass classes i := by
    rintro r classes i ⟨pre, post, hsplit, rfl⟩ hr c h
    have hmem : r ∈ (sweepInstrs f).flatMap IRInstr.definedRegs :=
      List.mem_flatMap.mpr ⟨i, by simp [hsplit], hr⟩
    cases h with
    | terminator hb hr' =>
      exact absurd rfl (hterms r hmem r (List.mem_flatMap.mpr ⟨_, hb, hr'⟩))
    | entry hr' =>
      rw [hentry r hmem] at hr'
      exact absurd hr' Set.not_nonempty_empty
    | @instr classes' j hmeets hr' =>
      obtain ⟨pre', post', hsplit', rfl⟩ := hmeets
      have hlater : ∀ {pre post post' as : List IRInstr} {i j : IRInstr},
          sweepInstrs f = pre ++ i :: post → r ∈ i.definedRegs → r ∈ j.definedRegs →
            i :: post = as ++ j :: post' → as = [] := by
        intro pre post post' as i j hsplit hr hr' heq
        cases as with
        | nil => rfl
        | cons k as =>
          obtain ⟨rfl, rfl⟩ := List.cons_eq_cons.mp heq
          rw [hsplit, List.flatMap_append, List.flatMap_cons, List.nodup_append] at hinstrs
          exact absurd rfl ((List.nodup_append.mp hinstrs.2.1).2.2 r hr r
            (List.mem_flatMap.mpr ⟨j, by simp, hr'⟩))
      rcases List.append_eq_append_iff.mp (hsplit.symm.trans hsplit') with
        ⟨as, rfl, heq⟩ | ⟨as, rfl, heq⟩
      · obtain rfl := hlater hsplit hr hr' heq
        obtain ⟨rfl, -⟩ := List.cons_eq_cons.mp heq
        rw [List.append_nil]
      · obtain rfl := hlater hsplit' hr' hr heq
        obtain ⟨rfl, -⟩ := List.cons_eq_cons.mp heq
        rw [List.append_nil]
  intro r c c' h h'
  cases h with
  | instr hmeets hr => exact (hother hmeets hr h').symm
  | terminator hb hr =>
    cases h' with
    | instr hmeets hr' => exact hother hmeets hr' (.terminator hb hr)
    | terminator | entry => rfl
  | entry hr =>
    cases h' with
    | instr hmeets hr' => exact hother hmeets hr' (.entry hr)
    | terminator | entry => rfl

/-! ## Two blocks -/

/-- The next instruction is done, and the memory stays as it is. -/
def nextPoint (p : ExecPoint) (ws : List (IRValue × Word)) (g : Origins) : ExecPoint :=
  { p with rest := p.rest.tail, regs := p.regs.writes ws, origins := g }

theorem pointStep_nextPoint {M : Machine} {K : Objects} {f : IRFunction} {p : ExecPoint}
    {i : IRInstr} {is : List IRInstr} {ws : List (IRValue × Word)} {g : Origins}
    (hrest : p.rest = i :: is) (heffect : p.effect M i = .next ws p.world)
    (hderives : p.Derives M K i g) : f.PointStep M K p (nextPoint p ws g) := by
  have htail : p.rest.tail = is := by rw [hrest, List.tail_cons]
  rw [nextPoint, htail]
  exact .instr hrest heffect hderives

/-- The blocks of two allocations of eight bytes, and nothing else. -/
def twoBlocks : Objects where
  bytes o :=
    if o = .slot 1 8 then byteRange 8192 8 else if o = .slot 2 8 then byteRange 12288 8 else ∅
  const _ := ∅

theorem mem_twoBlocks {o : Origin} {a : Word} (h : a ∈ twoBlocks.bytes o) :
    o = .slot 1 8 ∧ a ∈ byteRange 8192 8 ∨ o = .slot 2 8 ∧ a ∈ byteRange 12288 8 := by
  unfold twoBlocks at h
  dsimp only at h
  split_ifs at h with h₁ h₂
  · exact Or.inl ⟨h₁, h⟩
  · exact Or.inr ⟨h₂, h⟩
  · cases h

theorem separateBlocks_twoBlocks {f : IRFunction}
    (h : ∀ b ∈ f.blocks, ∀ i ∈ b.instructions, ∀ r size, i = .alloc (.register r) size →
      (r = 1 ∨ r = 2) ∧ size = 8) : twoBlocks.SeparateBlocks default f where
  slot b hb r size hi := by
    obtain ⟨rfl | rfl, rfl⟩ := h b hb _ hi r size rfl <;> rfl
  disjoint r size o hne := by
    have hapart : ∀ a : Word, a ∈ byteRange 8192 8 → a ∉ byteRange 12288 8 := by
      rintro a ⟨k, hk, rfl⟩ ⟨k', hk', heq⟩
      bv_omega
    refine Set.disjoint_left.mpr fun a ha ha' => ?_
    rcases mem_twoBlocks ha with ⟨h₁, ha⟩ | ⟨h₁, ha⟩ <;>
      rcases mem_twoBlocks ha' with ⟨h₂, ha'⟩ | ⟨h₂, ha'⟩
    · exact hne (h₂.trans h₁.symm)
    · exact hapart a ha ha'
    · exact hapart a ha' ha
    · exact hne (h₂.trans h₁.symm)

/-- Nothing is a pointer. -/
def noOrigins : Origins := ⟨fun _ => ∅, fun _ => ∅⟩

/-- A block of eight bytes is allocated, and its address is in the register. -/
def allocPoint (p : ExecPoint) (d : VReg) (addr : Word) : ExecPoint :=
  nextPoint p [(.register d, addr)] (p.origins.write (.register d) {.slot d 8})

/-- Eight bytes are loaded from the address in the register `a`. -/
def loadPoint (p : ExecPoint) (d a : VReg) : ExecPoint :=
  let v := (default : Machine).load .i64 p.world.mem (p.regs a + BitVec.ofInt 64 0)
  nextPoint p [(.register d, v)]
    (p.origins.write (.register d) (p.loaded (p.bytesAt default (.register a) 0 .i64)))

/-- Two blocks are read. -/
def readBoth : IRBlock where
  label := "entry"
  instructions :=
    [.alloc (.register 1) 8, .alloc (.register 2) 8,
      .load (.register 3) (.register 1) 0 .i64, .load (.register 4) (.register 2) 0 .i64]
  terminator := .ret [.register 3, .register 4]

def readBothFunction : IRFunction where
  name := "read_both"
  blocks := [readBoth]

/-- The start of `readBoth`. -/
def readBothStart : ExecPoint := readBoth.point none (fun _ => 0) ⟨fun _ => 0, []⟩ noOrigins

/-- The blocks of `readBoth` are there. -/
def readBothAlloc : ExecPoint := allocPoint (allocPoint readBothStart 1 8192) 2 12288

def readBothRun : List ExecPoint :=
  [readBothStart, allocPoint readBothStart 1 8192, readBothAlloc, loadPoint readBothAlloc 3 1]

theorem pointRun_readBoth : readBothFunction.PointRun default twoBlocks readBothRun where
  start p hp := by
    cases hp
    exact ⟨_, _, _, _, rfl, rfl⟩
  steps :=
    .cons_cons (pointStep_nextPoint rfl rfl rfl) (.cons_cons (pointStep_nextPoint rfl rfl rfl)
      (.cons_cons (pointStep_nextPoint rfl rfl rfl) (.singleton _)))

theorem inBounds_readBoth : ∀ p ∈ readBothRun, InBounds default twoBlocks p := by
  simp only [readBothRun, List.forall_mem_cons]
  refine ⟨fun x hx => ?_, fun x hx => ?_, fun x hx => ?_, fun x hx => ?_, fun _ hp => ?_⟩
  · cases hx
  · cases hx
  · obtain rfl := List.mem_singleton.mp hx
    exact ⟨.slot 1 8, rfl, subset_rfl⟩
  · obtain rfl := List.mem_singleton.mp hx
    exact ⟨.slot 2 8, rfl, subset_rfl⟩
  · cases hp

theorem valuesMayAlias_sound_readBoth : Disjoint (byteRange 8192 8) (byteRange 12288 8) := by
  have hsep : twoBlocks.SeparateBlocks default readBothFunction :=
    separateBlocks_twoBlocks (by simp [readBothFunction, readBoth])
  have hone : ∀ p ∈ readBothRun.head?, OneClass readBothFunction p.origins.regs := by
    rintro p ⟨⟩
    exact OneClass.of_nodup (by decide) fun _ _ => rfl
  have htracks : ∀ p ∈ readBothRun, ∀ i ∈ p.rest.head?,
      Tracks default twoBlocks .any readBothFunction p i := by
    simp only [readBothRun, List.forall_mem_cons]
    refine ⟨?_, ?_, ?_, ?_, fun _ hp => nomatch hp⟩ <;> rintro i ⟨⟩
    · trivial
    · trivial
    · exact fun _ _ => trivial
    · exact fun _ _ => trivial
  exact valuesMayAlias_sound (x := (1, byteRange 8192 8)) (y := (2, byteRange 12288 8)) hsep
    pointRun_readBoth inBounds_readBoth hone htracks (p := readBothAlloc)
    (q := loadPoint readBothAlloc 3 1) (by simp [readBothRun]) (by simp [readBothRun])
    (List.mem_singleton.mpr rfl) (List.mem_singleton.mpr rfl) (by decide)

/-- A block is read through its address and through a phi. -/
def readJoined : IRBlock where
  label := "join"
  instructions :=
    [.phi (.register 3) [(.register 1, "entry"), (.register 2, "other")],
      .load (.register 4) (.register 1) 0 .i64, .load (.register 5) (.register 3) 0 .i64]
  terminator := .ret [.register 4, .register 5]

def allocateBoth : IRBlock where
  label := "entry"
  instructions := [.alloc (.register 1) 8, .alloc (.register 2) 8]
  terminator := .branch (.immediate 1) "join" "other"

def readJoinedFunction : IRFunction where
  name := "read_joined"
  blocks :=
    [allocateBoth, { label := "other", instructions := [], terminator := .jump "join" }, readJoined]

/-- The start of `allocateBoth`. -/
def allocateBothStart : ExecPoint := allocateBoth.point none (fun _ => 0) ⟨fun _ => 0, []⟩ noOrigins

/-- The blocks of `allocateBoth` are there. -/
def allocateBothEnd : ExecPoint := allocPoint (allocPoint allocateBothStart 1 8192) 2 12288

/-- The start of `readJoined`. -/
def readJoinedStart : ExecPoint :=
  readJoined.point (some "entry") allocateBothEnd.regs allocateBothEnd.world allocateBothEnd.origins

/-- The phi has taken the address of the first block. -/
def readJoinedPhi : ExecPoint :=
  nextPoint readJoinedStart [(.register 3, 8192)]
    (readJoinedStart.origins.write (.register 3) {.slot 1 8})

def readJoinedRun : List ExecPoint :=
  [allocateBothStart, allocPoint allocateBothStart 1 8192, allocateBothEnd, readJoinedStart,
    readJoinedPhi, loadPoint readJoinedPhi 4 1]

theorem pointRun_readJoined : readJoinedFunction.PointRun default twoBlocks readJoinedRun where
  start p hp := by
    cases hp
    exact ⟨_, _, _, _, rfl, rfl⟩
  steps :=
    .cons_cons (pointStep_nextPoint rfl rfl rfl) (.cons_cons (pointStep_nextPoint rfl rfl rfl)
      (.cons_cons (.terminator rfl rfl rfl rfl fun _ _ => rfl)
        (.cons_cons (pointStep_nextPoint rfl rfl rfl)
          (.cons_cons (pointStep_nextPoint rfl rfl rfl) (.singleton _)))))

theorem inBounds_readJoined : ∀ p ∈ readJoinedRun, InBounds default twoBlocks p := by
  simp only [readJoinedRun, List.forall_mem_cons]
  refine ⟨fun x hx => ?_, fun x hx => ?_, fun x hx => ?_, fun x hx => ?_, fun x hx => ?_,
    fun x hx => ?_, fun _ hp => ?_⟩
  · cases hx
  · cases hx
  · cases hx
  · cases hx
  · obtain rfl := List.mem_singleton.mp hx
    exact ⟨.slot 1 8, rfl, subset_rfl⟩
  · obtain rfl := List.mem_singleton.mp hx
    exact ⟨.slot 1 8, rfl, subset_rfl⟩
  · cases hp

/-- The phi has the class of the second block, and the address of the first. -/
theorem not_valuesMayAlias_sound :
    ¬∀ (M : Machine) (K : Objects) (f : IRFunction) (run : List ExecPoint), K.SeparateBlocks M f →
      f.PointRun M K run → (∀ p ∈ run, InBounds M K p) →
        ∀ p ∈ run, ∀ q ∈ run, ∀ x ∈ nextAccess M p, ∀ y ∈ nextAccess M q,
          (analyzeAliases f).valuesMayAlias (.register x.1) (.register y.1) = false →
            Disjoint x.2 y.2 := by
  intro h
  have hdisjoint : Disjoint (byteRange 8192 8) (byteRange 8192 8) :=
    h default twoBlocks readJoinedFunction readJoinedRun
      (separateBlocks_twoBlocks (by simp [readJoinedFunction, allocateBoth, readJoined]))
      pointRun_readJoined inBounds_readJoined readJoinedPhi (by simp [readJoinedRun])
      (loadPoint readJoinedPhi 4 1) (by simp [readJoinedRun]) (1, byteRange 8192 8)
      (List.mem_singleton.mpr rfl) (3, byteRange 8192 8) (List.mem_singleton.mpr rfl) (by decide)
  exact Set.disjoint_left.mp hdisjoint ⟨0, by decide, rfl⟩ ⟨0, by decide, rfl⟩

end Vuma.Opt
