import Vuma.IR.Edges

/-!
# Paths and definitions

A path runs through the instructions of a function from its entry, along the edges its control
instructions and terminators have, whatever the values. A function is defined before use when every
register a path reads was defined on it (`IRFunction.DefinedBeforeUse`). A phi reads the operand of
the edge the path took, and what was defined before that edge.

`path_filter` and `filter_path` relate the paths of a function to those of the function without some
of its instructions.
-/

namespace Vuma.IR

/-- What a path passes: an instruction, or the return of an invoked function. -/
inductive Passed where
  | instr (i : IRInstr)
  | invoked (dst : Option IRValue)
  deriving DecidableEq, Repr

/-- The registers an event defines. -/
def Passed.definedRegs : Passed → List VReg
  | instr i => i.definedRegs
  | invoked dst => (dst.bind IRValue.asRegister).toList

/-- What leaving through a terminator towards `target` passes. The unwind edge of an `Invoke`
defines nothing. -/
def IRTerminator.events (target : String) : IRTerminator → List Passed
  | .invoke dst _ _ _ unwind => if target = unwind then [] else [.invoked dst]
  | _ => []

/-- A point on a path: the block and the label it was entered from, the events before the block and
in it, and the instructions of the block that are left. -/
structure Point where
  pred : Option String
  block : IRBlock
  before : List Passed
  passed : List Passed
  rest : List IRInstr

/-- The points of the paths from the entry of `f`. -/
inductive IRFunction.Path (f : IRFunction) : Point → Prop
  | entry {b : IRBlock} (hb : f.blocks.head? = some b) :
    f.Path ⟨none, b, [], [], b.instructions⟩
  | next {pred : Option String} {b : IRBlock} {before passed : List Passed} {i : IRInstr}
    {is : List IRInstr} (h : f.Path ⟨pred, b, before, passed, i :: is⟩)
    (hi : i.isControl = false) : f.Path ⟨pred, b, before, passed ++ [.instr i], is⟩
  | leave {pred : Option String} {b b' : IRBlock} {before passed : List Passed} {i : IRInstr}
    {is : List IRInstr} {target : String} (h : f.Path ⟨pred, b, before, passed, i :: is⟩)
    (ht : target ∈ i.targets) (hb : f.blockAt target = some b') :
    f.Path ⟨some b.label, b', before ++ passed, [], b'.instructions⟩
  | exit {pred : Option String} {b b' : IRBlock} {before passed : List Passed} {target : String}
    (h : f.Path ⟨pred, b, before, passed, []⟩) (ht : target ∈ b.terminator.successorLabels)
    (hb : f.blockAt target = some b') :
    f.Path ⟨some b.label, b', before ++ passed ++ b.terminator.events target, [],
      b'.instructions⟩

namespace Point

/-- The registers read at the point. -/
def reads (p : Point) : List VReg :=
  match p.rest with
  | [] => p.block.terminator.usedRegs
  | .phi _ incoming :: _ =>
    (incoming.find? fun e => some e.2 == p.pred).toList.flatMap fun e => e.1.regs
  | i :: _ => i.usedRegs

/-- The events before the read. -/
def seen (p : Point) : List Passed :=
  match p.rest with
  | .phi .. :: _ => p.before
  | _ => p.before ++ p.passed

end Point

/-- Every register read is preceded on every path by a definition, or is a parameter. -/
def IRFunction.DefinedBeforeUse (f : IRFunction) : Prop :=
  ∀ p, f.Path p → ∀ r ∈ p.reads,
    r ∈ f.params.flatMap IRValue.regs ∨ ∃ e ∈ p.seen, r ∈ e.definedRegs

/-! ## Leaving instructions out -/

section Filter

variable (keep : IRInstr → Bool)

/-- The block with the instructions that `keep` accepts. -/
def IRBlock.filterInstrs (b : IRBlock) : IRBlock :=
  { b with instructions := b.instructions.filter keep }

/-- The function with the instructions that `keep` accepts. -/
def IRFunction.filterInstrs (f : IRFunction) : IRFunction :=
  { f with blocks := f.blocks.map (·.filterInstrs keep) }

/-- Whether an event is left when the instructions are filtered. -/
def Passed.stays : Passed → Bool
  | instr i => keep i
  | invoked _ => true

/-- The point of the filtered function. -/
def Point.filterInstrs (p : Point) : Point where
  pred := p.pred
  block := p.block.filterInstrs keep
  before := p.before.filter (·.stays keep)
  passed := p.passed.filter (·.stays keep)
  rest := p.rest.filter keep

/-- The next instruction of the point is kept, if there is one. -/
def Point.Stays (p : Point) : Prop := ∀ i ∈ p.rest.head?, keep i = true

theorem IRFunction.blockAt_filterInstrs (f : IRFunction) (label : String) :
    (f.filterInstrs keep).blockAt label = (f.blockAt label).map (·.filterInstrs keep) := by
  simp only [blockAt, filterInstrs, List.find?_map]
  rfl

theorem IRTerminator.events_stay (t : IRTerminator) (target : String) :
    (t.events target).filter (·.stays keep) = t.events target := by
  cases t with
  | invoke dst func args normal unwind =>
    simp only [events]
    split <;> rfl
  | _ => rfl

variable {keep} {f : IRFunction}

/-- Control instructions, which `targets` comes from, are kept. -/
theorem IRInstr.isControl_of_target {i : IRInstr} {target : String} (h : target ∈ i.targets) :
    i.isControl = true := by
  cases i <;> first | rfl | cases h

theorem path_filter (hkeep : ∀ i : IRInstr, i.isControl = true → keep i = true) {p : Point}
    (h : f.Path p) : (f.filterInstrs keep).Path (p.filterInstrs keep) := by
  induction h with
  | @entry b hb =>
    refine .entry ?_
    rw [IRFunction.filterInstrs, List.head?_map, hb]
    rfl
  | @next pred b before passed i is _ hi ih =>
    by_cases hk : keep i = true
    · simp only [Point.filterInstrs, List.filter_cons_of_pos hk] at ih
      have hnext := IRFunction.Path.next ih hi
      simp only [Point.filterInstrs, List.filter_append]
      rwa [List.filter_cons_of_pos (show (Passed.instr i).stays keep = true from hk)]
    · simp only [Point.filterInstrs, List.filter_cons_of_neg hk] at ih
      simp only [Point.filterInstrs, List.filter_append]
      rw [List.filter_cons_of_neg (show ¬(Passed.instr i).stays keep = true from hk)]
      simpa using ih
  | @leave pred b b' before passed i is target _ ht hb ih =>
    have hk := hkeep i (IRInstr.isControl_of_target ht)
    simp only [Point.filterInstrs, List.filter_cons_of_pos hk] at ih
    have hb' : (f.filterInstrs keep).blockAt target = some (b'.filterInstrs keep) := by
      rw [IRFunction.blockAt_filterInstrs, hb]
      rfl
    have hleave := IRFunction.Path.leave ih ht hb'
    simp only [Point.filterInstrs, List.filter_append]
    exact hleave
  | @exit pred b b' before passed target _ ht hb ih =>
    have hb' : (f.filterInstrs keep).blockAt target = some (b'.filterInstrs keep) := by
      rw [IRFunction.blockAt_filterInstrs, hb]
      rfl
    have hexit := IRFunction.Path.exit ih ht hb'
    simp only [Point.filterInstrs, List.filter_append, IRTerminator.events_stay]
    exact hexit

theorem Path.advance (hkeep : ∀ i : IRInstr, i.isControl = true → keep i = true) {p : Point}
    (h : f.Path p) :
    ∃ q, f.Path q ∧ q.filterInstrs keep = p.filterInstrs keep ∧ q.Stays keep := by
  obtain ⟨pred, b, before, passed, rest⟩ := p
  induction rest generalizing passed with
  | nil => exact ⟨_, h, rfl, by simp [Point.Stays]⟩
  | cons i is ih =>
    by_cases hk : keep i = true
    · exact ⟨_, h, rfl, by simpa [Point.Stays] using hk⟩
    · have hi : i.isControl = false := by
        by_contra hc
        exact hk (hkeep i (by simpa using hc))
      obtain ⟨q, hq, hsame, hstays⟩ := ih _ (.next h hi)
      refine ⟨q, hq, hsame.trans ?_, hstays⟩
      simp only [Point.filterInstrs, List.filter_append, List.filter_cons_of_neg hk]
      rw [List.filter_cons_of_neg (show ¬(Passed.instr i).stays keep = true from hk)]
      simp

theorem filter_path (hkeep : ∀ i : IRInstr, i.isControl = true → keep i = true) {q : Point}
    (h : (f.filterInstrs keep).Path q) :
    ∃ p, f.Path p ∧ p.filterInstrs keep = q ∧ p.Stays keep := by
  induction h with
  | @entry b' hb =>
    rw [IRFunction.filterInstrs, List.head?_map, Option.map_eq_some_iff] at hb
    obtain ⟨b, hb, rfl⟩ := hb
    exact Path.advance hkeep (.entry hb)
  | @next pred b' before' passed' i is' _ hi ih =>
    obtain ⟨⟨pred, b, before, passed, rest⟩, hp, hsame, hstays⟩ := ih
    simp only [Point.filterInstrs, Point.mk.injEq] at hsame
    obtain ⟨rfl, rfl, rfl, rfl, hrest⟩ := hsame
    cases rest with
    | nil => cases hrest
    | cons j js =>
      have hj : keep j = true := hstays j rfl
      rw [List.filter_cons_of_pos hj] at hrest
      injection hrest with hji hjs
      subst hji hjs
      obtain ⟨q, hq, hqs, hqstays⟩ := Path.advance hkeep (.next hp hi)
      refine ⟨q, hq, hqs.trans ?_, hqstays⟩
      simp only [Point.filterInstrs, List.filter_append]
      rw [List.filter_cons_of_pos (show (Passed.instr j).stays keep = true from hj)]
      rfl
  | @leave pred b' c' before' passed' i is' target _ ht hb ih =>
    obtain ⟨⟨pred, b, before, passed, rest⟩, hp, hsame, hstays⟩ := ih
    simp only [Point.filterInstrs, Point.mk.injEq] at hsame
    obtain ⟨rfl, rfl, rfl, rfl, hrest⟩ := hsame
    rw [IRFunction.blockAt_filterInstrs, Option.map_eq_some_iff] at hb
    obtain ⟨c, hc, rfl⟩ := hb
    cases rest with
    | nil => cases hrest
    | cons j js =>
      rw [List.filter_cons_of_pos (hstays j rfl)] at hrest
      injection hrest with hji hjs
      subst hji
      obtain ⟨q, hq, hqs, hqstays⟩ := Path.advance hkeep (.leave hp ht hc)
      refine ⟨q, hq, hqs.trans ?_, hqstays⟩
      simp only [Point.filterInstrs, List.filter_append]
      rfl
  | @exit pred b' c' before' passed' target _ ht hb ih =>
    obtain ⟨⟨pred, b, before, passed, rest⟩, hp, hsame, hstays⟩ := ih
    simp only [Point.filterInstrs, Point.mk.injEq] at hsame
    obtain ⟨rfl, rfl, rfl, rfl, hrest⟩ := hsame
    rw [IRFunction.blockAt_filterInstrs, Option.map_eq_some_iff] at hb
    obtain ⟨c, hc, rfl⟩ := hb
    cases rest with
    | cons j js =>
      rw [List.filter_cons_of_pos (hstays j rfl)] at hrest
      cases hrest
    | nil =>
      obtain ⟨q, hq, hqs, hqstays⟩ := Path.advance hkeep (.exit hp ht hc)
      refine ⟨q, hq, hqs.trans ?_, hqstays⟩
      simp only [Point.filterInstrs, List.filter_append, IRTerminator.events_stay]
      rfl

theorem Point.reads_filterInstrs {p : Point} (h : p.Stays keep) :
    (p.filterInstrs keep).reads = p.reads ∧
      (p.filterInstrs keep).seen = p.seen.filter (·.stays keep) := by
  obtain ⟨pred, b, before, passed, rest⟩ := p
  cases rest with
  | nil => exact ⟨rfl, by simp [filterInstrs, seen]⟩
  | cons i is =>
    have hi : keep i = true := h i rfl
    simp only [filterInstrs, List.filter_cons_of_pos hi]
    constructor
    · cases i <;> rfl
    · cases i <;> simp [seen]

end Filter

/-! ## Straight-line functions -/

theorem path_of_single {f : IRFunction} {b : IRBlock} (hf : f.blocks = [b])
    (hb : b.targets = []) {p : Point} (h : f.Path p) :
    ∃ is, b.instructions = is ++ p.rest ∧
      p = ⟨none, b, [], is.map .instr, p.rest⟩ := by
  have hnone (target : String) : target ∉ b.targets := by simp [hb]
  induction h with
  | @entry b₀ hentry =>
    rw [hf] at hentry
    injection hentry with hentry
    subst hentry
    exact ⟨[], rfl, rfl⟩
  | @next pred b₀ before passed i is _ _ ih =>
    obtain ⟨done, hdone, heq⟩ := ih
    simp only [Point.mk.injEq] at heq hdone
    obtain ⟨rfl, rfl, rfl, rfl, -⟩ := heq
    exact ⟨done ++ [i], by simp [hdone], by simp⟩
  | @leave pred b₀ b₁ before passed i is target _ ht _ ih =>
    obtain ⟨done, hdone, heq⟩ := ih
    simp only [Point.mk.injEq] at heq hdone
    obtain ⟨rfl, rfl, rfl, rfl, -⟩ := heq
    refine absurd ?_ (hnone target)
    refine List.mem_append_left _ (List.mem_flatMap.mpr ⟨i, ?_, ht⟩)
    simp [hdone]
  | @exit pred b₀ b₁ before passed target _ ht _ ih =>
    obtain ⟨done, hdone, heq⟩ := ih
    simp only [Point.mk.injEq] at heq hdone
    obtain ⟨rfl, rfl, rfl, rfl, -⟩ := heq
    exact absurd (List.mem_append_right _ ht) (hnone target)

/-- The registers read after the first `k` instructions of a block without phis. -/
def IRBlock.readsAt (b : IRBlock) (k : Nat) : List VReg :=
  match b.instructions.drop k with
  | [] => b.terminator.usedRegs
  | i :: _ => i.usedRegs

/-- A block that leads nowhere is defined before use when each of its reads is. -/
theorem definedBeforeUse_of_single {f : IRFunction} {b : IRBlock} (hf : f.blocks = [b])
    (hb : b.targets = []) (hphi : ∀ i ∈ b.instructions, i.isPhi = false)
    (h : ∀ k < b.instructions.length + 1, ∀ r ∈ b.readsAt k,
      r ∈ (b.instructions.take k).flatMap IRInstr.definedRegs) : f.DefinedBeforeUse := by
  intro p hp r hr
  obtain ⟨is, his, heq⟩ := path_of_single hf hb hp
  rw [heq] at hr ⊢
  generalize p.rest = rest at his hr
  have hreads : (⟨none, b, [], is.map .instr, rest⟩ : Point).reads = b.readsAt is.length ∧
      (⟨none, b, [], is.map .instr, rest⟩ : Point).seen = is.map .instr := by
    have hdrop : b.instructions.drop is.length = rest := by simp [his]
    unfold IRBlock.readsAt
    rw [hdrop]
    cases rest with
    | nil => exact ⟨rfl, rfl⟩
    | cons i rest =>
      have hi := hphi i (by simp [his])
      cases i <;> first | exact ⟨rfl, rfl⟩ | cases hi
  rw [hreads.1] at hr
  rw [hreads.2]
  have hlen : is.length < b.instructions.length + 1 := by
    rw [his, List.length_append]
    omega
  have hin := h is.length hlen r hr
  rw [his, List.take_left, List.mem_flatMap] at hin
  obtain ⟨i, hi, hdef⟩ := hin
  exact Or.inr ⟨.instr i, List.mem_map_of_mem hi, hdef⟩

end Vuma.IR
