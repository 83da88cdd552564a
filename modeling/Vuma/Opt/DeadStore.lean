import Vuma.Opt.AliasAnalysis
import Vuma.IR.Lockstep
import Vuma.IR.Memory
import Vuma.IR.Edges

/-!
# Dead store elimination

`mark_ive_proven_nonaliasing` and `dead_store_eliminate_with_linearity` of `opt.rs`. A store is
dropped when a scan of the rest of its block finds a later store through the same operand that
covers its bytes. The scan stops at a load that may alias, at a store that may alias or overlaps in
part, and at `Call`, `Syscall` and `Free`; it passes over everything else.
-/

namespace Vuma.Opt

open IR

/-! ## Provenance -/

/-- The `Alloc` a register derives from, named by the destination of the `Alloc`. -/
abbrev Provenance := VReg → Option VReg

/-- The region of a sum: that of the left operand, else that of the right one. -/
def addRegion (prov : Provenance) (lhs rhs : IRValue) : Option VReg :=
  match lhs.asRegister, rhs.asRegister with
  | some l, some r => (prov l).or (prov r)
  | some l, none => prov l
  | none, some r => prov r
  | none, none => none

/-- The register and the region that an instruction adds to the map, if any. -/
def provenanceOf (prov : Provenance) : IRInstr → Option (VReg × VReg)
  | .alloc dst _ => dst.asRegister.map fun id => (id, id)
  | .offset dst base _ => do
    let dst ← dst.asRegister
    let base ← base.asRegister
    let region ← prov base
    return (dst, region)
  | .binOp .add dst lhs rhs _ => do
    let dst ← dst.asRegister
    let region ← addRegion prov lhs rhs
    return (dst, region)
  | _ => none

/-- One instruction of a pass; the flag is `changed`. -/
def provenanceStep (s : Provenance × Bool) (i : IRInstr) : Provenance × Bool :=
  match provenanceOf s.1 i with
  | some (id, region) => (Function.update s.1 id (some region), s.2 || (s.1 id).isNone)
  | none => s

/-- `while changed && passes < max_passes`, with the number of passes that are left. -/
def provenancePasses (is : List IRInstr) : Nat → Provenance → Provenance
  | 0, prov => prov
  | passes + 1, prov =>
    let (prov', changed) := is.foldl provenanceStep (prov, false)
    if changed then provenancePasses is passes prov' else prov'

/-- The map that `mark_ive_proven_nonaliasing` returns beside the unchanged function. -/
def markIveProvenNonaliasing (f : IRFunction) : Provenance :=
  provenancePasses (f.blocks.flatMap (·.instructions)) 4 fun _ => none

def iveProvenNonAliasingWith (prov : Provenance) (a b : VReg) : Bool :=
  match prov a, prov b with
  | some ra, some rb => ra != rb
  | _, _ => false

def iveValuesProvenNonAliasingWith (prov : Provenance) : IRValue → IRValue → Bool
  | .register a, .register b => iveProvenNonAliasingWith prov a b
  | _, _ => false

/-! ## The pass -/

section

variable (aa : AliasClasses) (prov : Provenance)

def mayAliasCombined (a b : IRValue) : Bool :=
  if iveValuesProvenNonAliasingWith prov a b then false else aa.valuesMayAlias a b

/-- The scan from a store to `size` bytes at `addr + off`: how many instructions further on the store
is that overwrites it. Sizes are those of a target with eight-byte pointers. -/
def overwrittenBy (addr : IRValue) (off size : Int) : List IRInstr → Option Nat
  | [] => none
  | .load _ loadAddr _ _ :: is =>
    if mayAliasCombined aa prov addr loadAddr then none
    else (overwrittenBy addr off size is).map (· + 1)
  | .store _ addr' off' ty' :: is =>
    if addr = addr' then
      let size' : Int := sizeOfType 8 ty'
      if ¬ (off < off' + size' ∧ off' < off + size) then
        (overwrittenBy addr off size is).map (· + 1)
      else if off' ≤ off ∧ off + size ≤ off' + size' then some 0
      else none
    else if mayAliasCombined aa prov addr addr' then none
    else (overwrittenBy addr off size is).map (· + 1)
  | .call .. :: _ | .syscall .. :: _ | .free _ :: _ => none
  | _ :: is => (overwrittenBy addr off size is).map (· + 1)

/-- The store that overwrites the bytes of a store, counted from the instruction after it. -/
def killerOf (i : IRInstr) (rest : List IRInstr) : Option Nat :=
  match i with
  | .store _ addr off ty => overwrittenBy aa prov addr off (sizeOfType 8 ty) rest
  | _ => none

/-- The address of the store is a register of the set, if there is one. -/
def isConsumed (consumed : Option (VReg → Bool)) : IRInstr → Bool
  | .store _ addr _ _ => consumed.any fun set => addr.asRegister.any set
  | _ => false

/-- The instructions of a block without the stores to be removed. -/
def dropDeadStores (consumed : Option (VReg → Bool)) : List IRInstr → List IRInstr
  | [] => []
  | i :: is =>
    if isConsumed consumed i || (killerOf aa prov i is).isSome then dropDeadStores consumed is
    else i :: dropDeadStores consumed is

def dseBlock (consumed : Option (VReg → Bool)) (b : IRBlock) : IRBlock :=
  { b with instructions := dropDeadStores aa prov consumed b.instructions }

end

def deadStoreEliminateWithLinearity (f : IRFunction) (prov : Provenance)
    (consumed : Option (VReg → Bool)) : IRFunction :=
  f.mapBlocks (dseBlock (analyzeAliases f) prov consumed)

def deadStoreEliminate (f : IRFunction) (prov : Provenance) : IRFunction :=
  deadStoreEliminateWithLinearity f prov none

end Vuma.Opt

/-!
# What dead store elimination preserves

The scan passes over instructions that read memory or leave the block, trusts the alias analysis,
and takes equal operands for equal addresses. Where none of this goes wrong in a run, the run
without the dropped stores reads the same bytes and leaves the same memory. While a dropped store
and the store that overwrites it are both ahead or both behind, the memories are equal; in between
they differ at most in bytes that will be overwritten before they are read.
-/

namespace Vuma.Opt

open IR

section

variable (M : Machine) (pred : Option String) (edge : Regs)

/-- Executing the instructions, the byte is overwritten by a store before it is read and before
control goes elsewhere. -/
def Dying (a : Word) : List IRInstr → Regs → World → Prop
  | [], _, _ => False
  | i :: is, σ, w =>
    a ∈ i.storeBytes M (·.eval M σ) ∨
      a ∉ i.readsBytes M (·.eval M σ) ∧
        ∃ ws w', i.effect M (·.eval M σ) (·.eval M edge) pred w = .next ws w' ∧
          Dying a is (σ.writes ws) w'

/-- The next `k` instructions go on and read none of the bytes, and the one after them is a store
that writes all of them. -/
def Overwrites (bytes : Set Word) : Nat → List IRInstr → Regs → World → Prop
  | _, [], _, _ => False
  | 0, i :: _, σ, _ => bytes ⊆ i.storeBytes M (·.eval M σ)
  | k + 1, i :: is, σ, w =>
    Disjoint (i.readsBytes M (·.eval M σ)) bytes ∧
      ∃ ws w', i.effect M (·.eval M σ) (·.eval M edge) pred w = .next ws w' ∧
        Overwrites bytes k is (σ.writes ws) w'

variable (aa : AliasClasses) (prov : Provenance)

/-- Executing the instructions, every store that the pass drops is overwritten, unread, by the store
it is dropped for. -/
def StoresDead : List IRInstr → Regs → World → Prop
  | [], _, _ => True
  | i :: is, σ, w =>
    ∀ ws w', i.effect M (·.eval M σ) (·.eval M edge) pred w = .next ws w' →
      (∀ k, killerOf aa prov i is = some k →
        Overwrites M pred edge (i.storeBytes M (·.eval M σ)) k is (σ.writes ws) w') ∧
      StoresDead is (σ.writes ws) w'

end

section

variable {M : Machine} {pred : Option String} {edge : Regs}

theorem dying_of_overwrites {bytes : Set Word} {k : Nat} {is : List IRInstr} {σ : Regs} {w : World}
    (h : Overwrites M pred edge bytes k is σ w) {a : Word} (ha : a ∈ bytes) :
    Dying M pred edge a is σ w := by
  induction k generalizing is σ w with
  | zero =>
    cases is with
    | nil => exact h
    | cons i is => exact .inl (h ha)
  | succ k ih =>
    cases is with
    | nil => exact h
    | cons i is =>
      obtain ⟨hread, ws, w', he, hrest⟩ := h
      exact .inr ⟨fun hmem => Set.disjoint_left.mp hread hmem ha, ws, w', he, ih hrest⟩

/-- A byte that is not written by the next instruction is still dying after it. -/
theorem Dying.tail {a : Word} {i : IRInstr} {is : List IRInstr} {σ : Regs} {w w' : World}
    {ws : List (IRValue × Word)} (h : Dying M pred edge a (i :: is) σ w)
    (hstore : a ∉ i.storeBytes M (·.eval M σ))
    (he : i.effect M (·.eval M σ) (·.eval M edge) pred w = .next ws w') :
    Dying M pred edge a is (σ.writes ws) w' := by
  rcases h with h | ⟨-, ws₁, w₁, he₁, h⟩
  · exact absurd h hstore
  · rw [he] at he₁
    cases he₁
    exact h

theorem store_of_mem_storeBytes {i : IRInstr} {ev : IRValue → Word} {a : Word}
    (h : a ∈ i.storeBytes M ev) : ∃ value addr off ty, i = .store value addr off ty := by
  cases i with
  | store value addr off ty => exact ⟨_, _, _, _, rfl⟩
  | _ => cases h

theorem disjoint_of_dying {D : Word → Prop} {i : IRInstr} {is : List IRInstr} {σ : Regs} {w : World}
    (h : ∀ a, D a → Dying M pred edge a (i :: is) σ w) :
    Disjoint (i.readsBytes M (·.eval M σ)) {a | D a} := by
  refine Set.disjoint_left.mpr fun a ha hD => ?_
  rcases h a hD with hstore | ⟨hread, -⟩
  · obtain ⟨value, addr, off, ty, rfl⟩ := store_of_mem_storeBytes hstore
    exact ha
  · exact hread ha

theorem exists_next_of_dying {a : Word} {i : IRInstr} {is : List IRInstr} {σ : Regs} {w : World}
    (h : Dying M pred edge a (i :: is) σ w) :
    ∃ ws w', i.effect M (·.eval M σ) (·.eval M edge) pred w = .next ws w' := by
  rcases h with hstore | ⟨-, ws, w', he, -⟩
  · obtain ⟨value, addr, off, ty, rfl⟩ := store_of_mem_storeBytes hstore
    exact ⟨_, _, rfl⟩
  · exact ⟨ws, w', he⟩

variable {aa : AliasClasses} {prov : Provenance}

theorem store_of_killerOf {i : IRInstr} {is : List IRInstr} {k : Nat}
    (h : killerOf aa prov i is = some k) : ∃ value addr off ty, i = .store value addr off ty := by
  cases i with
  | store value addr off ty => exact ⟨_, _, _, _, rfl⟩
  | _ => cases h

theorem isConsumed_none (i : IRInstr) : isConsumed none i = false := by
  cases i <;> rfl

-- By induction on the instructions. The bytes in which the memories differ are all dying, so the
-- next instruction reads none of them, and control leaves the block only when there are none.
theorem dropDeadStores_same (label : String) (hM : M.IgnoresWrites) {is : List IRInstr} {σ : Regs}
    {w w' : World}
    (hsafe : StoresDead M pred edge aa prov is σ w) (hevents : visible w.trace = visible w'.trace)
    (hmem : ∀ a, w.mem a = w'.mem a ∨ Dying M pred edge a is σ w) :
    (execInstrs M label pred edge is σ w).Same
        (execInstrs M label pred edge (dropDeadStores aa prov none is) σ w') ∧
      instrReads M pred edge is σ w =
        instrReads M pred edge (dropDeadStores aa prov none is) σ w' := by
  induction is generalizing σ w w' with
  | nil => exact ⟨.stay σ ⟨fun a _ => (hmem a).resolve_right id, hevents⟩, rfl⟩
  | cons i is ih =>
    rw [dropDeadStores]
    split
    · next hdrop =>
      obtain ⟨k, hk⟩ := Option.isSome_iff_exists.mp (by simpa [isConsumed_none] using hdrop)
      obtain ⟨value, addr, off, ty, rfl⟩ := store_of_killerOf hk
      obtain ⟨hover, hrest⟩ := hsafe [] _ rfl
      refine ih hrest hevents fun a => ?_
      by_cases ha : a ∈ (IRInstr.store value addr off ty).storeBytes M (·.eval M σ)
      · exact .inr (dying_of_overwrites (hover k hk) ha)
      · have hkeep : (w.store (addr.eval M σ + BitVec.ofInt 64 off)
            (M.encode ty (value.eval M σ))).mem a = w.mem a :=
          World.writeBytes_of_not_mem (by rwa [M.length_encode])
        exact (hmem a).imp hkeep.trans fun h => h.tail ha rfl
    · have hsame : w.SameExcept {a | w.mem a ≠ w'.mem a} w' :=
        ⟨fun a ha => not_not.mp ha, hevents⟩
      have hdying : ∀ a, w.mem a ≠ w'.mem a → Dying M pred edge a (i :: is) σ w := fun a ha =>
        (hmem a).resolve_left ha
      have heff := IRInstr.effect_sameExcept hM hsame (·.eval M σ) (·.eval M edge) pred
        (disjoint_of_dying hdying)
      rw [execInstrs_cons, execInstrs_cons, instrReads, instrReads,
        hsame.bytesRead_eq (disjoint_of_dying hdying)]
      generalize he : i.effect M (·.eval M σ) (·.eval M edge) pred w = e at heff
      generalize he' : i.effect M (·.eval M σ) (·.eval M edge) pred w' = e' at heff
      have hleave : ∀ w₁ w₁' : World, w₁.SameExcept {a | w.mem a ≠ w'.mem a} w₁' →
          (∀ ws w₂, e ≠ .next ws w₂) → w₁.Same w₁' := by
        intro w₁ w₁' h hne
        refine ⟨fun a _ => h.mem a fun ha => ?_, h.events⟩
        obtain ⟨ws, w₂, hnext⟩ := exists_next_of_dying (hdying a ha)
        exact hne ws w₂ (he.symm.trans hnext)
      cases heff with
      | jump target h => exact ⟨.leave (.enter _ _ _ (hleave _ _ h nofun)), rfl⟩
      | ret vs h | stop o h => exact ⟨.leave (.done _ (hleave _ _ h nofun)), rfl⟩
      | @next ws w₁ w₁' h =>
        refine (ih (hsafe ws w₁ he).2 h.events fun a => ?_).imp_right (congrArg _)
        by_cases ha : w.mem a = w'.mem a
        · exact .inl (h.mem a (not_not.mpr ha))
        · by_cases hstore : a ∈ i.storeBytes M (·.eval M σ)
          · obtain ⟨value, addr, off, ty, rfl⟩ := store_of_mem_storeBytes hstore
            cases he
            cases he'
            exact .inl (World.writeBytes_agree (.inl (by rwa [M.length_encode])))
          · exact .inr ((hdying a ha).tail hstore he)

end

/-! ## Whole runs -/

/-- At this point of a run, the stores that the pass drops from the block are overwritten, unread,
by the stores they are dropped for. -/
def DseSafe (M : Machine) (f : IRFunction) (prov : Provenance) : Config → Prop
  | .enter label pred σ w =>
    ∀ b, f.blockAt label = some b →
      StoresDead M pred σ (analyzeAliases f) prov b.instructions σ w
  | .done _ _ => True

theorem dseBlock_same {M : Machine} (hM : M.IgnoresWrites) {aa : AliasClasses} {prov : Provenance}
    {b : IRBlock} {pred : Option String} {σ : Regs} {w w' : World}
    (hsafe : StoresDead M pred σ aa prov b.instructions σ w) (h : w.Same w') :
    (b.exec M pred σ w).Same ((dseBlock aa prov none b).exec M pred σ w') ∧
      b.reads M pred σ w = (dseBlock aa prov none b).reads M pred σ w' := by
  obtain ⟨hflow, hreads⟩ := dropDeadStores_same b.label hM hsafe h.events fun a =>
    .inl (h.mem a (Set.notMem_empty a))
  unfold IRBlock.exec IRBlock.reads dseBlock
  dsimp only
  rw [hreads]
  generalize execInstrs M b.label pred σ b.instructions σ w = flow at hflow
  generalize execInstrs M b.label pred σ (dropDeadStores aa prov none b.instructions) σ w' = flow'
    at hflow
  cases hflow with
  | stay regs h =>
    refine ⟨b.terminator.exec_same hM b.label regs h, ?_⟩
    dsimp only
    rw [h.mem_eq]
  | leave h => exact ⟨h, rfl⟩

theorem step_deadStoreEliminate {M : Machine} (hM : M.IgnoresWrites) {f : IRFunction}
    {prov : Provenance} {c c' : Config} (hsafe : DseSafe M f prov c) (h : c.Same c') :
    (f.step M c).Same ((deadStoreEliminate f prov).step M c') ∧
      f.reads M c = (deadStoreEliminate f prov).reads M c' := by
  cases h with
  | done o h => exact ⟨.done o h, rfl⟩
  | enter label pred σ h =>
    have hblock : (deadStoreEliminate f prov).blockAt label =
        (f.blockAt label).map (dseBlock (analyzeAliases f) prov none) :=
      IRFunction.blockAt_of_map (g := dseBlock (analyzeAliases f) prov none) rfl (fun _ => rfl) label
    simp only [IRFunction.step, IRFunction.reads, hblock]
    cases hb : f.blockAt label with
    | none => exact ⟨.done _ h, rfl⟩
    | some b => exact dseBlock_same hM (hsafe b hb) h

theorem run_deadStoreEliminate {M : Machine} (hM : M.IgnoresWrites) {f : IRFunction}
    {prov : Provenance} {σ : Regs} {w : World} (h : ∀ n, DseSafe M f prov (f.run M σ w n)) (n : Nat) :
    (f.run M σ w n).Same ((deadStoreEliminate f prov).run M σ w n) := by
  induction n with
  | zero =>
    have hstart : (deadStoreEliminate f prov).start σ w = f.start σ w :=
      IRFunction.start_of_map (g := dseBlock (analyzeAliases f) prov none) rfl (fun _ => rfl) σ w
    change (f.start σ w).Same ((deadStoreEliminate f prov).start σ w)
    rw [hstart]
    exact .refl _
  | succ n ih =>
    rw [IRFunction.run, IRFunction.run, Function.iterate_succ_apply', Function.iterate_succ_apply']
    exact (step_deadStoreEliminate hM (h n) ih).1

/-- A run in which every dropped store is overwritten, unread, by the store it is dropped for goes
the same way without the dropped stores: block by block it has the same registers, the same memory
and the same calls, system calls, bulk and channel operations, and reads the same bytes. -/
theorem deadStoreEliminate_preserves {M : Machine} (hM : M.IgnoresWrites) {f : IRFunction}
    {σ : Regs} {w : World}
    (h : ∀ n, DseSafe M f (markIveProvenNonaliasing f) (f.run M σ w n)) (n : Nat) :
    let f' := deadStoreEliminate f (markIveProvenNonaliasing f)
    (f.run M σ w n).Same (f'.run M σ w n) ∧
      f.reads M (f.run M σ w n) = f'.reads M (f'.run M σ w n) := by
  have hsame := run_deadStoreEliminate hM h n
  exact ⟨hsame, (step_deadStoreEliminate hM (h n) hsame).2⟩

theorem ignoresWrites_default : (default : Machine).IgnoresWrites where
  call h func args := .returned [0] ⟨h.mem, congrArg (Event.call func args :: ·) h.events⟩
  respond h e := by
    change some (Reply.mk 0 0 _) = some (Reply.mk 0 0 _)
    rw [h.mem_eq]

/-- A cell is initialised and then set, with an address computed in between. -/
def setTwice : IRFunction where
  name := "set_twice"
  blocks :=
    [{ label := "entry"
       instructions :=
         [.store (.immediate 1) (.register 0) 0 .u64,
           .add (.register 1) (.register 0) (.immediate 8) none,
           .store (.immediate 2) (.register 0) 0 .u64]
       terminator := .ret [.register 1] }]

theorem dseSafe_setTwice (σ : Regs) (w : World) (n : Nat) :
    DseSafe default setTwice (markIveProvenNonaliasing setTwice) (setTwice.run default σ w n) := by
  cases n with
  | zero =>
    intro b hb
    cases hb
    intro ws w' he
    cases he
    refine ⟨fun k hk => ?_, fun ws w' he => ?_⟩
    · obtain rfl : k = 1 := Option.some.inj (hk.symm.trans (by decide))
      exact ⟨Set.disjoint_left.mpr fun _ h => absurd h id, _, _, rfl, fun a ha => ha⟩
    · cases he
      refine ⟨nofun, fun ws w' he => ?_⟩
      cases he
      exact ⟨nofun, trivial⟩
  | succ n =>
    have hdone : ∃ o w', setTwice.run default σ w 1 = .done o w' := ⟨_, _, rfl⟩
    obtain ⟨o, w', h⟩ := hdone
    rw [IRFunction.run_of_done h (Nat.le_add_left 1 n)]
    trivial

theorem deadStoreEliminate_setTwice :
    let f' := deadStoreEliminate setTwice (markIveProvenNonaliasing setTwice)
    (setTwice.run default (fun _ => 0) ⟨fun _ => 0, []⟩ 1).Same
        (f'.run default (fun _ => 0) ⟨fun _ => 0, []⟩ 1) ∧
      setTwice.reads default (setTwice.run default (fun _ => 0) ⟨fun _ => 0, []⟩ 1) =
        f'.reads default (f'.run default (fun _ => 0) ⟨fun _ => 0, []⟩ 1) :=
  deadStoreEliminate_preserves ignoresWrites_default (dseSafe_setTwice _ _) 1

/-- A cell is set, read and set again, the first time read by an `AtomicLoad`. -/
def setReadSet : IRFunction where
  name := "set_read_set"
  blocks :=
    [{ label := "entry"
       instructions :=
         [.store (.immediate 1) (.register 0) 0 .u64,
           .atomicLoad (.register 1) (.register 0) .u64,
           .store (.immediate 2) (.register 0) 0 .u64]
       terminator := .ret [.register 1] }]

/-- Two neighbouring cells are set through one register. -/
def setNext : IRFunction where
  name := "set_next"
  blocks :=
    [{ label := "entry"
       instructions :=
         [.store (.immediate 1) (.register 0) 0 .u64,
           .add (.register 0) (.register 0) (.immediate 8) none,
           .store (.immediate 2) (.register 0) 0 .u64]
       terminator := .ret [] }]

/-- Both times the first store is dropped: the `AtomicLoad` reads zero in place of one, and the first
of the two cells is not set. -/
theorem deadStoreEliminate_unsound :
    ¬ (setReadSet.run default (fun _ => 0) ⟨fun _ => 0, []⟩ 1).Same
        ((deadStoreEliminate setReadSet (markIveProvenNonaliasing setReadSet)).run default
          (fun _ => 0) ⟨fun _ => 0, []⟩ 1) ∧
      ¬ (setNext.run default (fun _ => 0) ⟨fun _ => 0, []⟩ 1).Same
        ((deadStoreEliminate setNext (markIveProvenNonaliasing setNext)).run default
          (fun _ => 0) ⟨fun _ => 0, []⟩ 1) := by
  constructor
  · intro h
    have houtcome := h.outcome_eq
    revert houtcome
    decide
  · intro h
    have hbyte := congrFun h.mem_eq 0
    revert hbyte
    decide

end Vuma.Opt
