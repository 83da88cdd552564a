import Vuma.Ive.LinearChannel

/-!
# Paths of a function

The gate does to the handles of a block what `Block.scan` does, and reports nothing in it exactly if
`Block.Passes`. The scan is right about a function in which the branches agree wherever they are
joined, so that the state at a join is that of every path which falls through.
-/

namespace Vuma.Ive

open Lib

/-! ## Paths -/

/-- The state of every handle on a path. -/
abbrev Handles := String → Option ChannelLifecycle

namespace Handles

/-- What an operation does with the state of its handle, if it is allowed. -/
def step (σ : Handles) (o : ChannelOp) (vreg : String) : Option Handles :=
  match o, σ vreg with
  | .openChannel, some .opened => none
  | .openChannel, _ => some (Function.update σ vreg (some .opened))
  | .use, some .opened => some σ
  | .close, some .opened => some (Function.update σ vreg (some .closed))
  | _, _ => none

/-- Every handle is closed. -/
def NoneOpen (σ : Handles) : Prop := ∀ v, σ v ≠ some .opened

/-- The operations of a path, none of which is a violation. -/
def run (σ : Handles) : List (ChannelOp × String) → Option Handles
  | [] => some σ
  | (o, vreg) :: l => (σ.step o vreg).bind fun σ' => σ'.run l

/-- No handle has been seen. -/
def empty : Handles := fun _ => none

end Handles

/-- A path through a block. -/
structure BlockPath where
  ops : List (ChannelOp × String)
  returned : Bool

namespace BlockPath

/-- A path that goes on with those of the statements after it, unless it has returned. -/
def andThen (p : BlockPath) (rest : List BlockPath) : List BlockPath :=
  if p.returned then [p] else rest.map fun q => ⟨p.ops ++ q.ops, q.returned⟩

end BlockPath

/-- The paths of a block. -/
def Block.paths : Block → List BlockPath
  | nil => [⟨[], false⟩]
  | op o vreg rest => rest.paths.map fun p => ⟨(o, vreg) :: p.ops, p.returned⟩
  | ifThen thenBlock rest =>
    thenBlock.paths.flatMap (fun p => p.andThen rest.paths) ++ rest.paths
  | ifElse thenBlock elseBlock rest =>
    (thenBlock.paths ++ elseBlock.paths).flatMap (fun p => p.andThen rest.paths)
  | ret _ => [⟨[], true⟩]

/-- On every path of the function, each handle is opened before it is used, not used or closed
after it is closed, not opened again while it is open, and closed at the exit. -/
def Block.Linear (b : Block) : Prop :=
  ∀ p ∈ b.paths, ∃ σ, Handles.empty.run p.ops = some σ ∧ σ.NoneOpen

/-- Every path of a block from a state is allowed, has nothing open when it returns, and otherwise
ends in a state that satisfies the condition. -/
def Block.Ok (post : Handles → Prop) : Block → Handles → Prop
  | nil, σ => post σ
  | op o vreg rest, σ => ∃ σ', σ.step o vreg = some σ' ∧ rest.Ok post σ'
  | ifThen thenBlock rest, σ => thenBlock.Ok (rest.Ok post) σ ∧ rest.Ok post σ
  | ifElse thenBlock elseBlock rest, σ =>
    thenBlock.Ok (rest.Ok post) σ ∧ elseBlock.Ok (rest.Ok post) σ
  | ret _, σ => σ.NoneOpen

theorem Handles.run_append (σ : Handles) (l l' : List (ChannelOp × String)) :
    σ.run (l ++ l') = (σ.run l).bind fun σ' => σ'.run l' := by
  induction l generalizing σ with
  | nil => rfl
  | cons p l ih =>
    obtain ⟨o, vreg⟩ := p
    rw [List.cons_append, run, run, Option.bind_assoc]
    exact congrArg _ (funext ih)

namespace Block

variable {post : Handles → Prop}

/-- The end of a path satisfies the condition. -/
def PathOk (post : Handles → Prop) (σ : Handles) (p : BlockPath) : Prop :=
  ∃ σ', σ.run p.ops = some σ' ∧ if p.returned then σ'.NoneOpen else post σ'

theorem pathOk_andThen {σ : Handles} {p : BlockPath} {rest : Block}
    (hrest : ∀ σ, rest.Ok post σ ↔ ∀ q ∈ rest.paths, PathOk post σ q)
    (hne : rest.paths ≠ []) :
    (∀ q ∈ p.andThen rest.paths, PathOk post σ q) ↔ PathOk (rest.Ok post) σ p := by
  rw [BlockPath.andThen]
  split_ifs with hr
  · simp [PathOk, hr]
  · simp only [List.mem_map, forall_exists_index, and_imp, forall_apply_eq_imp_iff₂]
    simp only [PathOk, hr, hrest, Handles.run_append, Option.bind_eq_some_iff]
    cases hrun : σ.run p.ops with
    | none =>
      obtain ⟨q, hq⟩ := List.exists_mem_of_ne_nil _ hne
      simp only [reduceCtorEq, false_and, exists_false, iff_false, not_forall]
      exact ⟨q, hq, nofun⟩
    | some σ' => simp

theorem paths_ne_nil (b : Block) : b.paths ≠ [] := by
  induction b with
  | nil => simp [paths]
  | op o vreg rest ih => simpa [paths] using ih
  | ifThen t rest _ ih => simp [paths, ih]
  | ifElse t e rest iht ihe ih =>
    obtain ⟨p, hp⟩ := List.exists_mem_of_ne_nil _ iht
    obtain ⟨q, hq⟩ := List.exists_mem_of_ne_nil _ ih
    intro hnil
    rw [paths, List.flatMap_eq_nil_iff] at hnil
    have hp := hnil p (List.mem_append_left _ hp)
    rw [BlockPath.andThen] at hp
    split_ifs at hp
    exact ih (List.map_eq_nil_iff.1 hp)
  | ret rest => simp [paths]

theorem ok_iff (b : Block) (σ : Handles) :
    b.Ok post σ ↔ ∀ p ∈ b.paths, PathOk post σ p := by
  induction b generalizing post σ with
  | nil => simp [Ok, paths, PathOk, Handles.run]
  | op o vreg rest ih =>
    rw [Ok]
    simp only [paths, List.mem_map, forall_exists_index, and_imp, forall_apply_eq_imp_iff₂]
    simp only [PathOk, Handles.run]
    cases hstep : σ.step o vreg with
    | none =>
      obtain ⟨q, hq⟩ := List.exists_mem_of_ne_nil _ rest.paths_ne_nil
      simp only [reduceCtorEq, false_and, exists_false, false_iff, not_forall]
      exact ⟨q, hq, by simp⟩
    | some σ' => simpa [PathOk] using ih σ'
  | ifThen t rest iht ih =>
    rw [Ok, iht, ih]
    simp only [paths, List.mem_append, List.mem_flatMap, or_imp, forall_and]
    refine and_congr ?_ Iff.rfl
    simp only [← pathOk_andThen (ih · ) rest.paths_ne_nil]
    exact ⟨fun h q ⟨p, hp, hq⟩ => h p hp q hq, fun h p hp q hq => h q ⟨p, hp, hq⟩⟩
  | ifElse t e rest iht ihe ih =>
    rw [Ok, iht, ihe]
    simp only [paths, List.mem_append, List.mem_flatMap]
    simp only [← pathOk_andThen (ih · ) rest.paths_ne_nil]
    constructor
    · rintro ⟨ht, he⟩ q ⟨p, hp | hp, hq⟩
      · exact ht p hp q hq
      · exact he p hp q hq
    · intro h
      exact ⟨fun p hp q hq => h q ⟨p, .inl hp, hq⟩, fun p hp q hq => h q ⟨p, .inr hp, hq⟩⟩
  | ret rest => simp [Ok, paths, PathOk, Handles.run]

theorem linear_iff (b : Block) : b.Linear ↔ b.Ok Handles.NoneOpen .empty := by
  rw [ok_iff]
  refine forall₂_congr fun p _ => exists_congr fun σ => ?_
  simp

/-! ## Agreement -/

/-- The states have the same open handles. -/
def SameOpen (σ σ' : Handles) : Prop := ∀ v, σ v = some .opened ↔ σ' v = some .opened

/-- The condition holds only of states with the same open handles. -/
def Discriminates (post : Handles → Prop) : Prop := ∀ σ σ', post σ → post σ' → SameOpen σ σ'

theorem discriminates_noneOpen : Discriminates Handles.NoneOpen :=
  fun _ _ h h' v => iff_of_false (h v) (h' v)

theorem sameOpen_of_step {σ σ' τ τ' : Handles} {o : ChannelOp} {vreg : String}
    (h : σ.step o vreg = some τ) (h' : σ'.step o vreg = some τ') (hs : SameOpen τ τ') :
    SameOpen σ σ' := by
  intro v
  have hv := hs v
  by_cases hne : v = vreg
  · subst hne
    cases o <;> simp only [Handles.step] at h h'
    · split at h <;> split at h' <;> simp_all
    · split at h <;> split at h' <;> simp_all
    · split at h <;> split at h' <;> simp_all
  · have hother : ∀ {ρ ρ' : Handles}, ρ.step o vreg = some ρ' → ρ' v = ρ v := by
      intro ρ ρ' hρ
      simp only [Handles.step] at hρ
      split at hρ <;> cases hρ <;> simp [hne]
    rwa [hother h, hother h'] at hv

/-- States from which a block can be left well have the same open handles. -/
theorem discriminates_ok (b : Block) (hpost : Discriminates post) : Discriminates (b.Ok post) := by
  induction b generalizing post with
  | nil => exact hpost
  | op o vreg rest ih =>
    rintro σ σ' ⟨τ, hτ, h⟩ ⟨τ', hτ', h'⟩
    exact sameOpen_of_step hτ hτ' (ih hpost τ τ' h h')
  | ifThen t rest _ ih => exact fun σ σ' h h' => ih hpost σ σ' h.2 h'.2
  | ifElse t e rest iht _ ih => exact fun σ σ' h h' => iht (ih hpost) σ σ' h.1 h'.1
  | ret rest => exact discriminates_noneOpen

/-- Some path of the block falls through. -/
def Falls : Block → Bool
  | nil => true
  | op _ _ rest => rest.Falls
  | ifThen _ rest => rest.Falls
  | ifElse thenBlock elseBlock rest => (thenBlock.Falls || elseBlock.Falls) && rest.Falls
  | ret _ => false

end Block

/-! ## The states of the scan -/

/-- What the scan knows before a statement: the state of the handles, and, in a `then` branch that
no `return` has ended yet, the state before the branch, to which a `return` goes back. -/
structure ScanState where
  handles : Handles
  back : Option Handles

namespace Handles

/-- The state after a branch without `else`, for the states before and after it. -/
def reset (σ τ : Handles) : Handles := fun v =>
  if τ v = some .closed ∧ σ v ≠ some .closed then some .opened else τ v

/-- The state after two branches that are taken to fall through. -/
def merge (τ τ' : Handles) : Handles := fun v =>
  if τ v = none ∧ τ' v = none then none
  else if τ v = some .closed ∧ τ' v = some .closed then some .closed
  else some .opened

/-- The states have the same closed handles. -/
def SameClosed (τ τ' : Handles) : Prop := ∀ v, τ v = some .closed ↔ τ' v = some .closed

/-- The states have seen the same handles. -/
def SameSeen (τ τ' : Handles) : Prop := ∀ v, (τ v).isSome = (τ' v).isSome

theorem reset_self (σ : Handles) : σ.reset σ = σ :=
  funext fun _ => if_neg fun h => h.2 h.1

theorem merge_self (σ : Handles) : σ.merge σ = σ := by
  funext v
  rcases h : σ v with _ | _ | _ <;> simp [merge, h]

/-- Of two states that have seen the same handles, one has closed a handle that is open in the
other, unless they are the same. -/
theorem eq_of_sameSeen {τ τ' : Handles} (h : SameSeen τ τ')
    (hv : SameClosed τ τ' ∨ Block.SameOpen τ τ') : τ = τ' := by
  funext v
  have hd := h v
  have hv := hv.imp (· v) (· v)
  rcases hτ : τ v with _ | _ | _ <;> rcases hτ' : τ' v with _ | _ | _ <;> simp_all

end Handles

namespace ScanState

/-- The state at the start of a `then` branch. -/
def enterThen (c : ScanState) : ScanState := ⟨c.handles, some c.handles⟩

/-- The state at the start of an `else` branch. -/
def enterElse (c : ScanState) : ScanState := ⟨c.handles, none⟩

/-- The handles after a branch without `else`. -/
def joinThen (c t : ScanState) : Handles :=
  if t.back.isNone then t.handles else c.handles.reset t.handles

/-- The handles after two branches. -/
def joinElse (t e : ScanState) : Handles :=
  if t.back.isNone then e.handles else t.handles.merge e.handles

/-- Nothing is reported where the two branches are joined. -/
def Joins (t e : ScanState) : Prop := t.back = none ∨ t.handles.SameClosed e.handles

/-- The state after a `return`. -/
def exit (c : ScanState) : ScanState := ⟨c.back.getD c.handles, none⟩

end ScanState

namespace Block

/-- The state of the scan after a block. -/
def scan : Block → ScanState → ScanState
  | nil, c => c
  | op o vreg rest, c => rest.scan { c with handles := (c.handles.step o vreg).getD c.handles }
  | ifThen thenBlock rest, c =>
    rest.scan { c with handles := c.joinThen (thenBlock.scan c.enterThen) }
  | ifElse thenBlock elseBlock rest, c =>
    rest.scan { c with
      handles := (thenBlock.scan c.enterThen).joinElse (elseBlock.scan c.enterElse) }
  | ret rest, c => rest.scan c.exit

/-- The scan reports nothing in the block. -/
def Passes : Block → ScanState → Prop
  | nil, _ => True
  | op o vreg rest, c => ∃ σ, c.handles.step o vreg = some σ ∧ rest.Passes { c with handles := σ }
  | ifThen thenBlock rest, c => thenBlock.Passes c.enterThen ∧
    rest.Passes { c with handles := c.joinThen (thenBlock.scan c.enterThen) }
  | ifElse thenBlock elseBlock rest, c =>
    thenBlock.Passes c.enterThen ∧ elseBlock.Passes c.enterElse ∧
      (thenBlock.scan c.enterThen).Joins (elseBlock.scan c.enterElse) ∧
      rest.Passes { c with
        handles := (thenBlock.scan c.enterThen).joinElse (elseBlock.scan c.enterElse) }
  | ret rest, c => c.handles.NoneOpen ∧ rest.Passes c.exit

/-- The branches agree wherever they are joined. The state after a branch without `else` is that
before it, and so is the state at its end if it falls through. Two branches that fall through have
seen the same handles; if only one does, the state after them is the state at its end. Where no path
gets to, nothing is reported. -/
def Agrees : Block → ScanState → Prop
  | nil, _ => True
  | op o vreg rest, c => ∀ σ, c.handles.step o vreg = some σ → rest.Agrees { c with handles := σ }
  | ifThen thenBlock rest, c => thenBlock.Agrees c.enterThen ∧
    (thenBlock.Falls → (thenBlock.scan c.enterThen).handles = c.handles) ∧
    c.joinThen (thenBlock.scan c.enterThen) = c.handles ∧ rest.Agrees c
  | ifElse thenBlock elseBlock rest, c =>
    let t := thenBlock.scan c.enterThen
    let e := elseBlock.scan c.enterElse
    let next : ScanState := { c with handles := t.joinElse e }
    thenBlock.Agrees c.enterThen ∧ elseBlock.Agrees c.enterElse ∧
      match thenBlock.Falls, elseBlock.Falls with
      | true, true => t.handles.SameSeen e.handles ∧ (t.handles = e.handles → rest.Agrees next)
      | true, false => t.Joins e ∧ next.handles = t.handles ∧ rest.Agrees next
      | false, true => t.Joins e ∧ next.handles = e.handles ∧ rest.Agrees next
      | false, false => t.Joins e ∧ rest.Passes next
  | ret rest, c => c.handles.NoneOpen → rest.Passes c.exit

/-- The branches of the function agree, and the epilogue reports nothing if no path gets there. -/
def AgreesThroughout (b : Block) : Prop :=
  b.Agrees ⟨.empty, none⟩ ∧ (b.Falls = false → (b.scan ⟨.empty, none⟩).handles.NoneOpen)

/-- Until a block is left by a `return`, a `return` in it goes back to the same state. -/
theorem back_scan (b : Block) {c : ScanState} (h : b.Falls) : (b.scan c).back = c.back := by
  induction b generalizing c with
  | nil => rfl
  | op o vreg rest ih => exact ih h
  | ifThen t rest _ ih => exact ih h
  | ifElse t e rest _ _ ih =>
    rw [Falls, Bool.and_eq_true] at h
    exact ih h.2
  | ret rest => cases h

theorem joins_iff (t : Block) {c e : ScanState} (h : t.Falls) :
    (t.scan c.enterThen).Joins e ↔ (t.scan c.enterThen).handles.SameClosed e.handles :=
  or_iff_right (by rw [back_scan t h]; exact Option.some_ne_none _)

/-- In a block whose branches agree, nothing is reported exactly if every path is right, and the
state at the end is that of every path. -/
theorem ok_iff_passes (b : Block) {c : ScanState} (h : b.Agrees c) (hpost : Discriminates post) :
    b.Ok post c.handles ↔ b.Passes c ∧ (b.Falls → post (b.scan c).handles) := by
  induction b generalizing post c with
  | nil => simp [Ok, Passes, Falls, scan]
  | op o vreg rest ih =>
    cases hstep : c.handles.step o vreg with
    | none => simp [Ok, Passes, hstep]
    | some σ =>
      simp only [Ok, Passes, Falls, scan, hstep, Option.some.injEq, exists_eq_left',
        Option.getD_some]
      exact ih (h σ hstep) hpost
  | ifThen t rest iht ih =>
    obtain ⟨ht, hfalls, hjoin, hrest⟩ := h
    have hnext : ({ c with handles := c.joinThen (t.scan c.enterThen) } : ScanState) = c := by
      rw [hjoin]
    have hpostt := discriminates_ok rest hpost
    rw [Ok, Passes, scan, Falls, hnext, and_assoc, ← ih hrest hpost]
    refine (and_congr_left' (iht (c := c.enterThen) ht hpostt)).trans ?_
    rw [and_assoc]
    refine and_congr_right fun _ => and_iff_right_of_imp fun hok hf => ?_
    rw [hfalls hf]
    exact hok
  | ifElse t e rest iht ihe ih =>
    obtain ⟨ht, he, hjoin⟩ := h
    have hpostt := discriminates_ok rest hpost
    have hsplit : (Block.ifElse t e rest).Ok post c.handles ↔
        t.Passes c.enterThen ∧ e.Passes c.enterElse ∧
          (t.Falls → rest.Ok post (t.scan c.enterThen).handles) ∧
          (e.Falls → rest.Ok post (e.scan c.enterElse).handles) := by
      refine (and_congr (iht (c := c.enterThen) ht hpostt)
        (ihe (c := c.enterElse) he hpostt)).trans ?_
      tauto
    rw [hsplit, Passes, scan, Falls, and_assoc, and_assoc, and_assoc]
    refine and_congr_right fun _ => and_congr_right fun _ => ?_
    cases htf : t.Falls <;> cases hef : e.Falls <;> simp only [htf, hef] at hjoin ⊢
    case false.false => simpa [hjoin.1] using hjoin.2
    case false.true =>
      obtain ⟨hj, heq, hrest⟩ := hjoin
      simpa [hj, ← heq] using ih hrest hpost
    case true.false =>
      obtain ⟨hj, heq, hrest⟩ := hjoin
      simpa [hj, ← heq] using ih hrest hpost
    case true.true =>
      obtain ⟨hseen, hrest⟩ := hjoin
      rw [joins_iff t htf]
      by_cases heq : (t.scan c.enterThen).handles = (e.scan c.enterElse).handles
      · have hnext : (t.scan c.enterThen).joinElse (e.scan c.enterElse) =
            (e.scan c.enterElse).handles := by
          rw [ScanState.joinElse, back_scan t htf, heq, Handles.merge_self, ite_self]
        rw [heq]
        have hsame : (e.scan c.enterElse).handles.SameClosed (e.scan c.enterElse).handles :=
          fun _ => Iff.rfl
        simpa [hsame, hnext] using ih (hrest heq) hpost
      · -- one branch has closed a handle that is open in the other
        refine iff_of_false (fun hok => heq ?_) fun hsame => heq ?_
        · have hopen := discriminates_ok rest hpost _ _ (hok.1 trivial) (hok.2 trivial)
          exact Handles.eq_of_sameSeen hseen (.inr hopen)
        · exact Handles.eq_of_sameSeen hseen (.inl hsame.1)
  | ret rest =>
    rw [Ok, Passes, Falls]
    simp only [Bool.false_eq_true, false_imp_iff, and_true]
    exact (and_iff_left_of_imp h).symm

/-- The block has no channel operation. -/
def NoOps : Block → Prop
  | nil => True
  | op _ _ _ => False
  | ifThen thenBlock rest => thenBlock.NoOps ∧ rest.NoOps
  | ifElse thenBlock elseBlock rest => thenBlock.NoOps ∧ elseBlock.NoOps ∧ rest.NoOps
  | ret rest => rest.NoOps

/-- Branches and returns alone agree, as long as nothing is open. -/
theorem agrees_of_noOps (b : Block) (hb : b.NoOps) {σ : Handles} (hσ : σ.NoneOpen)
    {s : Option Handles} (hs : ∀ τ ∈ s, τ = σ) :
    b.Agrees ⟨σ, s⟩ ∧ b.Passes ⟨σ, s⟩ ∧ (b.scan ⟨σ, s⟩).handles = σ := by
  induction b generalizing s with
  | nil => exact ⟨trivial, trivial, rfl⟩
  | op o vreg rest => exact hb.elim
  | ret rest ih =>
    have hexit : (⟨σ, s⟩ : ScanState).exit = ⟨σ, none⟩ := by
      cases s with
      | none => rfl
      | some τ => rw [hs τ rfl]; rfl
    obtain ⟨-, hpasses, hscan⟩ := ih hb (s := none) nofun
    refine ⟨fun _ => ?_, ⟨hσ, ?_⟩, ?_⟩
    · rwa [hexit]
    · rwa [hexit]
    · rwa [scan, hexit]
  | ifThen t rest iht ih =>
    obtain ⟨ht, htp, hts⟩ := iht hb.1 (s := some σ) (fun _ h => (Option.some.inj h).symm)
    have hjoin : (⟨σ, s⟩ : ScanState).joinThen (t.scan ⟨σ, some σ⟩) = σ := by
      rw [ScanState.joinThen, hts, Handles.reset_self, ite_self]
    obtain ⟨hr, hrp, hrs⟩ := ih hb.2 hs
    refine ⟨⟨ht, fun _ => hts, hjoin, hr⟩, ⟨htp, ?_⟩, ?_⟩
    · rw [ScanState.enterThen, hjoin]
      exact hrp
    · rw [scan, ScanState.enterThen, hjoin]
      exact hrs
  | ifElse t e rest iht ihe ih =>
    obtain ⟨ht, htp, hts⟩ := iht hb.1 (s := some σ) (fun _ h => (Option.some.inj h).symm)
    obtain ⟨he, hep, hes⟩ := ihe hb.2.1 (s := none) nofun
    have hjoin : (t.scan ⟨σ, some σ⟩).joinElse (e.scan ⟨σ, none⟩) = σ := by
      rw [ScanState.joinElse, hts, hes, Handles.merge_self, ite_self]
    have hjoins : (t.scan ⟨σ, some σ⟩).Joins (e.scan ⟨σ, none⟩) :=
      Or.inr fun v => by rw [hts, hes]
    obtain ⟨hr, hrp, hrs⟩ := ih hb.2.2 hs
    refine ⟨?_, ⟨htp, hep, hjoins, ?_⟩, ?_⟩
    · simp only [Agrees, ScanState.enterThen, ScanState.enterElse, hjoin]
      refine ⟨ht, he, ?_⟩
      cases t.Falls <;> cases e.Falls
      · exact ⟨hjoins, hrp⟩
      · exact ⟨hjoins, hes.symm, hr⟩
      · exact ⟨hjoins, hts.symm, hr⟩
      · exact ⟨fun v => by rw [hts, hes], fun _ => hr⟩
    · rw [ScanState.enterThen, ScanState.enterElse, hjoin]
      exact hrp
    · rw [scan, ScanState.enterThen, ScanState.enterElse, hjoin]
      exact hrs

end Block

/-! ## The scan -/

namespace Gate

variable {it : KeyOrder String} {g : Gate}

/-- The state of every handle in the scan. -/
def handles (g : Gate) : Handles := fun v => g.state.lookup v

theorem handles_insert (s : HandleState) (vreg : String) (l : ChannelLifecycle) :
    (fun v => (s.insert vreg l).lookup v) = Function.update (fun v => s.lookup v) vreg (some l) :=
  HashMap.lookup_insert_eq_update s vreg l

variable (it) in
/-- An operation is reported if it is not allowed, and has its effect if it is. -/
theorem event_op {e : ChannelEvent} {o : ChannelOp} (ho : e.kind = o.kind) :
    ((g.event it e).results = [] ↔ g.results = [] ∧ (g.handles.step o e.vreg).isSome) ∧
      (g.event it e).handles = (g.handles.step o e.vreg).getD g.handles ∧
      (g.event it e).branchStack = g.branchStack := by
  have hv : g.handles e.vreg = g.state.lookup e.vreg := rfl
  have hreopen : g.state.lookup e.vreg = some .opened →
      (fun v => (g.state.insert e.vreg .opened).lookup v) = g.handles := by
    intro hs
    rw [handles_insert]
    exact Function.update_eq_self_iff.2 hs.symm
  rcases hs : g.state.lookup e.vreg with _ | _ | _ <;> cases o <;>
    simp only [event, ho, ChannelOp.kind, Handles.step, hv, hs, push]
  all_goals simp
  case none.openChannel => exact handles_insert _ _ _
  case some.opened.openChannel => exact hreopen hs
  case some.opened.close => exact handles_insert _ _ _
  case some.closed.openChannel => exact handles_insert _ _ _
  all_goals rfl

section

variable {e : ChannelEvent} {vreg : String}

theorem event_branch (he : (e.vreg, e.kind) = (vreg, .branch)) : g.event it e = g.branch := by
  rw [event, (Prod.mk.inj he).2]

theorem event_elseStart (he : (e.vreg, e.kind) = (vreg, .elseStart)) :
    g.event it e = g.elseStart := by
  rw [event, (Prod.mk.inj he).2]

theorem event_join (he : (e.vreg, e.kind) = (vreg, .join)) : g.event it e = g.join it := by
  rw [event, (Prod.mk.inj he).2]

theorem event_functionExit (he : (e.vreg, e.kind) = (vreg, .functionExit)) :
    g.event it e = g.functionExit it := by
  rw [event, (Prod.mk.inj he).2]

end

/-! ### Joins -/

theorem mergeHandle_results (s : HandleState) (vreg : String) :
    (g.mergeHandle s vreg).results = [] ↔
      g.results = [] ∧ (s.lookup vreg = some .closed ↔ g.handles vreg = some .closed) := by
  have hv : g.handles vreg = g.state.lookup vreg := rfl
  rw [hv, mergeHandle]
  by_cases h : s.lookup vreg = some .closed <;> by_cases h' : g.state.lookup vreg = some .closed <;>
    simp [h, h', push]

theorem mergeHandle_handles (s : HandleState) (vreg : String) :
    (g.mergeHandle s vreg).handles = Function.update g.handles vreg (some
      (if s.lookup vreg = some .closed ∧ g.handles vreg = some .closed then .closed
        else .opened)) := by
  have hv : g.handles vreg = g.state.lookup vreg := rfl
  rw [hv, mergeHandle]
  by_cases h : s.lookup vreg = some .closed <;> by_cases h' : g.state.lookup vreg = some .closed <;>
    simp only [h, h', decide_true, decide_false, and_true, and_false, if_true, if_false] <;>
    exact handles_insert _ _ _

theorem mergeHandle_branchStack (s : HandleState) (vreg : String) :
    (g.mergeHandle s vreg).branchStack = g.branchStack := by
  rw [mergeHandle]
  cases decide (s.lookup vreg = some .closed) <;> cases decide (g.state.lookup vreg = some .closed)
    <;> rfl

theorem foldl_mergeHandle (s : HandleState) {l : List String} (hl : l.Nodup) :
    ((l.foldl (mergeHandle s) g).results = [] ↔ g.results = [] ∧
      ∀ v ∈ l, (s.lookup v = some .closed ↔ g.handles v = some .closed)) ∧
    (∀ v, (l.foldl (mergeHandle s) g).handles v = if v ∈ l then some
      (if s.lookup v = some .closed ∧ g.handles v = some .closed then .closed else .opened)
      else g.handles v) ∧
    (l.foldl (mergeHandle s) g).branchStack = g.branchStack := by
  induction l generalizing g with
  | nil => simp
  | cons v l ih =>
    obtain ⟨hv, hl⟩ := List.nodup_cons.1 hl
    obtain ⟨hres, hhandles, hstack⟩ := ih (g := g.mergeHandle s v) hl
    have hother : ∀ w, w ≠ v → (g.mergeHandle s v).handles w = g.handles w := by
      intro w hw
      rw [mergeHandle_handles, Function.update_of_ne hw]
    rw [List.foldl_cons]
    refine ⟨?_, fun w => ?_, hstack.trans (mergeHandle_branchStack s v)⟩
    · rw [hres, mergeHandle_results, and_assoc, List.forall_mem_cons]
      refine and_congr_right fun _ => and_congr_right fun _ => forall₂_congr fun w hw => ?_
      rw [hother w fun h => hv (h ▸ hw)]
    · rw [hhandles]
      by_cases hw : w = v
      · subst hw
        rw [if_neg hv, if_pos List.mem_cons_self, mergeHandle_handles, Function.update_self]
      · rw [hother w hw]
        simp [hw]

variable (it) in
theorem join_of_isSome {frame : BranchFrame} {stack : List BranchFrame} {s : HandleState}
    (hg : g.branchStack = frame :: stack) (h : frame.thenReturned = false)
    (hs : frame.thenState = some s) :
    ((g.join it).results = [] ↔
        g.results = [] ∧ Handles.SameClosed (fun v => s.lookup v) g.handles) ∧
      (g.join it).handles = Handles.merge (fun v => s.lookup v) g.handles ∧
      (g.join it).branchStack = stack := by
  have hjoin : g.join it = (it.order (g.state.keys ++ s.keys).dedup).foldl (mergeHandle s)
      { g with branchStack := stack } := by
    simp only [join, hg, h, hs]
    rfl
  have hmem : ∀ v, v ∈ it.order (g.state.keys ++ s.keys).dedup ↔
      ¬ (s.lookup v = none ∧ g.handles v = none) := by
    intro v
    rw [(it.perm _).mem_iff, List.mem_dedup, List.mem_append, HashMap.mem_keys_iff,
      HashMap.mem_keys_iff, not_and_or, Option.isSome_iff_ne_none, Option.isSome_iff_ne_none,
      or_comm]
    rfl
  obtain ⟨hresults, hhandles, hstack⟩ := foldl_mergeHandle (g := { g with branchStack := stack }) s
    ((it.perm _).nodup_iff.2 (List.nodup_dedup (g.state.keys ++ s.keys)))
  rw [← hjoin] at hresults hhandles hstack
  have hg' : ({ g with branchStack := stack } : Gate).handles = g.handles := rfl
  rw [hg'] at hresults hhandles
  refine ⟨hresults.trans (and_congr_right fun _ => forall_congr' fun v => ?_), funext fun v => ?_,
    hstack⟩
  · rw [hmem]
    refine ⟨fun h => ?_, fun h _ => h⟩
    by_cases hnone : s.lookup v = none ∧ g.handles v = none
    · show s.lookup v = some .closed ↔ _
      rw [hnone.1, hnone.2]
    · exact h hnone
  · rw [hhandles, Handles.merge]
    by_cases hnone : s.lookup v = none ∧ g.handles v = none
    · rw [if_neg ((hmem v).not.2 (not_not.2 hnone)), if_pos hnone, hnone.2]
    · rw [if_pos ((hmem v).2 hnone), if_neg hnone]
      split_ifs <;> rfl

theorem lookup_foldl_resetHandle (snapshot s : HandleState) (l : List String) (v : String) :
    (l.foldl (resetHandle snapshot) s).lookup v =
      if v ∈ l then Handles.reset (fun v => snapshot.lookup v) (fun v => s.lookup v) v
      else s.lookup v := by
  induction l generalizing s with
  | nil => rfl
  | cons w l ih =>
    have hw : ∀ v, (resetHandle snapshot s w).lookup v =
        if v = w then Handles.reset (fun v => snapshot.lookup v) (fun v => s.lookup v) v
        else s.lookup v := by
      intro v
      rw [resetHandle, Handles.reset]
      by_cases hv : v = w
      · subst hv
        rw [if_pos rfl]
        split_ifs
        · rw [HashMap.lookup_insert_ite, if_pos rfl]
        · rfl
      · rw [if_neg hv]
        split_ifs
        · rw [HashMap.lookup_insert_ite, if_neg hv]
        · rfl
    rw [List.foldl_cons, ih, hw]
    by_cases hv : v = w
    · subst hv
      simp only [Handles.reset, hw, if_true, List.mem_cons, true_or]
      split_ifs <;> simp_all
    · simp only [Handles.reset, hw, List.mem_cons, hv, if_false, false_or]

variable (it) in
theorem join_of_isNone {frame : BranchFrame} {stack : List BranchFrame}
    (hg : g.branchStack = frame :: stack) (h : frame.thenReturned = false)
    (hs : frame.thenState = none) :
    (g.join it).results = g.results ∧
      (g.join it).handles = Handles.reset (fun v => frame.snapshot.lookup v) g.handles ∧
      (g.join it).branchStack = stack := by
  have hjoin : g.join it = { g with
      state := (it.order g.state.keys).foldl (resetHandle frame.snapshot) g.state
      branchStack := stack } := by
    simp only [join, hg, h, hs]
    rfl
  rw [hjoin]
  refine ⟨rfl, funext fun v => ?_, rfl⟩
  refine (lookup_foldl_resetHandle _ _ _ v).trans ?_
  split_ifs with hv
  · rfl
  · rw [(it.perm _).mem_iff, HashMap.mem_keys_iff, Option.not_isSome_iff_eq_none] at hv
    have hv' : g.handles v = none := hv
    simp [Handles.reset, hv, hv']

theorem join_of_returned {frame : BranchFrame} {stack : List BranchFrame}
    (hg : g.branchStack = frame :: stack) (h : frame.thenReturned) :
    g.join it = { g with branchStack := stack } := by
  simp [join, hg, h]

/-! ### Exits -/

theorem leaks_eq_nil (s : HandleState) :
    leaks it s = [] ↔ Handles.NoneOpen fun v => s.lookup v := by
  rw [leaks, List.filterMap_eq_nil_iff]
  constructor
  · intro h v hv
    have hmem := h v ((it.perm _).mem_iff.2 (HashMap.mem_keys_iff.2 (Option.isSome_of_eq_some hv)))
    rw [if_pos hv] at hmem
    cases hmem
  · intro h v _
    exact if_neg (h v)

theorem functionExit_results : (g.functionExit it).results = [] ↔
    g.results = [] ∧ g.handles.NoneOpen := by
  have hres : (g.functionExit it).results = g.results ++ leaks it g.state := by
    rw [functionExit]
    cases g.branchStack with
    | nil => rfl
    | cons frame stack =>
      dsimp only
      split_ifs <;> rfl
  rw [hres, List.append_eq_nil_iff, leaks_eq_nil]
  rfl

/-! ### The stack -/

/-- The state to which a `return` goes back. -/
def back : List BranchFrame → Option Handles
  | [] => none
  | frame :: _ =>
    if frame.thenState.isNone then some fun v => frame.snapshot.lookup v else none

/-- What the scan knows. -/
def scanState (g : Gate) : ScanState := ⟨g.handles, back g.branchStack⟩

/-- What a block does to the stack: nothing, or a `return` ends the branch on top. -/
inductive StackStep : List BranchFrame → List BranchFrame → Prop
  | same (stack : List BranchFrame) : StackStep stack stack
  | returned {frame : BranchFrame} {stack : List BranchFrame} (h : frame.thenState = none)
    (s : HandleState) :
    StackStep (frame :: stack) ({ frame with thenState := some s, thenReturned := true } :: stack)

theorem StackStep.trans {l l' l'' : List BranchFrame} (h : StackStep l l') (h' : StackStep l' l'') :
    StackStep l l'' := by
  cases h with
  | same => exact h'
  | returned hn s =>
    cases h' with
    | same => exact .returned hn s
    | returned hs => cases hs

/-- A block after which no `return` can go back leaves the stack as it is. -/
theorem StackStep.eq_of_back {l l' : List BranchFrame} (h : StackStep l l') (hb : back l = none) :
    l' = l := by
  cases h with
  | same => rfl
  | returned hn s => simp [back, hn] at hb

variable (it) in
theorem functionExit_spec :
    ((g.functionExit it).results = [] ↔ g.results = [] ∧ g.handles.NoneOpen) ∧
    (g.functionExit it).scanState = g.scanState.exit ∧
    StackStep g.branchStack (g.functionExit it).branchStack := by
  refine ⟨functionExit_results, ?_⟩
  cases hg : g.branchStack with
  | nil =>
    have heq : g.functionExit it = { g with results := g.results ++ leaks it g.state } := by
      simp [functionExit, hg]
    rw [heq, scanState, scanState, hg]
    exact ⟨rfl, .same _⟩
  | cons frame stack =>
    cases hs : frame.thenState with
    | none =>
      have heq : g.functionExit it = ⟨frame.snapshot, g.results ++ leaks it g.state,
          { frame with thenState := some g.state, thenReturned := true } :: stack⟩ := by
        simp [functionExit, hg, hs]
      rw [heq]
      refine ⟨?_, .returned hs g.state⟩
      simp only [scanState, hg, back, hs, ScanState.exit]
      rfl
    | some s =>
      have heq : g.functionExit it = { g with results := g.results ++ leaks it g.state } := by
        simp [functionExit, hg, hs]
      rw [heq, scanState, scanState, hg]
      refine ⟨?_, .same _⟩
      simp only [back, hs, ScanState.exit]
      rfl

section

variable {g₁ g₂ : Gate} (h : StackStep g.branch.branchStack g₁.branchStack)
include h

variable (it) in
theorem join_then : (g₁.join it).results = g₁.results ∧
    (g₁.join it).scanState = { g.scanState with handles := g.scanState.joinThen g₁.scanState } ∧
    (g₁.join it).branchStack = g.branchStack := by
  generalize hstack : g₁.branchStack = stack at h
  cases h with
  | same =>
    obtain ⟨hres, hh, hs⟩ := join_of_isNone it hstack rfl rfl
    refine ⟨hres, ?_, hs⟩
    simp only [scanState, hs, hh, ScanState.joinThen, hstack]
    rfl
  | returned hn s =>
    rw [join_of_returned hstack rfl]
    refine ⟨rfl, ?_, rfl⟩
    simp only [scanState, ScanState.joinThen, hstack]
    rfl

theorem elseStart_scanState :
    g₁.elseStart.results = g₁.results ∧ g₁.elseStart.scanState = g.scanState.enterElse := by
  generalize hstack : g₁.branchStack = stack at h
  cases h with
  | same =>
    rw [elseStart, hstack]
    exact ⟨rfl, rfl⟩
  | returned hn s =>
    rw [elseStart, hstack]
    exact ⟨rfl, rfl⟩

variable (it) in
theorem join_else (h' : StackStep g₁.elseStart.branchStack g₂.branchStack) :
    ((g₂.join it).results = [] ↔ g₂.results = [] ∧ g₁.scanState.Joins g₂.scanState) ∧
    (g₂.join it).scanState =
      { g.scanState with handles := g₁.scanState.joinElse g₂.scanState } ∧
    (g₂.join it).branchStack = g.branchStack := by
  have hback : back g₁.elseStart.branchStack = none :=
    congrArg ScanState.back (elseStart_scanState h).2
  have hstack₂ := h'.eq_of_back hback
  generalize hstack : g₁.branchStack = stack at h
  cases h with
  | same =>
    simp only [elseStart, hstack] at hstack₂
    obtain ⟨hres, hh, hs⟩ := join_of_isSome it hstack₂ rfl rfl
    refine ⟨hres.trans (and_congr_right fun _ => ?_), ?_, hs⟩
    · simp only [ScanState.Joins, scanState, hstack]
      exact (or_iff_right (Option.some_ne_none _)).symm
    · simp only [scanState, hs, hh, ScanState.joinElse, hstack]
      rfl
  | returned hn s =>
    simp only [elseStart, hstack] at hstack₂
    rw [join_of_returned hstack₂ rfl]
    refine ⟨(and_iff_left (Or.inl ?_)).symm, ?_, rfl⟩
    · simp only [scanState, hstack]
      rfl
    · simp only [scanState, ScanState.joinElse, hstack]
      rfl

end

/-! ### Blocks -/

/-- The gate does in a block what the scan does on states. -/
structure Scans (b : Block) (g g' : Gate) : Prop where
  results : g'.results = [] ↔ g.results = [] ∧ b.Passes g.scanState
  state : g'.scanState = b.scan g.scanState
  stack : StackStep g.branchStack g'.branchStack

/-- The rest of a block after its first statement, which reports nothing just if `P` holds. -/
theorem Scans.of_rest {b rest : Block} {g₁ g' : Gate} {P : Prop} (h : Scans rest g₁ g')
    (hresults : g₁.results = [] ↔ g.results = [] ∧ P)
    (hpasses : b.Passes g.scanState ↔ P ∧ rest.Passes g₁.scanState)
    (hscan : b.scan g.scanState = rest.scan g₁.scanState)
    (hstack : StackStep g.branchStack g₁.branchStack) : Scans b g g' where
  results := by rw [h.results, hresults, hpasses, and_assoc]
  state := h.state.trans hscan.symm
  stack := hstack.trans h.stack

variable (it) in
theorem scans_foldl (b : Block) (g : Gate) {evs : List ChannelEvent}
    (hevs : evs.map (fun e => (e.vreg, e.kind)) = b.events) :
    Scans b g (evs.foldl (event it) g) := by
  induction b generalizing g evs with
  | nil =>
    rw [Block.events, List.map_eq_nil_iff] at hevs
    subst hevs
    exact ⟨(and_iff_left trivial).symm, rfl, .same _⟩
  | op o vreg rest ih =>
    rw [Block.events, List.map_eq_cons_iff] at hevs
    obtain ⟨e, evs, rfl, he, hevs⟩ := hevs
    obtain ⟨rfl, hk⟩ := Prod.mk.inj he
    obtain ⟨hres, hh, hs⟩ := event_op it (g := g) hk
    have hstate : (g.event it e).scanState =
        { g.scanState with handles := (g.handles.step o e.vreg).getD g.handles } := by
      rw [scanState, hh, hs]
      rfl
    refine (ih (g.event it e) hevs).of_rest hres ?_ ?_ (hs ▸ .same _)
    · have hg : g.scanState.handles = g.handles := rfl
      rw [hstate, Block.Passes, hg]
      cases g.handles.step o e.vreg <;> simp
    · rw [hstate]
      rfl
  | ret rest ih =>
    rw [Block.events, List.map_eq_cons_iff] at hevs
    obtain ⟨e, evs, rfl, he, hevs⟩ := hevs
    obtain ⟨hres, hstate, hstack⟩ := functionExit_spec it (g := g)
    rw [List.foldl_cons, event_functionExit he]
    refine (ih (g.functionExit it) hevs).of_rest hres ?_ ?_ hstack
    · rw [hstate, Block.Passes]
      exact Iff.rfl
    · rw [hstate, Block.scan]
  | ifThen t rest iht ih =>
    rw [Block.events, List.map_eq_cons_iff] at hevs
    obtain ⟨e₀, evs, rfl, he₀, hevs⟩ := hevs
    obtain ⟨evs₁, evs', rfl, hevs₁, hevs⟩ := List.map_eq_append_iff.1 hevs
    obtain ⟨e₂, evs₃, rfl, he₂, hevs₃⟩ := List.map_eq_cons_iff.1 hevs
    rw [List.foldl_cons, List.foldl_append, List.foldl_cons, event_branch he₀, event_join he₂]
    have ht := iht g.branch hevs₁
    have hthen : g.branch.scanState = g.scanState.enterThen := rfl
    obtain ⟨jres, jstate, jstack⟩ := join_then it ht.stack
    rw [ht.state, hthen] at jstate
    refine (ih _ hevs₃).of_rest (P := t.Passes g.scanState.enterThen) ?_ ?_ ?_ (jstack ▸ .same _)
    · rw [jres, ht.results, hthen]
      exact Iff.rfl
    · rw [jstate, Block.Passes]
    · rw [jstate, Block.scan]
  | ifElse t e rest iht ihe ih =>
    rw [Block.events, List.map_eq_cons_iff] at hevs
    obtain ⟨e₀, evs, rfl, he₀, hevs⟩ := hevs
    obtain ⟨evs₁, evs', rfl, hevs₁, hevs⟩ := List.map_eq_append_iff.1 hevs
    obtain ⟨e₂, evs', rfl, he₂, hevs⟩ := List.map_eq_cons_iff.1 hevs
    obtain ⟨evs₃, evs', rfl, hevs₃, hevs⟩ := List.map_eq_append_iff.1 hevs
    obtain ⟨e₄, evs₅, rfl, he₄, hevs₅⟩ := List.map_eq_cons_iff.1 hevs
    rw [List.foldl_cons, List.foldl_append, List.foldl_cons, List.foldl_append, List.foldl_cons,
      event_branch he₀, event_elseStart he₂, event_join he₄]
    have ht := iht g.branch hevs₁
    have hthen : g.branch.scanState = g.scanState.enterThen := rfl
    obtain ⟨sres, sstate⟩ := elseStart_scanState ht.stack
    have he := ihe (evs₁.foldl (event it) g.branch).elseStart hevs₃
    obtain ⟨jres, jstate, jstack⟩ := join_else it ht.stack he.stack
    rw [ht.state, he.state, sstate, hthen] at jstate
    refine (ih _ hevs₅).of_rest (P := t.Passes g.scanState.enterThen ∧
      e.Passes g.scanState.enterElse ∧
        (t.scan g.scanState.enterThen).Joins (e.scan g.scanState.enterElse)) ?_ ?_ ?_
      (jstack ▸ .same _)
    · rw [jres, he.results, sres, sstate, ht.results, ht.state, he.state, sstate, hthen, and_assoc,
        and_assoc]
      exact Iff.rfl
    · rw [jstate, Block.Passes, and_assoc, and_assoc]
    · rw [jstate, Block.scan]

end Gate

theorem verifyLinearChannels_of_pairwise (it : KeyOrder String) {events : List ChannelEvent}
    (h : (events.map ChannelEvent.atNode).Pairwise (· ≤ ·)) :
    verifyLinearChannels it events = (events.foldl (Gate.event it) ⟨∅, [], []⟩).results := by
  rw [verifyLinearChannels, List.mergeSort_of_pairwise]
  exact (List.pairwise_map.1 h).imp fun h => decide_eq_true h

/-- If the branches of a function agree wherever they are joined, then the gate finds nothing
exactly if every path of the function is linear. -/
theorem verifyLinearChannels_iff (it : KeyOrder String) (b : Block) (events : List ChannelEvent)
    (hevents : Emits b events) (h : b.AgreesThroughout) :
    verifyLinearChannels it events = [] ↔ b.Linear := by
  obtain ⟨hmap, hsorted⟩ := hevents
  rw [verifyLinearChannels_of_pairwise it hsorted, b.linear_iff]
  obtain ⟨evs, evs', rfl, hevs, hexit⟩ := List.map_eq_append_iff.1 hmap
  obtain ⟨e, evs', rfl, he, hnil⟩ := List.map_eq_cons_iff.1 hexit
  rw [List.map_eq_nil_iff] at hnil
  subst hnil
  obtain ⟨hres, hstate, -⟩ := Gate.scans_foldl it b ⟨∅, [], []⟩ hevs
  have hhandles := congrArg ScanState.handles hstate
  have hempty : (⟨∅, [], []⟩ : Gate).scanState = ⟨.empty, none⟩ := rfl
  rw [hempty] at hres hhandles
  rw [List.foldl_append, List.foldl_cons, List.foldl_nil, Gate.event_functionExit he,
    Gate.functionExit_results, hres, eq_self_iff_true, true_and]
  have hok := b.ok_iff_passes h.1 Block.discriminates_noneOpen
  rw [show ((⟨.empty, none⟩ : ScanState)).handles = .empty from rfl] at hok
  rw [hok]
  refine and_congr_right fun _ => ?_
  have hend : (evs.foldl (Gate.event it) ⟨∅, [], []⟩).handles =
      (b.scan ⟨.empty, none⟩).handles := hhandles
  rw [hend]
  cases hf : b.Falls with
  | false => simpa using h.2 hf
  | true => simp

/-! ### Functions -/

/-- The events of a function, numbered one by one. -/
def Block.numbered (b : Block) : List ChannelEvent :=
  (b.events ++ [("", ChannelEventKind.functionExit)]).zipIdx.map fun p => ⟨p.1.1, p.1.2, p.2⟩

/-- A channel that is closed before a return and in both branches of an `if`. -/
def closedOnAllPaths : Block :=
  .op .openChannel "ch" (.ifThen (.op .use "ch" (.op .close "ch" (.ret .nil)))
    (.ifElse (.op .close "ch" .nil) (.op .use "ch" (.op .close "ch" .nil)) .nil))

theorem verifyLinearChannels_closedOnAllPaths :
    verifyLinearChannels .id closedOnAllPaths.numbered = [] := by
  refine (verifyLinearChannels_iff .id closedOnAllPaths _ ⟨rfl, by decide⟩ ⟨?_, ?_⟩).2 ?_
  · intro σ hσ
    cases hσ
    refine ⟨?_, ?_, ?_, ?_⟩
    · simp [Block.Agrees, ScanState.enterThen, Handles.step, Block.Passes]
    · simp [Block.Falls]
    · simp [ScanState.joinThen, ScanState.enterThen, Block.scan, ScanState.exit]
    · refine ⟨?_, ?_, ?_⟩
      · simp [Block.Agrees]
      · simp [Block.Agrees]
      · simp [Block.Falls, Block.Agrees, Block.scan, ScanState.enterThen, ScanState.enterElse,
          Handles.step, Handles.SameSeen]
  · simp [closedOnAllPaths, Block.Falls]
  · rw [Block.linear_iff]
    simp [closedOnAllPaths, Block.Ok, Handles.step, Handles.empty, Handles.NoneOpen,
      Function.update_apply]

/-- A channel that is closed in the body of an `if`, and again after it. -/
def closedTwice : Block :=
  .op .openChannel "ch" (.ifThen (.op .close "ch" .nil) (.op .close "ch" .nil))

/-- A channel that is opened and closed in the body of an `if`. -/
def openedInside : Block :=
  .ifThen (.op .openChannel "ch" (.op .close "ch" .nil)) .nil

/-- The gate accepts a channel that is closed twice on one path, and rejects one that is closed on
every path. -/
theorem verifyLinearChannels_fails :
    (Emits closedTwice closedTwice.numbered ∧
      verifyLinearChannels .id closedTwice.numbered = [] ∧ ¬ closedTwice.Linear) ∧
    (Emits openedInside openedInside.numbered ∧
      verifyLinearChannels .id openedInside.numbered ≠ [] ∧ openedInside.Linear) := by
  refine ⟨⟨⟨rfl, by decide⟩, ?_, ?_⟩, ⟨rfl, by decide⟩, ?_, ?_⟩
  · rw [verifyLinearChannels_of_pairwise .id (by decide)]
    rfl
  · rw [Block.linear_iff]
    simp [closedTwice, Block.Ok, Handles.step, Handles.empty]
  · rw [verifyLinearChannels_of_pairwise .id (by decide)]
    exact nofun
  · rw [Block.linear_iff]
    simp [openedInside, Block.Ok, Handles.step, Handles.empty, Handles.NoneOpen,
      Function.update_apply]

end Vuma.Ive
