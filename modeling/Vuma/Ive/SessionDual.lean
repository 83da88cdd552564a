import Vuma.Ive.SessionCorrect
import Vuma.Ive.SessionTree

/-!
# Duality of session types

The dual of a session type exchanges the two ends of the channel. The checker treats both ends in
the same way, so that it accepts a list of events just if it accepts their mirror image.
-/

namespace Vuma.Ive

open Lib

namespace SessionType

/-- The dual of the session type. -/
def dual : SessionType → SessionType
  | ended => ended
  | send t s => recv t s.dual
  | recv t s => send t s.dual
  | choice s₁ s₂ => offer s₁.dual s₂.dual
  | offer s₁ s₂ => choice s₁.dual s₂.dual
  | recur s => recur s.dual
  | var n => var n

@[simp] theorem dual_dual (s : SessionType) : s.dual.dual = s := by
  induction s with
  | ended | var => rfl
  | send t s ih | recv t s ih =>
    rw [dual, dual, ih]
  | choice s₁ s₂ ih₁ ih₂ | offer s₁ s₂ ih₁ ih₂ => rw [dual, dual, ih₁, ih₂]
  | recur s ih => rw [dual, dual, ih]

theorem dual_substitute (s S : SessionType) (depth : UInt32) :
    (substitute s depth S).dual = substitute s.dual depth S.dual := by
  induction s generalizing depth with
  | ended => rfl
  | send t s ih | recv t s ih => rw [substitute, dual, dual, substitute, ih]
  | choice s₁ s₂ ih₁ ih₂ | offer s₁ s₂ ih₁ ih₂ =>
    rw [substitute, dual, dual, substitute, ih₁, ih₂]
  | recur s ih => rw [substitute, dual, dual, substitute, ih]
  | var n =>
    rw [substitute, dual, substitute]
    split_ifs <;> rfl

theorem dual_unfold (s : SessionType) : s.unfold.dual = s.dual.unfold := by
  cases s with
  | recur body => exact dual_substitute body (.recur body) 0
  | _ => rfl

theorem dual_eq_ended {s : SessionType} : s.dual = .ended ↔ s = .ended := by
  cases s <;> simp [dual]

/-- The other end continues with the dual type. -/
theorem next_dual (s : SessionType) (d : Bool) (t : String) :
    s.dual.next (!d) t = (s.next d t).map dual := by
  have hbranch : ∀ s : SessionType, matchBranch (!d) t s.dual = (matchBranch d t s).map dual := by
    intro s
    cases s <;> cases d <;> simp [dual, matchBranch, apply_ite (Option.map dual)]
  have hfind : ∀ s₁ s₂ : SessionType, [s₁.dual, s₂.dual].findSome? (matchBranch (!d) t) =
      ([s₁, s₂].findSome? (matchBranch d t)).map dual := by
    intro s₁ s₂
    simp only [List.findSome?_cons, List.findSome?_nil, hbranch]
    cases matchBranch d t s₁ with
    | some s => rfl
    | none => cases matchBranch d t s₂ <;> rfl
  cases d <;> cases s <;> try rfl
  case false.recv t' s => exact (apply_ite (Option.map dual) (t' = t) (some s) none).symm
  case true.send t' s => exact (apply_ite (Option.map dual) (t' = t) (some s) none).symm
  case false.offer s₁ s₂ => exact hfind s₁ s₂
  case true.choice s₁ s₂ => exact hfind s₁ s₂

end SessionType

/-! ## Mirrored events -/

/-- What the other end does. -/
def SessionEventKind.mirror : SessionEventKind → SessionEventKind
  | openSession vreg s => openSession vreg s.dual
  | send vreg t => recv vreg t
  | recv vreg t => send vreg t
  | close vreg => close vreg

/-- The event at the other end. -/
def SessionEvent.mirror (e : SessionEvent) : SessionEvent := ⟨e.kind.mirror, e.atNode⟩

/-- The action at the other end. -/
def Action.mirror : Action → Action
  | openSession s => openSession s.dual
  | message d t => message (!d) t
  | close => close

theorem SessionEvent.vreg_mirror (e : SessionEvent) : e.mirror.vreg = e.vreg := by
  obtain ⟨kind, n⟩ := e
  cases kind <;> rfl

theorem SessionEvent.action_mirror (e : SessionEvent) : e.mirror.action = e.action.mirror := by
  obtain ⟨kind, n⟩ := e
  cases kind <;> rfl

theorem advance_mirror (o : Option SessionType) (a : Action) :
    advance (o.map SessionType.dual) a.mirror =
      (advance o a).map (Option.map SessionType.dual) := by
  cases o with
  | none => cases a <;> rfl
  | some s =>
    cases a with
    | openSession => cases s <;> rfl
    | close => cases s <;> rfl
    | message d t =>
      have hstep : ∀ (s : SessionType) (d : Bool),
          advance (some s) (.message d t) = (s.next d t).map some := by
        intro s d
        cases s <;> rfl
      show advance (some s.dual) (.message (!d) t) = _
      rw [hstep, hstep, SessionType.next_dual, Option.map_map, Option.map_map]
      rfl

/-- The checkers at both ends: they have found something both, or nothing so far, and then the
types that remain are dual. -/
def Checker.Dual (c c' : Checker) : Prop :=
  c.results ≠ [] ∧ c'.results ≠ [] ∨ c.results = [] ∧ c'.results = [] ∧
    ∀ v, c'.state.lookup v = (c.state.lookup v).map SessionType.dual

namespace Checker

variable {c c' : Checker}

theorem Dual.event (h : c.Dual c') (e : SessionEvent) : (c.event e).Dual (c'.event e.mirror) := by
  rcases h with ⟨hc, hc'⟩ | ⟨hc, hc', hstate⟩
  · exact .inl ⟨event_results hc e, event_results hc' e.mirror⟩
  · have hadvance : advance (c'.state.lookup e.mirror.vreg) e.mirror.action =
        (advance (c.state.lookup e.vreg) e.action).map (Option.map SessionType.dual) := by
      rw [e.vreg_mirror, e.action_mirror, hstate, advance_mirror]
    cases ho : advance (c.state.lookup e.vreg) e.action with
    | none =>
      rw [ho] at hadvance
      exact .inl ⟨event_of_none ho, event_of_none hadvance⟩
    | some o =>
      rw [ho] at hadvance
      obtain ⟨hres, hlook⟩ := event_of_some ho
      obtain ⟨hres', hlook'⟩ := event_of_some hadvance
      refine .inr ⟨hres.trans hc, hres'.trans hc', ?_⟩
      intro v
      rw [hlook, hlook', e.vreg_mirror, hstate]
      split_ifs <;> rfl

theorem Dual.foldl (h : c.Dual c') (events : List SessionEvent) :
    (events.foldl Checker.event c).Dual
      ((events.map SessionEvent.mirror).foldl Checker.event c') := by
  induction events generalizing c c' with
  | nil => exact h
  | cons e events ih => exact ih (h.event e)

end Checker

/-- The checker accepts if it has found nothing and every session that is left is at `End`. -/
theorem verifySessionTypes_eq_nil (it : KeyOrder UInt32) (events : List SessionEvent)
    {c : Checker}
    (hc : (events.mergeSort fun e e' => e.atNode ≤ e'.atNode).foldl Checker.event ⟨∅, []⟩ = c) :
    verifySessionTypes it events = [] ↔
      c.results = [] ∧ ∀ v s, c.state.lookup v = some s → s = .ended := by
  rw [verifySessionTypes, List.append_eq_nil_iff, List.filterMap_eq_nil_iff]
  simp only [hc]
  apply and_congr_right'
  constructor
  · intro hall v s hs
    have hv := hall v ((it.perm _).mem_iff.mpr
      (HashMap.mem_keys_iff.mpr (Option.isSome_of_eq_some hs)))
    rw [hs] at hv
    by_contra hne
    simp only [if_neg hne, reduceCtorEq] at hv
  · intro hall v _
    cases hs : c.state.lookup v with
    | none => rfl
    | some s => exact if_pos (hall v s hs)

/-- The checker accepts the events just if it accepts what the other end does. -/
theorem verifySessionTypes_mirror (it it' : KeyOrder UInt32) (events : List SessionEvent) :
    verifySessionTypes it events = [] ↔
      verifySessionTypes it' (events.map SessionEvent.mirror) = [] := by
  have hsort : (events.map SessionEvent.mirror).mergeSort (fun e e' => e.atNode ≤ e'.atNode) =
      (events.mergeSort fun e e' => e.atNode ≤ e'.atNode).map SessionEvent.mirror :=
    (List.map_mergeSort (f := SessionEvent.mirror) fun _ _ _ _ => rfl).symm
  have hstart : Checker.Dual ⟨∅, []⟩ ⟨∅, []⟩ := .inr ⟨rfl, rfl, fun v => rfl⟩
  have hdual := hstart.foldl (events.mergeSort fun e e' => e.atNode ≤ e'.atNode)
  rw [verifySessionTypes_eq_nil it events rfl,
    verifySessionTypes_eq_nil it' (events.map SessionEvent.mirror) (congrArg _ hsort)]
  rcases hdual with ⟨hc, hc'⟩ | ⟨hc, hc', hstate⟩
  · exact iff_of_false (fun h => hc h.1) (fun h => hc' h.1)
  · refine and_congr (iff_of_true hc hc') (forall_congr' fun v => ?_)
    rw [hstate]
    constructor
    · intro hall s' hs'
      obtain ⟨s, hs, rfl⟩ := Option.map_eq_some_iff.mp hs'
      exact SessionType.dual_eq_ended.mpr (hall s hs)
    · intro hall s hs
      exact SessionType.dual_eq_ended.mp (hall s.dual (by rw [hs]; rfl))

/-! ## Duality and unfolding -/

/-- The dual of the dual is the type, unfolding goes with the dual and keeps the tree, and the
checker accepts what it accepts at the other end. -/
def SessionType.RespectsDuality (S : SessionType) : Prop :=
  S.dual.dual = S ∧ S.unfold.dual = S.dual.unfold ∧ (∀ b, S = .recur b → SameTree S.unfold S) ∧
    ∀ (it it' : KeyOrder UInt32) (events : List SessionEvent),
      verifySessionTypes it events = [] ↔
        verifySessionTypes it' (events.map SessionEvent.mirror) = []

/-- A type fails just if it is a recursion with a free variable, whose own variable is used inside
of another recursion. -/
theorem SessionType.respectsDuality_iff (S : SessionType) (hnest : S.nesting < 2 ^ 32) :
    S.RespectsDuality ↔ ¬ ∃ b, S = .recur b ∧ S.Open ∧ b.Nested := by
  constructor
  · intro ⟨_, _, htree, _⟩ ⟨b, hS, hopen, hnested⟩
    subst hS
    exact (sameTree_unfold_iff hnest).mp (htree b rfl) ⟨hopen, hnested⟩
  · intro h
    refine ⟨S.dual_dual, S.dual_unfold, ?_, verifySessionTypes_mirror⟩
    intro b hS
    subst hS
    apply (sameTree_unfold_iff hnest).mpr
    intro hcaught
    exact h ⟨b, rfl, hcaught⟩

/-- A loop that sends. -/
def sendLoop : SessionType := .recur (.send "i64" (.var 0))

theorem respectsDuality_sendLoop : sendLoop.nesting < 2 ^ 32 ∧ sendLoop.RespectsDuality := by
  have hnest : sendLoop.nesting < 2 ^ 32 := by decide
  refine ⟨hnest, (SessionType.respectsDuality_iff sendLoop hnest).mpr ?_⟩
  intro ⟨b, hS, _, p, k, n, hocc, _⟩
  cases hS
  cases hocc with
  | child hnode hi hocc =>
    cases hnode
    have hs := List.mem_singleton.mp (List.mem_of_getElem? hi)
    subst hs
    cases hocc with
    | child hnode => cases hnode

/-- A loop inside of another: the first branch goes back to the outer loop, and the second is a
loop of its own that goes back to this one. -/
def innerLoop : SessionType :=
  .recur (.send "i64" (.choice (.var 1) (.recur (.recv "i64" (.var 1)))))

/-- The loop of the second branch catches the variable of the outer loop. -/
theorem not_respectsDuality : ¬ innerLoop.RespectsDuality := by
  intro ⟨_, _, htree, _⟩
  refine not_sameTree_unfold (by decide) ?_ ?_ (htree _ rfl)
  · exact ⟨[0, 0], 1, 1, .recur (.child rfl rfl (.child rfl rfl (.here 1))), by decide⟩
  · exact ⟨[0, 1, 0], 0, 1, .child rfl rfl (.child rfl rfl (.recur (.child rfl rfl (.here 1)))),
      by decide⟩

end Vuma.Ive
