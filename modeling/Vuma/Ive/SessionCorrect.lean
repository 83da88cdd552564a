import Vuma.Ive.SessionType

/-!
# Traces of session types

A checker that finds nothing has seen, on every channel, a sequence of sessions that run through
their types. The branch of a choice or an offer is the first that starts with the message.
-/

namespace Vuma.Ive

open Lib

/-! ## Traces -/

/-- What happens on one channel. -/
inductive Action where
  | openSession (sessionType : SessionType)
  | message (isSend : Bool) (msgType : String)
  | close
  deriving DecidableEq, Repr

/-- The documented meaning of a session type: a choice or an offer continues as either branch, and
a recursion as its unfolding. -/
inductive Step : SessionType → Bool → String → SessionType → Prop
  | send (t s) : Step (.send t s) true t s
  | recv (t s) : Step (.recv t s) false t s
  | choice₁ {s₁ s₂ d t s} (h : Step s₁ d t s) : Step (.choice s₁ s₂) d t s
  | choice₂ {s₁ s₂ d t s} (h : Step s₂ d t s) : Step (.choice s₁ s₂) d t s
  | offer₁ {s₁ s₂ d t s} (h : Step s₁ d t s) : Step (.offer s₁ s₂) d t s
  | offer₂ {s₁ s₂ d t s} (h : Step s₂ d t s) : Step (.offer s₁ s₂) d t s
  | recur {body d t s} (h : Step (SessionType.unfold (.recur body)) d t s) :
    Step (.recur body) d t s

/-- A type that is `End`, by the documented meaning. -/
inductive Finished : SessionType → Prop
  | ended : Finished .ended
  | choice₁ {s₁ s₂} (h : Finished s₁) : Finished (.choice s₁ s₂)
  | choice₂ {s₁ s₂} (h : Finished s₂) : Finished (.choice s₁ s₂)
  | offer₁ {s₁ s₂} (h : Finished s₁) : Finished (.offer s₁ s₂)
  | offer₂ {s₁ s₂} (h : Finished s₂) : Finished (.offer s₁ s₂)
  | recur {body} (h : Finished (SessionType.unfold (.recur body))) : Finished (.recur body)

/-- The meaning with implicit branch selection: a message that is sent selects the first branch of
a choice that starts with it, and one that is received the first such branch of an offer. -/
inductive Select : SessionType → Bool → String → SessionType → Prop
  | send (t s) : Select (.send t s) true t s
  | recv (t s) : Select (.recv t s) false t s
  | choice₁ (t s s₂) : Select (.choice (.send t s) s₂) true t s
  | choice₂ {s₁} (t s) (h : ∀ s', s₁ ≠ .send t s') : Select (.choice s₁ (.send t s)) true t s
  | offer₁ (t s s₂) : Select (.offer (.recv t s) s₂) false t s
  | offer₂ {s₁} (t s) (h : ∀ s', s₁ ≠ .recv t s') : Select (.offer s₁ (.recv t s)) false t s
  | recur {body d t s} (h : Select (SessionType.unfold (.recur body)) d t s) :
    Select (.recur body) d t s

/-- Messages that lead from one type to another. -/
inductive Trace (step : SessionType → Bool → String → SessionType → Prop) :
    SessionType → List (Bool × String) → SessionType → Prop
  | nil (s) : Trace step s [] s
  | cons {s s' s'' d t l} (h : step s d t s') (ht : Trace step s' l s'') :
    Trace step s ((d, t) :: l) s''

/-- The messages as actions. -/
def messages (l : List (Bool × String)) : List Action := l.map fun m => .message m.1 m.2

/-- The actions of a channel are sessions that are opened, run through their type and closed. -/
inductive Sessions (step : SessionType → Bool → String → SessionType → Prop)
    (finished : SessionType → Prop) : List Action → Prop
  | nil : Sessions step finished []
  | session {s s' l rest} (ht : Trace step s l s') (hs : finished s')
    (h : Sessions step finished rest) :
    Sessions step finished (.openSession s :: (messages l ++ .close :: rest))

section Mono

variable {step step' : SessionType → Bool → String → SessionType → Prop}
  {finished finished' : SessionType → Prop}

theorem Trace.mono (h : ∀ s d t s', step s d t s' → step' s d t s') {s s' : SessionType}
    {l : List (Bool × String)} (ht : Trace step s l s') : Trace step' s l s' := by
  induction ht with
  | nil s => exact .nil s
  | cons hstep _ ih => exact .cons (h _ _ _ _ hstep) ih

theorem Sessions.mono (h : ∀ s d t s', step s d t s' → step' s d t s')
    (hf : ∀ s, finished s → finished' s) {l : List Action} (hl : Sessions step finished l) :
    Sessions step' finished' l := by
  induction hl with
  | nil => exact .nil
  | session ht hs _ ih => exact .session (ht.mono h) (hf _ hs) ih

end Mono

/-- Implicit selection takes one of the branches. -/
theorem Select.step {s s' : SessionType} {d : Bool} {t : String} (h : Select s d t s') :
    Step s d t s' := by
  induction h with
  | send t s => exact .send t s
  | recv t s => exact .recv t s
  | choice₁ t s s₂ => exact .choice₁ (.send t s)
  | choice₂ t s _ => exact .choice₂ (.send t s)
  | offer₁ t s s₂ => exact .offer₁ (.recv t s)
  | offer₂ t s _ => exact .offer₂ (.recv t s)
  | recur _ ih => exact .recur ih

/-! ## One channel -/

/-- The continuation that the checker finds for a message. -/
def SessionType.next (s : SessionType) (isSend : Bool) (t : String) : Option SessionType :=
  match isSend, s with
  | true, .send t' s' | false, .recv t' s' => if t' = t then some s' else none
  | true, .choice s₁ s₂ | false, .offer s₁ s₂ => [s₁, s₂].findSome? (matchBranch isSend t)
  | _, _ => none

theorem matchBranch_eq_some {d : Bool} {t : String} {s s' : SessionType} :
    matchBranch d t s = some s' ↔
      d = true ∧ s = .send t s' ∨ d = false ∧ s = .recv t s' := by
  cases s <;> cases d <;> simp [matchBranch]

theorem SessionType.select_of_next {s s' : SessionType} {d : Bool} {t : String}
    (h : s.next d t = some s') : Select s d t s' := by
  cases d <;> cases s <;> simp only [next, reduceCtorEq] at h
  case false.recv t' s =>
    split_ifs at h with ht
    cases h
    exact ht ▸ .recv _ _
  case true.send t' s =>
    split_ifs at h with ht
    cases h
    exact ht ▸ .send _ _
  case false.offer s₁ s₂ =>
    rw [List.findSome?_cons] at h
    split at h
    · next h₁ =>
      cases h
      obtain ⟨hd, -⟩ | ⟨-, rfl⟩ := matchBranch_eq_some.1 h₁
      · cases hd
      · exact .offer₁ _ _ _
    · next h₁ =>
      rw [List.findSome?_singleton] at h
      obtain ⟨hd, -⟩ | ⟨-, rfl⟩ := matchBranch_eq_some.1 h
      · cases hd
      · refine .offer₂ _ _ fun s'' hs'' => ?_
        rw [matchBranch_eq_some.2 (.inr ⟨rfl, hs''⟩)] at h₁
        cases h₁
  case true.choice s₁ s₂ =>
    rw [List.findSome?_cons] at h
    split at h
    · next h₁ =>
      cases h
      obtain ⟨-, rfl⟩ | ⟨hd, -⟩ := matchBranch_eq_some.1 h₁
      · exact .choice₁ _ _ _
      · cases hd
    · next h₁ =>
      rw [List.findSome?_singleton] at h
      obtain ⟨-, rfl⟩ | ⟨hd, -⟩ := matchBranch_eq_some.1 h
      · refine .choice₂ _ _ fun s'' hs'' => ?_
        rw [matchBranch_eq_some.2 (.inl ⟨rfl, hs''⟩)] at h₁
        cases h₁
      · cases hd

theorem SessionType.next_of_select {s s' : SessionType} (hs : ∀ body, s ≠ .recur body) {d : Bool}
    {t : String} (h : Select s d t s') : s.next d t = some s' := by
  cases h with
  | send t s => exact if_pos rfl
  | recv t s => exact if_pos rfl
  | choice₁ t s s₂ => simp [next, matchBranch]
  | offer₁ t s s₂ => simp [next, matchBranch]
  | @choice₂ s₁ t s h =>
    have h₁ : matchBranch true t s₁ = none := by
      refine Option.eq_none_iff_forall_ne_some.2 fun x hx => ?_
      obtain ⟨-, hx⟩ | ⟨hd, -⟩ := matchBranch_eq_some.1 hx
      · exact h x hx
      · cases hd
    simp only [next]
    rw [List.findSome?_cons, h₁, List.findSome?_singleton]
    exact matchBranch_eq_some.2 (.inl ⟨rfl, rfl⟩)
  | @offer₂ s₁ t s h =>
    have h₁ : matchBranch false t s₁ = none := by
      refine Option.eq_none_iff_forall_ne_some.2 fun x hx => ?_
      obtain ⟨hd, -⟩ | ⟨-, hx⟩ := matchBranch_eq_some.1 hx
      · cases hd
      · exact h x hx
    simp only [next]
    rw [List.findSome?_cons, h₁, List.findSome?_singleton]
    exact matchBranch_eq_some.2 (.inr ⟨rfl, rfl⟩)
  | recur h => exact absurd rfl (hs _)

/-- What the checker does with the state of a channel, unless it finds a violation. -/
def advance : Option SessionType → Action → Option (Option SessionType)
  | none, .openSession s => some (some s)
  | some s, .message d t => (s.next d t).map some
  | some .ended, .close => some none
  | _, _ => none

/-! ## All channels -/

/-- The channel of an event. -/
def SessionEvent.vreg (e : SessionEvent) : UInt32 :=
  match e.kind with
  | .openSession vreg _ | .send vreg _ | .recv vreg _ | .close vreg => vreg

/-- The event on its channel. -/
def SessionEvent.action (e : SessionEvent) : Action :=
  match e.kind with
  | .openSession _ s => .openSession s
  | .send _ t => .message true t
  | .recv _ t => .message false t
  | .close _ => .close

namespace Checker

variable {c : Checker}

theorem message_of_some {d : Bool} {vreg : UInt32} {t : String} {s s' : SessionType}
    (hs : c.state.lookup vreg = some s) (h : s.next d t = some s') (n : Nat) :
    c.message d vreg t n = { c with state := c.state.insert vreg s' } := by
  cases d <;> cases s <;> simp only [SessionType.next, reduceCtorEq] at h <;>
    simp only [message, hs]
  case false.recv t' s =>
    split_ifs at h with ht
    cases h
    simp [ht]
  case true.send t' s =>
    split_ifs at h with ht
    cases h
    simp [ht]
  case false.offer s₁ s₂ => simp [tryMatchChoiceBranch, h, selectBranch]
  case true.choice s₁ s₂ => simp [tryMatchChoiceBranch, h, selectBranch]

theorem message_of_none {d : Bool} {vreg : UInt32} {t : String} {s : SessionType}
    (hs : c.state.lookup vreg = some s) (h : s.next d t = none) (n : Nat) :
    ∃ v, c.message d vreg t n = c.push v := by
  cases d <;> cases s <;> simp only [SessionType.next] at h <;> simp only [message, hs] <;>
    try exact ⟨_, rfl⟩
  case false.recv t' s =>
    have ht : t' ≠ t := fun ht => by simp [ht] at h
    exact ⟨_, if_pos ht⟩
  case true.send t' s =>
    have ht : t' ≠ t := fun ht => by simp [ht] at h
    exact ⟨_, if_pos ht⟩
  case false.offer s₁ s₂ =>
    rw [tryMatchChoiceBranch, h]
    exact ⟨_, rfl⟩
  case true.choice s₁ s₂ =>
    rw [tryMatchChoiceBranch, h]
    exact ⟨_, rfl⟩

theorem message_of_lookup_none {vreg : UInt32} (hs : c.state.lookup vreg = none) (d : Bool)
    (t : String) (n : Nat) : c.message d vreg t n = c.push (.noSession d n vreg) := by
  cases d <;> simp only [message, hs]

/-- An event without a violation advances its channel. -/
theorem event_of_some {e : SessionEvent} {o : Option SessionType}
    (h : advance (c.state.lookup e.vreg) e.action = some o) :
    (c.event e).results = c.results ∧
      ∀ w, (c.event e).state.lookup w = if w = e.vreg then o else c.state.lookup w := by
  have hmessage : ∀ d vreg t n, advance (c.state.lookup vreg) (.message d t) = some o →
      (c.message d vreg t n).results = c.results ∧
        ∀ w, (c.message d vreg t n).state.lookup w = if w = vreg then o else c.state.lookup w := by
    intro d vreg t n h
    cases hs : c.state.lookup vreg with
    | none =>
      rw [hs] at h
      cases h
    | some s =>
      rw [hs, advance, Option.map_eq_some_iff] at h
      obtain ⟨s', hnext, rfl⟩ := h
      rw [message_of_some hs hnext]
      exact ⟨rfl, fun w => HashMap.lookup_insert_ite c.state vreg w s'⟩
  obtain ⟨kind, n⟩ := e
  cases kind with
  | openSession vreg s =>
    simp only [SessionEvent.vreg, SessionEvent.action] at h ⊢
    cases hs : c.state.lookup vreg with
    | some s' =>
      rw [hs] at h
      cases h
    | none =>
      rw [hs] at h
      cases h
      simp only [event, hs]
      exact ⟨rfl, fun w => HashMap.lookup_insert_ite c.state vreg w s⟩
  | send vreg t => exact hmessage true vreg t n h
  | recv vreg t => exact hmessage false vreg t n h
  | close vreg =>
    simp only [SessionEvent.vreg, SessionEvent.action] at h ⊢
    cases hs : c.state.lookup vreg with
    | none =>
      rw [hs] at h
      cases h
    | some s =>
      rw [hs] at h
      cases s with
      | ended =>
        cases h
        simp only [event, hs]
        exact ⟨trivial, fun w => HashMap.lookup_erase_ite c.state vreg w⟩
      | _ => cases h

theorem event_of_none {e : SessionEvent}
    (h : advance (c.state.lookup e.vreg) e.action = none) : (c.event e).results ≠ [] := by
  have hpush : ∀ v, (c.push v).results ≠ [] := fun v => by simp [push]
  have hmessage : ∀ d vreg t n, advance (c.state.lookup vreg) (.message d t) = none →
      (c.message d vreg t n).results ≠ [] := by
    intro d vreg t n h
    cases hs : c.state.lookup vreg with
    | none =>
      rw [message_of_lookup_none hs]
      exact hpush _
    | some s =>
      rw [hs, advance, Option.map_eq_none_iff] at h
      obtain ⟨v, hv⟩ := message_of_none hs h n
      rw [hv]
      exact hpush v
  obtain ⟨kind, n⟩ := e
  cases kind with
  | openSession vreg s =>
    simp only [SessionEvent.vreg, SessionEvent.action] at h
    cases hs : c.state.lookup vreg with
    | none =>
      rw [hs] at h
      cases h
    | some s' =>
      simp only [event, hs]
      exact hpush _
  | send vreg t => exact hmessage true vreg t n h
  | recv vreg t => exact hmessage false vreg t n h
  | close vreg =>
    simp only [SessionEvent.vreg, SessionEvent.action] at h
    cases hs : c.state.lookup vreg with
    | none =>
      simp only [event, hs]
      exact hpush _
    | some s =>
      rw [hs] at h
      simp only [event, hs]
      cases s with
      | ended => cases h
      | _ => exact hpush _

/-- Violations are kept. -/
theorem event_results (h : c.results ≠ []) (e : SessionEvent) : (c.event e).results ≠ [] := by
  cases ho : advance (c.state.lookup e.vreg) e.action with
  | none => exact event_of_none ho
  | some o =>
    rw [(event_of_some ho).1]
    exact h

theorem foldl_results (l : List SessionEvent) (h : c.results ≠ []) :
    (l.foldl event c).results ≠ [] := by
  induction l generalizing c with
  | nil => exact h
  | cons e l ih => exact ih (event_results h e)

/-- The actions of one channel. -/
def actionsOf (v : UInt32) (l : List SessionEvent) : List Action :=
  (l.filter fun e => e.vreg = v).map SessionEvent.action

theorem actionsOf_cons (v : UInt32) (e : SessionEvent) (l : List SessionEvent) :
    actionsOf v (e :: l) = if e.vreg = v then e.action :: actionsOf v l else actionsOf v l := by
  rw [actionsOf, List.filter_cons]
  by_cases hv : e.vreg = v <;> simp [hv, actionsOf]

/-- After an event that advances its channel, every channel has the same way to go. -/
theorem foldlM_actionsOf_cons {e : SessionEvent} {o : Option SessionType}
    (ho : advance (c.state.lookup e.vreg) e.action = some o) (v : UInt32)
    (l : List SessionEvent) :
    (actionsOf v (e :: l)).foldlM advance (c.state.lookup v) =
      (actionsOf v l).foldlM advance ((c.event e).state.lookup v) := by
  rw [actionsOf_cons, (event_of_some ho).2]
  by_cases hv : e.vreg = v
  · subst hv
    rw [if_pos rfl, if_pos rfl, List.foldlM_cons, ho]
    rfl
  · rw [if_neg hv, if_neg (Ne.symm hv)]

/-- If the checker finds nothing, then every channel advances to its last state. -/
theorem foldlM_of_foldl_results (l : List SessionEvent) (h : (l.foldl event c).results = [])
    (v : UInt32) : (actionsOf v l).foldlM advance (c.state.lookup v) =
      some ((l.foldl event c).state.lookup v) := by
  induction l generalizing c with
  | nil => rfl
  | cons e l ih =>
    rw [List.foldl_cons] at h ⊢
    cases ho : advance (c.state.lookup e.vreg) e.action with
    | none => exact absurd h (foldl_results l (event_of_none ho))
    | some o =>
      rw [foldlM_actionsOf_cons ho]
      exact ih h

/-- If every channel advances, then the checker finds nothing. -/
theorem foldl_results_of_foldlM (l : List SessionEvent) (h : c.results = [])
    (hall : ∀ v, ((actionsOf v l).foldlM advance (c.state.lookup v)).isSome) :
    (l.foldl event c).results = [] := by
  induction l generalizing c with
  | nil => exact h
  | cons e l ih =>
    have hv := hall e.vreg
    cases ho : advance (c.state.lookup e.vreg) e.action with
    | none =>
      rw [actionsOf_cons, if_pos rfl, List.foldlM_cons, ho] at hv
      cases hv
    | some o =>
      refine ih ((event_of_some ho).1.trans h) fun v => ?_
      rw [← foldlM_actionsOf_cons ho]
      exact hall v

end Checker

/-- The actions of one channel in the order of their nodes. -/
def channelActions (v : UInt32) (events : List SessionEvent) : List Action :=
  ((events.filter fun e => e.vreg = v).mergeSort fun e e' => e.atNode ≤ e'.atNode).map
    SessionEvent.action

theorem actionsOf_mergeSort {events : List SessionEvent}
    (h : (events.map SessionEvent.atNode).Nodup) (v : UInt32) :
    Checker.actionsOf v (events.mergeSort fun e e' => e.atNode ≤ e'.atNode) =
      channelActions v events := by
  have hsorted : ∀ l : List SessionEvent,
      (l.mergeSort fun e e' => e.atNode ≤ e'.atNode).Pairwise fun e e' => e.atNode ≤ e'.atNode := by
    intro l
    refine (List.pairwise_mergeSort ?_ ?_ l).imp fun h => of_decide_eq_true h
    · intro a b c hab hbc
      rw [decide_eq_true_eq] at *
      exact Nat.le_trans hab hbc
    · intro a b
      rw [Bool.or_eq_true, decide_eq_true_eq, decide_eq_true_eq]
      exact Nat.le_total _ _
  refine congrArg (List.map _) (List.Perm.eq_of_pairwise ?_ ((hsorted _).filter _) (hsorted _) ?_)
  · intro a b ha hb hab hba
    rw [List.mem_filter, List.mem_mergeSort] at ha
    rw [List.mem_mergeSort, List.mem_filter] at hb
    exact List.inj_on_of_nodup_map h ha.1 hb.1 (Nat.le_antisymm hab hba)
  · exact ((List.mergeSort_perm _ _).filter _).trans (List.mergeSort_perm _ _).symm

/-- The checker finds nothing exactly if every channel advances through its actions, and then has
no session or one whose type is `End`. -/
theorem verifySessionTypes_eq_nil_iff (it : KeyOrder UInt32) {events : List SessionEvent}
    (h : (events.map SessionEvent.atNode).Nodup) :
    verifySessionTypes it events = [] ↔ ∀ v, ∃ o,
      (channelActions v events).foldlM advance none = some o ∧ (o = none ∨ o = some .ended) := by
  rw [verifySessionTypes, List.append_eq_nil_iff, List.filterMap_eq_nil_iff]
  generalize hc : (events.mergeSort _).foldl Checker.event ⟨∅, []⟩ = c
  have hlast : c.results = [] → ∀ v,
      (channelActions v events).foldlM advance none = some (c.state.lookup v) := by
    intro hnil v
    subst hc
    rw [← actionsOf_mergeSort h]
    exact Checker.foldlM_of_foldl_results _ hnil v
  constructor
  · rintro ⟨hnil, hend⟩ v
    refine ⟨_, hlast hnil v, ?_⟩
    cases hs : c.state.lookup v with
    | none => exact .inl rfl
    | some s =>
      have hv := hend v ((it.perm _).mem_iff.2
        (HashMap.mem_keys_iff.2 (Option.isSome_of_eq_some hs)))
      rw [hs] at hv
      refine .inr (congrArg some (by_contra fun hne => ?_))
      simp only [if_neg hne, reduceCtorEq] at hv
  · intro hall
    have hnil : c.results = [] := by
      subst hc
      refine Checker.foldl_results_of_foldlM _ rfl fun v => ?_
      obtain ⟨o, ho, -⟩ := hall v
      rw [actionsOf_mergeSort h]
      exact Option.isSome_of_eq_some ho
    refine ⟨hnil, fun v _ => ?_⟩
    obtain ⟨o, ho, hend⟩ := hall v
    obtain rfl := Option.some.inj ((hlast hnil v).symm.trans ho)
    rcases hend with hend | hend <;> rw [hend]
    exact if_pos rfl

/-! ## Sessions -/

/-- No session of the actions comes to a recursion. -/
def RecFree (l : List Action) : Prop :=
  ∀ pre s msgs rest s', l = pre ++ .openSession s :: (messages msgs ++ rest) →
    Trace Select s msgs s' → ∀ body, s' ≠ .recur body

/-- The last session is not closed, although its type has come to `End`. -/
def LeftAtEnd (l : List Action) : Prop :=
  ∃ pre s msgs, Sessions Select (· = .ended) pre ∧ l = pre ++ .openSession s :: messages msgs ∧
    Trace Select s msgs .ended

theorem RecFree.of_append {l l' : List Action} (h : RecFree (l ++ l')) : RecFree l' := by
  intro pre s msgs rest s' hl
  refine h (l ++ pre) s msgs rest s' ?_
  rw [hl, List.append_assoc]

/-- A channel that advances with an open session either comes to its end or goes on with it. -/
theorem trace_of_foldlM {s : SessionType} {l : List Action} {o : Option SessionType}
    (h : l.foldlM advance (some s) = some o) :
    (∃ msgs s', l = messages msgs ∧ Trace Select s msgs s' ∧ o = some s') ∨
      ∃ msgs rest, l = messages msgs ++ .close :: rest ∧ Trace Select s msgs .ended ∧
        rest.foldlM advance none = some o := by
  induction l generalizing s with
  | nil => exact .inl ⟨[], s, rfl, .nil s, (Option.some.inj h).symm⟩
  | cons a l ih =>
    rw [List.foldlM_cons] at h
    obtain ⟨o', ho', h⟩ := Option.bind_eq_some_iff.1 h
    cases a with
    | openSession s' => cases s <;> cases ho'
    | message d t =>
      have ho' : (s.next d t).map some = some o' := by cases s <;> exact ho'
      obtain ⟨s', hs', rfl⟩ := Option.map_eq_some_iff.1 ho'
      have hsel := SessionType.select_of_next hs'
      rcases ih h with ⟨msgs, s'', rfl, ht, ho⟩ | ⟨msgs, rest, rfl, ht, hrest⟩
      · exact .inl ⟨(d, t) :: msgs, s'', rfl, .cons hsel ht, ho⟩
      · exact .inr ⟨(d, t) :: msgs, rest, rfl, .cons hsel ht, hrest⟩
    | close =>
      cases s with
      | ended =>
        cases ho'
        exact .inr ⟨[], l, rfl, .nil _, h⟩
      | _ => cases ho'

theorem sessions_of_foldlM {l : List Action} {o : Option SessionType}
    (h : l.foldlM advance none = some o) :
    (Sessions Select (· = .ended) l ∧ o = none) ∨ ∃ pre s msgs s',
      Sessions Select (· = .ended) pre ∧ l = pre ++ .openSession s :: messages msgs ∧
        Trace Select s msgs s' ∧ o = some s' := by
  induction hn : l.length using Nat.strongRecOn generalizing l with
  | ind n ih =>
    cases l with
    | nil => exact .inl ⟨.nil, (Option.some.inj h).symm⟩
    | cons a l =>
      rw [List.foldlM_cons] at h
      obtain ⟨o', ho', h⟩ := Option.bind_eq_some_iff.1 h
      cases a with
      | openSession s =>
        cases ho'
        rcases trace_of_foldlM h with ⟨msgs, s', rfl, ht, ho⟩ | ⟨msgs, rest, rfl, ht, hrest⟩
        · exact .inr ⟨[], s, msgs, s', .nil, rfl, ht, ho⟩
        · have hlt : rest.length < n := by
            rw [← hn]
            simp only [List.length_cons, List.length_append]
            omega
          rcases ih _ hlt hrest rfl with ⟨hs, ho⟩ | ⟨pre, s', msgs', s'', hpre, rfl, ht', ho⟩
          · exact .inl ⟨.session ht rfl hs, ho⟩
          · exact .inr ⟨_, s', msgs', s'', .session ht rfl hpre, by simp, ht', ho⟩
      | message d t => cases ho'
      | close => cases ho'

theorem foldlM_of_trace {s e : SessionType} {msgs : List (Bool × String)} {rest : List Action}
    (hrec : ∀ l l' s', msgs = l ++ l' → Trace Select s l s' → ∀ body, s' ≠ .recur body)
    (ht : Trace Select s msgs e) (he : e = .ended) :
    (messages msgs ++ .close :: rest).foldlM advance (some s) = rest.foldlM advance none := by
  induction ht with
  | nil s =>
    subst he
    rfl
  | @cons s s' s'' d t l hs ht ih =>
    have hnext := SessionType.next_of_select (hrec [] _ s rfl (.nil s)) hs
    have hstep : advance (some s) (.message d t) = some (some s') := by
      have hadv : advance (some s) (.message d t) = (s.next d t).map some := by cases s <;> rfl
      rw [hadv, hnext]
      rfl
    refine Eq.trans ?_ (ih (fun l l' s'' hl ht' => hrec ((d, t) :: l) l' s'' ?_ (.cons hs ht')) he)
    · show ((advance (some s) (.message d t)).bind _) = _
      rw [hstep]
      rfl
    · rw [hl]
      rfl

theorem foldlM_of_sessions {l : List Action} (hrec : RecFree l)
    (h : Sessions Select (· = .ended) l) : l.foldlM advance none = some none := by
  induction h with
  | nil => rfl
  | @session s s' msgs rest ht hs _ ih =>
    refine (foldlM_of_trace (fun l l' s'' hl => ?_) ht hs).trans (ih ?_)
    · refine hrec [] s l (messages l' ++ .close :: rest) s'' ?_
      rw [hl]
      simp [messages]
    · refine RecFree.of_append (l := .openSession s :: (messages msgs ++ [.close])) ?_
      simpa using hrec

/-- If the checker finds nothing, then every channel has sessions of the documented meaning, of
which the last may be left open at `End`. Unless a session comes to a recursion or is left open so,
it finds nothing exactly if every channel has sessions that run through their types with implicit
branch selection. -/
theorem verifySessionTypes_iff (it : KeyOrder UInt32) (events : List SessionEvent)
    (h : (events.map SessionEvent.atNode).Nodup) :
    (verifySessionTypes it events = [] → ∀ v, Sessions Step Finished (channelActions v events) ∨
      LeftAtEnd (channelActions v events)) ∧
    ((∀ v, RecFree (channelActions v events)) → (∀ v, ¬ LeftAtEnd (channelActions v events)) →
      (verifySessionTypes it events = [] ↔
        ∀ v, Sessions Select (· = .ended) (channelActions v events))) := by
  rw [verifySessionTypes_eq_nil_iff it h]
  have hsound : ∀ v, (∃ o, (channelActions v events).foldlM advance none = some o ∧
      (o = none ∨ o = some .ended)) →
      Sessions Select (· = .ended) (channelActions v events) ∨
        LeftAtEnd (channelActions v events) := by
    rintro v ⟨o, ho, hend⟩
    rcases sessions_of_foldlM ho with ⟨hs, -⟩ | ⟨pre, s, msgs, s', hpre, hl, ht, rfl⟩
    · exact .inl hs
    · rcases hend with hend | hend <;> cases hend
      exact .inr ⟨pre, s, msgs, hpre, hl, ht⟩
  refine ⟨fun hall v => (hsound v (hall v)).imp_left fun hs => ?_, fun hrec hleft => ?_⟩
  · refine hs.mono (fun _ _ _ _ => Select.step) ?_
    rintro s rfl
    exact .ended
  · refine forall_congr' fun v => ⟨fun hv => (hsound v hv).resolve_right (hleft v), fun hs => ?_⟩
    exact ⟨none, foldlM_of_sessions (hrec v) hs, .inl rfl⟩

/-! ### Events -/

/-- The type has no recursion. -/
def SessionType.NoRec : SessionType → Prop
  | ended | var _ => True
  | send _ s | recv _ s => s.NoRec
  | choice s₁ s₂ | offer s₁ s₂ => s₁.NoRec ∧ s₂.NoRec
  | recur _ => False

theorem Select.noRec {s s' : SessionType} {d : Bool} {t : String} (h : Select s d t s')
    (hs : s.NoRec) : s'.NoRec := by
  cases h with
  | send | recv => exact hs
  | choice₁ | offer₁ => exact hs.1
  | choice₂ | offer₂ => exact hs.2
  | recur => exact hs.elim

theorem RecFree.of_noRec {l : List Action} (h : ∀ s, .openSession s ∈ l → s.NoRec) :
    RecFree l := by
  rintro pre s msgs rest s' rfl ht body rfl
  have hs : s.NoRec := h s (by simp)
  generalize hr : SessionType.recur body = r at ht
  clear h
  induction ht with
  | nil s =>
    subst hr
    exact hs
  | cons hstep _ ih => exact ih (hstep.noRec hs) hr

/-- Nothing is left open if the last action closes a session. -/
theorem not_leftAtEnd (l : List Action) : ¬ LeftAtEnd (l ++ [.close]) := by
  rintro ⟨pre, s, msgs, -, hl, -⟩
  have hlast := congrArg List.getLast? hl
  rw [List.getLast?_concat, List.getLast?_append_cons] at hlast
  have hmem := List.mem_of_getLast? hlast.symm
  simp [messages] at hmem

/-- A request and a response on one channel, and a choice on another. -/
def twoChannels : List SessionEvent :=
  [⟨.openSession 0 (.send "i32" (.recv "i32" .ended)), 10⟩,
    ⟨.openSession 1 (.choice (.send "i64" .ended) (.send "bool" .ended)), 15⟩,
    ⟨.send 0 "i32", 20⟩, ⟨.send 1 "bool", 25⟩, ⟨.recv 0 "i32", 30⟩, ⟨.close 0, 35⟩,
    ⟨.close 1, 40⟩]

theorem channelActions_of_pairwise {events : List SessionEvent}
    (h : (events.map SessionEvent.atNode).Pairwise (· ≤ ·)) (v : UInt32) :
    channelActions v events = Checker.actionsOf v events := by
  rw [channelActions, List.mergeSort_of_pairwise]
  · rfl
  · refine List.Pairwise.filter _ ?_
    exact (List.pairwise_map.1 h).imp fun h => decide_eq_true h

theorem channelActions_twoChannels (v : UInt32) : channelActions v twoChannels =
    if v = 0 then [.openSession (.send "i32" (.recv "i32" .ended)), .message true "i32",
      .message false "i32", .close]
    else if v = 1 then [.openSession (.choice (.send "i64" .ended) (.send "bool" .ended)),
      .message true "bool", .close]
    else [] := by
  rw [channelActions_of_pairwise (by decide)]
  split_ifs with h₀ h₁
  · subst h₀
    rfl
  · subst h₁
    rfl
  · simp [Checker.actionsOf, twoChannels, SessionEvent.vreg, Ne.symm h₀, Ne.symm h₁]

theorem verifySessionTypes_twoChannels : verifySessionTypes .id twoChannels = [] := by
  refine ((verifySessionTypes_iff .id twoChannels (by decide)).2 (fun v => ?_) fun v => ?_).2
    fun v => ?_
  · refine RecFree.of_noRec fun s hs => ?_
    rw [channelActions_twoChannels] at hs
    split_ifs at hs <;> simp at hs <;> subst hs <;> simp [SessionType.NoRec]
  · rw [channelActions_twoChannels]
    split_ifs
    · exact not_leftAtEnd [_, _, _]
    · exact not_leftAtEnd [_, _]
    · rintro ⟨pre, s, msgs, -, hl, -⟩
      simp at hl
  · rw [channelActions_twoChannels]
    split_ifs
    · exact .session (l := [(true, "i32"), (false, "i32")])
        (.cons (.send _ _) (.cons (.recv _ _) (.nil _))) rfl .nil
    · exact .session (l := [(true, "bool")]) (.cons (.choice₂ _ _ (by simp)) (.nil _)) rfl .nil
    · exact .nil

/-- A choice whose branches start with the same message. -/
def sameStart : List SessionEvent :=
  [⟨.openSession 0 (.choice (.send "i32" (.send "i32" .ended)) (.send "i32" (.recv "i32" .ended))),
      10⟩,
    ⟨.send 0 "i32", 20⟩, ⟨.recv 0 "i32", 30⟩, ⟨.close 0, 40⟩]

/-- The checker has selected the first branch when it sees the second message, which only the second
branch allows. -/
theorem verifySessionTypes_sameStart : (sameStart.map SessionEvent.atNode).Nodup ∧
    verifySessionTypes .id sameStart ≠ [] ∧
      ∀ v, Sessions Step Finished (channelActions v sameStart) := by
  have hnodup : (sameStart.map SessionEvent.atNode).Nodup := by decide
  refine ⟨hnodup, fun hnil => ?_, fun v => ?_⟩
  · obtain ⟨o, ho, -⟩ := (verifySessionTypes_eq_nil_iff .id hnodup).1 hnil 0
    rw [channelActions_of_pairwise (by decide)] at ho
    cases ho
  · rw [channelActions_of_pairwise (by decide)]
    by_cases hv : v = 0
    · subst hv
      exact .session (l := [(true, "i32"), (false, "i32")])
        (.cons (.choice₂ (.send _ _)) (.cons (.recv _ _) (.nil _))) .ended .nil
    · have hnone : Checker.actionsOf v sameStart = [] := by
        simp [Checker.actionsOf, sameStart, SessionEvent.vreg, Ne.symm hv]
      rw [hnone]
      exact .nil

end Vuma.Ive
