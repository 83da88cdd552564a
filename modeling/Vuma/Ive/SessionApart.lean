import Vuma.Ive.SessionProgram

/-!
# Functions checked together and apart

In a program every session has the type `End`, so all that matters for a channel is whether its last
opening or closing was an opening. A handle that is left open by one function is found open by the
next function that uses a register of the same number, and what is then reported changes. The order
of the calls is the order of the program as long as the numbers of their places do not go down.
-/

namespace Vuma.Ive

open IR Lib

/-! ## What is reported when every session is at its end -/

/-- The channels with a session. -/
abbrev Active := UInt32 → Bool

/-- The events that a program gives: a session is opened at its end. -/
def SessionEvent.AtEnd (e : SessionEvent) : Prop :=
  ∀ vreg s, e.kind = .openSession vreg s → s = .ended

/-- What is reported for an event on a channel with or without a session. -/
def report (active : Bool) (e : SessionEvent) : List SessionViolation :=
  match active, e.kind with
  | true, .openSession vreg _ => [.alreadyActive e.atNode vreg]
  | false, .openSession .. => []
  | true, .send vreg _ => [.unexpected true e.atNode vreg .ended]
  | false, .send vreg _ => [.noSession true e.atNode vreg]
  | true, .recv vreg _ => [.unexpected false e.atNode vreg .ended]
  | false, .recv vreg _ => [.noSession false e.atNode vreg]
  | true, .close _ => []
  | false, .close vreg => [.closeNoSession e.atNode vreg]

/-- The channels with a session after an event. -/
def nextActive (active : Active) (e : SessionEvent) : Active :=
  match e.kind with
  | .openSession vreg _ => Function.update active vreg true
  | .close vreg => Function.update active vreg false
  | _ => active

/-- The channels with a session after some events. -/
def leftActive (active : Active) (l : List SessionEvent) : Active := l.foldl nextActive active

/-- What is reported for some events. -/
def reports (active : Active) : List SessionEvent → List SessionViolation
  | [] => []
  | e :: l => report (active e.vreg) e ++ reports (nextActive active e) l

theorem nextActive_apply (active : Active) (e : SessionEvent) (v : UInt32) :
    nextActive active e v = if v = e.vreg then nextActive active e e.vreg else active v := by
  obtain ⟨kind, n⟩ := e
  cases kind <;> simp only [nextActive, SessionEvent.vreg, Function.update_apply] <;>
    split_ifs with h <;> simp [h]

theorem reports_append (active : Active) (l l' : List SessionEvent) :
    reports active (l ++ l') = reports active l ++ reports (leftActive active l) l' := by
  induction l generalizing active with
  | nil => rfl
  | cons e l ih =>
    rw [List.cons_append, reports, reports, ih, List.append_assoc]
    rfl

namespace Checker

/-- The state of the checker when every session is at its end. -/
def Holds (c : Checker) (active : Active) : Prop :=
  ∀ v, c.state.lookup v = if active v then some .ended else none

variable {c : Checker} {active : Active}

theorem Holds.event (h : c.Holds active) {e : SessionEvent} (he : e.AtEnd) :
    (c.event e).results = c.results ++ report (active e.vreg) e ∧
      (c.event e).Holds (nextActive active e) := by
  obtain ⟨kind, n⟩ := e
  have hsame : ∀ isSend vreg t, (c.message isSend vreg t n).results =
      c.results ++ report (active vreg) ⟨if isSend then .send vreg t else .recv vreg t, n⟩ ∧
      (c.message isSend vreg t n).Holds active := by
    intro isSend vreg t
    have hv := h vreg
    cases hactive : active vreg with
    | false =>
      rw [hactive] at hv
      have hnone : c.state.lookup vreg = none := hv
      rw [message_of_lookup_none hnone]
      cases isSend <;> exact ⟨rfl, h⟩
    | true =>
      rw [hactive] at hv
      have hsome : c.state.lookup vreg = some .ended := hv
      cases isSend <;> simp only [message, hsome] <;> exact ⟨rfl, h⟩
  cases kind with
  | openSession vreg s =>
    obtain rfl := he vreg s rfl
    have hv := h vreg
    constructor
    · cases hactive : active vreg <;> rw [hactive] at hv <;> simp only [Checker.event, hv] <;>
        simp [SessionEvent.vreg, report, hactive, push]
    · intro v
      have hinsert : (c.event ⟨.openSession vreg .ended, n⟩).state =
          AList.insert vreg .ended c.state := rfl
      rw [hinsert, HashMap.lookup_insert_ite, h v]
      by_cases hvv : v = vreg <;> simp [nextActive, hvv]
  | send vreg t => exact hsame true vreg t
  | recv vreg t => exact hsame false vreg t
  | close vreg =>
    have hv := h vreg
    cases hactive : active vreg with
    | false =>
      rw [hactive] at hv
      have hnone : c.state.lookup vreg = none := hv
      have hevent : c.event ⟨.close vreg, n⟩ = c.push (.closeNoSession n vreg) := by
        simp only [Checker.event, hnone]
      rw [hevent]
      constructor
      · simp [SessionEvent.vreg, report, hactive, push]
      · intro v
        rw [show (c.push (.closeNoSession n vreg)).state = c.state from rfl, h v]
        by_cases hvv : v = vreg <;> simp [nextActive, hvv, hactive]
    | true =>
      rw [hactive] at hv
      have hsome : c.state.lookup vreg = some .ended := hv
      have hevent : c.event ⟨.close vreg, n⟩ = { c with state := AList.erase vreg c.state } := by
        simp only [Checker.event, hsome]
      rw [hevent]
      constructor
      · simp [SessionEvent.vreg, report, hactive]
      · intro v
        rw [HashMap.lookup_erase_ite, h v]
        by_cases hvv : v = vreg <;> simp [nextActive, hvv]

theorem Holds.foldl (h : c.Holds active) {l : List SessionEvent} (hl : ∀ e ∈ l, e.AtEnd) :
    (l.foldl Checker.event c).results = c.results ++ reports active l ∧
      (l.foldl Checker.event c).Holds (leftActive active l) := by
  induction l generalizing c active with
  | nil => exact ⟨(List.append_nil _).symm, h⟩
  | cons e l ih =>
    rw [List.forall_mem_cons] at hl
    obtain ⟨hresults, hholds⟩ := h.event hl.1
    obtain ⟨hrest, hlast⟩ := ih hholds hl.2
    refine ⟨?_, hlast⟩
    rw [List.foldl_cons, hrest, hresults, reports, List.append_assoc]

end Checker

/-- No channel has a session. -/
def noneActive : Active := fun _ => false

/-- The order in which the events are processed. -/
def processed (events : List SessionEvent) : List SessionEvent :=
  events.mergeSort fun e e' => e.atNode ≤ e'.atNode

/-- When every session is opened at its end, no session is incomplete, and the reports do not depend
on the order of the channels. -/
theorem verifySessionTypes_eq_reports (it : KeyOrder UInt32) {events : List SessionEvent}
    (h : ∀ e ∈ events, e.AtEnd) :
    verifySessionTypes it events = reports noneActive (processed events) := by
  have hempty : Checker.Holds ⟨∅, []⟩ noneActive := fun v => rfl
  obtain ⟨hresults, hholds⟩ := hempty.foldl (l := processed events)
    fun e he => h e (List.mem_mergeSort.1 he)
  rw [verifySessionTypes]
  show ((processed events).foldl Checker.event ⟨∅, []⟩).results ++ _ = _
  rw [hresults, List.filterMap_eq_nil_iff.2, List.append_nil, List.nil_append]
  intro vreg _
  rw [show (events.mergeSort fun e e' => e.atNode ≤ e'.atNode) = processed events from rfl,
    hholds vreg]
  cases leftActive noneActive (processed events) vreg <;> rfl

/-! ## Reports for functions apart -/

theorem reports_congr {active active' : Active} {l : List SessionEvent}
    (h : ∀ e ∈ l, active e.vreg = active' e.vreg) : reports active l = reports active' l := by
  induction l generalizing active active' with
  | nil => rfl
  | cons e l ih =>
    rw [List.forall_mem_cons] at h
    rw [reports, reports, h.1, ih]
    intro e' he'
    rw [nextActive_apply, nextActive_apply active']
    split_ifs with hv
    · obtain ⟨kind, n⟩ := e
      cases kind <;> simp only [nextActive, SessionEvent.vreg, Function.update_self] <;> exact h.1
    · exact h.2 e' he'

/-- A violation that tells of a session where there should be none, or of none where there should be
one. -/
def weight : SessionViolation → ℤ
  | .alreadyActive .. | .unexpected .. => 1
  | .noSession .. | .closeNoSession .. => -1
  | _ => 0

def total (l : List SessionViolation) : ℤ := (l.map weight).sum

theorem total_append (l l' : List SessionViolation) : total (l ++ l') = total l + total l' := by
  simp only [total, List.map_append, List.sum_append]

theorem total_report_lt (e : SessionEvent) : total (report false e) < total (report true e) := by
  obtain ⟨kind, n⟩ := e
  cases kind <;> simp [report, total, weight]

theorem total_report_le {a b : Bool} (h : a = true → b = true) (e : SessionEvent) :
    total (report a e) ≤ total (report b e) := by
  cases a with
  | true => rw [h rfl]
  | false =>
    cases b with
    | true => exact (total_report_lt e).le
    | false => exact le_rfl

theorem nextActive_mono {active active' : Active} (h : ∀ v, active v = true → active' v = true)
    (e : SessionEvent) (v : UInt32) (hv : nextActive active e v = true) :
    nextActive active' e v = true := by
  obtain ⟨kind, n⟩ := e
  cases kind with
  | openSession vreg s =>
    simp only [nextActive, Function.update_apply] at hv ⊢
    split_ifs at hv ⊢
    · rfl
    · exact h v hv
  | send vreg t => exact h v hv
  | recv vreg t => exact h v hv
  | close vreg =>
    simp only [nextActive, Function.update_apply] at hv ⊢
    split_ifs at hv ⊢
    exact h v hv

/-- With more sessions the total is not smaller. -/
theorem total_reports_le {active active' : Active} (h : ∀ v, active v = true → active' v = true)
    (l : List SessionEvent) : total (reports active l) ≤ total (reports active' l) := by
  induction l generalizing active active' with
  | nil => exact le_rfl
  | cons e l ih =>
    rw [reports, reports, total_append, total_append]
    exact Int.add_le_add (total_report_le (h e.vreg) e) (ih (nextActive_mono h e))

theorem total_reports_lt {active active' : Active} (h : ∀ v, active v = true → active' v = true)
    {l : List SessionEvent} (hl : ∃ e ∈ l, active e.vreg = false ∧ active' e.vreg = true) :
    total (reports active l) < total (reports active' l) := by
  induction l generalizing active active' with
  | nil =>
    obtain ⟨e, he, -⟩ := hl
    cases he
  | cons e l ih =>
    rw [reports, reports, total_append, total_append]
    by_cases hhead : active e.vreg = active' e.vreg
    · -- the head is on a channel where nothing differs, so it does not close the difference
      have hrest : total (reports (nextActive active e) l) <
          total (reports (nextActive active' e) l) := by
        apply ih (nextActive_mono h e)
        obtain ⟨e', he', hfalse, htrue⟩ := hl
        have hne : e'.vreg ≠ e.vreg := by
          intro heq
          rw [heq] at hfalse htrue
          rw [hfalse, htrue] at hhead
          exact absurd hhead (by decide)
        have hmem : e' ∈ l := by
          rcases List.mem_cons.1 he' with rfl | hmem
          · exact absurd rfl hne
          · exact hmem
        refine ⟨e', hmem, ?_, ?_⟩
        · rw [nextActive_apply, if_neg hne]
          exact hfalse
        · rw [nextActive_apply, if_neg hne]
          exact htrue
      rw [hhead]
      omega
    · have hrest := total_reports_le (nextActive_mono h e) l
      have hlt := total_report_lt e
      have hfalse : active e.vreg = false := by
        by_contra htrue
        rw [Bool.not_eq_false] at htrue
        exact hhead (htrue.trans (h e.vreg htrue).symm)
      have htrue : active' e.vreg = true := by
        by_contra hne
        rw [Bool.not_eq_true] at hne
        exact hhead (hfalse.trans hne.symm)
      rw [hfalse, htrue]
      omega

theorem noneActive_le {active : Active} (v : UInt32) (h : noneActive v = true) :
    active v = true :=
  absurd h Bool.false_ne_true

/-- No list of events is on a channel that the lists before it leave with a session. -/
def Unshared (active : Active) : List (List SessionEvent) → Prop
  | [] => True
  | l :: ls => (∀ e ∈ l, active e.vreg = false) ∧ Unshared (leftActive active l) ls

theorem unshared_iff {active : Active} {ls : List (List SessionEvent)} : Unshared active ls ↔
    ∀ i l, ls[i]? = some l → ∀ e ∈ l, leftActive active (ls.take i).flatten e.vreg = false := by
  induction ls generalizing active with
  | nil => simp [Unshared]
  | cons l ls ih =>
    rw [Unshared, ih]
    constructor
    · rintro ⟨hhead, htail⟩ i l' hl'
      cases i with
      | zero =>
        obtain rfl := Option.some.inj hl'
        exact hhead
      | succ i =>
        rw [List.take_succ_cons, List.flatten_cons, leftActive, List.foldl_append]
        exact htail i l' hl'
    · intro h
      refine ⟨h 0 l rfl, ?_⟩
      intro i l' hl' e he
      have hsucc := h (i + 1) l' hl' e he
      rw [List.take_succ_cons, List.flatten_cons, leftActive, List.foldl_append] at hsucc
      exact hsucc

theorem reports_flatten {active : Active} {ls : List (List SessionEvent)}
    (h : Unshared active ls) : reports active ls.flatten = ls.flatMap (reports noneActive) := by
  induction ls generalizing active with
  | nil => rfl
  | cons l ls ih =>
    have hhead : reports active l = reports noneActive l := reports_congr h.1
    rw [List.flatten_cons, reports_append, List.flatMap_cons, ih h.2, hhead]

theorem total_flatMap_le (active : Active) (ls : List (List SessionEvent)) :
    total (ls.flatMap (reports noneActive)) ≤ total (reports active ls.flatten) := by
  induction ls generalizing active with
  | nil => exact le_rfl
  | cons l ls ih =>
    rw [List.flatten_cons, reports_append, List.flatMap_cons, total_append, total_append]
    exact Int.add_le_add (total_reports_le noneActive_le l) (ih (leftActive active l))

theorem total_flatMap_lt {active : Active} {ls : List (List SessionEvent)}
    (h : ¬Unshared active ls) :
    total (ls.flatMap (reports noneActive)) < total (reports active ls.flatten) := by
  induction ls generalizing active with
  | nil => exact absurd trivial h
  | cons l ls ih =>
    rw [List.flatten_cons, reports_append, List.flatMap_cons, total_append, total_append]
    by_cases hhead : ∀ e ∈ l, active e.vreg = false
    · have htail := ih fun hrest => h ⟨hhead, hrest⟩
      have hle : total (reports noneActive l) ≤ total (reports active l) :=
        total_reports_le noneActive_le l
      omega
    · have hlt : total (reports noneActive l) < total (reports active l) := by
        apply total_reports_lt noneActive_le
        push Not at hhead
        obtain ⟨e, he, htrue⟩ := hhead
        exact ⟨e, he, rfl, by simpa using htrue⟩
      have htail := total_flatMap_le (leftActive active l) ls
      omega

/-- The reports for all lists are those for each list alone exactly when no list is on a channel
that was left with a session. -/
theorem reports_perm_iff (ls : List (List SessionEvent)) :
    (reports noneActive ls.flatten).Perm (ls.flatMap (reports noneActive)) ↔
      Unshared noneActive ls := by
  constructor
  · intro hperm
    by_contra hshared
    have hlt := total_flatMap_lt hshared
    have heq : total (reports noneActive ls.flatten) =
        total (ls.flatMap (reports noneActive)) := (hperm.map weight).sum_eq
    omega
  · intro h
    rw [reports_flatten h]

/-! ## The functions of a program -/

section

variable {backend : BackendKind} {program : IRProgram}

/-- The program in which all functions but one are empty. -/
def onlyFunction (program : IRProgram) (fi : Nat) : IRProgram where
  functions := program.functions.zipIdx.map fun p =>
    if p.2 = fi then p.1 else { p.1 with blocks := [] }

/-- The events of each function. -/
def functionEvents (backend : BackendKind) (program : IRProgram) : List (List SessionEvent) :=
  program.functions.zipIdx.map fun p => (functionCalls backend p.2 p.1).map ChannelCall.event

theorem flatten_functionEvents :
    (functionEvents backend program).flatten = channelEvents backend program := by
  rw [functionEvents, channelEvents, channelCalls, List.map_flatMap, List.flatMap_def]

theorem atEnd_of_mem_channelEvents {e : SessionEvent} (h : e ∈ channelEvents backend program) :
    e.AtEnd := by
  obtain ⟨c, hc, rfl⟩ := List.mem_map.1 h
  obtain ⟨p, -, hc⟩ := List.mem_flatMap.1 hc
  obtain ⟨q, -, hc⟩ := List.mem_flatMap.1 hc
  obtain ⟨r, -, hc⟩ := List.mem_filterMap.1 hc
  obtain ⟨kind, hkind, rfl⟩ := Option.map_eq_some_iff.1 hc
  intro vreg s hs
  have hs : kind = .openSession vreg s := hs
  subst hs
  obtain ⟨i, j⟩ := r
  cases i with
  | call dst name args ext =>
    simp only [instrEventKind, callEventKind] at hkind
    split_ifs at hkind <;> cases hkind
    rfl
  | _ => cases hkind

theorem zipIdx_map_eq {α : Type} (g : α × Nat → α) (l : List α) (n : Nat) :
    ((l.zipIdx n).map g).zipIdx n = (l.zipIdx n).map fun p => (g p, p.2) := by
  induction l generalizing n with
  | nil => rfl
  | cons a l ih => rw [List.zipIdx_cons, List.map_cons, List.zipIdx_cons, ih, List.map_cons]

theorem flatMap_zipIdx_eq {α β : Type} (g : α × Nat → List β) {l : List α} {n : Nat}
    {p : α × Nat} (hp : p ∈ l.zipIdx n) :
    (l.zipIdx n).flatMap (fun q => if q.2 = p.2 then g q else []) = g p := by
  induction l generalizing n with
  | nil => cases hp
  | cons a l ih =>
    rw [List.zipIdx_cons, List.flatMap_cons]
    rw [List.zipIdx_cons, List.mem_cons] at hp
    rcases hp with rfl | hp
    · have hrest : (l.zipIdx (n + 1)).flatMap (fun q => if q.2 = n then g q else []) = [] := by
        apply List.flatMap_eq_nil_iff.2
        intro q hq
        have hle := List.le_snd_of_mem_zipIdx hq
        rw [if_neg (by omega)]
      rw [if_pos rfl, hrest, List.append_nil]
    · have hle := List.le_snd_of_mem_zipIdx hp
      rw [if_neg (by omega), List.nil_append]
      exact ih hp

/-- Alone a function gives the events that it gives in the program. -/
theorem channelEvents_onlyFunction {p : IRFunction × Nat} (hp : p ∈ program.functions.zipIdx) :
    channelEvents backend (onlyFunction program p.2) =
      (functionCalls backend p.2 p.1).map ChannelCall.event := by
  rw [channelEvents, channelCalls, onlyFunction, zipIdx_map_eq, List.flatMap_map]
  have hcalls : ∀ q : IRFunction × Nat, functionCalls backend q.2
      (if q.2 = p.2 then q.1 else { q.1 with blocks := [] }) =
        if q.2 = p.2 then functionCalls backend q.2 q.1 else [] := by
    intro q
    split_ifs <;> rfl
  simp only [hcalls]
  rw [flatMap_zipIdx_eq (fun q => functionCalls backend q.2 q.1) hp]

/-- What the checker is to do with a program. -/
structure ChecksApart (it : KeyOrder UInt32) (program : IRProgram) (backend : BackendKind) :
    Prop where
  /-- The calls are processed in the lexicographic order of their indices. -/
  inOrder : ∀ calls : List ChannelCall, calls.Perm (channelCalls backend program) →
    calls.Pairwise ChannelCall.Before →
    processed (channelEvents backend program) = calls.map ChannelCall.event
  /-- The verdict is the union of the verdicts on each function alone. -/
  apart : (verifySessionTypesFromIrForBackend it program backend).Perm
    ((List.range program.functions.length).flatMap fun fi =>
      verifySessionTypesFromIrForBackend it (onlyFunction program fi) backend)

/-- The numbers of the places of the calls do not go down. -/
def NumberedInOrder (backend : BackendKind) (program : IRProgram) : Prop :=
  (channelCalls backend program).Pairwise fun c c' => c.atNode ≤ c'.atNode

/-- The handles that the functions before one leave open: the last opening or closing of the handle
is an opening. -/
def leftOpen (backend : BackendKind) (program : IRProgram) (fi : Nat) : Active :=
  leftActive noneActive (channelEvents backend ⟨program.functions.take fi⟩)

/-- No call is on a handle that the functions before leave open under the same number. -/
def HandlesApart (backend : BackendKind) (program : IRProgram) : Prop :=
  ∀ fi f, program.functions[fi]? = some f → ∀ c ∈ functionCalls backend fi f,
    leftOpen backend program fi c.event.vreg = false

theorem processed_eq_iff {events : List SessionEvent} :
    processed events = events ↔ events.Pairwise fun e e' => e.atNode ≤ e'.atNode := by
  constructor
  · intro h
    rw [← h]
    refine (List.pairwise_mergeSort ?_ ?_ events).imp fun hle => of_decide_eq_true hle
    · intro a b c hab hbc
      rw [decide_eq_true_eq] at *
      exact Nat.le_trans hab hbc
    · intro a b
      rw [Bool.or_eq_true, decide_eq_true_eq, decide_eq_true_eq]
      exact Nat.le_total _ _
  · intro h
    exact List.mergeSort_of_pairwise (h.imp fun hle => decide_eq_true hle)

theorem numberedInOrder_iff : NumberedInOrder backend program ↔
    processed (channelEvents backend program) = channelEvents backend program := by
  rw [processed_eq_iff, channelEvents, List.pairwise_map]
  rfl

theorem take_zipIdx {α : Type} (l : List α) (k : Nat) : l.zipIdx.take k = (l.take k).zipIdx := by
  apply List.ext_getElem?
  intro i
  simp only [List.getElem?_take, List.getElem?_zipIdx]
  split_ifs <;> rfl

theorem handlesApart_iff :
    HandlesApart backend program ↔ Unshared noneActive (functionEvents backend program) := by
  have htake : ∀ fi, ((functionEvents backend program).take fi).flatten =
      channelEvents backend ⟨program.functions.take fi⟩ := by
    intro fi
    rw [← flatten_functionEvents, functionEvents, functionEvents, ← List.map_take, take_zipIdx]
  have hget : ∀ fi l, (functionEvents backend program)[fi]? = some l ↔
      ∃ f, program.functions[fi]? = some f ∧
        (functionCalls backend fi f).map ChannelCall.event = l := by
    intro fi l
    rw [functionEvents, List.getElem?_map, List.getElem?_zipIdx, Option.map_map,
      Option.map_eq_some_iff]
    simp only [Function.comp_def, Nat.zero_add]
  rw [unshared_iff]
  constructor
  · intro h fi l hl e he
    obtain ⟨f, hf, rfl⟩ := (hget fi l).1 hl
    obtain ⟨c, hc, rfl⟩ := List.mem_map.1 he
    rw [htake]
    exact h fi f hf c hc
  · intro h fi f hf c hc
    have hcall := h fi _ ((hget fi _).2 ⟨f, hf, rfl⟩) c.event (List.mem_map_of_mem hc)
    rw [htake] at hcall
    exact hcall

theorem verifyFunction_eq_reports (it : KeyOrder UInt32) {p : IRFunction × Nat}
    (hp : p ∈ program.functions.zipIdx) (hsorted : NumberedInOrder backend program) :
    verifySessionTypesFromIrForBackend it (onlyFunction program p.2) backend =
      (reports noneActive ((functionCalls backend p.2 p.1).map ChannelCall.event)).map
        SessionViolationIR.mk := by
  have hsub : ((functionCalls backend p.2 p.1).map ChannelCall.event).Sublist
      (channelEvents backend program) := by
    rw [← flatten_functionEvents]
    exact List.sublist_flatten_of_mem (List.mem_map_of_mem hp)
  have hpairwise := processed_eq_iff.1 (numberedInOrder_iff.1 hsorted)
  rw [verifySessionTypesFromIrForBackend, verifySessionTypes_eq_reports it
    fun e he => atEnd_of_mem_channelEvents he, channelEvents_onlyFunction hp,
    processed_eq_iff.2 (hpairwise.sublist hsub)]

/-- The verdicts on the functions, one after the other. -/
theorem verifyFunctions_eq_reports (it : KeyOrder UInt32)
    (hsorted : NumberedInOrder backend program) :
    ((List.range program.functions.length).flatMap fun fi =>
      verifySessionTypesFromIrForBackend it (onlyFunction program fi) backend) =
      ((functionEvents backend program).flatMap (reports noneActive)).map
        SessionViolationIR.mk := by
  have hrange : List.range program.functions.length = program.functions.zipIdx.map Prod.snd := by
    rw [List.zipIdx_map_snd, List.range_eq_range']
  rw [hrange, List.flatMap_map, functionEvents, List.flatMap_map, List.map_flatMap]
  exact List.flatMap_congr fun p hp => verifyFunction_eq_reports it hp hsorted

theorem verifyProgram_eq_reports (it : KeyOrder UInt32)
    (hsorted : NumberedInOrder backend program) :
    verifySessionTypesFromIrForBackend it program backend =
      (reports noneActive (functionEvents backend program).flatten).map SessionViolationIR.mk := by
  rw [verifySessionTypesFromIrForBackend, verifySessionTypes_eq_reports it
    fun e he => atEnd_of_mem_channelEvents he, numberedInOrder_iff.1 hsorted,
    flatten_functionEvents]

theorem ChecksApart.numberedInOrder {it : KeyOrder UInt32} (h : ChecksApart it program backend) :
    NumberedInOrder backend program :=
  numberedInOrder_iff.2 (h.inOrder _ (.refl _) (pairwise_channelCalls program))

theorem ChecksApart.reports_perm {it : KeyOrder UInt32} (h : ChecksApart it program backend) :
    (reports noneActive (functionEvents backend program).flatten).Perm
      ((functionEvents backend program).flatMap (reports noneActive)) := by
  have hinj : Function.Injective SessionViolationIR.mk :=
    fun v w heq => SessionViolationIR.mk.inj heq
  have hperm := h.apart
  rwa [verifyProgram_eq_reports it h.numberedInOrder,
    verifyFunctions_eq_reports it h.numberedInOrder, List.map_perm_map_iff hinj] at hperm

end

/-- A program is checked in its order and function by function exactly when the numbers of the
places of its calls do not go down, and no function is on a handle that the functions before it
leave open under the same register number. -/
theorem checksApart_iff (it : KeyOrder UInt32) (program : IRProgram) (backend : BackendKind) :
    ChecksApart it program backend ↔
      NumberedInOrder backend program ∧ HandlesApart backend program := by
  constructor
  · intro hapart
    exact ⟨hapart.numberedInOrder,
      handlesApart_iff.2 ((reports_perm_iff _).1 hapart.reports_perm)⟩
  · rintro ⟨hnumbered, hhandles⟩
    constructor
    · intro calls hperm hpairwise
      have hcalls : calls = channelCalls backend program := by
        apply hperm.eq_of_pairwise ?_ hpairwise (pairwise_channelCalls program)
        intro c c' _ _ hbefore hafter
        simp only [ChannelCall.Before] at hbefore hafter
        omega
      rw [numberedInOrder_iff.1 hnumbered, hcalls]
      rfl
    · rw [verifyProgram_eq_reports it hnumbered, verifyFunctions_eq_reports it hnumbered]
      exact ((reports_perm_iff _).2 (handlesApart_iff.1 hhandles)).map _

/-- An opening of a channel in a register, and a closing. -/
def openIn (id : VReg) : IRInstr := .call (some (.register id)) "channel_open" [] true

def closeOf (id : VReg) : IRInstr := .call none "channel_close" [.register id] true

/-- A block that opens a channel after more than a hundred other instructions, and one that closes
it. -/
def longBlock : IRProgram where
  functions := [
    { name := "main"
      blocks := [
        { label := "entry"
          instructions := List.replicate 101 (.free (.register 0)) ++ [openIn 1]
          terminator := .jump "exit" },
        { label := "exit", instructions := [closeOf 1], terminator := .ret [] }] }]

/-- A function that returns an open channel, and one that opens and closes its own. -/
def twoOpeners : IRProgram where
  functions := [
    { name := "connect"
      blocks := [
        { label := "entry", instructions := [openIn 1], terminator := .ret [.register 1] }] },
    { name := "main"
      blocks := [
        { label := "entry", instructions := [openIn 1, closeOf 1], terminator := .ret [] }] }]

/-- The closing in the second block is processed before the opening, and the channel of one function
is found open by another. -/
theorem not_checksApart : ¬ChecksApart .id longBlock .aArch64 ∧
    ¬ChecksApart .id twoOpeners .aArch64 := by
  constructor
  · intro h
    have hcalls : channelCalls .aArch64 longBlock =
        [⟨0, 0, 101, .openSession 1 .ended⟩, ⟨0, 1, 0, .close 1⟩] := by rfl
    have hnumbered := h.numberedInOrder
    rw [NumberedInOrder, hcalls, List.pairwise_pair] at hnumbered
    exact absurd hnumbered (by decide)
  · intro h
    exact absurd h.reports_perm.length_eq (by decide)

end Vuma.Ive
