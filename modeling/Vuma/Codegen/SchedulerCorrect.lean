import Vuma.Codegen.Scheduler
import Vuma.IR.Commute
import Vuma.IR.Lockstep
import Vuma.Lib.ListSchedule
import Vuma.Lib.Reorder

/-!
# What the scheduler preserves

The check at the end of the scheduler makes sure that the schedule keeps every edge of the
dependence graph. It is the graph that is incomplete: it has no edges from a use of a register to a
later definition, none between two definitions, and none for the effects it does not list. A block
keeps its meaning when every two of its instructions that conflict are connected in the graph, and
when its control instructions are its last ones, since they are moved there.
-/

namespace Vuma.Codegen

open IR

/-! ## The schedule is a permutation that keeps the edges -/

theorem mem_of_popReady {es rest : List ReadyEntry} {e : ReadyEntry}
    (h : popReady es = some (e, rest)) : e ∈ es ∧ ∀ e' ∈ rest, e' ∈ es := by
  induction es generalizing e rest with
  | nil => cases h
  | cons a es ih =>
    rw [popReady] at h
    cases hpop : popReady es with
    | none =>
      rw [hpop] at h
      cases h
      simp
    | some p =>
      obtain ⟨m, rest'⟩ := p
      rw [hpop] at h
      obtain ⟨hm, hrest'⟩ := ih hpop
      dsimp only at h
      split at h
      · cases h
        exact ⟨List.mem_cons_self, fun _ he => List.mem_cons_of_mem a he⟩
      · cases h
        refine ⟨List.mem_cons_of_mem a hm, fun e' he => ?_⟩
        rcases List.mem_cons.mp he with rfl | he
        · exact List.mem_cons_self
        · exact List.mem_cons_of_mem a (hrest' e' he)

/-- What holds in every state of the scheduling loop. -/
structure SchedInv (n : Nat) (s : SchedState) : Prop where
  nodup : s.scheduled.Nodup
  scheduled_lt : ∀ i ∈ s.scheduled, i < n
  ready_lt : ∀ e ∈ s.ready, e.idx < n

theorem releaseSuccs_inv {n : Nat} {entry : Nat → ReadyEntry} (hentry : ∀ i, (entry i).idx = i)
    {succs : List Nat} (hsuccs : ∀ i ∈ succs, i < n) {s : SchedState} (h : SchedInv n s) :
    SchedInv n (releaseSuccs entry succs s) := by
  induction succs generalizing s with
  | nil => exact h
  | cons j succs ih =>
    have hrest : ∀ i ∈ succs, i < n := fun i hi => hsuccs i (List.mem_cons_of_mem j hi)
    rw [releaseSuccs]
    split
    · refine ih hrest ⟨h.nodup, h.scheduled_lt, fun e he => ?_⟩
      dsimp only at he
      split at he
      · rcases List.mem_cons.mp he with rfl | he
        · rw [hentry]
          exact hsuccs j List.mem_cons_self
        · exact h.ready_lt e he
      · exact h.ready_lt e he
    · exact ih hrest h

theorem lt_of_mem_succsAt {preds : List (List Nat)} {i j : Nat} (h : j ∈ succsAt preds i) :
    j < preds.length := by
  simp only [succsAt, List.mem_flatMap, List.mem_range, List.mem_map] at h
  obtain ⟨k, hk, _, _, rfl⟩ := h
  exact hk

theorem schedStep_inv {preds : List (List Nat)} {entry : Nat → ReadyEntry}
    (hentry : ∀ i, (entry i).idx = i) {s : SchedState} (h : SchedInv preds.length s) :
    SchedInv preds.length (schedStep preds entry s) := by
  unfold schedStep
  cases hpop : popReady s.ready with
  | none => exact h
  | some p =>
    obtain ⟨e, rest⟩ := p
    obtain ⟨he, hrest⟩ := mem_of_popReady hpop
    have hready : ∀ e ∈ rest, e.idx < preds.length := fun e' he' => h.ready_lt e' (hrest e' he')
    dsimp only
    split
    · exact ⟨h.nodup, h.scheduled_lt, hready⟩
    · next hnew =>
      refine releaseSuccs_inv hentry (fun j hj => lt_of_mem_succsAt hj) ⟨?_, ?_, hready⟩
      · refine List.nodup_append.mpr ⟨h.nodup, List.nodup_singleton _, ?_⟩
        rintro a ha _ hb rfl
        rw [List.mem_singleton] at hb
        subst hb
        exact hnew (by simpa using ha)
      · intro i hi
        rcases List.mem_append.mp hi with hi | hi
        · exact h.scheduled_lt i hi
        · rw [List.mem_singleton.mp hi]
          exact h.ready_lt e he

theorem schedLoop_inv {preds : List (List Nat)} {entry : Nat → ReadyEntry}
    (hentry : ∀ i, (entry i).idx = i) (fuel : Nat) {s : SchedState}
    (h : SchedInv preds.length s) : SchedInv preds.length (schedLoop preds entry fuel s) := by
  induction fuel generalizing s with
  | zero => exact h
  | succ fuel ih =>
    rw [schedLoop]
    split
    · exact h
    · exact ih (schedStep_inv hentry h)

theorem eq_nil_of_popReady {es : List ReadyEntry} (h : popReady es = none) : es = [] := by
  cases es with
  | nil => rfl
  | cons e es =>
    rw [popReady] at h
    split at h
    · cases h
    · split at h <;> cases h

theorem length_of_popReady {es rest : List ReadyEntry} {e : ReadyEntry}
    (h : popReady es = some (e, rest)) : es.length = rest.length + 1 := by
  induction es generalizing e rest with
  | nil => cases h
  | cons a es ih =>
    rw [popReady] at h
    cases hpop : popReady es with
    | none =>
      rw [hpop] at h
      cases h
      rw [eq_nil_of_popReady hpop]
      rfl
    | some p =>
      obtain ⟨m, rest'⟩ := p
      rw [hpop] at h
      dsimp only at h
      split at h
      · cases h
        rfl
      · cases h
        rw [List.length_cons, List.length_cons, ih hpop]

theorem sum_map_update {l : List Nat} (hl : l.Nodup) {j : Nat} (hj : j ∈ l) (f : Nat → Nat)
    (v : Nat) : (l.map (Function.update f j v)).sum + f j = (l.map f).sum + v := by
  induction l with
  | nil => cases hj
  | cons a l ih =>
    obtain ⟨ha, hl'⟩ := List.nodup_cons.mp hl
    by_cases haj : a = j
    · subst haj
      have hrest : l.map (Function.update f a v) = l.map f := by
        refine List.map_congr_left fun b hb => Function.update_of_ne ?_ v f
        rintro rfl
        exact ha hb
      rw [List.map_cons, List.map_cons, List.sum_cons, List.sum_cons, hrest,
        Function.update_self]
      omega
    · have hmem : j ∈ l := by
        rcases List.mem_cons.mp hj with h | h
        · exact absurd h.symm haj
        · exact h
      have := ih hl' hmem
      rw [List.map_cons, List.map_cons, List.sum_cons, List.sum_cons,
        Function.update_of_ne haj]
      omega

/-- What bounds the number of iterations that are left. -/
def SchedState.work (n : Nat) (s : SchedState) : Nat :=
  s.ready.length + ((List.range n).map s.remainingPreds).sum

theorem releaseSuccs_work {n : Nat} {entry : Nat → ReadyEntry} {succs : List Nat}
    (hsuccs : ∀ i ∈ succs, i < n) (s : SchedState) :
    (releaseSuccs entry succs s).work n ≤ s.work n := by
  induction succs generalizing s with
  | nil => exact Nat.le_refl _
  | cons j succs ih =>
    have hrest : ∀ i ∈ succs, i < n := fun i hi => hsuccs i (List.mem_cons_of_mem j hi)
    rw [releaseSuccs]
    split
    · next hpos =>
      refine Nat.le_trans (ih hrest _) ?_
      have hsum := sum_map_update List.nodup_range
        (List.mem_range.mpr (hsuccs j List.mem_cons_self)) s.remainingPreds
        (s.remainingPreds j - 1)
      unfold SchedState.work
      dsimp only
      split
      · rw [List.length_cons]
        omega
      · omega
    · exact ih hrest s

theorem schedStep_work (preds : List (List Nat)) (entry : Nat → ReadyEntry) {s : SchedState}
    (h : s.ready ≠ []) : (schedStep preds entry s).work preds.length < s.work preds.length := by
  unfold schedStep
  cases hpop : popReady s.ready with
  | none => exact absurd (eq_nil_of_popReady hpop) h
  | some p =>
    obtain ⟨e, rest⟩ := p
    have hlen := length_of_popReady hpop
    dsimp only
    split
    · unfold SchedState.work
      dsimp only
      omega
    · refine Nat.lt_of_le_of_lt (releaseSuccs_work (fun j hj => lt_of_mem_succsAt hj) _) ?_
      unfold SchedState.work
      dsimp only
      omega

/-- The scheduling loop runs until the heap is empty. -/
theorem schedLoop_ready {preds : List (List Nat)} {entry : Nat → ReadyEntry} {fuel : Nat}
    {s : SchedState} (h : s.work preds.length ≤ fuel) :
    (schedLoop preds entry fuel s).ready = [] := by
  induction fuel generalizing s with
  | zero =>
    have hlen : s.ready.length = 0 := Nat.le_zero.mp (Nat.le_trans (Nat.le_add_right _ _) h)
    exact List.eq_nil_of_length_eq_zero hlen
  | succ fuel ih =>
    rw [schedLoop]
    split
    · assumption
    · next hready =>
      have := schedStep_work preds entry hready
      exact ih (by omega)

theorem length_buildPreds (before : List IRInstr) (lastDef : VReg → Option Nat)
    (is : List IRInstr) : (buildPreds before lastDef is).length = is.length := by
  induction is generalizing before lastDef with
  | nil => rfl
  | cons i is ih => rw [buildPreds, List.length_cons, ih, List.length_cons]

theorem length_ddg (is : List IRInstr) : (ddg is).length = is.length := length_buildPreds _ _ is

theorem listSchedule_inv (latencyTable : String → Nat) (is : List IRInstr) :
    (listSchedule latencyTable is).Nodup ∧ ∀ i ∈ listSchedule latencyTable is, i < is.length := by
  unfold listSchedule
  extract_lets n preds latency paths entry ready fuel
  have hstart : SchedInv preds.length ⟨[], ready, fun i => (predsAt preds i).length⟩ := by
    refine ⟨List.nodup_nil, by simp, fun e he => ?_⟩
    obtain ⟨i, hi, rfl⟩ := List.mem_map.mp he
    rw [length_ddg]
    exact List.mem_range.mp (List.mem_filter.mp hi).1
  have hentry : ∀ i, (entry i).idx = i := fun _ => rfl
  have hinv := schedLoop_inv hentry fuel hstart
  refine ⟨hinv.nodup, fun i hi => ?_⟩
  rw [← length_ddg is]
  exact hinv.scheduled_lt i hi

/-- The instruction at index `j` waits for the one at index `i`, directly or through others. -/
def DependsOn (is : List IRInstr) : Nat → Nat → Prop :=
  Relation.TransGen fun i j => i ∈ predsAt (ddg is) j

theorem idxOf_lt_of_dependsOn {is : List IRInstr} {order : List Nat}
    (h : respects (ddg is) order = true) {i j : Nat} (hij : DependsOn is i j) :
    order.idxOf i < order.idxOf j := by
  have hedge : ∀ i j, i ∈ predsAt (ddg is) j → order.idxOf i < order.idxOf j := by
    intro i j hmem
    have hj : j < (ddg is).length := by
      by_contra hge
      simp [predsAt, List.getElem?_eq_none (Nat.le_of_not_lt hge)] at hmem
    have hall := List.all_eq_true.mp h j (List.mem_range.mpr hj)
    simpa using List.all_eq_true.mp hall i hmem
  induction hij with
  | single hmem => exact hedge _ _ hmem
  | tail _ hmem ih => exact Nat.lt_trans ih (hedge _ _ hmem)

/-- The order of a list of instructions: a permutation that never puts an instruction before one it
waits for. -/
structure GoodOrder (is : List IRInstr) (order : List Nat) : Prop where
  perm : order.Perm (List.range is.length)
  keeps : ∀ i j, i < j → DependsOn is i j → ¬ [j, i].Sublist order

theorem not_sublist_range {n i j : Nat} (h : i < j) : ¬ [j, i].Sublist (List.range n) := by
  intro hsub
  have := (List.pairwise_lt_range (n := n)).sublist hsub
  simp only [List.pairwise_cons, List.mem_singleton, forall_eq] at this
  omega

theorem goodOrder_range (is : List IRInstr) : GoodOrder is (List.range is.length) :=
  ⟨.refl _, fun _ _ h _ => not_sublist_range h⟩

theorem goodOrder_scheduleBlockInner (latencyTable : String → Nat) (noReorder : Bool)
    (is : List IRInstr) : GoodOrder is (scheduleBlockInner latencyTable noReorder is) := by
  obtain ⟨hnodup, hlt⟩ := listSchedule_inv latencyTable is
  unfold scheduleBlockInner
  extract_lets n scheduled
  split
  · exact goodOrder_range is
  split
  · exact goodOrder_range is
  split
  · exact goodOrder_range is
  next hlen =>
    split
    · next hresp =>
      refine ⟨?_, fun i j _ hdep hsub => ?_⟩
      · have hsubset : scheduled ⊆ List.range n := fun i hi => List.mem_range.mpr (hlt i hi)
        refine (List.subperm_of_subset hnodup hsubset).perm_of_length_le ?_
        rw [List.length_range]
        exact Nat.le_of_eq (not_not.mp hlen).symm
      · exact Nat.lt_asymm (idxOf_lt_of_dependsOn hresp hdep) (Lib.idxOf_lt_of_sublist hnodup hsub)
    · exact goodOrder_range is

/-! ## Reordering instructions -/

/-- The instructions at the given indices. -/
def pick (is : List IRInstr) (order : List Nat) : List IRInstr := order.filterMap (is[·]?)

theorem pick_range (is : List IRInstr) : pick is (List.range is.length) = is := by
  unfold pick
  induction is with
  | nil => rfl
  | cons i is ih =>
    rw [List.length_cons, List.range_succ_eq_map, List.filterMap_cons, List.filterMap_map]
    simpa [Function.comp_def] using ih

/-- A permutation changes nothing when every two instructions that it reverses may change places. -/
theorem execInstrs_reorder {M : Machine} {label : String} {pred : Option String} {edge : Regs}
    {is before after : List IRInstr} {order : List Nat} (hperm : order.Perm (List.range is.length))
    (h : ∀ i j x y, i < j → is[i]? = some x → is[j]? = some y → [j, i].Sublist order →
      x.conflicts y = false ∧ x.isControl = false ∧ y.isControl = false) (σ : Regs) (w : World) :
    execInstrs M label pred edge (before ++ pick is order ++ after) σ w =
      execInstrs M label pred edge (before ++ is ++ after) σ w := by
  have hreorder := Lib.reorder_eq
    (R := fun i j => ∀ x y, is[i]? = some x → is[j]? = some y →
      x.conflicts y = false ∧ x.isControl = false ∧ y.isControl = false)
    (f := fun order => execInstrs M label pred edge (before ++ pick is order ++ after) σ w)
    ?_ hperm ?_
  · simpa [pick_range] using hreorder
  · intro front i j back hindep
    simp only [pick, List.filterMap_append, List.filterMap_cons]
    cases hi : is[i]? with
    | none => rfl
    | some x =>
      cases hj : is[j]? with
      | none => rfl
      | some y =>
        obtain ⟨hconf, hx, hy⟩ := hindep x y hi hj
        simpa using execInstrs_swap M label pred edge hconf hx hy
          (before ++ front.filterMap (is[·]?)) (back.filterMap (is[·]?) ++ after) σ w
  · intro i j hij hji x y hi hj
    have hlt : i < j := by
      have := (List.pairwise_lt_range (n := is.length)).sublist hij
      simpa using this
    exact h i j x y hlt hi hj hji

/-- Every two instructions that conflict are connected in the dependence graph. -/
def ConflictsOrdered (is : List IRInstr) : Prop :=
  ∀ i j x y, i < j → is[i]? = some x → is[j]? = some y → x.conflicts y = true → DependsOn is i j

theorem execInstrs_pick {M : Machine} {label : String} {pred : Option String} {edge : Regs}
    {is before after : List IRInstr} {order : List Nat} (hcontrol : ∀ i ∈ is, i.isControl = false)
    (h : GoodOrder is order) (hconf : ConflictsOrdered is) (σ : Regs) (w : World) :
    execInstrs M label pred edge (before ++ pick is order ++ after) σ w =
      execInstrs M label pred edge (before ++ is ++ after) σ w := by
  refine execInstrs_reorder h.perm (fun i j x y hlt hi hj hji => ⟨?_, ?_, ?_⟩) σ w
  · by_contra hne
    exact h.keeps i j hlt (hconf i j x y hlt hi hj (by simpa using hne)) hji
  · exact hcontrol x (List.mem_of_getElem? hi)
  · exact hcontrol y (List.mem_of_getElem? hj)

/-! ## Blocks -/

theorem map_indicesWhere (p : IRInstr → Bool) (is : List IRInstr) :
    (indicesWhere p is).map (is[·]?) = (is.filter p).map some := by
  have hget : ∀ e ∈ is.zipIdx.filter (fun e => p e.1), is[e.2]? = some e.1 := fun e he =>
    List.mem_zipIdx_iff_getElem?.mp (List.mem_filter.mp he).1
  have hfst : (is.zipIdx.filter fun e => p e.1).map Prod.fst = is.filter p := by
    have := List.filter_map (f := Prod.fst) (p := p) (l := is.zipIdx)
    rw [List.zipIdx_map_fst] at this
    rw [this]
    rfl
  rw [indicesWhere, List.map_map, ← hfst, List.map_map]
  exact List.map_congr_left fun e he => hget e he

/-- No other instruction comes after a control instruction. -/
def ControlLast (is : List IRInstr) : Prop :=
  is.Pairwise fun i j => i.isControl = true → j.isControl = true

theorem ControlLast.eq_append {is : List IRInstr} (h : ControlLast is) :
    is = is.filter (fun i => !i.isControl) ++ is.filter IRInstr.isControl := by
  induction is with
  | nil => rfl
  | cons i is ih =>
    obtain ⟨hi, his⟩ := List.pairwise_cons.mp h
    cases hc : i.isControl with
    | false =>
      rw [List.filter_cons_of_pos (by simp [hc]), List.filter_cons_of_neg (by simp [hc]),
        List.cons_append, ← ih his]
    | true =>
      have hall : ∀ j ∈ is, j.isControl = true := fun j hj => hi j hj hc
      rw [List.filter_cons_of_neg (by simp [hc]), List.filter_cons_of_pos (by simp [hc]),
        List.filter_eq_nil_iff.mpr (by simpa using hall), List.filter_eq_self.mpr hall]
      rfl

/-- The instructions that the scheduler may move. -/
def schedulable (is : List IRInstr) : List IRInstr :=
  (is.dropWhile IRInstr.isPhi).filter fun i => !i.isControl

/-- The block is too short to be changed, or its control instructions come last and what may be
moved is left alone or has all its conflicts in the dependence graph. -/
def SchedSafe (noReorder : Bool) (is : List IRInstr) : Prop :=
  is.length ≤ 2 ∨ ControlLast (is.dropWhile IRInstr.isPhi) ∧
    (noReorder = true ∨ (schedulable is).length ≤ 2 ∨ ConflictsOrdered (schedulable is))

theorem pick_append (is : List IRInstr) (a b : List Nat) :
    pick is (a ++ b) = pick is a ++ pick is b := List.filterMap_append

theorem pick_indicesWhere (p : IRInstr → Bool) (is : List IRInstr) :
    pick is (indicesWhere p is) = is.filter p := by
  have h := congrArg (List.filterMap id) (map_indicesWhere p is)
  rw [List.filterMap_map, List.filterMap_map] at h
  simpa [pick, Function.comp_def] using h

theorem pick_map_add (front back : List IRInstr) (order : List Nat) :
    pick (front ++ back) (order.map (· + front.length)) = pick back order := by
  rw [pick, pick, List.filterMap_map]
  refine List.filterMap_congr fun i _ => ?_
  rw [Function.comp_apply, List.getElem?_append_right (Nat.le_add_left _ i), Nat.add_sub_cancel]

theorem pick_range_append (front back : List IRInstr) :
    pick (front ++ back) (List.range front.length) = front := by
  have h : pick (front ++ back) (List.range front.length) =
      pick front (List.range front.length) := by
    refine List.filterMap_congr fun i hi => ?_
    exact List.getElem?_append_left (List.mem_range.mp hi)
  rw [h, pick_range]

/-- Indices into the instructions that satisfy a test, as indices into all instructions. -/
theorem pick_map_indicesWhere {p : IRInstr → Bool} {is : List IRInstr} {order : List Nat}
    (h : ∀ i ∈ order, i < (is.filter p).length) :
    pick is (order.map fun i => (indicesWhere p is).getD i 0) = pick (is.filter p) order := by
  rw [pick, pick, List.filterMap_map]
  refine List.filterMap_congr fun i hi => ?_
  have hlen : (indicesWhere p is).length = (is.filter p).length := by
    simpa using congrArg List.length (map_indicesWhere p is)
  have hi' : i < (indicesWhere p is).length := by
    rw [hlen]
    exact h i hi
  have hget := congrArg (·[i]?) (map_indicesWhere p is)
  simp only [List.getElem?_map, List.getElem?_eq_getElem hi',
    List.getElem?_eq_getElem (h i hi), Option.map_some, Option.some.injEq] at hget
  rw [Function.comp_apply, List.getD_eq_getElem?_getD, List.getElem?_eq_getElem hi',
    Option.getD_some, hget, List.getElem?_eq_getElem (h i hi)]

section

variable (latencyTable : String → Nat) (noReorder : Bool)

theorem pick_scheduleBlock {is : List IRInstr} (h : 2 < is.length) :
    pick is (scheduleBlock latencyTable noReorder is) =
      is.takeWhile IRInstr.isPhi ++
        pick (schedulable is) (scheduleBlockInner latencyTable noReorder (schedulable is)) ++
        (is.dropWhile IRInstr.isPhi).filter IRInstr.isControl := by
  have hsplit : is.takeWhile IRInstr.isPhi ++ is.dropWhile IRInstr.isPhi = is :=
    List.takeWhile_append_dropWhile
  have hdrop : is.drop (is.takeWhile IRInstr.isPhi).length = is.dropWhile IRInstr.isPhi := by
    have hleft : (is.takeWhile IRInstr.isPhi ++ is.dropWhile IRInstr.isPhi).drop
        (is.takeWhile IRInstr.isPhi).length = is.dropWhile IRInstr.isPhi := List.drop_left
    rwa [hsplit] at hleft
  unfold scheduleBlock
  rw [if_neg (by omega)]
  extract_lets phiCount nonPhi sIdx cIdx order
  by_cases hall : phiCount = is.length
  · have hnil : is.dropWhile IRInstr.isPhi = [] := by
      have := congrArg List.length hsplit
      rw [List.length_append] at this
      exact List.eq_nil_of_length_eq_zero (by omega)
    have hphis : is.takeWhile IRInstr.isPhi = is := by rwa [hnil, List.append_nil] at hsplit
    rw [if_pos hall, pick_range, schedulable, hnil, hphis]
    simp [pick]
  · have hnonPhi : nonPhi = is.dropWhile IRInstr.isPhi := hdrop
    have hinner : sIdx.filterMap (fun i => nonPhi[i]?) = schedulable is := by
      rw [schedulable, ← hnonPhi]
      exact pick_indicesWhere (fun i => !i.isControl) nonPhi
    have hlt : ∀ i ∈ order, i < (schedulable is).length := by
      intro i hi
      have hperm := (goodOrder_scheduleBlockInner latencyTable noReorder
        (sIdx.filterMap fun i => nonPhi[i]?)).perm
      rw [← hinner]
      exact List.mem_range.mp (hperm.subset hi)
    have hphis : pick is (List.range phiCount) = is.takeWhile IRInstr.isPhi := by
      have := pick_range_append (is.takeWhile IRInstr.isPhi) (is.dropWhile IRInstr.isPhi)
      rwa [hsplit] at this
    have hshift : ∀ l : List Nat, pick is (l.map (· + phiCount)) = pick nonPhi l := by
      intro l
      have := pick_map_add (is.takeWhile IRInstr.isPhi) (is.dropWhile IRInstr.isPhi) l
      rwa [hsplit, ← hnonPhi] at this
    have hmoved : pick is (order.map fun idx => sIdx.getD idx 0 + phiCount) =
        pick (schedulable is) order := by
      have := hshift (order.map fun idx => sIdx.getD idx 0)
      rw [List.map_map] at this
      rw [schedulable, ← hnonPhi] at hlt ⊢
      exact this.trans (pick_map_indicesWhere hlt)
    have horder : order = scheduleBlockInner latencyTable noReorder (schedulable is) :=
      congrArg (scheduleBlockInner latencyTable noReorder) hinner
    rw [if_neg hall, pick_append, pick_append, hphis, hmoved, hshift, horder, ← hnonPhi]
    congr 1
    exact pick_indicesWhere _ _

/-- A block with all its conflicts in the dependence graph does what it did. -/
theorem execInstrs_scheduleIRBlock {b : IRBlock} (h : SchedSafe noReorder b.instructions)
    (M : Machine) (pred : Option String) (σ : Regs) (w : World) :
    execInstrs M b.label pred σ (scheduleIRBlock latencyTable noReorder b).instructions σ w =
      execInstrs M b.label pred σ b.instructions σ w := by
  unfold scheduleIRBlock
  split
  · rfl
  next hlen =>
    rcases h with h | ⟨hlast, hsafe⟩
    · exact absurd h hlen
    have hcontrol : ∀ i ∈ schedulable b.instructions, i.isControl = false := fun i hi => by
      simpa using (List.mem_filter.mp hi).2
    have hwhole : b.instructions = b.instructions.takeWhile IRInstr.isPhi ++
        schedulable b.instructions ++
        (b.instructions.dropWhile IRInstr.isPhi).filter IRInstr.isControl := by
      rw [List.append_assoc, schedulable, ← hlast.eq_append, List.takeWhile_append_dropWhile]
    conv_rhs => rw [hwhole]
    change execInstrs M b.label pred σ (pick b.instructions _) σ w = _
    rw [pick_scheduleBlock latencyTable noReorder (by omega)]
    rcases hsafe with hno | hshort | hconf
    · rw [scheduleBlockInner]
      simp only [hno, if_true, ite_self, pick_range]
    · rw [scheduleBlockInner]
      simp only [if_pos hshort, pick_range]
    · exact execInstrs_pick hcontrol (goodOrder_scheduleBlockInner latencyTable noReorder _)
        hconf σ w

theorem scheduleIRBlock_label (b : IRBlock) :
    (scheduleIRBlock latencyTable noReorder b).label = b.label := by
  unfold scheduleIRBlock
  split <;> rfl

theorem scheduleIRBlock_terminator (b : IRBlock) :
    (scheduleIRBlock latencyTable noReorder b).terminator = b.terminator := by
  unfold scheduleIRBlock
  split <;> rfl

end

/-- From any registers and memory, every scheduled block goes through the same effects to the same
registers and memory as the original, if every block is safe to schedule. -/
theorem scheduleFunction_preserves (latencyTable : String → Nat) (noReorder : Bool)
    (blocks : List IRBlock) (h : ∀ b ∈ blocks, SchedSafe noReorder b.instructions) (M : Machine) :
    List.Forall₂ (fun b' b => b'.label = b.label ∧ b'.terminator = b.terminator ∧
      ∀ pred σ w, execInstrs M b'.label pred σ b'.instructions σ w =
        execInstrs M b.label pred σ b.instructions σ w)
      (scheduleFunction latencyTable noReorder blocks) blocks := by
  rw [scheduleFunction, List.forall₂_map_left_iff, List.forall₂_same]
  intro b hb
  refine ⟨scheduleIRBlock_label .., scheduleIRBlock_terminator .., fun pred σ w => ?_⟩
  rw [scheduleIRBlock_label]
  exact execInstrs_scheduleIRBlock latencyTable noReorder (h b hb) M pred σ w

/-- Increment a cell in memory, with a product on the side that may go anywhere. -/
def incrementCell : IRBlock where
  label := "body"
  instructions :=
    [.load (.register 1) (.register 0) 0 .u64,
      .add (.register 2) (.register 1) (.immediate 1) none,
      .mul (.register 3) (.register 4) (.register 5) none,
      .store (.register 2) (.register 0) 0 .u64]
  terminator := .jump "exit"

theorem schedSafe_incrementCell : SchedSafe false incrementCell.instructions := by
  refine .inr ⟨?_, .inr (.inr ?_)⟩
  · simp [ControlLast, incrementCell, IRInstr.isPhi, IRInstr.isControl]
  · have hdep : ∀ i j : Fin 4, i < j →
        ((schedulable incrementCell.instructions).getD i (.branch "")).conflicts
          ((schedulable incrementCell.instructions).getD j (.branch "")) = true →
        i.val ∈ predsAt (ddg (schedulable incrementCell.instructions)) j := by decide
    intro i j x y hlt hi hj hconf
    have hlen : (schedulable incrementCell.instructions).length = 4 := rfl
    have hi' := (List.getElem?_eq_some_iff.mp hi).1
    have hj' := (List.getElem?_eq_some_iff.mp hj).1
    refine .single (hdep ⟨i, by omega⟩ ⟨j, by omega⟩ hlt ?_)
    rwa [List.getD_eq_getElem?_getD, List.getD_eq_getElem?_getD, hi, hj]

theorem scheduleFunction_incrementCell :
    SchedSafe false incrementCell.instructions ∧
    List.Forall₂ (fun b' b => b'.label = b.label ∧ b'.terminator = b.terminator ∧
      ∀ pred σ w, execInstrs default b'.label pred σ b'.instructions σ w =
        execInstrs default b.label pred σ b.instructions σ w)
      (scheduleFunction (fun _ => 1) false [incrementCell]) [incrementCell] := by
  refine ⟨schedSafe_incrementCell, scheduleFunction_preserves _ _ _ ?_ default⟩
  intro b hb
  rw [List.mem_singleton.mp hb]
  exact schedSafe_incrementCell

/-- The copies of three phis at the end of a block: each overwrites what the one before has read. -/
def phiCopies : IRBlock where
  label := "body"
  instructions :=
    [.add (.register 1) (.register 2) (.immediate 0) none,
      .add (.register 2) (.register 3) (.immediate 0) none,
      .add (.register 3) (.register 4) (.immediate 0) none]
  terminator := .jump "exit"

/-- Three messages on one channel. -/
def threeSends : IRBlock where
  label := "body"
  instructions :=
    [.channelSend (.register 0) (.register 1) none,
      .channelSend (.register 0) (.register 2) none,
      .channelSend (.register 0) (.register 3) none]
  terminator := .jump "exit"

/-- Register `r` holds `r`. -/
def countingRegs : Regs := fun r => BitVec.ofNat 64 r

/-- The scheduler turns both lists around: the copies then read what they should not, and the
messages go out in the wrong order. -/
theorem scheduleFunction_unsound :
    execInstrs default "body" none countingRegs
        (scheduleIRBlock (fun _ => 1) false phiCopies).instructions countingRegs ⟨fun _ => 0, []⟩ ≠
      execInstrs default "body" none countingRegs phiCopies.instructions countingRegs
        ⟨fun _ => 0, []⟩ ∧
    execInstrs default "body" none countingRegs
        (scheduleIRBlock (fun _ => 1) false threeSends).instructions countingRegs ⟨fun _ => 0, []⟩ ≠
      execInstrs default "body" none countingRegs threeSends.instructions countingRegs
        ⟨fun _ => 0, []⟩ := by
  have hcopies : (scheduleIRBlock (fun _ => 1) false phiCopies).instructions =
      phiCopies.instructions.reverse := by decide
  have hsends : (scheduleIRBlock (fun _ => 1) false threeSends).instructions =
      threeSends.instructions.reverse := by decide
  rw [hcopies, hsends]
  constructor
  · intro h
    have hregs := congrArg (fun flow : IR.Flow =>
      IR.Flow.casesOn (motive := fun _ => Word) flow (fun σ _ => σ 1) fun _ => 0) h
    revert hregs
    decide
  · intro h
    have htrace := congrArg (fun flow : IR.Flow =>
      IR.Flow.casesOn (motive := fun _ => List Event) flow (fun _ w => w.trace) fun _ => []) h
    revert htrace
    decide

end Vuma.Codegen
