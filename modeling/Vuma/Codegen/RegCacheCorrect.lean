import Vuma.Codegen.RegCache
import Vuma.Lib.Steps

/-!
# The register cache over a run

A value that was written to a register and never flushed can be lost in three ways: `read_vreg`
evicts it without telling, `assign_vreg` overwrites it, and `invalidate_caller_saved` drops it. And
`assign_vreg` of a virtual register that is in another register leaves that one as it is, so that
two registers hold it. In a run without these steps the two maps agree and no value is lost
(`regCache_run_iff`).
-/

namespace Vuma.Codegen

open IR Lib

namespace GreedyRegCache

/-- The register holds the virtual register, with this dirty bit. -/
def Holds (c : GreedyRegCache) (preg : Nat) (vreg : VReg) (dirty : Bool) : Prop :=
  ∃ r, c.regStates[preg]? = some r ∧ r.vreg = some vreg ∧ r.dirty = dirty

/-- Both maps say the same. -/
def Bijective (c : GreedyRegCache) : Prop :=
  ∀ preg vreg dirty, c.Holds preg vreg dirty ↔ c.vregLocs vreg = some (.register preg dirty)

end GreedyRegCache

/-! ## Runs -/

/-- A cache and the virtual registers whose last write was never flushed. -/
structure CacheRun where
  cache : GreedyRegCache
  unflushed : Finset VReg := ∅

/-- The caller stores the virtual register because of what an operation returned: one that is
listed, or the one that left its register. -/
def CacheReply.stored (before after : GreedyRegCache) (vreg : VReg) : CacheReply → Bool
  | .alloc _ needsSpill =>
    needsSpill && (before.vregInReg vreg).isSome && (after.vregInReg vreg).isNone
  | .reg _ evicted => evicted = some vreg
  | .spills l => vreg ∈ l.map (·.1)
  | .read .. | .unit => false

/-- `alloc_vreg` and `mark_dirty` write, `mark_clean` says that the value has been stored, and the
value of a released register is no longer needed. -/
def CacheOp.write (s : Finset VReg) : CacheOp → Finset VReg
  | .allocVreg v _ | .markDirty v => insert v s
  | .markClean v | .releaseVreg v => s.erase v
  | _ => s

/-- One operation. -/
def CacheRun.step (s : CacheRun) (o : CacheOp) : Option CacheRun :=
  (s.cache.op o).map fun (reply, c) =>
    ⟨c, o.write (s.unflushed.filter fun v => ¬ reply.stored s.cache c v)⟩

/-- Both maps of the cache say the same. -/
def CacheRun.Consistent (s : CacheRun) : Prop := s.cache.Bijective

/-- No unflushed register leaves its register without being released, unless what is returned says
that a spill is needed. -/
def CacheRun.NoLoss (s : CacheRun) (o : CacheOp) : Prop :=
  ∀ reply c' w preg, s.cache.op o = some (reply, c') → w ∈ s.unflushed →
    s.cache.vregInReg w = some preg → c'.vregInReg w ≠ some preg →
      o = .releaseVreg w ∨ reply.TellsSpill w

/-- The operation overwrites or drops no unflushed register, and it assigns none that is in another
register. -/
def CacheRun.Safe (s : CacheRun) : CacheOp → Prop
  | .readVreg v => s.cache.vregInReg v = none → s.cache.freeReg none = none →
      ∀ preg w, s.cache.victim = some preg → s.cache.occupant preg = some w → w ∉ s.unflushed
  | .assignVreg v preg _ => preg < s.cache.regStates.length →
      (∀ q, s.cache.vregInReg v = some q → q = preg) ∧
        ∀ w, s.cache.occupant preg = some w → w ≠ v → w ∉ s.unflushed
  | .invalidateCallerSaved => ∀ preg ∈ s.cache.callerSaved, ∀ w,
      s.cache.occupant preg = some w → w ∉ s.unflushed
  | _ => True

/-! ## Where a virtual register is -/

namespace GreedyRegCache

variable {c c' : GreedyRegCache}

theorem vregInReg_eq_some {v : VReg} {p : Nat} :
    c.vregInReg v = some p ↔ ∃ d, c.vregLocs v = some (.register p d) := by
  unfold vregInReg
  cases h : c.vregLocs v with
  | none => simp
  | some loc => cases loc <;> simp

theorem occupant_eq_some {v : VReg} {p : Nat} :
    c.occupant p = some v ↔ ∃ d, c.Holds p v d := by
  unfold occupant Holds
  constructor
  · intro h
    obtain ⟨r, hr, hv⟩ := Option.bind_eq_some_iff.mp h
    exact ⟨r.dirty, r, hr, hv, rfl⟩
  · rintro ⟨d, r, hr, hv, -⟩
    rw [hr]
    exact hv

theorem Bijective.vregInReg_iff (h : c.Bijective) {v : VReg} {p : Nat} :
    c.vregInReg v = some p ↔ c.occupant p = some v := by
  rw [vregInReg_eq_some, occupant_eq_some]
  exact exists_congr fun d => (h p v d).symm

theorem holds_lt {p : Nat} {v : VReg} {d : Bool} (h : c.Holds p v d) : p < c.regStates.length := by
  obtain ⟨r, hr, -⟩ := h
  exact (List.getElem?_eq_some_iff.mp hr).1

/-- Two caches whose maps say the same. -/
structure Same (c c' : GreedyRegCache) : Prop where
  holds : ∀ p v d, c'.Holds p v d ↔ c.Holds p v d
  locs : c'.vregLocs = c.vregLocs

theorem Same.bijective (h : Same c c') (hc : c.Bijective) : c'.Bijective := by
  intro p v d
  rw [h.holds, h.locs]
  exact hc p v d

theorem Same.vregInReg (h : Same c c') (v : VReg) : c'.vregInReg v = c.vregInReg v := by
  unfold GreedyRegCache.vregInReg
  rw [h.locs]

theorem same_touch (c : GreedyRegCache) (p : Nat) : Same c (c.touch p) := by
  refine ⟨fun q v d => ?_, rfl⟩
  unfold Holds touch
  rw [List.getElem?_modify]
  constructor
  · rintro ⟨r, hr, hv, hd⟩
    obtain ⟨r, hr', rfl⟩ := Option.map_eq_some_iff.mp hr
    refine ⟨r, hr', ?_⟩
    split at hv
    · next heq =>
      rw [if_pos heq] at hd
      exact ⟨hv, hd⟩
    · next heq =>
      rw [if_neg heq] at hd
      exact ⟨hv, hd⟩
  · rintro ⟨r, hr, hv, hd⟩
    rw [hr]
    refine ⟨_, rfl, ?_⟩
    split
    · exact ⟨hv, hd⟩
    · exact ⟨hv, hd⟩

/-! ## Single updates -/

/-- What a register that is set to something holds. -/
theorem holds_set {r : CachedRegState} {p q : Nat} {v : VReg} {d : Bool}
    (h : c'.regStates = c.regStates.set p r) (hp : p < c.regStates.length) :
    c'.Holds q v d ↔ if q = p then r.vreg = some v ∧ r.dirty = d else c.Holds q v d := by
  unfold Holds
  rw [h, List.getElem?_set]
  by_cases hqp : q = p
  · rw [if_pos hqp.symm, if_pos hqp, if_pos hp]
    exact ⟨by rintro ⟨r', hr', hv⟩; cases hr'; exact hv, fun hv => ⟨r, rfl, hv⟩⟩
  · rw [if_neg (Ne.symm hqp), if_neg hqp]

/-- A register is freed. -/
structure Freed (c c' : GreedyRegCache) (p : Nat) : Prop where
  holds : ∀ q v d, c'.Holds q v d ↔ q ≠ p ∧ c.Holds q v d
  left : ∀ v, c.occupant p = some v → ∀ q d, c'.vregLocs v ≠ some (.register q d)
  others : ∀ v, c.occupant p ≠ some v → c'.vregLocs v = c.vregLocs v

theorem Freed.bijective {p : Nat} (h : Freed c c' p) (hc : c.Bijective) : c'.Bijective := by
  intro q v d
  rw [h.holds]
  by_cases hv : c.occupant p = some v
  · refine iff_of_false (fun hq => ?_) (h.left v hv q d)
    have hp := hc.vregInReg_iff.mpr hv
    have hq' := hc.vregInReg_iff.mpr (occupant_eq_some.mpr ⟨d, hq.2⟩)
    rw [hp] at hq'
    exact hq.1 (Option.some.inj hq').symm
  · rw [h.others v hv, ← hc]
    refine ⟨And.right, fun hq => ⟨?_, hq⟩⟩
    rintro rfl
    exact hv (occupant_eq_some.mpr ⟨d, hq⟩)

theorem Freed.vregInReg {p : Nat} (h : Freed c c' p) (hc : c.Bijective) {w : VReg} {q : Nat} :
    c'.vregInReg w = some q ↔ q ≠ p ∧ c.vregInReg w = some q := by
  rw [(h.bijective hc).vregInReg_iff, hc.vregInReg_iff, occupant_eq_some, occupant_eq_some,
    ← exists_and_left]
  exact exists_congr fun d => h.holds q w d

theorem holds_set_empty {p q : Nat} {v : VReg} {d : Bool}
    (h : c'.regStates = c.regStates.set p {}) :
    c'.Holds q v d ↔ q ≠ p ∧ c.Holds q v d := by
  by_cases hp : p < c.regStates.length
  · rw [holds_set h hp]
    by_cases hqp : q = p
    · rw [if_pos hqp]
      exact iff_of_false nofun fun hq => hq.1 hqp
    · rw [if_neg hqp, and_iff_right hqp]
  · have hsame : c'.Holds q v d ↔ c.Holds q v d := by
      unfold Holds
      rw [h, List.set_eq_of_length_le (not_lt.mp hp)]
    rw [hsame]
    refine ⟨fun hq => ⟨?_, hq⟩, And.right⟩
    rintro rfl
    exact hp (holds_lt hq)

theorem freed_moveToStack (c : GreedyRegCache) (p : Nat) : Freed c (c.moveToStack p) p := by
  refine ⟨fun q v d => holds_set_empty rfl, fun v hv q d => ?_, fun v hv => ?_⟩
  · unfold moveToStack
    rw [hv]
    dsimp only
    rw [Function.update_self]
    nofun
  · unfold moveToStack
    dsimp only
    cases hocc : c.occupant p with
    | none => rfl
    | some w =>
      refine Function.update_of_ne ?_ _ _
      rintro rfl
      exact hv hocc

/-- A virtual register that is in no other register is assigned to a register. -/
theorem bijective_assignVreg (hc : c.Bijective) {v : VReg} {p : Nat} (d : Bool)
    (hp : p < c.regStates.length) (hv : ∀ q, c.vregInReg v = some q → q = p) :
    (c.assignVreg v p d).Bijective ∧ ∀ w q, (c.assignVreg v p d).vregInReg w = some q ↔
      if q = p then w = v else c.vregInReg w = some q := by
  have hholds : ∀ q w e, (c.assignVreg v p d).Holds q w e ↔
      if q = p then some v = some w ∧ d = e else c.Holds q w e := by
    intro q w e
    have hset : (c.assignVreg v p d).regStates = c.regStates.set p ⟨some v, d, 0⟩ := by
      unfold assignVreg
      rw [if_pos hp]
    exact holds_set hset hp
  have hself : (c.assignVreg v p d).vregLocs v = some (.register p d) := by
    unfold assignVreg
    rw [if_pos hp]
    exact Function.update_self _ _ _
  have hout : ∀ w, w ≠ v → c.occupant p = some w → ∀ q e,
      (c.assignVreg v p d).vregLocs w ≠ some (.register q e) := by
    intro w hne hw q e
    unfold assignVreg
    rw [if_pos hp, hw]
    dsimp only
    rw [Function.update_of_ne hne, if_pos hne, Function.update_self]
    nofun
  have hother : ∀ w, w ≠ v → c.occupant p ≠ some w →
      (c.assignVreg v p d).vregLocs w = c.vregLocs w := by
    intro w hne hw
    unfold assignVreg
    rw [if_pos hp]
    dsimp only
    rw [Function.update_of_ne hne]
    cases hocc : c.occupant p with
    | none => rfl
    | some old =>
      dsimp only
      split
      · refine Function.update_of_ne ?_ _ _
        rintro rfl
        exact hw hocc
      · rfl
  have hbij : (c.assignVreg v p d).Bijective := by
    intro q w e
    rw [hholds]
    by_cases hwv : w = v
    · subst hwv
      rw [hself]
      by_cases hqp : q = p
      · subst hqp
        simp
      · rw [if_neg hqp]
        refine iff_of_false (fun hq => hqp (hv q ?_)) ?_
        · exact hc.vregInReg_iff.mpr (occupant_eq_some.mpr ⟨e, hq⟩)
        · simp [Ne.symm hqp]
    · by_cases hw : c.occupant p = some w
      · refine iff_of_false (fun hq => ?_) (hout w hwv hw q e)
        split at hq
        · exact hwv (Option.some.inj hq.1).symm
        · next hqp =>
          have hp' := hc.vregInReg_iff.mpr hw
          rw [hc.vregInReg_iff.mpr (occupant_eq_some.mpr ⟨e, hq⟩)] at hp'
          exact hqp (Option.some.inj hp')
      · rw [hother w hwv hw, ← hc]
        split
        · next hqp =>
          subst hqp
          refine iff_of_false (fun hq => hwv (Option.some.inj hq.1).symm) fun hq => hw ?_
          exact occupant_eq_some.mpr ⟨e, hq⟩
        · rfl
  refine ⟨hbij, fun w q => ?_⟩
  rw [hbij.vregInReg_iff, occupant_eq_some]
  split
  · next hqp =>
    constructor
    · rintro ⟨e, he⟩
      rw [hholds, if_pos hqp] at he
      exact (Option.some.inj he.1).symm
    · rintro rfl
      exact ⟨d, (hholds _ _ _).mpr (by rw [if_pos hqp]; exact ⟨rfl, rfl⟩)⟩
  · next hqp =>
    rw [hc.vregInReg_iff, occupant_eq_some]
    exact exists_congr fun e => by rw [hholds, if_neg hqp]

/-- A change of a dirty bit leaves every virtual register where it is. -/
theorem bijective_setDirty (hc : c.Bijective) {v : VReg} {p : Nat} (hv : c.occupant p = some v)
    (d : Bool) : (c.setDirty v p d).Bijective ∧
      ∀ w, (c.setDirty v p d).vregInReg w = c.vregInReg w := by
  have hin := hc.vregInReg_iff.mpr hv
  have hholds : ∀ q w e, (c.setDirty v p d).Holds q w e ↔
      if q = p then w = v ∧ d = e else c.Holds q w e := by
    intro q w e
    unfold Holds setDirty
    dsimp only
    by_cases hqp : q = p
    · subst hqp
      obtain ⟨e', r, hr, hrv, -⟩ := occupant_eq_some.mp hv
      rw [if_pos rfl, List.getElem?_modify_eq, hr]
      constructor
      · rintro ⟨r', hr', hw, he⟩
        cases hr'
        exact ⟨Option.some.inj (hw.symm.trans hrv), he⟩
      · rintro ⟨rfl, he⟩
        exact ⟨_, rfl, hrv, he⟩
    · rw [if_neg hqp, List.getElem?_modify_ne _ _ (Ne.symm hqp)]
  have hloc : (c.setDirty v p d).vregLocs =
      Function.update c.vregLocs v (some (.register p d)) := rfl
  constructor
  · intro q w e
    rw [hholds, hloc]
    by_cases hwv : w = v
    · subst hwv
      rw [Function.update_self]
      by_cases hqp : q = p
      · subst hqp
        simp
      · rw [if_neg hqp]
        refine iff_of_false (fun hq => hqp ?_) (by simp [Ne.symm hqp])
        have hq' := hc.vregInReg_iff.mpr (occupant_eq_some.mpr ⟨e, hq⟩)
        rw [hin] at hq'
        exact (Option.some.inj hq').symm
    · rw [Function.update_of_ne hwv, ← hc]
      split
      · next hqp =>
        subst hqp
        refine iff_of_false (fun hq => hwv hq.1) fun hq => hwv ?_
        have hq' := occupant_eq_some.mpr ⟨e, hq⟩
        rw [hv] at hq'
        exact (Option.some.inj hq').symm
      · rfl
  · intro w
    by_cases hwv : w = v
    · subst hwv
      rw [hin]
      exact vregInReg_eq_some.mpr ⟨d, by rw [hloc, Function.update_self]⟩
    · unfold vregInReg
      rw [hloc, Function.update_of_ne hwv]

/-! ## Registers for new values -/

theorem isFree_iff {p : Nat} :
    c.isFree p = true ↔ p < c.regStates.length ∧ c.occupant p = none := by
  unfold isFree occupant
  by_cases hp : p < c.regStates.length
  · rw [List.getElem?_eq_getElem hp, Option.any_some, Option.bind_some, Option.isNone_iff_eq_none,
      and_iff_right hp]
  · rw [List.getElem?_eq_none (not_lt.mp hp)]
    simp [hp]

theorem isFree_of_freeReg {hint : Option Nat} {p : Nat} (h : c.freeReg hint = some p) :
    c.isFree p = true := by
  rcases Option.or_eq_some_iff.mp h with h | ⟨-, h⟩
  · exact (Option.filter_eq_some_iff.mp h).2
  · exact List.find?_some h

theorem allocReg_eq_some {hint : Option Nat} {p : Nat} {e : Option VReg} :
    c.allocReg hint = some ((p, e), c') ↔
      c.freeReg hint = some p ∧ e = none ∧ c' = c ∨
      c.freeReg hint = none ∧ c.victim = some p ∧ p < c.regStates.length ∧ e = c.occupant p ∧
        c' = c.moveToStack p := by
  unfold allocReg evictLru
  cases hfree : c.freeReg hint with
  | some q => simp [eq_comm, and_assoc]
  | none =>
    dsimp only
    cases hvictim : c.victim with
    | none => simp
    | some q =>
      by_cases hq : q < c.regStates.length
      · dsimp only
        rw [if_pos hq]
        constructor
        · intro h
          cases h
          exact .inr ⟨rfl, rfl, hq, rfl, rfl⟩
        · rintro (⟨hp, -⟩ | ⟨-, hp, -, rfl, rfl⟩)
          · cases hp
          · cases hp
            rfl
      · dsimp only
        rw [if_neg hq]
        refine iff_of_false (by simp) ?_
        rintro (⟨hp, -⟩ | ⟨-, hp, hlt, -⟩)
        · cases hp
        · cases hp
          exact hq hlt

/-- The register that a virtual register is assigned to; the others stay where they are. -/
structure Placed (c c' : GreedyRegCache) (v : VReg) (p : Nat) : Prop where
  bijective : c'.Bijective
  vregInReg : ∀ w q, c'.vregInReg w = some q ↔ if q = p then w = v else c.vregInReg w = some q

/-- What a virtual register loses its register to. -/
theorem Placed.left {v w : VReg} {p q : Nat} (h : Placed c c' v p) (hw : c.vregInReg w = some q) :
    c'.vregInReg w ≠ some q ↔ q = p ∧ w ≠ v := by
  rw [ne_eq, h.vregInReg]
  split
  · next hqp => rw [and_iff_right hqp]
  · next hqp => exact iff_of_false (fun hn => hn hw) fun hn => hqp hn.1

theorem placed_of_isFree (hc : c.Bijective) {v : VReg} (hv : c.vregInReg v = none) {p : Nat}
    (hp : c.isFree p = true) (d : Bool) : Placed c ((c.assignVreg v p d).touch p) v p := by
  obtain ⟨hlt, -⟩ := isFree_iff.mp hp
  obtain ⟨hbij, hin⟩ := bijective_assignVreg hc d hlt fun q hq => by rw [hv] at hq; cases hq
  have hsame := same_touch (c.assignVreg v p d) p
  exact ⟨hsame.bijective hbij, fun w q => by rw [hsame.vregInReg, hin]⟩

theorem placed_of_victim (hc : c.Bijective) {v : VReg} (hv : c.vregInReg v = none) {p : Nat}
    (hp : p < c.regStates.length) (d : Bool) :
    Placed c (((c.moveToStack p).assignVreg v p d).touch p) v p := by
  have hfreed := freed_moveToStack c p
  have hc' := hfreed.bijective hc
  have hfree : (c.moveToStack p).isFree p = true := by
    refine isFree_iff.mpr ⟨?_, ?_⟩
    · exact hp.trans_eq (List.length_set ..).symm
    · refine Option.eq_none_iff_forall_ne_some.mpr fun w hw => ?_
      obtain ⟨e, he⟩ := occupant_eq_some.mp hw
      exact ((hfreed.holds p w e).mp he).1 rfl
  have hv' : (c.moveToStack p).vregInReg v = none := by
    refine Option.eq_none_iff_forall_ne_some.mpr fun q hq => ?_
    have hq' := ((hfreed.vregInReg hc).mp hq).2
    rw [hv] at hq'
    cases hq'
  have hplaced := placed_of_isFree hc' hv' hfree d
  refine ⟨hplaced.bijective, fun w q => ?_⟩
  rw [hplaced.vregInReg]
  split
  · rfl
  · next hqp => rw [hfreed.vregInReg hc, and_iff_right hqp]

theorem placed_of_allocReg (hc : c.Bijective) {v : VReg} (hv : c.vregInReg v = none)
    {hint : Option Nat} {p : Nat} {e : Option VReg} (h : c.allocReg hint = some ((p, e), c'))
    (d : Bool) : Placed c ((c'.assignVreg v p d).touch p) v p ∧ c.occupant p = e := by
  rcases allocReg_eq_some.mp h with ⟨hfree, rfl, rfl⟩ | ⟨-, -, hlt, rfl, rfl⟩
  · have hp := isFree_of_freeReg hfree
    exact ⟨placed_of_isFree hc hv hp d, (isFree_iff.mp hp).2⟩
  · exact ⟨placed_of_victim hc hv hlt d, rfl⟩

theorem flush_spec (regs : List Nat) (l : List (VReg × Nat × Int)) (hc : c.Bijective) :
    (regs.foldl flushReg (l, c)).2.Bijective ∧
      ∀ w, (regs.foldl flushReg (l, c)).2.vregInReg w = c.vregInReg w := by
  induction regs generalizing l c with
  | nil => exact ⟨hc, fun _ => rfl⟩
  | cons p regs ih =>
    rw [List.foldl_cons]
    unfold flushReg
    dsimp only
    split
    · next v _ hr =>
      have hocc : c.occupant p = some v := occupant_eq_some.mpr ⟨true, _, hr, rfl, rfl⟩
      obtain ⟨hbij, hin⟩ := bijective_setDirty hc hocc false
      obtain ⟨hbij', hin'⟩ := ih (l ++ [(v, p, c.stackOffset v)]) hbij
      exact ⟨hbij', fun w => (hin' w).trans (hin w)⟩
    · exact ih l hc

theorem foldl_moveToStack (regs : List Nat) (hc : c.Bijective) :
    (regs.foldl moveToStack c).Bijective ∧ ∀ w q,
      (regs.foldl moveToStack c).vregInReg w = some q ↔ q ∉ regs ∧ c.vregInReg w = some q := by
  induction regs generalizing c with
  | nil => exact ⟨hc, fun w q => by simp⟩
  | cons p regs ih =>
    have hfreed := freed_moveToStack c p
    obtain ⟨hbij, hin⟩ := ih (hfreed.bijective hc)
    refine ⟨hbij, fun w q => ?_⟩
    rw [List.foldl_cons, hin, hfreed.vregInReg hc, List.mem_cons, not_or]
    exact ⟨fun h => ⟨⟨h.2.1, h.1⟩, h.2.2⟩, fun h => ⟨h.1.2, h.1.1, h.2⟩⟩

theorem mark_spec (hc : c.Bijective) {v : VReg} {d : Bool} (h : c.mark v d = some c') :
    c'.Bijective ∧ ∀ w, c'.vregInReg w = c.vregInReg w := by
  unfold mark at h
  cases hv : c.vregInReg v with
  | none =>
    rw [hv] at h
    cases h
    exact ⟨hc, fun _ => rfl⟩
  | some p =>
    rw [hv] at h
    dsimp only at h
    split at h
    · cases h
      exact bijective_setDirty hc (hc.vregInReg_iff.mp hv) d
    · cases h

theorem release_spec (hc : c.Bijective) {v : VReg} (h : c.releaseVreg v = some c') :
    c'.Bijective ∧ ∀ w, w ≠ v → c'.vregInReg w = c.vregInReg w := by
  have hother : ∀ c' : GreedyRegCache, c'.vregLocs = Function.update c.vregLocs v none →
      ∀ w, w ≠ v → c'.vregInReg w = c.vregInReg w := by
    intro c' hlocs w hw
    unfold vregInReg
    rw [hlocs, Function.update_of_ne hw]
  unfold releaseVreg at h
  cases hv : c.vregInReg v with
  | none =>
    rw [hv] at h
    cases h
    refine ⟨fun p w d => ?_, hother _ rfl⟩
    by_cases hw : w = v
    · subst hw
      refine iff_of_false (fun hp => ?_) (by simp)
      have hin := hc.vregInReg_iff.mpr (occupant_eq_some.mpr ⟨d, hp⟩)
      rw [hv] at hin
      cases hin
    · dsimp only
      rw [Function.update_of_ne hw]
      exact hc p w d
  | some p =>
    rw [hv] at h
    dsimp only at h
    split at h
    · cases h
      have hfreed : Freed c { c with
          regStates := c.regStates.set p {}, vregLocs := Function.update c.vregLocs v none } p := by
        have hocc := hc.vregInReg_iff.mp hv
        refine ⟨fun q w d => holds_set_empty rfl, fun w hw q d => ?_, fun w hw => ?_⟩
        · rw [hocc] at hw
          cases hw
          simp
        · refine Function.update_of_ne ?_ _ _
          rintro rfl
          exact hw hocc
      exact ⟨hfreed.bijective hc, hother _ rfl⟩
    · cases h

theorem bijective_new (numRegs : Nat) (allocRegs callerSaved calleeSaved : List Nat)
    (offsets : VReg → Option Int) :
    (new numRegs allocRegs callerSaved calleeSaved offsets).Bijective := by
  refine fun p v d => iff_of_false ?_ nofun
  rintro ⟨r, hr, hv, -⟩
  cases List.eq_of_mem_replicate (List.mem_of_getElem? hr)
  cases hv

end GreedyRegCache

/-! ## Every operation -/

namespace CacheRun

open GreedyRegCache

variable {s : CacheRun}

/-- What an operation has to do: keep the maps in agreement, and lose nothing. -/
def OpOk (s : CacheRun) (o : CacheOp) : Prop :=
  s.NoLoss o ∧ ∀ s', s.step o = some s' → s'.Consistent

theorem opOk_of {o : CacheOp} (h : ∀ reply c', s.cache.op o = some (reply, c') → c'.Bijective ∧
    ∀ w q, w ∈ s.unflushed → s.cache.vregInReg w = some q → c'.vregInReg w ≠ some q →
      o = .releaseVreg w ∨ reply.TellsSpill w) : s.OpOk o := by
  refine ⟨fun reply c' w q hop => (h reply c' hop).2 w q, fun s' hs' => ?_⟩
  obtain ⟨⟨reply, c'⟩, hop, rfl⟩ := Option.map_eq_some_iff.mp hs'
  exact (h reply c' hop).1

/-- An operation that leaves every virtual register where it is. -/
theorem opOk_of_stay {o : CacheOp} (h : ∀ reply c', s.cache.op o = some (reply, c') →
    c'.Bijective ∧ ∀ w, c'.vregInReg w = s.cache.vregInReg w) : s.OpOk o := by
  refine opOk_of fun reply c' hop => ⟨(h reply c' hop).1, fun w q _ hq hleft => absurd ?_ hleft⟩
  rw [(h reply c' hop).2 w, hq]

variable (hc : s.cache.Bijective)

include hc

theorem opOk_readVreg (v : VReg) : s.OpOk (.readVreg v) ↔ s.Safe (.readVreg v) := by
  cases hv : s.cache.vregInReg v with
  | some p =>
    refine iff_of_true (opOk_of_stay fun reply c' hop => ?_) fun hnone => ?_
    · rw [GreedyRegCache.op, readVreg, hv] at hop
      cases hop
      have hsame := same_touch s.cache p
      exact ⟨hsame.bijective hc, hsame.vregInReg⟩
    · rw [hv] at hnone
      cases hnone
  | none =>
    have hread : s.cache.op (.readVreg v) = (s.cache.allocReg none).map fun r =>
        (.read r.1.1 true, (r.2.assignVreg v r.1.1 false).touch r.1.1) := by
      rw [GreedyRegCache.op, readVreg, hv, Option.map_map]
      rfl
    constructor
    · rintro ⟨hloss, -⟩ - hfree p w hvictim hocc hw
      obtain ⟨d, hd⟩ := occupant_eq_some.mp hocc
      have hin := hc.vregInReg_iff.mpr hocc
      have halloc := allocReg_eq_some.mpr (.inr ⟨hfree, hvictim, holds_lt hd, rfl, rfl⟩)
      have hplaced := (placed_of_allocReg hc hv halloc false).1
      have hleft := (hplaced.left hin).mpr ⟨rfl, by rintro rfl; rw [hv] at hin; cases hin⟩
      rw [halloc] at hread
      rcases hloss _ _ w p hread hw hin hleft with hrelease | htells
      · cases hrelease
      · exact htells
    · intro hsafe
      refine opOk_of fun reply c' hop => ?_
      rw [hread] at hop
      obtain ⟨⟨⟨p, e⟩, c''⟩, halloc, heq⟩ := Option.map_eq_some_iff.mp hop
      cases heq
      obtain ⟨hplaced, hocc⟩ := placed_of_allocReg hc hv halloc false
      refine ⟨hplaced.bijective, fun w q hw hq hleft => ?_⟩
      obtain ⟨rfl, -⟩ := (hplaced.left hq).mp hleft
      rw [hc.vregInReg_iff, hocc] at hq
      rcases allocReg_eq_some.mp halloc with ⟨-, he, -⟩ | ⟨hfree, hvictim, -⟩
      · rw [he] at hq
        cases hq
      · exact absurd hw (hsafe hv hfree q w hvictim (hocc.trans hq))

theorem opOk_allocVreg (v : VReg) (hint : Option Nat) : s.OpOk (.allocVreg v hint) := by
  refine opOk_of fun reply c' hop => ?_
  cases hv : s.cache.vregInReg v with
  | some p =>
    rw [GreedyRegCache.op, allocVreg, hv] at hop
    cases hop
    have hsame := same_touch s.cache p
    refine ⟨hsame.bijective hc, fun w q _ hq hleft => absurd ?_ hleft⟩
    rw [hsame.vregInReg, hq]
  | none =>
    rw [GreedyRegCache.op, allocVreg, hv] at hop
    dsimp only at hop
    cases hhint : hint.filter s.cache.isFree with
    | some h =>
      rw [hhint] at hop
      cases hop
      have hfree := (Option.filter_eq_some_iff.mp hhint).2
      have hplaced := placed_of_isFree hc hv hfree true
      refine ⟨hplaced.bijective, fun w q _ hq hleft => ?_⟩
      obtain ⟨rfl, -⟩ := (hplaced.left hq).mp hleft
      rw [hc.vregInReg_iff, (isFree_iff.mp hfree).2] at hq
      cases hq
    | none =>
      rw [hhint] at hop
      dsimp only at hop
      rw [Option.map_map] at hop
      obtain ⟨⟨⟨p, e⟩, c''⟩, halloc, heq⟩ := Option.map_eq_some_iff.mp hop
      cases heq
      obtain ⟨hplaced, hocc⟩ := placed_of_allocReg hc hv halloc true
      refine ⟨hplaced.bijective, fun w q _ hq hleft => .inr ?_⟩
      obtain ⟨rfl, -⟩ := (hplaced.left hq).mp hleft
      rw [hc.vregInReg_iff, hocc] at hq
      change e.isSome = true
      rw [hq]
      rfl

theorem opOk_allocReg (hint : Option Nat) : s.OpOk (.allocReg hint) := by
  refine opOk_of fun reply c' hop => ?_
  obtain ⟨⟨⟨p, e⟩, c''⟩, halloc, heq⟩ := Option.map_eq_some_iff.mp hop
  cases heq
  rcases allocReg_eq_some.mp halloc with ⟨-, -, rfl⟩ | ⟨-, -, -, rfl, rfl⟩
  · exact ⟨hc, fun w q _ hq hleft => absurd hq hleft⟩
  · have hfreed := freed_moveToStack s.cache p
    refine ⟨hfreed.bijective hc, fun w q _ hq hleft => .inr ?_⟩
    have hqp : q = p := by
      by_contra hne
      exact hleft ((hfreed.vregInReg hc).mpr ⟨hne, hq⟩)
    rw [hc.vregInReg_iff, hqp] at hq
    exact hq

theorem opOk_assignVreg (v : VReg) (p : Nat) (d : Bool) :
    s.OpOk (.assignVreg v p d) ↔ s.Safe (.assignVreg v p d) := by
  by_cases hp : p < s.cache.regStates.length
  · constructor
    · rintro ⟨hloss, hbij⟩ -
      have hbij' : (s.cache.assignVreg v p d).Bijective := hbij _ rfl
      have helsewhere : ∀ q, s.cache.vregInReg v = some q → q = p := by
        intro q hq
        by_contra hne
        obtain ⟨e, hold⟩ := occupant_eq_some.mp (hc.vregInReg_iff.mp hq)
        -- the old register still holds it
        have hset : (s.cache.assignVreg v p d).regStates =
            s.cache.regStates.set p ⟨some v, d, 0⟩ := by
          unfold assignVreg
          rw [if_pos hp]
        have hstill := (holds_set hset hp).mpr (by rw [if_neg hne]; exact hold)
        have hself := (holds_set (q := p) (v := v) (d := d) hset hp).mpr (by
          rw [if_pos rfl]
          exact ⟨rfl, rfl⟩)
        rw [hbij' q v e] at hstill
        rw [hbij' p v d, hstill] at hself
        cases hself
        exact hne rfl
      refine ⟨helsewhere, fun w hocc hne hw => ?_⟩
      have hin := hc.vregInReg_iff.mpr hocc
      have hleft : (s.cache.assignVreg v p d).vregInReg w ≠ some p := by
        rw [ne_eq, (bijective_assignVreg hc d hp helsewhere).2, if_pos rfl]
        exact hne
      rcases hloss _ _ w p rfl hw hin hleft with hrelease | htells
      · cases hrelease
      · exact htells
    · intro hsafe
      obtain ⟨helsewhere, hocc⟩ := hsafe hp
      obtain ⟨hbij, hin⟩ := bijective_assignVreg hc d hp helsewhere
      refine opOk_of fun reply c' hop => ?_
      cases hop
      refine ⟨hbij, fun w q hw hq hleft => ?_⟩
      rw [ne_eq, hin] at hleft
      split at hleft
      · next hqp =>
        rw [hqp] at hq
        exact absurd hw (hocc w (hc.vregInReg_iff.mp hq) hleft)
      · exact absurd hq hleft
  · refine iff_of_true (opOk_of_stay fun reply c' hop => ?_) fun hlt => absurd hlt hp
    cases hop
    unfold assignVreg
    rw [if_neg hp]
    exact ⟨hc, fun _ => rfl⟩

theorem opOk_mark (v : VReg) : s.OpOk (.markDirty v) ∧ s.OpOk (.markClean v) := by
  constructor
  all_goals
    refine opOk_of_stay fun reply c' hop => ?_
    obtain ⟨c'', hmark, heq⟩ := Option.map_eq_some_iff.mp hop
    cases heq
    exact mark_spec hc hmark

theorem opOk_releaseVreg (v : VReg) : s.OpOk (.releaseVreg v) := by
  refine opOk_of fun reply c' hop => ?_
  obtain ⟨c'', hrelease, heq⟩ := Option.map_eq_some_iff.mp hop
  cases heq
  obtain ⟨hbij, hin⟩ := release_spec hc hrelease
  refine ⟨hbij, fun w q _ hq hleft => .inl ?_⟩
  by_contra hne
  refine hleft ((hin w ?_).trans hq)
  rintro rfl
  exact hne rfl

theorem opOk_flush : s.OpOk .flushAll ∧ s.OpOk .flushCallerSaved := by
  constructor
  all_goals
    refine opOk_of_stay fun reply c' hop => ?_
    cases hop
    exact flush_spec _ [] hc

theorem opOk_invalidateCallerSaved :
    s.OpOk .invalidateCallerSaved ↔ s.Safe .invalidateCallerSaved := by
  obtain ⟨hbij, hin⟩ := foldl_moveToStack s.cache.callerSaved hc
  constructor
  · rintro ⟨hloss, -⟩ p hp w hocc hw
    have hq := hc.vregInReg_iff.mpr hocc
    have hleft : s.cache.invalidateCallerSaved.vregInReg w ≠ some p := fun hstay =>
      ((hin w p).mp hstay).1 hp
    rcases hloss _ _ w p rfl hw hq hleft with hrelease | htells
    · cases hrelease
    · exact htells
  · intro hsafe
    refine opOk_of fun reply c' hop => ?_
    cases hop
    refine ⟨hbij, fun w q hw hq hleft => ?_⟩
    have hmem : q ∈ s.cache.callerSaved := by
      by_contra hne
      exact hleft ((hin w q).mpr ⟨hne, hq⟩)
    exact absurd hw (hsafe q hmem w (hc.vregInReg_iff.mp hq))

theorem opOk_iff (o : CacheOp) : s.OpOk o ↔ s.Safe o := by
  cases o with
  | readVreg v => exact opOk_readVreg hc v
  | allocVreg v hint => exact iff_of_true (opOk_allocVreg hc v hint) trivial
  | allocReg hint => exact iff_of_true (opOk_allocReg hc hint) trivial
  | assignVreg v p d => exact opOk_assignVreg hc v p d
  | markDirty v => exact iff_of_true (opOk_mark hc v).1 trivial
  | markClean v => exact iff_of_true (opOk_mark hc v).2 trivial
  | releaseVreg v => exact iff_of_true (opOk_releaseVreg hc v) trivial
  | flushAll => exact iff_of_true (opOk_flush hc).1 trivial
  | flushCallerSaved => exact iff_of_true (opOk_flush hc).2 trivial
  | invalidateCallerSaved => exact opOk_invalidateCallerSaved hc

end CacheRun

/-- In every run on a new cache the two maps agree and no unflushed value is lost, if and only if
every operation is safe in the state before it. -/
theorem regCache_run_iff (numRegs : Nat) (allocRegs callerSaved calleeSaved : List Nat)
    (offsets : VReg → Option Int) (ops : List CacheOp) :
    let start : CacheRun := { cache := .new numRegs allocRegs callerSaved calleeSaved offsets }
    (Steps.Always CacheRun.step CacheRun.Consistent start ops ∧
        Steps.Along CacheRun.step CacheRun.NoLoss start ops) ↔
      Steps.Along CacheRun.step CacheRun.Safe start ops := by
  intro start
  have hstart : start.Consistent :=
    GreedyRegCache.bijective_new numRegs allocRegs callerSaved calleeSaved offsets
  rw [Steps.always_iff_along hstart, and_comm, ← Steps.along_and]
  refine Steps.along_iff (I := CacheRun.Consistent) (fun s o s' hs hsafe hstep => ?_)
    (fun s o hs => CacheRun.opOk_iff hs o) hstart
  exact ((CacheRun.opOk_iff hs o).mpr hsafe).2 s' hstep

/-- A value that has been written is evicted when another one is read. -/
theorem not_regCache_run : ¬∀ (numRegs : Nat) (allocRegs callerSaved calleeSaved : List Nat)
    (offsets : VReg → Option Int) (ops : List CacheOp),
    let start : CacheRun := { cache := .new numRegs allocRegs callerSaved calleeSaved offsets }
    Steps.Always CacheRun.step CacheRun.Consistent start ops ∧
      Steps.Along CacheRun.step CacheRun.NoLoss start ops := by
  intro h
  have hread := ((h 1 [0] [] [] (fun _ => none) [.allocVreg 1 none, .readVreg 2]).2.2 _ rfl).1
  rcases hread _ _ 1 0 rfl (by decide) rfl nofun with hrelease | htells
  · cases hrelease
  · exact htells

end Vuma.Codegen
