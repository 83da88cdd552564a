import Vuma.Codegen.LoopDetector
import Vuma.Lib.Dominators

/-!
# The dominators found by iteration

`compute_dominators` comes to an end for every function, and gives each reachable block its closest
strict dominator in the sense of paths (`computeDominators_domTree`); the walk up the tree decides
dominance (`DomTree.dominates_iff`).

The order of the blocks is arbitrary, so that the tree found during the iteration is neither above
nor below the final one in any simple sense. Two facts are kept. Every dominator is an ancestor
(`Grown`); and every ancestor lies on all simple paths of a length that grows from round to round
(`Settled`).
-/

namespace Vuma.Codegen.LoopDetector

open IR Lib

/-- The control flow between the blocks. -/
def Edge (f : IRFunction) (u v : Nat) : Prop := (u, v) ∈ edges f

variable {f : IRFunction} {doms doms' : Doms} {π : Nat → List Nat} {b d m p u v w x : Nat}

theorem mem_predMap : p ∈ predMap f b ↔ Edge f p b := by
  simp [predMap, Edge]

theorem Edge.lt (h : Edge f u v) : u < f.blocks.length ∧ v < f.blocks.length := by
  simp only [Edge, edges, List.mem_flatMap, List.mem_map, List.mem_filterMap] at h
  obtain ⟨⟨block, i⟩, hblock, j, ⟨l, -, hj⟩, heq⟩ := h
  obtain ⟨rfl, rfl⟩ := Prod.mk.inj heq
  exact ⟨(List.getElem?_eq_some_iff.mp (List.mem_zipIdx_iff_getElem?.mp hblock)).1,
    labelToIdx_lt hj⟩

/-- The blocks on a path are blocks of the function. -/
theorem path_lt {l : List Nat} (h : PathTo (Edge f) 0 v l) (hpos : 0 < f.blocks.length)
    (hw : w ∈ l) : w < f.blocks.length := by
  induction h with
  | root =>
    obtain rfl := List.mem_singleton.mp hw
    exact hpos
  | step _ hE ih =>
    rcases List.mem_cons.mp hw with rfl | hw
    · exact hE.lt.2
    · exact ih hw

theorem path_length_le {l : List Nat} (h : PathTo (Edge f) 0 v l) (hpos : 0 < f.blocks.length)
    (hnodup : l.Nodup) : l.length ≤ f.blocks.length := by
  have hsub : l ⊆ List.range f.blocks.length := fun w hw =>
    List.mem_range.mpr (path_lt h hpos hw)
  simpa using (hnodup.subperm hsub).length_le

/-! ## Ancestors -/

/-- `x` is `v` or met on the way up from `v`. -/
def Anc (doms : Doms) (x v : Nat) : Prop :=
  Relation.ReflTransGen (fun a b => doms a = some b) v x

theorem Anc.refl (doms : Doms) (v : Nat) : Anc doms v v := Relation.ReflTransGen.refl

theorem Anc.trans (hxw : Anc doms x w) (hwv : Anc doms w v) : Anc doms x v :=
  Relation.ReflTransGen.trans hwv hxw

theorem anc_iff (h : doms v = some d) : Anc doms x v ↔ x = v ∨ Anc doms x d := by
  constructor
  · intro hx
    rcases Relation.ReflTransGen.cases_head hx with rfl | ⟨c, hc, hx⟩
    · exact .inl rfl
    · obtain rfl := Option.some.inj (h.symm.trans hc)
      exact .inr hx
  · rintro (rfl | hx)
    · exact .refl doms x
    · exact Relation.ReflTransGen.head h hx

theorem anc_entry (h : doms 0 = some 0) : Anc doms x 0 ↔ x = 0 := by
  constructor
  · intro hx
    induction hx with
    | refl => rfl
    | tail _ hc ih =>
      subst ih
      exact (Option.some.inj (h.symm.trans hc)).symm
  · rintro rfl
    exact .refl doms 0

/-! ## The invariant -/

/-- Every block that has a dominator was reached by a simple path, `π`, through blocks that have
one; its dominator lies on that path, and the way up passes all dominators in the sense of paths. -/
structure Grown (f : IRFunction) (doms : Doms) (π : Nat → List Nat) : Prop where
  entry : doms 0 = some 0
  path_entry : π 0 = [0]
  path : ∀ v, (doms v).isSome → PathTo (Edge f) 0 v (π v) ∧ (π v).Nodup
  step : ∀ v, (doms v).isSome → v ≠ 0 → ∃ u, π v = v :: π u ∧ (doms u).isSome ∧ Edge f u v
  up : ∀ v d, doms v = some d → v ≠ 0 → d ∈ (π v).tail
  dom : ∀ v x, (doms v).isSome → Dominates (Edge f) 0 x v → Anc doms x v

namespace Grown

theorem suffix (h : Grown f doms π) (hv : (doms v).isSome) (hw : w ∈ π v) :
    (doms w).isSome ∧ π w <:+ π v := by
  induction hl : (π v).length using Nat.strongRecOn generalizing v with
  | ind k ih =>
    by_cases hwv : w = v
    · subst hwv
      exact ⟨hv, List.suffix_refl _⟩
    by_cases hv0 : v = 0
    · subst hv0
      rw [h.path_entry] at hw
      exact absurd (List.mem_singleton.mp hw) hwv
    obtain ⟨u, hπ, hu, -⟩ := h.step v hv hv0
    rw [hπ] at hw
    have hlen : (π u).length < k := by rw [← hl, hπ]; simp
    obtain ⟨hw', hsuf⟩ := ih _ hlen hu ((List.mem_cons.mp hw).resolve_left hwv) rfl
    exact ⟨hw', hsuf.trans (hπ ▸ List.suffix_cons v (π u))⟩

/-- The dominator of a block has one, and its path is shorter. -/
theorem up_spec (h : Grown f doms π) (hd : doms v = some d) (hv0 : v ≠ 0) :
    (doms d).isSome ∧ π d <:+ (π v).tail ∧ (π d).length < (π v).length := by
  have hv : (doms v).isSome := by simp [hd]
  obtain ⟨u, hπ, hu, -⟩ := h.step v hv hv0
  have hmem := h.up v d hd hv0
  rw [hπ, List.tail_cons] at hmem
  obtain ⟨hd', hsuf⟩ := h.suffix hu hmem
  refine ⟨hd', by rwa [hπ, List.tail_cons], ?_⟩
  have := hsuf.length_le
  rw [hπ, List.length_cons]
  omega

theorem ne_of_up (h : Grown f doms π) (hd : doms v = some d) (hv0 : v ≠ 0) : d ≠ v := by
  rintro rfl
  exact lt_irrefl _ (h.up_spec hd hv0).2.2

theorem induction_up (h : Grown f doms π) {P : Nat → Prop} (entry : P 0)
    (up : ∀ v d, doms v = some d → v ≠ 0 → (doms d).isSome → P d → P v)
    (hv : (doms v).isSome) : P v := by
  induction hl : (π v).length using Nat.strongRecOn generalizing v with
  | ind k ih =>
    by_cases hv0 : v = 0
    · exact hv0 ▸ entry
    · obtain ⟨d, hd⟩ := Option.isSome_iff_exists.mp hv
      obtain ⟨hd', -, hlen⟩ := h.up_spec hd hv0
      exact up v d hd hv0 hd' (ih _ (hl ▸ hlen) hd' rfl)

theorem mem_of_anc (h : Grown f doms π) (hv : (doms v).isSome) (hx : Anc doms x v) : x ∈ π v := by
  revert hx
  refine h.induction_up (P := fun v => Anc doms x v → x ∈ π v) ?_ ?_ hv
  · intro hx
    rw [(anc_entry h.entry).mp hx, h.path_entry]
    exact List.mem_singleton_self 0
  · intro v d hd hv0 hd' ih hx
    have hself := (h.path v (by simp [hd])).1.self_mem
    rcases (anc_iff hd).mp hx with rfl | hx
    · exact hself
    · exact List.mem_of_mem_tail ((h.up_spec hd hv0).2.1.subset (ih hx))

theorem isSome_of_anc (h : Grown f doms π) (hv : (doms v).isSome) (hx : Anc doms x v) :
    (doms x).isSome :=
  (h.suffix hv (h.mem_of_anc hv hx)).1

theorem entry_anc (h : Grown f doms π) (hv : (doms v).isSome) : Anc doms 0 v :=
  h.dom v 0 hv (.root v)

theorem anc_antisymm (h : Grown f doms π) (hv : (doms v).isSome) (hx : Anc doms x v)
    (hv' : Anc doms v x) : x = v := by
  have hx' := h.isSome_of_anc hv hx
  have h₁ := (h.suffix hv (h.mem_of_anc hv hx)).2
  have h₂ := (h.suffix hx' (h.mem_of_anc hx' hv')).2
  have hπ := h₁.eq_of_length_le h₂.length_le
  obtain ⟨s, hs⟩ := (h.path v hv).1.eq_cons
  obtain ⟨t, ht⟩ := (h.path x hx').1.eq_cons
  rw [hs, ht] at hπ
  exact (List.cons.inj hπ).1

/-! ## Intersection -/

/-- The paths are no longer than the function. -/
theorem length_le (h : Grown f doms π) (hpos : 0 < f.blocks.length) (hv : (doms v).isSome) :
    (π v).length ≤ f.blocks.length :=
  path_length_le (h.path v hv).1 hpos (h.path v hv).2

theorem pathUp_spec (h : Grown f doms π) {fuel : Nat} (hv : (doms v).isSome)
    (hfuel : (π v).length ≤ fuel) :
    ∃ l, pathUp doms fuel v = some l ∧ ∀ x, x ∈ l ↔ Anc doms x v := by
  induction fuel generalizing v with
  | zero =>
    obtain ⟨t, ht⟩ := (h.path v hv).1.eq_cons
    simp [ht] at hfuel
  | succ fuel ih =>
    by_cases hv0 : v = 0
    · subst hv0
      refine ⟨[0], by simp [pathUp, h.entry], fun x => ?_⟩
      rw [List.mem_singleton, anc_entry h.entry]
    · obtain ⟨d, hd⟩ := Option.isSome_iff_exists.mp hv
      obtain ⟨hd', -, hlen⟩ := h.up_spec hd hv0
      obtain ⟨l, hl, hmem⟩ := ih hd' (by omega)
      refine ⟨v :: l, by simp [pathUp, hd, h.ne_of_up hd hv0, hl], fun x => ?_⟩
      rw [List.mem_cons, hmem, anc_iff hd]

theorem meetUp_spec (h : Grown f doms π) {path1 : List Nat} (h0 : 0 ∈ path1) {fuel : Nat}
    (hv : (doms v).isSome) (hfuel : (π v).length ≤ fuel) :
    ∃ m, meetUp doms path1 fuel v = some m ∧ m ∈ path1 ∧ Anc doms m v ∧
      ∀ x ∈ path1, Anc doms x v → Anc doms x m := by
  induction fuel generalizing v with
  | zero =>
    obtain ⟨t, ht⟩ := (h.path v hv).1.eq_cons
    simp [ht] at hfuel
  | succ fuel ih =>
    by_cases hmem : v ∈ path1
    · exact ⟨v, by simp [meetUp, hmem], hmem, .refl doms v, fun x _ hx => hx⟩
    · have hv0 : v ≠ 0 := fun hv0 => hmem (hv0 ▸ h0)
      obtain ⟨d, hd⟩ := Option.isSome_iff_exists.mp hv
      obtain ⟨hd', -, hlen⟩ := h.up_spec hd hv0
      obtain ⟨m, hm, hm1, hmd, hmax⟩ := ih hd' (by omega)
      refine ⟨m, by simp [meetUp, hmem, hd, h.ne_of_up hd hv0, hm], hm1,
        (anc_iff hd).mpr (.inr hmd), fun x hx hxv => ?_⟩
      rcases (anc_iff hd).mp hxv with rfl | hxd
      · exact absurd hx hmem
      · exact hmax x hx hxd

theorem intersect_spec (h : Grown f doms π) (hpos : 0 < f.blocks.length) (hp : (doms p).isSome)
    (hd : (doms d).isSome) :
    ∃ m, intersect doms f.blocks.length p d = some m ∧
      ∀ x, Anc doms x m ↔ Anc doms x d ∧ Anc doms x p := by
  obtain ⟨l, hl, hmem⟩ := h.pathUp_spec hp (h.length_le hpos hp)
  obtain ⟨m, hm, hml, hmd, hmax⟩ :=
    h.meetUp_spec ((hmem 0).mpr (h.entry_anc hp)) hd (h.length_le hpos hd)
  refine ⟨m, by simp [intersect, hl, hm], fun x => ⟨fun hx => ?_, fun ⟨hxd, hxp⟩ => ?_⟩⟩
  · exact ⟨hx.trans hmd, hx.trans ((hmem m).mp hml)⟩
  · exact hmax x ((hmem x).mpr hxp) hxd

theorem foldlM_intersectStep (h : Grown f doms π) (hpos : 0 < f.blocks.length) (ps : List Nat)
    (hd : (doms d).isSome) :
    ∃ m, ps.foldlM (intersectStep doms f.blocks.length) d = some m ∧
      ∀ x, Anc doms x m ↔ Anc doms x d ∧ ∀ p ∈ ps, (doms p).isSome → Anc doms x p := by
  induction ps generalizing d with
  | nil => exact ⟨d, rfl, by simp⟩
  | cons p ps ih =>
    rw [List.foldlM_cons]
    cases hp : doms p with
    | none =>
      obtain ⟨m, hm, hx⟩ := ih hd
      exact ⟨m, by simp [intersectStep, hp, hm], by simp [hx, hp]⟩
    | some d' =>
      obtain ⟨e, he, hxe⟩ := h.intersect_spec hpos (p := p) (by simp [hp]) hd
      obtain ⟨m, hm, hx⟩ := ih (h.isSome_of_anc hd ((hxe e).mp (.refl doms e)).1)
      refine ⟨m, by simp [intersectStep, hp, he, hm], fun x => ?_⟩
      rw [hx, hxe]
      simp [hp, and_assoc]

end Grown

/-! ## A visit -/

/-- `m` is the closest common ancestor of the predecessors of `b` that have a dominator. -/
def Meets (f : IRFunction) (doms : Doms) (b m : Nat) : Prop :=
  ∀ x, Anc doms x m ↔ ∀ p, Edge f p b → (doms p).isSome → Anc doms x p

/-- What a visit does: nothing if no predecessor has a dominator, and else `b` gets the closest
common ancestor of those that have one. -/
theorem visit_spec (h : Grown f doms π) (hpos : 0 < f.blocks.length) (changed : Bool) (b : Nat) :
    (visit f (doms, changed) b = some (doms, changed) ∧ ∀ p, Edge f p b → doms p = none) ∨
    ∃ u m, Edge f u b ∧ (doms u).isSome ∧ Meets f doms b m ∧
      visit f (doms, changed) b = some (if doms b = some m then (doms, changed)
        else (Function.update doms b (some m), true)) := by
  unfold visit
  cases hfind : (predMap f b).find? (fun pred => (doms pred).isSome) with
  | none =>
    refine .inl ⟨rfl, fun p hp => ?_⟩
    simpa using List.find?_eq_none.mp hfind p (mem_predMap.mpr hp)
  | some u =>
    have hu : (doms u).isSome := by simpa using List.find?_some hfind
    have hE : Edge f u b := mem_predMap.mp (List.mem_of_find?_eq_some hfind)
    obtain ⟨m, hm, hx⟩ := h.foldlM_intersectStep hpos (predMap f b) hu
    refine .inr ⟨u, m, hE, hu, fun x => ?_, by simp only [hm]; split <;> simp_all⟩
    rw [hx]
    constructor
    · exact fun ⟨_, hall⟩ p hp => hall p (mem_predMap.mpr hp)
    · exact fun hall => ⟨hall u hE hu, fun p hp => hall p (mem_predMap.mp hp)⟩

theorem Grown.anc_update (h : Grown f doms π) (hb0 : b ≠ 0) (hv : (doms v).isSome)
    (hb : Anc doms b v → Anc doms x b → Anc (Function.update doms b (some m)) x b)
    (hx : Anc doms x v) : Anc (Function.update doms b (some m)) x v := by
  revert hb hx
  refine h.induction_up (P := fun v => (Anc doms b v → Anc doms x b →
    Anc (Function.update doms b (some m)) x b) → Anc doms x v →
    Anc (Function.update doms b (some m)) x v) ?_ ?_ hv
  · intro _ hx
    rw [(anc_entry h.entry).mp hx]
    exact .refl _ 0
  · intro v d hd _ _ ih hb hx
    by_cases hvb : v = b
    · subst hvb
      exact hb (.refl doms v) hx
    · rw [anc_iff (show Function.update doms b (some m) v = some d by
        rw [Function.update_of_ne hvb, hd])]
      exact ((anc_iff hd).mp hx).imp_right
        (ih fun hbd => hb ((anc_iff hd).mpr (.inr hbd)))

/-- A block off the path of `m` that gets `m` as its dominator has all its dominators above it. -/
theorem Grown.anc_updated (h : Grown f doms π) (hb0 : b ≠ 0) (hm : Meets f doms b m)
    (hmd : (doms m).isSome) (hbm : b ∉ π m) (hdom : Dominates (Edge f) 0 x b) :
    Anc (Function.update doms b (some m)) x b := by
  rw [anc_iff (Function.update_self b (some m) doms)]
  by_cases hxb : x = b
  · exact .inl hxb
  have hx : Anc doms x m := (hm x).mpr fun p hp hpd => h.dom p x hpd (hdom.pred hxb hp)
  exact .inr (h.anc_update hb0 hmd (fun hb => absurd (h.mem_of_anc hmd hb) hbm) hx)

/-- A block without a dominator gets one. -/
theorem Grown.insert (h : Grown f doms π) (hb0 : b ≠ 0) (hb : doms b = none) (hE : Edge f u b)
    (hu : (doms u).isSome) (hm : Meets f doms b m) :
    Grown f (Function.update doms b (some m)) (Function.update π b (b :: π u)) := by
  have hne : ∀ {w}, (doms w).isSome → w ≠ b := by
    rintro w hw rfl
    simp [hb] at hw
  have hoff : ∀ {w}, (doms w).isSome → b ∉ π w := fun hw hbw => hne (h.suffix hw hbw).1 rfl
  have hmu : Anc doms m u := (hm m).mp (.refl doms m) u hE hu
  have hmd := h.isSome_of_anc hu hmu
  constructor
  · rw [Function.update_of_ne hb0.symm, h.entry]
  · rw [Function.update_of_ne hb0.symm, h.path_entry]
  · intro v hv
    by_cases hvb : v = b
    · subst hvb
      rw [Function.update_self]
      exact ⟨.step (h.path u hu).1 hE, List.nodup_cons.mpr ⟨hoff hu, (h.path u hu).2⟩⟩
    · rw [Function.update_of_ne hvb] at hv ⊢
      exact h.path v hv
  · intro v hv hv0
    by_cases hvb : v = b
    · subst hvb
      refine ⟨u, by rw [Function.update_self, Function.update_of_ne (hne hu)], ?_, hE⟩
      rwa [Function.update_of_ne (hne hu)]
    · rw [Function.update_of_ne hvb] at hv ⊢
      obtain ⟨w, hπ, hw, hEw⟩ := h.step v hv hv0
      refine ⟨w, by rw [Function.update_of_ne (hne hw), hπ], ?_, hEw⟩
      rwa [Function.update_of_ne (hne hw)]
  · intro v d hd hv0
    by_cases hvb : v = b
    · subst hvb
      rw [Function.update_self] at hd ⊢
      rw [← Option.some.inj hd, List.tail_cons]
      exact h.mem_of_anc hu hmu
    · rw [Function.update_of_ne hvb] at hd ⊢
      exact h.up v d hd hv0
  · intro v x hv hdom
    by_cases hvb : v = b
    · subst hvb
      exact h.anc_updated hb0 hm hmd (hoff hmd) hdom
    · rw [Function.update_of_ne hvb] at hv
      exact h.anc_update hb0 hv (fun hbv => absurd (h.mem_of_anc hv hbv) (hoff hv))
        (h.dom v x hv hdom)

/-- A block gets another dominator. -/
theorem Grown.replace (h : Grown f doms π) (hb0 : b ≠ 0) (hb : (doms b).isSome)
    (hm : Meets f doms b m) : Grown f (Function.update doms b (some m)) π := by
  obtain ⟨u, hπ, hu, hE⟩ := h.step b hb hb0
  have hmu : Anc doms m u := (hm m).mp (.refl doms m) u hE hu
  have hmd := h.isSome_of_anc hu hmu
  have hsome : ∀ {w}, (Function.update doms b (some m) w).isSome ↔ (doms w).isSome := by
    intro w
    by_cases hwb : w = b
    · simp [hwb, hb]
    · rw [Function.update_of_ne hwb]
  have hbu : b ∉ π u := by
    have := (h.path b hb).2
    rw [hπ] at this
    exact (List.nodup_cons.mp this).1
  have hbm : b ∉ π m := fun hbm => hbu ((h.suffix hu (h.mem_of_anc hu hmu)).2.subset hbm)
  constructor
  · rw [Function.update_of_ne hb0.symm, h.entry]
  · exact h.path_entry
  · exact fun v hv => h.path v (hsome.mp hv)
  · intro v hv hv0
    obtain ⟨w, hπ, hw, hEw⟩ := h.step v (hsome.mp hv) hv0
    exact ⟨w, hπ, hsome.mpr hw, hEw⟩
  · intro v d hd hv0
    by_cases hvb : v = b
    · subst hvb
      rw [Function.update_self] at hd
      rw [← Option.some.inj hd, hπ, List.tail_cons]
      exact h.mem_of_anc hu hmu
    · rw [Function.update_of_ne hvb] at hd
      exact h.up v d hd hv0
  · intro v x hv hdom
    have hv := hsome.mp hv
    refine h.anc_update hb0 hv (fun hbv hxb => ?_) (h.dom v x hv hdom)
    refine h.anc_updated hb0 hm hmd hbm fun l hl => ?_
    -- a path to `b` that avoids `x` would replace the one on the way to `v`
    obtain ⟨hb', s, hs⟩ := h.suffix hv (h.mem_of_anc hv hbv)
    obtain ⟨hpath, hnodup⟩ := h.path v hv
    rw [← hs] at hnodup
    have hxs : x ∉ s := fun hxs =>
      List.disjoint_of_nodup_append hnodup hxs (h.mem_of_anc hb hxb)
    rw [← hs, hπ] at hpath
    exact (List.mem_append.mp (hdom _ (hpath.graft hl))).resolve_left hxs

/-! ## Rounds -/

/-- If a simple path of at most `k + 1` blocks leads to `v`, then `v` has a dominator, and this lies
on the path before `v`. -/
def SettledAt (f : IRFunction) (doms : Doms) (k v : Nat) : Prop :=
  ∀ l, PathTo (Edge f) 0 v l → l.Nodup → l.length ≤ k + 1 →
    (doms v).isSome ∧ (v ≠ 0 → ∀ d, doms v = some d → d ∈ l.tail)

def Settled (f : IRFunction) (doms : Doms) (k : Nat) : Prop := ∀ v, SettledAt f doms k v

theorem SettledAt.congr {k : Nat} (h : SettledAt f doms k v) (hv : doms' v = doms v) :
    SettledAt f doms' k v := by
  unfold SettledAt
  rw [hv]
  exact h

theorem SettledAt.mono {j k : Nat} (h : SettledAt f doms k v) (hjk : j ≤ k) :
    SettledAt f doms j v :=
  fun l hl hnodup hlen => h l hl hnodup (by omega)

/-- All ancestors lie on the path. -/
theorem Settled.mem_path {k : Nat} (h : Settled f doms k) (h0 : doms 0 = some 0) {l : List Nat}
    (hl : PathTo (Edge f) 0 v l) (hnodup : l.Nodup) (hlen : l.length ≤ k + 1)
    (hx : Anc doms x v) : x ∈ l := by
  induction hk : l.length using Nat.strongRecOn generalizing v l with
  | ind j ih =>
    by_cases hv0 : v = 0
    · subst hv0
      rw [(anc_entry h0).mp hx]
      exact hl.self_mem
    obtain ⟨hv, htail⟩ := h v l hl hnodup hlen
    obtain ⟨d, hd⟩ := Option.isSome_iff_exists.mp hv
    have hdl := htail hv0 d hd
    obtain ⟨t, rfl⟩ := hl.eq_cons
    obtain ⟨s, t', rfl⟩ := List.append_of_mem hdl
    rcases (anc_iff hd).mp hx with rfl | hx
    · exact hl.self_mem
    · have hl' := PathTo.suffix (s := v :: s) hl
      have hlt : (d :: t').length < j := by
        rw [← hk, List.length_cons, List.length_cons, List.length_append, List.length_cons]
        omega
      have := ih _ hlt hl' (List.Nodup.of_append_right hnodup.of_cons) (by omega) hx rfl
      exact List.mem_cons_of_mem _ (List.mem_append_right s this)

/-- What visits to the blocks `bs` do. -/
structure Progress (f : IRFunction) (bs : List Nat) (s s' : Doms × Bool) : Prop where
  grown : ∃ π, Grown f s'.1 π
  unchanged : s'.2 = false → s' = s
  settled : ∀ k, Settled f s.1 k → Settled f s'.1 k
  reached : ∀ k v, Settled f s.1 k → v ∈ bs ∨ SettledAt f s.1 (k + 1) v →
    SettledAt f s'.1 (k + 1) v

theorem Progress.trans {bs bs' : List Nat} {s s' s'' : Doms × Bool} (h : Progress f bs s s')
    (h' : Progress f bs' s' s'') : Progress f (bs ++ bs') s s'' where
  grown := h'.grown
  unchanged := by
    intro hs
    obtain rfl := h'.unchanged hs
    exact h.unchanged hs
  settled k hk := h'.settled k (h.settled k hk)
  reached k v hk hv := by
    refine h'.reached k v (h.settled k hk) ?_
    rcases hv with hv | hv
    · exact (List.mem_append.mp hv).symm.imp_right fun hv => h.reached k v hk (.inl hv)
    · exact .inr (h.reached k v hk (.inr hv))

/-- After the visit, the dominator of the block lies on all paths that are longer by one block. -/
theorem settledAt_visit (h : Grown f doms π) {k : Nat} (hk : Settled f doms k) (hb0 : b ≠ 0)
    (hpred : ∀ p, Edge f p b → (doms p).isSome → ∃ m, doms' b = some m ∧ Anc doms m p) :
    SettledAt f doms' (k + 1) b := by
  intro l hl hnodup hlen
  cases hl with
  | root => exact absurd rfl hb0
  | @step p _ l hl hE =>
    have hnodup := hnodup.of_cons
    have hlen : l.length ≤ k + 1 := by simpa using hlen
    obtain ⟨m, hm, hmp⟩ := hpred p hE (hk p l hl hnodup hlen).1
    refine ⟨by simp [hm], fun _ d hd => ?_⟩
    rw [← Option.some.inj (hm.symm.trans hd), List.tail_cons]
    exact hk.mem_path h.entry hl hnodup hlen hmp

theorem progress_of_visit (h : Grown f doms π) {c c' : Bool} (hb0 : b ≠ 0)
    (grown : ∃ π, Grown f doms' π) (unchanged : c' = false → c = c' ∧ doms' = doms)
    (other : ∀ v, v ≠ b → doms' v = doms v)
    (hpred : ∀ p, Edge f p b → (doms p).isSome → ∃ m, doms' b = some m ∧ Anc doms m p) :
    Progress f [b] (doms, c) (doms', c') where
  grown := grown
  unchanged := by
    intro hc
    obtain ⟨rfl, rfl⟩ := unchanged hc
    rfl
  settled k hk v := by
    by_cases hvb : v = b
    · subst hvb
      exact (settledAt_visit h hk hb0 hpred).mono (Nat.le_succ k)
    · exact (hk v).congr (other v hvb)
  reached k v hk hv := by
    by_cases hvb : v = b
    · subst hvb
      exact settledAt_visit h hk hb0 hpred
    · exact (hv.resolve_left (by simpa using hvb)).congr (other v hvb)

theorem visit_progress (h : Grown f doms π) (hpos : 0 < f.blocks.length) (c : Bool) (hb0 : b ≠ 0) :
    ∃ s', visit f (doms, c) b = some s' ∧ Progress f [b] (doms, c) s' := by
  rcases visit_spec h hpos c b with ⟨hvisit, hnone⟩ | ⟨u, m, hE, hu, hm, hvisit⟩
  · refine ⟨_, hvisit, progress_of_visit h hb0 ⟨π, h⟩ (fun _ => ⟨rfl, rfl⟩) (fun _ _ => rfl) ?_⟩
    intro p hp hpd
    simp [hnone p hp] at hpd
  have hmp : ∀ p, Edge f p b → (doms p).isSome → Anc doms m p := (hm m).mp (.refl doms m)
  by_cases hbm : doms b = some m
  · rw [if_pos hbm] at hvisit
    exact ⟨_, hvisit, progress_of_visit h hb0 ⟨π, h⟩ (fun _ => ⟨rfl, rfl⟩) (fun _ _ => rfl)
      fun p hp hpd => ⟨m, hbm, hmp p hp hpd⟩⟩
  · rw [if_neg hbm] at hvisit
    refine ⟨_, hvisit, progress_of_visit h hb0 ?_ (by simp)
      (fun v hvb => Function.update_of_ne hvb _ _)
      fun p hp hpd => ⟨m, Function.update_self b _ doms, hmp p hp hpd⟩⟩
    cases hb : doms b with
    | none => exact ⟨_, h.insert hb0 hb hE hu hm⟩
    | some d => exact ⟨π, h.replace hb0 (by simp [hb]) hm⟩

theorem visits_progress (hpos : 0 < f.blocks.length) (bs : List Nat) (hbs : ∀ b ∈ bs, b ≠ 0)
    {s : Doms × Bool} (h : ∃ π, Grown f s.1 π) :
    ∃ s', bs.foldlM (visit f) s = some s' ∧ Progress f bs s s' := by
  induction bs generalizing s with
  | nil => exact ⟨s, rfl, h, fun _ => rfl, fun _ hk => hk, by simp⟩
  | cons b bs ih =>
    obtain ⟨π, hπ⟩ := h
    obtain ⟨s₁, hs₁, hprog⟩ := visit_progress hπ hpos s.2 (hbs b List.mem_cons_self)
    obtain ⟨s', hs', hprog'⟩ := ih (fun b hb => hbs b (List.mem_cons_of_mem _ hb)) hprog.grown
    refine ⟨s', ?_, hprog.trans hprog'⟩
    rw [List.foldlM_cons, hs₁]
    exact hs'

theorem round_progress (hpos : 0 < f.blocks.length) (h : ∃ π, Grown f doms π) :
    ∃ s', round f doms = some s' ∧
      Progress f (List.range' 1 (f.blocks.length - 1)) (doms, false) s' :=
  visits_progress hpos _ (by simp; omega) h

/-- After a round, paths that are longer by one block are taken into account. -/
theorem Progress.settled_succ {s s' : Doms × Bool} {k : Nat} (hpos : 0 < f.blocks.length)
    (h : Progress f (List.range' 1 (f.blocks.length - 1)) s s') (hk : Settled f s.1 k) :
    Settled f s'.1 (k + 1) := by
  intro v l hl
  by_cases hv0 : v = 0
  · obtain ⟨π, hπ⟩ := h.grown
    subst hv0
    exact fun _ _ => ⟨by simp [hπ.entry], fun h0 => absurd rfl h0⟩
  · have hlt := path_lt hl hpos hl.self_mem
    exact h.reached k v hk (.inl (by simp; omega)) l hl

/-! ## The fixpoint -/

/-- Once every path is taken into account, the ancestors are the dominators. -/
structure Exact (f : IRFunction) (doms : Doms) : Prop where
  grown : ∃ π, Grown f doms π
  settled : ∀ k, Settled f doms k

namespace Exact

theorem entry (h : Exact f doms) : doms 0 = some 0 :=
  let ⟨_, hπ⟩ := h.grown
  hπ.entry

theorem isSome_iff (h : Exact f doms) : (doms v).isSome ↔ Reachable (Edge f) 0 v := by
  obtain ⟨π, hπ⟩ := h.grown
  constructor
  · exact fun hv => ⟨_, (hπ.path v hv).1⟩
  · rintro ⟨_, hl⟩
    obtain ⟨l, hl, hnodup, -⟩ := hl.exists_nodup
    exact (h.settled l.length v l hl hnodup (by omega)).1

theorem anc_iff_dominates (h : Exact f doms) (hv : Reachable (Edge f) 0 v) :
    Anc doms x v ↔ Dominates (Edge f) 0 x v := by
  obtain ⟨π, hπ⟩ := h.grown
  refine ⟨fun hx l hl => ?_, hπ.dom v x (h.isSome_iff.mpr hv)⟩
  obtain ⟨p, hp, hnodup, hsub⟩ := hl.exists_nodup
  exact hsub ((h.settled p.length).mem_path h.entry hp hnodup (by omega) hx)

/-- The dominator of a block is the closest one. -/
theorem isIdom (h : Exact f doms) (hv : Reachable (Edge f) 0 v) (hv0 : v ≠ 0)
    (hd : doms v = some d) : IsIdom (Edge f) 0 d v := by
  obtain ⟨π, hπ⟩ := h.grown
  have hne := hπ.ne_of_up hd hv0
  have hdv : Dominates (Edge f) 0 d v :=
    (h.anc_iff_dominates hv).mp ((anc_iff hd).mpr (.inr (.refl doms d)))
  refine ⟨hdv, hne, fun c hc hcv => ?_⟩
  have hcd := ((anc_iff hd).mp ((h.anc_iff_dominates hv).mpr hc)).resolve_left hcv
  exact (h.anc_iff_dominates (hdv.reachable hv)).mp hcd

/-- A visit changes nothing any more. -/
theorem visit_eq (h : Exact f doms) (hpos : 0 < f.blocks.length) (c : Bool) (hb0 : b ≠ 0) :
    visit f (doms, c) b = some (doms, c) := by
  obtain ⟨π, hπ⟩ := h.grown
  rcases visit_spec hπ hpos c b with ⟨hvisit, -⟩ | ⟨u, m, hE, hu, hm, hvisit⟩
  · exact hvisit
  have hb : Reachable (Edge f) 0 b := (h.isSome_iff.mp hu).step hE
  obtain ⟨d, hd⟩ := Option.isSome_iff_exists.mp (h.isSome_iff.mpr hb)
  have hidom := h.isIdom hb hb0 hd
  -- the dominator found so far is above all predecessors
  have hdm : Anc doms d m := (hm d).mpr fun p hp hpd =>
    (h.anc_iff_dominates (h.isSome_iff.mp hpd)).mpr (hidom.dominates.pred hidom.ne hp)
  -- what is above all predecessors dominates the block
  have hmp : ∀ p, Edge f p b → Reachable (Edge f) 0 p → Dominates (Edge f) 0 m p := fun p hp hr =>
    (h.anc_iff_dominates hr).mp ((hm m).mp (.refl doms m) p hp (h.isSome_iff.mpr hr))
  have hmb : m ≠ b := by
    rintro rfl
    obtain ⟨p, hp, hr, hnot⟩ := hb.exists_pred hb0
    exact hnot (hmp p hp hr)
  have hmd : Anc doms m d :=
    (h.anc_iff_dominates (hidom.dominates.reachable hb)).mpr
      (hidom.closest m (.of_preds hb0 hmp) hmb)
  have hds : (doms d).isSome := h.isSome_iff.mpr (hidom.dominates.reachable hb)
  rw [hvisit, if_pos (hd.trans (congrArg some (hπ.anc_antisymm hds hmd hdm).symm))]

theorem round_eq (h : Exact f doms) (hpos : 0 < f.blocks.length) :
    round f doms = some (doms, false) := by
  have hvisits : ∀ bs : List Nat, (∀ b ∈ bs, b ≠ 0) →
      bs.foldlM (visit f) (doms, false) = some (doms, false) := by
    intro bs hbs
    induction bs with
    | nil => rfl
    | cons b bs ih =>
      rw [List.foldlM_cons, h.visit_eq hpos false (hbs b List.mem_cons_self)]
      exact ih fun b hb => hbs b (List.mem_cons_of_mem _ hb)
  exact hvisits _ (by simp; omega)

end Exact

theorem exact_of_settled (hpos : 0 < f.blocks.length) (h : ∃ π, Grown f doms π) {k : Nat}
    (hk : Settled f doms k) (hlen : f.blocks.length ≤ k + 1) : Exact f doms where
  grown := h
  settled _ v l hl hnodup _ := hk v l hl hnodup ((path_length_le hl hpos hnodup).trans hlen)

/-- A round that changes nothing has nothing left to do. -/
theorem exact_of_unchanged (hpos : 0 < f.blocks.length) (h : ∃ π, Grown f doms π) {k : Nat}
    (hk : Settled f doms k)
    (hprog : Progress f (List.range' 1 (f.blocks.length - 1)) (doms, false) (doms, false)) :
    Exact f doms := by
  have hall : ∀ j, Settled f doms (k + j) := by
    intro j
    induction j with
    | zero => exact hk
    | succ j ih => exact hprog.settled_succ hpos ih
  exact exact_of_settled hpos h (hall f.blocks.length) (by omega)

theorem iterate_exact (hpos : 0 < f.blocks.length) (fuel : Nat) {k : Nat}
    (h : ∃ π, Grown f doms π) (hk : Settled f doms k) (hfuel : f.blocks.length ≤ k + fuel)
    (hfuel0 : 0 < fuel) : ∃ doms', iterate f fuel doms = some doms' ∧ Exact f doms' := by
  induction fuel generalizing doms k with
  | zero => omega
  | succ fuel ih =>
    obtain ⟨⟨doms₁, changed⟩, hround, hprog⟩ := round_progress hpos h
    cases changed with
    | false =>
      obtain rfl := (Prod.mk.inj (hprog.unchanged rfl)).1
      exact ⟨doms₁, by simp [iterate, hround], exact_of_unchanged hpos h hk hprog⟩
    | true =>
      by_cases hfuel1 : fuel = 0
      · -- all simple paths have been taken into account before this round
        have hexact := exact_of_settled hpos h hk (by omega)
        simp [hexact.round_eq hpos] at hround
      · obtain ⟨doms', hiter, hexact⟩ :=
          ih hprog.grown (hprog.settled_succ hpos hk) (by omega) (by omega)
        exact ⟨doms', by simp [iterate, hround, hiter], hexact⟩

/-- Before the first round, only the entry has a dominator. -/
theorem grown_init (f : IRFunction) :
    Grown f (Function.update (fun _ => none) 0 (some 0)) fun _ => [0] := by
  have hv0 : ∀ {v : Nat}, (Function.update (fun _ => none) 0 (some 0) v : Option Nat).isSome →
      v = 0 := by
    intro v hv
    by_contra hne
    rw [Function.update_of_ne hne] at hv
    cases hv
  refine ⟨Function.update_self .., rfl, fun v hv => ?_, fun v hv h0 => absurd (hv0 hv) h0,
    fun v d hd h0 => absurd (hv0 (by simp [hd])) h0, fun v x hv hx => ?_⟩
  · rw [hv0 hv]
    exact ⟨.root, List.nodup_singleton 0⟩
  · rw [hv0 hv] at hx ⊢
    rw [List.mem_singleton.mp (hx _ .root)]
    exact .refl _ 0

theorem settled_init (f : IRFunction) :
    Settled f (Function.update (fun _ => none) 0 (some 0)) 0 := by
  intro v l hl _ hlen
  obtain ⟨t, rfl⟩ := hl.eq_cons
  obtain rfl : t = [] := List.eq_nil_of_length_eq_zero (by simpa using hlen)
  obtain rfl := List.mem_singleton.mp hl.root_mem
  exact ⟨by simp, fun h0 => absurd rfl h0⟩

/-! ## The result -/

/-- The immediate dominators: those of reachable blocks are the closest strict dominators, and the
entry stands for that of an unreachable block. -/
structure DomTree (f : IRFunction) (doms : List Nat) : Prop where
  length_eq : doms.length = f.blocks.length
  entry : doms.getD 0 0 = 0
  isIdom : ∀ b, Reachable (Edge f) 0 b → b ≠ 0 → IsIdom (Edge f) 0 (doms.getD b 0) b
  unreachable : ∀ b, ¬ Reachable (Edge f) 0 b → doms.getD b 0 = 0

/-- Without blocks there is no path but the one that stays at the entry. -/
theorem path_of_nil {l : List Nat} (hf : f.blocks = []) (h : PathTo (Edge f) 0 v l) :
    v = 0 ∧ l = [0] := by
  cases h with
  | root => exact ⟨rfl, rfl⟩
  | step _ hE =>
    have := hE.lt.1
    simp [hf] at this

theorem computeDominators_domTree (f : IRFunction) :
    ∃ doms, computeDominators f = some doms ∧ DomTree f doms := by
  rcases Nat.eq_zero_or_pos f.blocks.length with hf | hpos
  · have hf := List.eq_nil_of_length_eq_zero hf
    refine ⟨[], by simp [computeDominators, hf], by simp [hf], rfl, fun b hb hb0 => ?_,
      fun b _ => rfl⟩
    obtain ⟨_, hl⟩ := hb
    exact absurd (path_of_nil hf hl).1 hb0
  obtain ⟨t, ht, hexact⟩ := iterate_exact hpos f.blocks.length ⟨_, grown_init f⟩ (settled_init f)
    (by omega) hpos
  have hne : f.blocks ≠ [] := List.ne_nil_of_length_pos hpos
  have hget : ∀ b, ((List.range f.blocks.length).map fun b => (t b).getD 0).getD b 0 =
      if b < f.blocks.length then (t b).getD 0 else 0 := by
    intro b
    by_cases hb : b < f.blocks.length <;> simp [List.getD, hb]
  refine ⟨(List.range f.blocks.length).map fun b => (t b).getD 0,
    by simp [computeDominators, hne, ht], by simp, ?_, fun b hb hb0 => ?_, fun b hb => ?_⟩
  · rw [hget, hexact.entry]
    simp
  · obtain ⟨d, hd⟩ := Option.isSome_iff_exists.mp (hexact.isSome_iff.mpr hb)
    obtain ⟨_, hl⟩ := hb
    rw [hget, if_pos (path_lt hl hpos hl.self_mem), hd, Option.getD_some]
    exact hexact.isIdom ⟨_, hl⟩ hb0 hd
  · rw [hget]
    split
    · cases hb' : t b with
      | none => rfl
      | some d => exact absurd (hexact.isSome_iff.mp (by simp [hb'])) hb
    · rfl

namespace DomTree

variable {doms : List Nat} {a : Nat}

theorem dominates_entry_iff : Dominates (Edge f) 0 a 0 ↔ a = 0 := by
  constructor
  · exact fun ha => List.mem_singleton.mp (ha _ .root)
  · rintro rfl
    exact .refl 0

theorem walkUp_entry (h : DomTree f doms) (steps : Nat) :
    walkUp doms a steps 0 = true ↔ a = 0 := by
  cases steps with
  | zero => rw [walkUp, beq_iff_eq, eq_comm]
  | succ steps =>
    rw [walkUp, if_pos h.entry]
    split
    · rename_i ha
      exact iff_of_true rfl ha.symm
    · rw [beq_iff_eq, eq_comm]

theorem walkUp_iff (h : DomTree f doms) {steps : Nat} {l : List Nat}
    (hl : PathTo (Edge f) 0 b l) (hnodup : l.Nodup) (hlen : l.length ≤ steps + 1) :
    walkUp doms a steps b = true ↔ Dominates (Edge f) 0 a b := by
  induction steps generalizing b l with
  | zero =>
    obtain ⟨t, rfl⟩ := hl.eq_cons
    obtain rfl : t = [] := List.eq_nil_of_length_eq_zero (by simpa using hlen)
    obtain rfl := List.mem_singleton.mp hl.root_mem
    rw [h.walkUp_entry, dominates_entry_iff]
  | succ steps ih =>
    by_cases hb0 : b = 0
    · subst hb0
      rw [h.walkUp_entry, dominates_entry_iff]
    have hidom := h.isIdom b ⟨_, hl⟩ hb0
    by_cases hba : b = a
    · subst hba
      exact iff_of_true (by simp [walkUp]) (.refl b)
    rw [walkUp, if_neg hba, if_neg hidom.ne]
    -- the rest of the walk starts at the immediate dominator, on a shorter path
    obtain ⟨t, rfl⟩ := hl.eq_cons
    have hmem := (List.mem_cons.mp (hidom.dominates _ hl)).resolve_left hidom.ne
    obtain ⟨s, t', rfl⟩ := List.append_of_mem hmem
    have hlen' : (doms.getD b 0 :: t').length ≤ steps + 1 := by
      simp only [List.length_cons, List.length_append] at hlen ⊢
      omega
    rw [ih (hl.suffix (s := b :: s)) (List.Nodup.of_append_right hnodup.of_cons) hlen']
    exact ⟨fun ha => ha.trans hidom.dominates, fun ha => hidom.closest a ha (Ne.symm hba)⟩

theorem dominates_iff (h : DomTree f doms) (hb : Reachable (Edge f) 0 b) :
    dominates doms a b = true ↔ Dominates (Edge f) 0 a b := by
  obtain ⟨_, hl⟩ := hb
  obtain ⟨l, hl, hnodup, -⟩ := hl.exists_nodup
  rw [dominates]
  split
  · rename_i hab
    subst hab
    exact iff_of_true rfl (.refl a)
  · refine h.walkUp_iff hl hnodup ?_
    rw [h.length_eq]
    rcases Nat.eq_zero_or_pos f.blocks.length with hf | hpos
    · rw [(path_of_nil (List.eq_nil_of_length_eq_zero hf) hl).2, hf, List.length_singleton]
    · exact (path_length_le hl hpos hnodup).trans (Nat.le_succ _)

theorem dominates_unreachable_iff (h : DomTree f doms) (hb : ¬ Reachable (Edge f) 0 b)
    (hlt : b < f.blocks.length) : dominates doms a b = true ↔ a = b ∨ a = 0 := by
  have hb0 : b ≠ 0 := fun hb0 => hb (hb0 ▸ ⟨_, .root⟩)
  rw [dominates]
  split
  · rename_i hab
    exact iff_of_true rfl (.inl hab)
  · rename_i hab
    obtain ⟨steps, hsteps⟩ : ∃ steps, doms.length = steps + 1 := by
      rw [h.length_eq]
      exact Nat.exists_eq_add_one.mpr (by omega)
    rw [hsteps, walkUp, if_neg (Ne.symm hab), h.unreachable b hb, if_neg hb0.symm,
      h.walkUp_entry]
    simp [hab]

end DomTree

end Vuma.Codegen.LoopDetector
