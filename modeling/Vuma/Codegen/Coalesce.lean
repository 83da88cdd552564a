import Vuma.Codegen.LiveRange
import Vuma.Lib.UnionFind

/-!
# What coalescing merges

`coalesce_intervals` joins the groups of the two registers of a copy when no interval outside of the
two groups overlaps the range from the one to the other. Registers of one group are never live at
the same position, and every register is in one merged interval (`coalesceIntervals_correct`).

A group grows by what was joined before, and only the two intervals of the copy are compared. The
invariant `Separate` carries what the earlier comparisons have shown: a register that was joined
with another one overlaps nothing of its class outside of its group.
-/

namespace Vuma.Codegen

open IR Lib

/-! ## The groups as a function to roots -/

/-- The parents lead every register to its root, and the registers of `s` among themselves. -/
structure Parents.Forest (parent : Parents) (s : Finset VReg) (root : VReg → VReg) : Prop where
  leads : ∀ x, Leads parent x (root x)
  mem : ∀ x, parent x ≠ x → x ∈ s
  root_mem : ∀ x ∈ s, root x ∈ s

namespace Parents.Forest

variable {parent : Parents} {s : Finset VReg} {root : VReg → VReg}

theorem start (s : Finset VReg) : Parents.Forest id s id := 
  ⟨fun _ => .root rfl, fun _ h => absurd rfl h, fun _ h => h⟩

/-- `find`, when the fuel reaches the root. -/
theorem find_aux (h : parent.Forest s root) {fuel : Nat} {x : VReg}
    (hx : parent^[fuel] x = root x) :
    (parent.find fuel x).2 = root x ∧ (parent.find fuel x).1.Forest s root := by
  induction fuel generalizing x with
  | zero => exact ⟨hx, h⟩
  | succ fuel ih =>
    have hleads := h.leads x
    rw [Parents.find]
    by_cases hroot : parent x = x
    · rw [if_pos hroot]
      exact ⟨(Leads.root hroot).unique hleads, h⟩
    · rw [if_neg hroot]
      have hsame : root (parent x) = root x := (h.leads _).unique hleads.parent_leads
      obtain ⟨hfound, hforest⟩ := ih (x := parent x) (hsame ▸ hx)
      dsimp only
      refine ⟨hfound.trans hsame, fun y => ?_, fun y hy => ?_, h.root_mem⟩
      · rw [hfound, hsame]
        exact (hforest.leads x).compress (hforest.leads y)
      · by_cases hyx : y = x
        · rw [hyx]
          exact h.mem x hroot
        · exact hforest.mem y (by rwa [Function.update_of_ne hyx] at hy)

theorem find (h : parent.Forest s root) {fuel : Nat} (hfuel : s.card ≤ fuel) (x : VReg) :
    (parent.find fuel x).2 = root x ∧ (parent.find fuel x).1.Forest s root := by
  refine h.find_aux ?_
  obtain ⟨k, rfl⟩ := Nat.exists_eq_add_of_le' hfuel
  rw [Function.iterate_add_apply, (h.leads x).iterate_card h.mem]
  exact iterate_of_root (h.leads x).isRoot k

theorem union (h : parent.Forest s root) {fuel : Nat} (hfuel : s.card ≤ fuel) {a b : VReg}
    (ha : a ∈ s) (hb : b ∈ s) :
    (parent.union fuel a b).Forest s fun x => if root x = root a then root b else root x := by
  obtain ⟨hra, hforest⟩ := h.find hfuel a
  obtain ⟨hrb, hforest'⟩ := hforest.find hfuel b
  rw [Parents.union]
  dsimp only
  rw [hra, hrb]
  by_cases heq : root a = root b
  · rw [if_neg (not_not.mpr heq)]
    have hsame : (fun x => if root x = root a then root b else root x) = root := by
      funext x
      split
      · next hx => rw [hx, heq]
      · rfl
    rwa [hsame]
  · rw [if_pos heq]
    have hroota := (hforest'.leads a).isRoot
    have hrootb := (hforest'.leads b).isRoot
    refine ⟨fun x => (hforest'.leads x).link hroota hrootb heq, fun x hx => ?_, fun x hx => ?_⟩
    · by_cases hxa : x = root a
      · rw [hxa]
        exact h.root_mem a ha
      · exact hforest'.mem x (by rwa [Function.update_of_ne hxa] at hx)
    · split
      · exact h.root_mem b hb
      · exact h.root_mem x hx

end Parents.Forest

/-! ## Groups that are apart -/

section

variable {intervals : List LiveInterval} {root : VReg → VReg}

/-- No position is in both intervals. -/
def LiveInterval.Apart (i j : LiveInterval) : Prop :=
  ∀ p, ¬ ((i.start ≤ p ∧ p ≤ i.stop) ∧ j.start ≤ p ∧ p ≤ j.stop)

theorem LiveInterval.Apart.symm {i j : LiveInterval} (h : i.Apart j) : j.Apart i :=
  fun p hp => h p hp.symm

/-- What is known of the groups. -/
structure Separate (intervals : List LiveInterval) (root : VReg → VReg) : Prop where
  within : ∀ i ∈ intervals, ∀ j ∈ intervals, i.vreg ≠ j.vreg → root i.vreg = root j.vreg →
    i.cls = j.cls ∧ i.Apart j
  across : ∀ i ∈ intervals, ∀ j ∈ intervals, i.cls = j.cls → root i.vreg ≠ root j.vreg →
    (∃ k, k ≠ i.vreg ∧ root k = root i.vreg) → i.Apart j

theorem separate_start : Separate intervals id where
  within _ _ _ _ hne heq := absurd heq hne
  across _ _ _ _ _ _ hk := absurd hk.choose_spec.2 hk.choose_spec.1

variable {src dst : LiveInterval}

/-- The range from one interval to another one overlaps nothing that is outside of their groups. -/
def Clear (intervals : List LiveInterval) (root : VReg → VReg) (src dst : LiveInterval) : Prop :=
  ∀ k ∈ intervals, k.cls = src.cls → root k.vreg ≠ root src.vreg → root k.vreg ≠ root dst.vreg →
    ¬ (k.start ≤ max src.stop dst.stop ∧ k.stop ≥ min src.start dst.start)

theorem Clear.apart (h : Clear intervals root src dst) {k : LiveInterval} (hk : k ∈ intervals)
    (hcls : k.cls = src.cls) (hsrc : root k.vreg ≠ root src.vreg)
    (hdst : root k.vreg ≠ root dst.vreg) : k.Apart src ∧ k.Apart dst := by
  have hclear := h k hk hcls hsrc hdst
  constructor
  · rintro p ⟨⟨hk₁, hk₂⟩, hp₁, hp₂⟩
    omega
  · rintro p ⟨⟨hk₁, hk₂⟩, hp₁, hp₂⟩
    omega

section Join

variable (h : Separate intervals root)
  (hunique : ∀ i ∈ intervals, ∀ j ∈ intervals, i.vreg = j.vreg → i = j)
  (hsrc : src ∈ intervals) (hdst : dst ∈ intervals) {i j : LiveInterval} (hi : i ∈ intervals)
  (hj : j ∈ intervals)

include h hunique hsrc hi in
theorem Separate.cls_eq (hroot : root i.vreg = root src.vreg) : i.cls = src.cls := by
  by_cases hne : i.vreg = src.vreg
  · rw [hunique i hi src hsrc hne]
  · exact (h.within i hi src hsrc hne hroot).1

include h hunique hsrc hdst hi hj in
/-- An interval of the one group and an interval of the other one. -/
theorem Separate.between (hcls : src.cls = dst.cls) (hapart : src.Apart dst)
    (hne : root src.vreg ≠ root dst.vreg) (hroot : root i.vreg = root src.vreg)
    (hroot' : root j.vreg = root dst.vreg) : i.cls = j.cls ∧ i.Apart j := by
  have hcls' : i.cls = j.cls :=
    ((h.cls_eq hunique hsrc hi hroot).trans hcls).trans (h.cls_eq hunique hdst hj hroot').symm
  have hdiff : root i.vreg ≠ root j.vreg := by rwa [hroot, hroot']
  refine ⟨hcls', ?_⟩
  by_cases his : i.vreg = src.vreg
  · by_cases hjd : j.vreg = dst.vreg
    · rwa [hunique i hi src hsrc his, hunique j hj dst hdst hjd]
    · exact (h.across j hj i hi hcls'.symm hdiff.symm ⟨dst.vreg, Ne.symm hjd, hroot'.symm⟩).symm
  · exact h.across i hi j hj hcls' hdiff ⟨src.vreg, Ne.symm his, hroot.symm⟩

include h hunique hsrc hi hj in
/-- An interval of the group of one end of a clear range and one outside of both groups. -/
theorem Separate.outside (hroot : root i.vreg = root src.vreg) (hcls : i.cls = j.cls)
    (hdiff : root i.vreg ≠ root j.vreg) (hclear : j.cls = src.cls → j.Apart src) : i.Apart j := by
  by_cases his : i.vreg = src.vreg
  · have hsame := hunique i hi src hsrc his
    rw [hsame]
    exact (hclear (hcls.symm.trans (congrArg LiveInterval.cls hsame))).symm
  · exact h.across i hi j hj hcls hdiff ⟨src.vreg, Ne.symm his, hroot.symm⟩

include h hunique hsrc hdst in
theorem Separate.join (hcls : src.cls = dst.cls) (hapart : src.Apart dst)
    (hclear : Clear intervals root src dst) :
    Separate intervals fun x => if root x = root src.vreg then root dst.vreg else root x where
  within i hi j hj hne heq := by
    by_cases hir : root i.vreg = root src.vreg <;> by_cases hjr : root j.vreg = root src.vreg
    · exact h.within i hi j hj hne (hir.trans hjr.symm)
    · simp only [if_pos hir, if_neg hjr] at heq
      exact h.between hunique hsrc hdst hi hj hcls hapart (fun h => hjr (heq.symm.trans h.symm))
        hir heq.symm
    · simp only [if_neg hir, if_pos hjr] at heq
      obtain ⟨hcls', hapart'⟩ := h.between hunique hsrc hdst hj hi hcls hapart
        (fun h => hir (heq.trans h.symm)) hjr heq
      exact ⟨hcls'.symm, hapart'.symm⟩
    · simp only [if_neg hir, if_neg hjr] at heq
      exact h.within i hi j hj hne heq
  across i hi j hj hcls' hne hk := by
    obtain ⟨k, hki, hk⟩ := hk
    by_cases hjr : root j.vreg = root src.vreg
    · -- `j` is in the joined group, `i` is not
      simp only [if_pos hjr] at hne
      by_cases hir : root i.vreg = root src.vreg
      · exact absurd (if_pos hir) hne
      · simp only [if_neg hir] at hne hk
        have hkr : root k ≠ root src.vreg := fun heq => hne (by rw [← hk, if_pos heq])
        rw [if_neg hkr] at hk
        exact h.across i hi j hj hcls' (hjr ▸ hir) ⟨k, hki, hk⟩
    · simp only [if_neg hjr] at hne
      by_cases hir : root i.vreg = root src.vreg
      · simp only [if_pos hir] at hne
        exact h.outside hunique hsrc hi hj hir hcls' (hir ▸ Ne.symm hjr) fun hc =>
          (hclear.apart hj hc hjr hne.symm).1
      · simp only [if_neg hir] at hne hk
        by_cases hid : root i.vreg = root dst.vreg
        · exact h.outside hunique hdst hi hj hid hcls' hne fun hc =>
            (hclear.apart hj (hc.trans hcls.symm) hjr (hid ▸ Ne.symm hne)).2
        · have hkr : root k ≠ root src.vreg := fun heq => hid (by rw [← hk, if_pos heq])
          rw [if_neg hkr] at hk
          exact h.across i hi j hj hcls' hne ⟨k, hki, hk⟩

end Join

end

/-! ## The loop over the copies -/

section

variable {parent : Parents} {s : Finset VReg} {root : VReg → VReg}

theorem canCoalesce_spec (h : parent.Forest s root) {fuel : Nat} (hfuel : s.card ≤ fuel)
    (copy : CopyInfo) (cls : RegClass) (first last : Nat) (others : List LiveInterval) :
    (canCoalesce fuel copy cls first last others parent).1.Forest s root ∧
      ((canCoalesce fuel copy cls first last others parent).2 = true →
        ∀ k ∈ others, k.cls = cls → root k.vreg ≠ root copy.src → root k.vreg ≠ root copy.dst →
          ¬ (k.start ≤ last ∧ k.stop ≥ first)) := by
  induction others generalizing parent with
  | nil => exact ⟨h, fun _ => nofun⟩
  | cons other others ih =>
    rw [canCoalesce]
    by_cases hcls : other.cls ≠ cls
    · rw [if_pos hcls]
      obtain ⟨hforest, hspec⟩ := ih h
      refine ⟨hforest, fun hcan => List.forall_mem_cons.mpr ⟨fun heq => ?_, hspec hcan⟩⟩
      exact absurd heq hcls
    · rw [if_neg hcls]
      obtain ⟨hother, h₁⟩ := h.find hfuel other.vreg
      obtain ⟨hsrc, h₂⟩ := h₁.find hfuel copy.src
      obtain ⟨hdst, h₃⟩ := h₂.find hfuel copy.dst
      dsimp only
      rw [hother, hsrc, hdst]
      split
      · next hgroup =>
        obtain ⟨hforest, hspec⟩ := ih h₃
        refine ⟨hforest, fun hcan => List.forall_mem_cons.mpr ⟨fun _ hne hne' => ?_, hspec hcan⟩⟩
        exact (hgroup.elim hne hne').elim
      · split
        · exact ⟨h₃, nofun⟩
        · next hclear =>
          obtain ⟨hforest, hspec⟩ := ih h₃
          exact ⟨hforest, fun hcan => List.forall_mem_cons.mpr ⟨fun _ _ _ => hclear, hspec hcan⟩⟩

/-- The registers of the intervals. -/
def vregsOf (intervals : List LiveInterval) : Finset VReg := (intervals.map (·.vreg)).toFinset

theorem card_vregsOf_le (intervals : List LiveInterval) :
    (vregsOf intervals).card ≤ intervals.length := by
  have hle := List.toFinset_card_le (intervals.map (·.vreg))
  rwa [List.length_map] at hle

/-- The groups that the parents stand for are apart. -/
def Parents.Sound (intervals : List LiveInterval) (parent : Parents) (root : VReg → VReg) : Prop :=
  parent.Forest (vregsOf intervals) root ∧ Separate intervals root

variable {intervals : List LiveInterval}
  (hunique : ∀ i ∈ intervals, ∀ j ∈ intervals, i.vreg = j.vreg → i = j)

include hunique in
/-- One copy. -/
theorem Parents.Sound.coalesceCopy (h : parent.Sound intervals root) (copy : CopyInfo) :
    ∃ root', (coalesceCopy intervals parent copy).Sound intervals root' := by
  obtain ⟨hforest, hseparate⟩ := h
  have hfuel := card_vregsOf_le intervals
  unfold Codegen.coalesceCopy
  split
  · next src dst hsrc hdst =>
    have hsrcmem := List.mem_of_find?_eq_some hsrc
    have hdstmem := List.mem_of_find?_eq_some hdst
    have hsrcv : src.vreg = copy.src := by simpa using List.find?_some hsrc
    have hdstv : dst.vreg = copy.dst := by simpa using List.find?_some hdst
    have hmem : ∀ i ∈ intervals, i.vreg ∈ vregsOf intervals := fun i hi =>
      List.mem_toFinset.mpr (List.mem_map_of_mem hi)
    split
    · exact ⟨root, hforest, hseparate⟩
    · next hcls =>
      rw [not_not] at hcls
      split
      · exact ⟨root, hforest, hseparate⟩
      · next hoverlap =>
        have hapart : src.Apart dst := by
          rintro p ⟨⟨h₁, h₂⟩, h₃, h₄⟩
          refine hoverlap ?_
          rw [LiveInterval.overlaps, Bool.and_eq_true, decide_eq_true_eq, decide_eq_true_eq]
          exact ⟨h₁.trans h₄, h₃.trans h₂⟩
        obtain ⟨hforest', hclear⟩ := canCoalesce_spec hforest hfuel copy src.cls
          (min src.start dst.start) (max src.stop dst.stop) intervals
        dsimp only
        split
        · next hcan =>
          refine ⟨_, hforest'.union hfuel (hsrcv ▸ hmem src hsrcmem) (hdstv ▸ hmem dst hdstmem), ?_⟩
          rw [← hsrcv, ← hdstv]
          refine hseparate.join hunique hsrcmem hdstmem hcls hapart ?_
          unfold Clear
          rw [hsrcv, hdstv]
          exact hclear hcan
        · exact ⟨root, hforest', hseparate⟩
  · exact ⟨root, hforest, hseparate⟩

include hunique in
theorem Parents.Sound.coalesceCopies (h : parent.Sound intervals root) (copies : List CopyInfo) :
    ∃ root', (copies.foldl (Codegen.coalesceCopy intervals) parent).Sound intervals root' := by
  induction copies generalizing parent root with
  | nil => exact ⟨root, h⟩
  | cons copy copies ih =>
    obtain ⟨root', h'⟩ := h.coalesceCopy hunique copy
    exact ih h'

end

/-! ## The merged intervals -/

section

variable {root : VReg → VReg}

/-- Groups of intervals of one root each. -/
def Grouped (root : VReg → VReg) (gs : List (VReg × List LiveInterval)) : Prop :=
  ∀ g ∈ gs, ∀ i ∈ g.2, root i.vreg = g.1

theorem addToGroup_grouped (i : LiveInterval) {gs : List (VReg × List LiveInterval)}
    (h : Grouped root gs) : Grouped root (addToGroup (root i.vreg) i gs) := by
  have hnew : ∀ j ∈ [i], root j.vreg = root i.vreg := fun j hj => by
    rw [List.mem_singleton.mp hj]
  induction gs with
  | nil => exact List.forall_mem_singleton.mpr hnew
  | cons g gs ih =>
    obtain ⟨hg, hgs⟩ := List.forall_mem_cons.mp h
    rw [addToGroup]
    split
    · exact List.forall_mem_cons.mpr ⟨hnew, h⟩
    · split
      · next heq =>
        refine List.forall_mem_cons.mpr ⟨fun j hj => ?_, hgs⟩
        rcases List.mem_append.mp hj with hj | hj
        · exact hg j hj
        · exact (hnew j hj).trans heq
      · exact List.forall_mem_cons.mpr ⟨hg, ih hgs⟩

theorem addToGroup_perm (r : VReg) (i : LiveInterval) (gs : List (VReg × List LiveInterval)) :
    ((addToGroup r i gs).flatMap (·.2)).Perm (gs.flatMap (·.2) ++ [i]) := by
  induction gs with
  | nil => exact .refl _
  | cons g gs ih =>
    rw [addToGroup]
    split
    · exact @List.perm_append_comm _ [i] _
    · split
      · simp only [List.flatMap_cons, List.append_assoc]
        exact List.perm_append_comm.append_left g.2
      · simp only [List.flatMap_cons, List.append_assoc]
        exact ih.append_left g.2

/-- The loop that puts every interval into the group of its root. -/
theorem groups_spec {parent : Parents} {s : Finset VReg} (h : parent.Forest s root) {fuel : Nat}
    (hfuel : s.card ≤ fuel) (is : List LiveInterval) {gs : List (VReg × List LiveInterval)}
    (hgs : Grouped root gs) :
    let groups := (is.foldl
      (fun (s : Parents × List (VReg × List LiveInterval)) i =>
        let (parent, root) := s.1.find fuel i.vreg
        (parent, addToGroup root i s.2)) (parent, gs)).2
    Grouped root groups ∧ (groups.flatMap (·.2)).Perm (gs.flatMap (·.2) ++ is) := by
  induction is generalizing parent gs with
  | nil => exact ⟨hgs, by rw [List.append_nil]; exact .refl _⟩
  | cons i is ih =>
    obtain ⟨hroot, hforest⟩ := h.find hfuel i.vreg
    obtain ⟨hgrouped, hperm⟩ := ih hforest (addToGroup_grouped i hgs)
    rw [List.foldl_cons]
    dsimp only
    rw [hroot]
    refine ⟨hgrouped, hperm.trans ?_⟩
    rw [List.append_cons]
    exact (addToGroup_perm _ i gs).append_right is

theorem mergeGroup_spec (group : List LiveInterval) :
    (mergeGroup group).flatMap (·.coalescedVregs) = group.flatMap (·.coalescedVregs) ∧
      ∀ m ∈ mergeGroup group, m.coalescedVregs = group.flatMap (·.coalescedVregs) := by
  match group with
  | [] => exact ⟨rfl, nofun⟩
  | [i] => exact ⟨rfl, by simp [mergeGroup]⟩
  | i :: j :: is => exact ⟨by simp [mergeGroup], by simp [mergeGroup]⟩

end

theorem exists_groups {intervals : List LiveInterval} {copies : List CopyInfo}
    (hcopies : ¬ copies.isEmpty) {root : VReg → VReg}
    (h : (copies.foldl (coalesceCopy intervals) id).Sound intervals root) :
    ∃ groups, coalesceIntervals intervals copies = groups.flatMap (fun g => mergeGroup g.2) ∧
      Grouped root groups ∧ (groups.flatMap (·.2)).Perm intervals := by
  obtain ⟨hgrouped, hperm⟩ := groups_spec h.1 (card_vregsOf_le intervals) intervals
    (show Grouped root [] from nofun)
  rw [coalesceIntervals, if_neg hcopies]
  exact ⟨_, rfl, hgrouped, hperm⟩

/-- Registers of one merged interval are never live at the same position, and every register is in
one merged interval. The intervals belong to different registers and are not yet merged, as
`LiveRangeComputer::compute` has them. -/
theorem coalesceIntervals_correct (intervals : List LiveInterval) (copies : List CopyInfo)
    (hdistinct : (intervals.map (·.vreg)).Nodup)
    (hsingle : ∀ i ∈ intervals, i.coalescedVregs = [i.vreg]) :
    (∀ m ∈ coalesceIntervals intervals copies, ∀ i ∈ intervals, ∀ j ∈ intervals,
      i.vreg ∈ m.coalescedVregs → j.vreg ∈ m.coalescedVregs → i.vreg ≠ j.vreg → i.Apart j) ∧
    ((coalesceIntervals intervals copies).flatMap (·.coalescedVregs)).Perm
      (intervals.map (·.vreg)) := by
  have hunique : ∀ i ∈ intervals, ∀ j ∈ intervals, i.vreg = j.vreg → i = j := fun i hi j hj =>
    List.inj_on_of_nodup_map hdistinct hi hj
  have hvregs : ∀ is : List LiveInterval, (∀ i ∈ is, i ∈ intervals) →
      is.flatMap (·.coalescedVregs) = is.map (·.vreg) := by
    intro is his
    rw [List.map_eq_flatMap]
    exact List.flatMap_congr fun i hi => hsingle i (his i hi)
  by_cases hcopies : copies.isEmpty
  · rw [coalesceIntervals, if_pos hcopies]
    refine ⟨fun m hm i _ j _ him hjm hne => ?_, .of_eq (hvregs intervals fun i hi => hi)⟩
    rw [hsingle m hm, List.mem_singleton] at him hjm
    exact absurd (him.trans hjm.symm) hne
  · have hstart : Parents.Sound intervals id id := ⟨.start _, separate_start⟩
    obtain ⟨root, hsound⟩ := hstart.coalesceCopies hunique copies
    obtain ⟨groups, heq, hgrouped, hperm⟩ := exists_groups hcopies hsound
    rw [heq]
    have hmem : ∀ g ∈ groups, ∀ i ∈ g.2, i ∈ intervals := fun g hg i hi =>
      hperm.mem_iff.mp (List.mem_flatMap.mpr ⟨g, hg, hi⟩)
    constructor
    · intro m hm i hi j hj him hjm hne
      obtain ⟨g, hg, hmg⟩ := List.mem_flatMap.mp hm
      rw [(mergeGroup_spec g.2).2 m hmg, hvregs g.2 (hmem g hg)] at him hjm
      obtain ⟨i', hi', hii⟩ := List.mem_map.mp him
      obtain ⟨j', hj', hjj⟩ := List.mem_map.mp hjm
      rw [hunique i' (hmem g hg i' hi') i hi hii] at hi'
      rw [hunique j' (hmem g hg j' hj') j hj hjj] at hj'
      exact (hsound.2.within i hi j hj hne
        ((hgrouped g hg i hi').trans (hgrouped g hg j hj').symm)).2
    · have hmerge : (groups.flatMap fun g => mergeGroup g.2).flatMap (·.coalescedVregs) =
          (groups.flatMap (·.2)).map (·.vreg) := by
        rw [List.flatMap_assoc, ← hvregs _ fun i hi => hperm.mem_iff.mp hi, List.flatMap_assoc]
        exact List.flatMap_congr fun g _ => (mergeGroup_spec g.2).1
      rw [hmerge]
      exact hperm.map _

/-- The intervals of three registers that are copied from one to the next, and one beside them. -/
def copiedIntervals : List LiveInterval :=
  [{ vreg := 1, cls := .gpr, start := 0, stop := 1 },
    { vreg := 2, cls := .gpr, start := 4, stop := 5 },
    { vreg := 3, cls := .gpr, start := 8, stop := 9 },
    { vreg := 4, cls := .gpr, start := 7, stop := 9 }]

def copiedRegs : List CopyInfo := [⟨2, 1, 2⟩, ⟨2, 3, 6⟩, ⟨3, 4, 7⟩]

theorem coalesceIntervals_correct_copied :
    (∀ m ∈ coalesceIntervals copiedIntervals copiedRegs, ∀ i ∈ copiedIntervals,
      ∀ j ∈ copiedIntervals, i.vreg ∈ m.coalescedVregs → j.vreg ∈ m.coalescedVregs →
        i.vreg ≠ j.vreg → i.Apart j) ∧
    ((coalesceIntervals copiedIntervals copiedRegs).flatMap (·.coalescedVregs)).Perm
      (copiedIntervals.map (·.vreg)) :=
  coalesceIntervals_correct copiedIntervals copiedRegs (by decide) (by decide)

end Vuma.Codegen
