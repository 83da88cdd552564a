import Vuma.Codegen.Dominators
import Vuma.Lib.LoopNesting

/-!
# The loops found

With unique labels, `detect` finds the natural loops of the edges it takes for back edges, and the
depth of a block is the greatest number of those loops that contain the header of one around the
block. Back edges count one by one (`cover`), headers do not: a header with two back edges makes all
blocks of its loop one deeper (`not_loopAnalysisRight`). Edges from unreachable blocks to themselves
or the entry are taken for back edges, and back edges to a later block are not seen
(`loopAnalysisRight_iff`).
-/

namespace Vuma.Codegen.LoopDetector

open IR Lib

variable {f : IRFunction} {b h l : Nat}

/-! ## The blocks of a loop -/

/-- What holds during the search for the blocks of a loop. -/
structure Search (f : IRFunction) (h l : Nat) (worklist : List Nat) (blocks : Finset String) :
    Prop where
  header : f.labelAt h ∈ blocks
  latch : f.labelAt l ∈ blocks ∨ l ∈ worklist
  pending : ∀ b ∈ worklist, NaturalLoop (Edge f) h l b
  sound : ∀ s ∈ blocks, ∃ b, NaturalLoop (Edge f) h l b ∧ f.labelAt b = s
  closed : ∀ b, NaturalLoop (Edge f) h l b → b ≠ h → f.labelAt b ∈ blocks →
    ∀ p, Edge f p b → f.labelAt p ∈ blocks ∨ p ∈ worklist

theorem naturalLoop_lt (he : Edge f l h) (hb : NaturalLoop (Edge f) h l b) :
    b < f.blocks.length := by
  cases hb with
  | header => exact he.lt.2
  | latch => exact he.lt.1
  | pred _ _ hE => exact hE.lt.1

namespace Search

variable {worklist : List Nat} {blocks : Finset String}

theorem init (hnd : (f.blocks.map (·.label)).Nodup) (he : Edge f l h) :
    Search f h l [l] {f.labelAt h} where
  header := Finset.mem_singleton_self _
  latch := .inr (List.mem_singleton_self l)
  pending b hb := by
    rw [List.mem_singleton.mp hb]
    exact .latch
  sound s hs := ⟨h, .header, (Finset.mem_singleton.mp hs).symm⟩
  closed b hb hne hbh _ _ := absurd
    (labelAt_inj hnd (naturalLoop_lt he hb) he.lt.2 (Finset.mem_singleton.mp hbh)) hne

/-- A block whose label has been found is dropped from the worklist. -/
theorem skip (hs : Search f h l (b :: worklist) blocks) (hb : f.labelAt b ∈ blocks) :
    Search f h l worklist blocks := by
  have hdrop : ∀ c, f.labelAt c ∈ blocks ∨ c ∈ b :: worklist →
      f.labelAt c ∈ blocks ∨ c ∈ worklist := by
    rintro c (hc | hc)
    · exact .inl hc
    · rcases List.mem_cons.mp hc with rfl | hc
      · exact .inl hb
      · exact .inr hc
  exact {
    header := hs.header
    latch := hdrop l hs.latch
    pending := fun c hc => hs.pending c (List.mem_cons_of_mem _ hc)
    sound := hs.sound
    closed := fun c hc hne hcb p hp => hdrop p (hs.closed c hc hne hcb p hp) }

theorem expand (hnd : (f.blocks.map (·.label)).Nodup) (he : Edge f l h)
    (hs : Search f h l (b :: worklist) blocks) (hbh : b ≠ h) :
    Search f h l ((predMap f b).reverse ++ worklist) (insert (f.labelAt b) blocks) where
  header := Finset.mem_insert_of_mem hs.header
  latch := by
    rcases hs.latch with hl | hl
    · exact .inl (Finset.mem_insert_of_mem hl)
    · rcases List.mem_cons.mp hl with rfl | hl
      · exact .inl (Finset.mem_insert_self _ _)
      · exact .inr (List.mem_append_right _ hl)
  pending c hc := by
    rcases List.mem_append.mp hc with hc | hc
    · exact (hs.pending b List.mem_cons_self).pred hbh (mem_predMap.mp (List.mem_reverse.mp hc))
    · exact hs.pending c (List.mem_cons_of_mem _ hc)
  sound s hs' := by
    rcases Finset.mem_insert.mp hs' with rfl | hs'
    · exact ⟨b, hs.pending b List.mem_cons_self, rfl⟩
    · exact hs.sound s hs'
  closed c hc hne hcb p hp := by
    rcases Finset.mem_insert.mp hcb with heq | hcb
    · have hb := hs.pending b List.mem_cons_self
      obtain rfl := labelAt_inj hnd (naturalLoop_lt he hc) (naturalLoop_lt he hb) heq
      exact .inr (List.mem_append_left _ (List.mem_reverse.mpr (mem_predMap.mpr hp)))
    · rcases hs.closed c hc hne hcb p hp with hp | hp
      · exact .inl (Finset.mem_insert_of_mem hp)
      · rcases List.mem_cons.mp hp with rfl | hp
        · exact .inl (Finset.mem_insert_self _ _)
        · exact .inr (List.mem_append_right _ hp)

theorem mem_iff (hs : Search f h l [] blocks) {s : String} :
    s ∈ blocks ↔ ∃ b, NaturalLoop (Edge f) h l b ∧ f.labelAt b = s := by
  refine ⟨hs.sound s, ?_⟩
  rintro ⟨b, hb, rfl⟩
  induction hb with
  | header => exact hs.header
  | latch => simpa using hs.latch
  | pred hv hne hE ih => simpa using hs.closed _ hv hne ih _ hE

end Search

/-- The edges to blocks whose labels have not been found. -/
def unseen (f : IRFunction) (blocks : Finset String) : Nat :=
  (edges f).countP fun e => f.labelAt e.2 ∉ blocks

theorem unseen_insert {blocks : Finset String} (hb : f.labelAt b ∉ blocks) :
    (predMap f b).length + unseen f (insert (f.labelAt b) blocks) ≤ unseen f blocks := by
  rw [predMap, List.length_map, unseen, unseen]
  induction edges f with
  | nil => simp
  | cons e es ih =>
    simp only [List.filter_cons, List.countP_cons]
    by_cases heb : e.2 = b
    · simp [heb, hb] at ih ⊢
      omega
    · by_cases hmem : f.labelAt e.2 ∈ insert (f.labelAt b) blocks <;>
        by_cases hmem' : f.labelAt e.2 ∈ blocks <;> simp_all <;> omega

theorem loopBody_spec (hnd : (f.blocks.map (·.label)).Nodup) (he : Edge f l h) (fuel : Nat)
    {worklist : List Nat} {blocks : Finset String} (hs : Search f h l worklist blocks)
    (hfuel : worklist.length + unseen f blocks ≤ fuel) :
    ∃ blocks', loopBody f h fuel worklist blocks = some blocks' ∧ Search f h l [] blocks' := by
  induction fuel generalizing worklist blocks with
  | zero =>
    obtain rfl := List.eq_nil_of_length_eq_zero (l := worklist) (by omega)
    exact ⟨blocks, rfl, hs⟩
  | succ fuel ih =>
    cases worklist with
    | nil => exact ⟨blocks, rfl, hs⟩
    | cons b worklist =>
      rw [List.length_cons] at hfuel
      rw [loopBody]
      split
      · rename_i hbh
        exact ih (hs.skip (hbh ▸ hs.header)) (by omega)
      · rename_i hbh
        split
        · rename_i hb
          exact ih (hs.skip hb) (by omega)
        · rename_i hb
          refine ih (hs.expand hnd he hbh) ?_
          have := unseen_insert hb
          rw [List.length_append, List.length_reverse]
          omega

/-! ## The loops of the back edges -/

/-- `L` is the natural loop of the edge `e`, which leads from the latch to the header. -/
structure IsLoopOf (f : IRFunction) (e : Nat × Nat) (L : LoopInfo) : Prop where
  header : L.header = f.labelAt e.2
  latch : L.latch = f.labelAt e.1
  mem_blocks : ∀ s, s ∈ L.blocks ↔ ∃ b, NaturalLoop (Edge f) e.2 e.1 b ∧ f.labelAt b = s

theorem backEdges_subset (f : IRFunction) (doms : List Nat) : backEdges f doms ⊆ edges f :=
  fun _ he => (List.mem_filter.mp he).1

theorem loopOf_spec (hnd : (f.blocks.map (·.label)).Nodup) {e : Nat × Nat} (he : e ∈ edges f) :
    ∃ L, loopOf f e = some L ∧ IsLoopOf f e L := by
  have hle : unseen f {f.labelAt e.2} ≤ (edges f).length := List.countP_le_length
  obtain ⟨blocks, hblocks, hs⟩ := loopBody_spec hnd he (1 + (edges f).length) (.init hnd he)
    (by rw [List.length_singleton]; omega)
  exact ⟨⟨f.labelAt e.2, f.labelAt e.1, blocks, 0⟩, by simp [loopOf, hblocks], rfl, rfl,
    fun s => hs.mem_iff⟩

theorem mapM_loopOf (hnd : (f.blocks.map (·.label)).Nodup) {D : List (Nat × Nat)}
    (hD : D ⊆ edges f) :
    ∃ loops, D.mapM (loopOf f) = some loops ∧ List.Forall₂ (IsLoopOf f) D loops := by
  induction D with
  | nil => exact ⟨[], rfl, .nil⟩
  | cons e D ih =>
    obtain ⟨L, hL, hLe⟩ := loopOf_spec hnd (hD List.mem_cons_self)
    obtain ⟨loops, hloops, hall⟩ := ih (List.subset_of_cons_subset hD)
    exact ⟨L :: loops, by simp [List.mapM_cons, hL, hloops], .cons hLe hall⟩

theorem IsLoopOf.mem_iff {e : Nat × Nat} {L : LoopInfo} (hL : IsLoopOf f e L)
    (hnd : (f.blocks.map (·.label)).Nodup) (he : e ∈ edges f) (hb : b < f.blocks.length) :
    f.labelAt b ∈ L.blocks ↔ NaturalLoop (Edge f) e.2 e.1 b := by
  rw [hL.mem_blocks]
  constructor
  · rintro ⟨c, hc, heq⟩
    rwa [← labelAt_inj hnd (naturalLoop_lt he hc) hb heq]
  · exact fun hb => ⟨b, hb, rfl⟩

/-- The loops that contain a block are counted. -/
theorem countP_loops (hnd : (f.blocks.map (·.label)).Nodup) {D : List (Nat × Nat)}
    (hD : D ⊆ edges f) {loops : List LoopInfo} (hloops : List.Forall₂ (IsLoopOf f) D loops)
    (hb : b < f.blocks.length) :
    loops.countP (fun m => f.labelAt b ∈ m.blocks) = cover (Edge f) D b := by
  classical
  induction hloops with
  | nil => rfl
  | @cons e L D loops hL _ ih =>
    have ih := ih (List.subset_of_cons_subset hD)
    simp only [cover] at ih ⊢
    rw [List.countP_cons, List.countP_cons, ih]
    simp only [hL.mem_iff hnd (hD List.mem_cons_self) hb]

/-- The loop itself, which `nestingDepth` leaves out, contains its header, too. -/
theorem countP_zipIdx {α : Type} {P : α → Prop} [DecidablePred P] {as : List α} {i : Nat} {a : α}
    (hi : as[i]? = some a) (ha : P a) (k : Nat) :
    (as.zipIdx k).countP (fun p => k + i ≠ p.2 ∧ P p.1) + 1 = as.countP (P ·) := by
  induction as generalizing i k with
  | nil => simp at hi
  | cons c as ih =>
    rw [List.zipIdx_cons, List.countP_cons, List.countP_cons]
    cases i with
    | zero =>
      obtain rfl : c = a := by simpa using hi
      -- no other index is `k`
      have hrest : (as.zipIdx (k + 1)).countP (fun p => k + 0 ≠ p.2 ∧ P p.1) =
          as.countP (P ·) := by
        calc (as.zipIdx (k + 1)).countP (fun p => k + 0 ≠ p.2 ∧ P p.1)
            = (as.zipIdx (k + 1)).countP ((P ·) ∘ Prod.fst) := by
              refine List.countP_congr fun p hp => ?_
              have hne : k ≠ p.2 := by
                have := List.le_snd_of_mem_zipIdx hp
                omega
              simp [hne]
          _ = as.countP (P ·) := by rw [← List.countP_map, List.zipIdx_map_fst]
      rw [hrest]
      simp [ha]
    | succ i =>
      have := ih (by simpa using hi) (k + 1)
      rw [show k + (i + 1) = k + 1 + i by omega]
      have hne : k + 1 + i ≠ k := by omega
      simp only [hne, ne_eq, not_false_eq_true, true_and] at this ⊢
      omega

theorem nestingDepth_succ {loops : List LoopInfo} {i : Nat} {L : LoopInfo}
    (hi : loops[i]? = some L) (hL : L.header ∈ L.blocks) :
    nestingDepth loops i L + 1 = loops.countP (fun m => L.header ∈ m.blocks) := by
  have := countP_zipIdx (P := fun m : LoopInfo => L.header ∈ m.blocks) hi hL 0
  simpa [nestingDepth] using this

theorem mem_of_forall₂ {α β : Type} {R : α → β → Prop} {as : List α} {bs : List β}
    (h : List.Forall₂ R as bs) : (∀ b ∈ bs, ∃ a ∈ as, R a b) ∧ ∀ a ∈ as, ∃ b ∈ bs, R a b := by
  induction h with
  | nil => simp
  | cons hab _ ih =>
    constructor
    · rintro b (_ | ⟨_, hb⟩)
      · exact ⟨_, List.mem_cons_self, hab⟩
      · obtain ⟨a, ha, h⟩ := ih.1 b hb
        exact ⟨a, List.mem_cons_of_mem _ ha, h⟩
    · rintro a (_ | ⟨_, ha⟩)
      · exact ⟨_, List.mem_cons_self, hab⟩
      · obtain ⟨b, hb, h⟩ := ih.2 a ha
        exact ⟨b, List.mem_cons_of_mem _ hb, h⟩

/-- `L` is the loop of `e`, with its depth as the result of counting loops. -/
structure Counted (f : IRFunction) (D : List (Nat × Nat)) (e : Nat × Nat) (L : LoopInfo) : Prop
    extends IsLoopOf f e L where
  depth : L.depth + 1 = cover (Edge f) D e.2

/-- The loops found are those of the back edges, each with the number of loops around it. -/
theorem detect_spec (hnd : (f.blocks.map (·.label)).Nodup) {doms : List Nat}
    (hdoms : computeDominators f = some doms) :
    ∃ loops, detect f = some loops ∧
      (∀ L ∈ loops, ∃ e ∈ backEdges f doms, Counted f (backEdges f doms) e L) ∧
      ∀ e ∈ backEdges f doms, ∃ L ∈ loops, Counted f (backEdges f doms) e L := by
  have hD : backEdges f doms ⊆ edges f := backEdges_subset f doms
  obtain ⟨loops, hloops, hall⟩ := mapM_loopOf hnd hD
  obtain ⟨hright, hleft⟩ := mem_of_forall₂ hall
  -- the depth is that of the header, as a block in the loops
  have hcounted : ∀ {L i e}, loops[i]? = some L → e ∈ backEdges f doms → IsLoopOf f e L →
      Counted f (backEdges f doms) e { L with depth := nestingDepth loops i L } := by
    intro L i e hi he hL
    have hlt : e.2 < f.blocks.length := (show Edge f e.1 e.2 from hD he).lt.2
    have hmem : L.header ∈ L.blocks := by
      rw [hL.header, hL.mem_iff hnd (hD he) hlt]
      exact .header
    refine ⟨⟨hL.header, hL.latch, hL.mem_blocks⟩, ?_⟩
    rw [nestingDepth_succ hi hmem, hL.header, countP_loops hnd hD hall hlt]
  refine ⟨_, by rw [detect, hdoms, Option.bind_eq_bind, Option.bind_some, hloops]; rfl,
    fun L hL => ?_, fun e he => ?_⟩
  · simp only [List.mem_insertionSort, List.mem_map] at hL
    obtain ⟨⟨L, i⟩, hi, rfl⟩ := hL
    have hi := List.mem_zipIdx_iff_getElem?.mp hi
    obtain ⟨e, he, hL⟩ := hright L (List.mem_of_getElem? hi)
    exact ⟨e, he, hcounted hi he hL⟩
  · obtain ⟨L, hL, hLe⟩ := hleft e he
    obtain ⟨i, hi⟩ := List.mem_iff_getElem?.mp hL
    refine ⟨_, ?_, hcounted hi he hLe⟩
    simp only [List.mem_insertionSort, List.mem_map]
    exact ⟨(L, i), List.mem_zipIdx_iff_getElem?.mpr hi, rfl⟩

/-! ## Depths of blocks -/

theorem foldl_deepen (loops : List LoopInfo) {depths : BlockLoopDepthMap} {s : String} {k : Nat}
    (hk : depths s = some k) :
    ∃ d, loops.foldl deepen depths s = some d ∧
      ∀ m, d ≤ m ↔ k ≤ m ∧ ∀ L ∈ loops, s ∈ L.blocks → L.depth + 1 ≤ m := by
  induction loops generalizing depths k with
  | nil => exact ⟨k, hk, by simp⟩
  | cons L loops ih =>
    rw [List.foldl_cons]
    by_cases hs : s ∈ L.blocks
    · obtain ⟨d, hd, hm⟩ := ih (k := max k (L.depth + 1))
        (show deepen depths L s = _ by simp [deepen, hs, hk])
      exact ⟨d, hd, fun m => by simp [hm, hs, and_assoc]⟩
    · obtain ⟨d, hd, hm⟩ := ih (show deepen depths L s = some k by simp [deepen, hs, hk])
      exact ⟨d, hd, fun m => by simp [hm, hs]⟩

theorem computeBlockLoopDepths_spec (hnd : (f.blocks.map (·.label)).Nodup) {doms : List Nat}
    (hdoms : computeDominators f = some doms) :
    ∃ depths, computeBlockLoopDepths f = some depths ∧ ∀ b < f.blocks.length,
      ∃ d, depths (f.labelAt b) = some d ∧ ∀ m, d ≤ m ↔ ∀ e ∈ backEdges f doms,
        NaturalLoop (Edge f) e.2 e.1 b → cover (Edge f) (backEdges f doms) e.2 ≤ m := by
  obtain ⟨loops, hloops, hright, hleft⟩ := detect_spec hnd hdoms
  refine ⟨_, by rw [computeBlockLoopDepths, hloops]; rfl, fun b hb => ?_⟩
  have hinit : zeroDepths f (f.labelAt b) = some 0 := by
    rw [zeroDepths, if_pos]
    simp only [List.any_eq_true, decide_eq_true_eq]
    exact ⟨f.blocks[b], List.getElem_mem hb, (labelAt_eq_getElem hb).symm⟩
  obtain ⟨d, hd, hm⟩ := foldl_deepen loops hinit
  refine ⟨d, hd, fun m => ?_⟩
  rw [hm]
  constructor
  · rintro ⟨-, hall⟩ e he hbe
    obtain ⟨L, hL, hc⟩ := hleft e he
    rw [← hc.depth]
    exact hall L hL ((hc.mem_iff hnd (backEdges_subset f doms he) hb).mpr hbe)
  · intro hall
    refine ⟨Nat.zero_le m, fun L hL hbL => ?_⟩
    obtain ⟨e, he, hc⟩ := hright L hL
    rw [hc.depth]
    exact hall e he ((hc.mem_iff hnd (backEdges_subset f doms he) hb).mp hbL)

/-! ## What the analysis should find -/

/-- `compute_dominators` comes to an end, gives each reachable block its closest strict dominator,
and `dominates` answers whether all paths to a reachable block pass through another. -/
def DominatorsRight (f : IRFunction) : Prop :=
  ∃ doms, computeDominators f = some doms ∧
    (∀ b, Reachable (Edge f) 0 b → b ≠ 0 → IsIdom (Edge f) 0 (doms.getD b 0) b) ∧
    ∀ a b, Reachable (Edge f) 0 b → (dominates doms a b = true ↔ Dominates (Edge f) 0 a b)

/-- Each loop found is the natural loop of a back edge. -/
def LoopsRight (f : IRFunction) : Prop :=
  ∃ loops, detect f = some loops ∧
    ∀ L ∈ loops, ∃ e : Nat × Nat, BackEdge (Edge f) 0 e.1 e.2 ∧ IsLoopOf f e L

/-- The depth of each block is the number of headers whose natural loop contains it. -/
def DepthsRight (f : IRFunction) : Prop :=
  ∃ depths, computeBlockLoopDepths f = some depths ∧
    ∀ b < f.blocks.length, depths (f.labelAt b) = some (headers (Edge f) 0 b).ncard

/-- All of it. -/
structure LoopAnalysisRight (f : IRFunction) : Prop where
  dominators : DominatorsRight f
  loops : LoopsRight f
  depths : DepthsRight f

/-! ## When it does -/

/-- No unreachable block leads to itself or to the entry. -/
def NoStray (f : IRFunction) : Prop :=
  ∀ u v, Edge f u v → ¬ Reachable (Edge f) 0 u → v ≠ u ∧ v ≠ 0

open Classical in
/-- The back edges to a block that is not later in the layout. -/
noncomputable def laidOutBackEdges (f : IRFunction) : List (Nat × Nat) :=
  (edges f).filter fun e => e.2 ≤ e.1 ∧ BackEdge (Edge f) 0 e.1 e.2

/-- All back edges lead to a block that is not later in the layout. -/
def LaidOut (f : IRFunction) : Prop := ∀ l h, BackEdge (Edge f) 0 l h → h ≤ l

theorem dominatorsRight (f : IRFunction) : DominatorsRight f := by
  obtain ⟨doms, hdoms, htree⟩ := computeDominators_domTree f
  exact ⟨doms, hdoms, htree.isIdom, fun a b hb => htree.dominates_iff hb⟩

theorem mem_backEdges {doms : List Nat} {e : Nat × Nat} :
    e ∈ backEdges f doms ↔ Edge f e.1 e.2 ∧ e.2 ≤ e.1 ∧ dominates doms e.2 e.1 = true := by
  simp [backEdges, Edge]

/-- The back edge of a loop found is one, unless its source is unreachable. -/
theorem backEdge_of_mem {doms : List Nat} (htree : DomTree f doms) {e : Nat × Nat}
    (he : e ∈ backEdges f doms) (hr : Reachable (Edge f) 0 e.1) :
    BackEdge (Edge f) 0 e.1 e.2 :=
  let ⟨hE, _, hdom⟩ := mem_backEdges.mp he
  ⟨hE, hr, (htree.dominates_iff hr).mp hdom⟩

theorem mem_backEdges_unreachable {doms : List Nat} (htree : DomTree f doms) {u v : Nat}
    (hE : Edge f u v) (hu : ¬ Reachable (Edge f) 0 u) :
    (u, v) ∈ backEdges f doms ↔ v = u ∨ v = 0 := by
  rw [mem_backEdges, htree.dominates_unreachable_iff hu hE.lt.1]
  constructor
  · exact fun h => h.2.2
  · rintro (rfl | rfl)
    · exact ⟨hE, le_rfl, .inl rfl⟩
    · exact ⟨hE, Nat.zero_le u, .inr rfl⟩

theorem NoStray.reachable {doms : List Nat} (hstray : NoStray f) (htree : DomTree f doms)
    {e : Nat × Nat} (he : e ∈ backEdges f doms) : Reachable (Edge f) 0 e.1 := by
  by_contra hr
  have hE := (mem_backEdges.mp he).1
  obtain ⟨hself, hentry⟩ := hstray e.1 e.2 hE hr
  exact ((mem_backEdges_unreachable htree hE hr).mp he).elim hself hentry

theorem loopsRight_iff (hnd : (f.blocks.map (·.label)).Nodup) : LoopsRight f ↔ NoStray f := by
  obtain ⟨doms, hdoms, htree⟩ := computeDominators_domTree f
  obtain ⟨loops, hloops, hright, hleft⟩ := detect_spec hnd hdoms
  constructor
  · rintro ⟨loops', hloops', hall⟩ u v hE hu
    obtain rfl := Option.some.inj (hloops.symm.trans hloops')
    have hnot : (u, v) ∉ backEdges f doms := by
      intro he
      obtain ⟨L, hL, hc⟩ := hleft _ he
      obtain ⟨e, hback, hLe⟩ := hall L hL
      have heq : f.labelAt u = f.labelAt e.1 := hc.latch.symm.trans hLe.latch
      exact hu (labelAt_inj hnd hE.lt.1 (show Edge f e.1 e.2 from hback.edge).lt.1 heq ▸
        hback.reachable)
    rw [mem_backEdges_unreachable htree hE hu] at hnot
    exact not_or.mp hnot
  · intro hstray
    refine ⟨loops, hloops, fun L hL => ?_⟩
    obtain ⟨e, he, hc⟩ := hright L hL
    exact ⟨e, backEdge_of_mem htree he (hstray.reachable htree he), hc.toIsLoopOf⟩

theorem backEdges_eq {doms : List Nat} (htree : DomTree f doms) (hstray : NoStray f) :
    backEdges f doms = laidOutBackEdges f := by
  classical
  rw [backEdges, laidOutBackEdges]
  refine List.filter_congr fun e he => ?_
  have hE : Edge f e.1 e.2 := he
  rw [Bool.eq_iff_iff, Bool.and_eq_true, decide_eq_true_eq, decide_eq_true_eq]
  refine and_congr_right fun hle => ⟨fun hdom => ?_, fun hback => ?_⟩
  · have hmem := mem_backEdges.mpr ⟨hE, hle, hdom⟩
    exact backEdge_of_mem htree hmem (hstray.reachable htree hmem)
  · exact (htree.dominates_iff hback.reachable).mpr hback.dominates

theorem headers_finite_edge (f : IRFunction) (v : Nat) : (headers (Edge f) 0 v).Finite := by
  refine (Set.finite_lt_nat f.blocks.length).subset ?_
  rintro h ⟨l, hback, -⟩
  exact (show Edge f l h from hback.edge).lt.2

theorem depthsRight_iff (hnd : (f.blocks.map (·.label)).Nodup) (hstray : NoStray f) :
    DepthsRight f ↔ Covered (Edge f) 0 (laidOutBackEdges f) {b | b < f.blocks.length} := by
  obtain ⟨doms, hdoms, htree⟩ := computeDominators_domTree f
  obtain ⟨depths, hdepths, hspec⟩ := computeBlockLoopDepths_spec hnd hdoms
  have hback : ∀ e ∈ backEdges f doms, BackEdge (Edge f) 0 e.1 e.2 := fun e he =>
    backEdge_of_mem htree he (hstray.reachable htree he)
  have hdepth : ∀ b < f.blocks.length, ∀ m, (depths (f.labelAt b)).getD 0 ≤ m ↔
      ∀ e ∈ backEdges f doms, NaturalLoop (Edge f) e.2 e.1 b →
        cover (Edge f) (backEdges f doms) e.2 ≤ m := by
    intro b hb
    obtain ⟨d, hd, hm⟩ := hspec b hb
    rw [hd]
    exact hm
  rw [← backEdges_eq htree hstray, ← depths_eq_iff (V := {b | b < f.blocks.length}) hback
    (fun e he => (mem_backEdges.mp he).1.lt.2) (headers_finite_edge f) hdepth]
  constructor
  · rintro ⟨depths', hdepths', hall⟩ b hb
    obtain rfl := Option.some.inj (hdepths.symm.trans hdepths')
    rw [hall b hb, Option.getD_some]
  · intro hall
    refine ⟨depths, hdepths, fun b hb => ?_⟩
    obtain ⟨d, hd, -⟩ := hspec b hb
    have := hall b hb
    rw [hd, Option.getD_some] at this
    rw [hd, this]

/-- The dominators are right for every function. With unique labels, the loops and depths are, too,
if and only if no unreachable block leads to itself or to the entry, and the back edges that go
backwards in the layout cover the loops: if all do, then each header has one back edge, and the
loops of each unreachable block have an innermost one. -/
theorem loopAnalysisRight_iff (f : IRFunction) : DominatorsRight f ∧
    ((f.blocks.map (·.label)).Nodup →
      (LoopAnalysisRight f ↔ NoStray f ∧
        Covered (Edge f) 0 (laidOutBackEdges f) {b | b < f.blocks.length}) ∧
      (LaidOut f → (Covered (Edge f) 0 (laidOutBackEdges f) {b | b < f.blocks.length} ↔
        ((laidOutBackEdges f).map Prod.snd).Nodup ∧
        ∀ v < f.blocks.length, ¬ Reachable (Edge f) 0 v → (headers (Edge f) 0 v).Nonempty →
          ∃ h ∈ headers (Edge f) 0 v, headers (Edge f) 0 v ⊆ headers (Edge f) 0 h))) := by
  refine ⟨dominatorsRight f, fun hnd => ⟨?_, fun hlaid => ?_⟩⟩
  · constructor
    · intro h
      have hstray := (loopsRight_iff hnd).mp h.loops
      exact ⟨hstray, (depthsRight_iff hnd hstray).mp h.depths⟩
    · rintro ⟨hstray, hcov⟩
      exact ⟨dominatorsRight f, (loopsRight_iff hnd).mpr hstray,
        (depthsRight_iff hnd hstray).mpr hcov⟩
  · refine covered_iff fun l h => ?_
    simp only [laidOutBackEdges, List.mem_filter, decide_eq_true_eq]
    exact ⟨fun hmem => hmem.2.2, fun hback => ⟨hback.edge, hlaid l h hback, hback⟩⟩

/-- One block that jumps to itself, after the entry. -/
def selfLoop : IRFunction where
  name := "spin"
  blocks := [⟨"entry", [], .jump "spin", [], []⟩, ⟨"spin", [], .jump "spin", [], []⟩]

/-- The loop with one back edge. -/
theorem loopAnalysisRight_selfLoop : LoopAnalysisRight selfLoop ↔ NoStray selfLoop ∧
    ((laidOutBackEdges selfLoop).map Prod.snd).Nodup ∧ ∀ v < selfLoop.blocks.length,
      ¬ Reachable (Edge selfLoop) 0 v → (headers (Edge selfLoop) 0 v).Nonempty →
        ∃ h ∈ headers (Edge selfLoop) 0 v,
          headers (Edge selfLoop) 0 v ⊆ headers (Edge selfLoop) 0 h := by
  have h := (loopAnalysisRight_iff selfLoop).2 (by decide)
  have hlaid : LaidOut selfLoop := by
    intro l h hback
    have hE : (l, h) ∈ [(0, 1), (1, 1)] := hback.edge
    simp only [List.mem_cons, Prod.mk.injEq, List.not_mem_nil, or_false] at hE
    rcases hE with ⟨rfl, rfl⟩ | ⟨rfl, rfl⟩
    · simpa using hback.dominates _ .root
    · exact le_rfl
  rw [h.1, h.2 hlaid]

/-- A loop whose body goes back to the header in two places. -/
def twoLatches : IRFunction where
  name := "poll"
  blocks := [⟨"entry", [], .jump "head", [], []⟩,
    ⟨"head", [], .branch (.register 0) "body" "exit", [], []⟩,
    ⟨"body", [], .branch (.register 1) "head" "rest", [], []⟩,
    ⟨"rest", [], .jump "head", [], []⟩,
    ⟨"exit", [], .ret [], [], []⟩]

/-- Each of the two loops of the header counts as nested in the other. -/
theorem not_loopAnalysisRight : ¬ ∀ f, LoopAnalysisRight f := by
  intro hall
  obtain ⟨depths, hdepths, hspec⟩ := (hall twoLatches).depths
  have hdepth : (computeBlockLoopDepths twoLatches).bind (fun depths => depths "head") =
      some 2 := by decide
  rw [hdepths, Option.bind_some] at hdepth
  have hcard : (headers (Edge twoLatches) 0 1).ncard = 2 :=
    (Option.some.inj (hdepth.symm.trans (hspec 1 (by decide)))).symm
  have h1 : PathTo (Edge twoLatches) 0 1 [1, 0] :=
    .step .root (show (0, 1) ∈ edges twoLatches by decide)
  have h2 : PathTo (Edge twoLatches) 0 2 [2, 1, 0] :=
    .step h1 (show (1, 2) ∈ edges twoLatches by decide)
  have hsub : headers (Edge twoLatches) 0 1 ⊆ {1} := by
    rintro h ⟨l, hback, -⟩
    have hE : (l, h) ∈ [(0, 1), (1, 2), (1, 4), (2, 1), (2, 3), (3, 1)] := hback.edge
    have hdom := hback.dominates
    simp only [List.mem_cons, Prod.mk.injEq, List.not_mem_nil, or_false] at hE
    rcases hE with ⟨rfl, rfl⟩ | ⟨rfl, rfl⟩ | ⟨rfl, rfl⟩ | ⟨rfl, rfl⟩ | ⟨rfl, rfl⟩ | ⟨rfl, rfl⟩
    · rfl
    · simpa using hdom _ h1
    · simpa using hdom _ h1
    · rfl
    · simpa using hdom _ h2
    · rfl
  have := Set.ncard_le_ncard hsub (Set.finite_singleton 1)
  rw [hcard, Set.ncard_singleton] at this
  omega

end Vuma.Codegen.LoopDetector
