import Vuma.Lib.Dominators

/-!
# The nesting of natural loops

The depth of a vertex is the number of headers whose loop contains it. Counting loops of single
back edges instead, and for the headers only, gives the same numbers if no header is counted twice
and the loops a vertex lies in have an innermost one; the loops of a reachable vertex do.
-/

namespace Vuma.Lib

variable {α : Type*} (E : α → α → Prop) (r : α)

/-- The headers of the loops that contain `v`. -/
def headers (v : α) : Set α := {h | ∃ l, BackEdge E r l h ∧ NaturalLoop E h l v}

open Classical in
/-- The number of back edges, latch and header, in whose loop `v` lies. -/
noncomputable def cover (D : List (α × α)) (v : α) : Nat :=
  D.countP fun e => NaturalLoop E e.2 e.1 v

/-- No header lies in the loops of more back edges than there are headers, and every vertex of a
loop lies in the loop of a back edge whose header lies in all loops the vertex does, and is counted
for each. -/
structure Covered (D : List (α × α)) (V : Set α) : Prop where
  le : ∀ e ∈ D, cover E D e.2 ≤ (headers E r e.2).ncard
  innermost : ∀ v ∈ V, (headers E r v).Nonempty → ∃ e ∈ D, NaturalLoop E e.2 e.1 v ∧
    headers E r v ⊆ headers E r e.2 ∧ (headers E r e.2).ncard ≤ cover E D e.2

variable {E r} {h v : α} {D : List (α × α)} {V : Set α}

theorem BackEdge.mem_headers {l : α} (he : BackEdge E r l h) (hv : NaturalLoop E h l v) :
    h ∈ headers E r v := ⟨l, he, hv⟩

/-- What contains a header contains its loop. -/
theorem headers_subset (hv : h ∈ headers E r v) : headers E r h ⊆ headers E r v := by
  rintro h' ⟨l', he', hh⟩
  by_cases hne : h = h'
  · exact hne ▸ hv
  · obtain ⟨l, he, hvl⟩ := hv
    exact ⟨l', he', hh.nested he he' hne hvl⟩

/-- The loops of a reachable vertex have an innermost one. -/
theorem exists_innermost (hfin : (headers E r v).Finite) (hv : (headers E r v).Nonempty)
    (hr : Reachable E r v) : ∃ h ∈ headers E r v, headers E r v ⊆ headers E r h := by
  -- a header that lies in as many loops as possible
  obtain ⟨h, hh, hmax⟩ := Set.exists_max_image _ (fun h => (headers E r h).ncard) hfin hv
  refine ⟨h, hh, fun h' hh' => ?_⟩
  obtain ⟨l, he, hvl⟩ := hh
  obtain ⟨l', he', hvl'⟩ := hh'
  rcases hvl.header_mem he he' hvl' hr with hmem | hmem
  · have hsub := headers_subset (he.mem_headers hmem)
    have hfin' := hfin.subset (headers_subset (he'.mem_headers hvl'))
    rw [Set.eq_of_subset_of_ncard_le hsub (hmax h' (he'.mem_headers hvl')) hfin']
    exact he'.mem_headers .header
  · exact he'.mem_headers hmem

/-- The greatest number of loops counted for the header of a loop around the vertex is the number of
headers, for all vertices, if and only if these are covered. -/
theorem depths_eq_iff (hD : ∀ e ∈ D, BackEdge E r e.1 e.2) (hDV : ∀ e ∈ D, e.2 ∈ V)
    (hfin : ∀ v, (headers E r v).Finite) {depth : α → Nat}
    (hdepth : ∀ v ∈ V, ∀ m, depth v ≤ m ↔
      ∀ e ∈ D, NaturalLoop E e.2 e.1 v → cover E D e.2 ≤ m) :
    (∀ v ∈ V, depth v = (headers E r v).ncard) ↔ Covered E r D V := by
  have hsub : ∀ {v}, ∀ e ∈ D, NaturalLoop E e.2 e.1 v → headers E r e.2 ⊆ headers E r v :=
    fun e he hv => headers_subset ((hD e he).mem_headers hv)
  constructor
  · intro heq
    have hle : ∀ e ∈ D, cover E D e.2 ≤ (headers E r e.2).ncard := by
      intro e he
      rw [← heq e.2 (hDV e he)]
      exact (hdepth e.2 (hDV e he) _).mp le_rfl e he .header
    refine ⟨hle, fun v hv hne => ?_⟩
    have hpos := (Set.ncard_pos (hfin v)).mpr hne
    have hnot : ¬ depth v ≤ (headers E r v).ncard - 1 := by
      rw [heq v hv]
      omega
    simp only [hdepth v hv, not_forall, not_le] at hnot
    obtain ⟨e, he, hve, hlt⟩ := hnot
    have hcard : (headers E r v).ncard ≤ (headers E r e.2).ncard := by
      have := hle e he
      omega
    have hset := Set.eq_of_subset_of_ncard_le (hsub e he hve) hcard (hfin v)
    exact ⟨e, he, hve, hset.symm.subset, by rw [hset]; omega⟩
  · intro hcov v hv
    refine le_antisymm ((hdepth v hv _).mpr fun e he hve => ?_) ?_
    · exact (hcov.le e he).trans (Set.ncard_le_ncard (hsub e he hve) (hfin v))
    · rcases (headers E r v).eq_empty_or_nonempty with hempty | hne
      · rw [hempty, Set.ncard_empty]
        exact Nat.zero_le _
      obtain ⟨e, he, hve, hincl, hcard⟩ := hcov.innermost v hv hne
      calc (headers E r v).ncard ≤ (headers E r e.2).ncard := Set.ncard_le_ncard hincl (hfin _)
        _ ≤ cover E D e.2 := hcard
        _ ≤ depth v := (hdepth v hv _).mp le_rfl e he hve

/-! ## All back edges -/

section

variable (hD : ∀ l h, (l, h) ∈ D ↔ BackEdge E r l h)
include hD

open Classical in
theorem headers_eq_toFinset (v : α) : headers E r v =
    ↑((D.filter fun e => NaturalLoop E e.2 e.1 v).map Prod.snd).toFinset := by
  ext h
  simp [headers, hD]

theorem headers_finite (v : α) : (headers E r v).Finite := by
  rw [headers_eq_toFinset hD]
  exact Finset.finite_toSet _

open Classical in
theorem ncard_headers (v : α) : (headers E r v).ncard =
    ((D.filter fun e => NaturalLoop E e.2 e.1 v).map Prod.snd).toFinset.card := by
  rw [headers_eq_toFinset hD, Set.ncard_coe_finset]

/-- A header is counted once, if it has one back edge. -/
theorem cover_eq_ncard_headers (hnodup : (D.map Prod.snd).Nodup) (v : α) :
    cover E D v = (headers E r v).ncard := by
  classical
  have hsub := (List.filter_sublist (p := fun e => decide (NaturalLoop E e.2 e.1 v)) (l := D)).map
    Prod.snd
  rw [ncard_headers hD, cover, List.countP_eq_length_filter,
    List.toFinset_card_of_nodup (hnodup.sublist hsub), List.length_map]

/-- A header with two back edges lies in more loops than headers count. -/
theorem nodup_of_cover_le (hle : ∀ e ∈ D, cover E D e.2 ≤ (headers E r e.2).ncard) :
    (D.map Prod.snd).Nodup := by
  classical
  rw [List.nodup_iff_count_le_one]
  intro h
  by_cases hmem : h ∈ D.map Prod.snd
  swap
  · rw [List.count_eq_zero_of_not_mem hmem]
    exact Nat.zero_le 1
  obtain ⟨e, he, rfl⟩ := List.mem_map.mp hmem
  have hcard := hle e he
  rw [ncard_headers hD, cover, List.countP_eq_length_filter, List.card_toFinset] at hcard
  have hnodup : ((D.filter fun e' => NaturalLoop E e'.2 e'.1 e.2).map Prod.snd).Nodup := by
    rw [← List.dedup_eq_self]
    exact (List.dedup_sublist _).eq_of_length_le (by simpa using hcard)
  -- the back edges to the header are among those whose loops contain it
  have hcount : (D.map Prod.snd).count e.2 =
      ((D.filter fun e' => NaturalLoop E e'.2 e'.1 e.2).map Prod.snd).count e.2 := by
    rw [List.count_eq_countP, List.count_eq_countP, List.countP_map, List.countP_map,
      List.countP_filter]
    refine List.countP_congr fun e' _ => ?_
    simp only [Function.comp_apply, beq_iff_eq, Bool.and_eq_true, decide_eq_true_eq]
    refine ⟨fun heq => ⟨heq, heq ▸ .header⟩, And.left⟩
  rw [hcount]
  exact List.nodup_iff_count_le_one.mp hnodup e.2

/-- If every back edge is counted, all depths are right if and only if each header has one back edge
and the loops of each unreachable vertex have an innermost one. -/
theorem covered_iff : Covered E r D V ↔ (D.map Prod.snd).Nodup ∧
    ∀ v ∈ V, ¬ Reachable E r v → (headers E r v).Nonempty →
      ∃ h ∈ headers E r v, headers E r v ⊆ headers E r h := by
  constructor
  · intro hcov
    refine ⟨nodup_of_cover_le hD hcov.le, fun v hv _ hne => ?_⟩
    obtain ⟨e, he, hve, hincl, -⟩ := hcov.innermost v hv hne
    exact ⟨e.2, ((hD e.1 e.2).mp he).mem_headers hve, hincl⟩
  · rintro ⟨hnodup, hinner⟩
    have hcover := cover_eq_ncard_headers hD hnodup
    refine ⟨fun e _ => (hcover e.2).le, fun v hv hne => ?_⟩
    obtain ⟨h, ⟨l, he, hvl⟩, hincl⟩ : ∃ h ∈ headers E r v, headers E r v ⊆ headers E r h := by
      by_cases hr : Reachable E r v
      · exact exists_innermost (headers_finite hD v) hne hr
      · exact hinner v hv hr hne
    exact ⟨(l, h), (hD l h).mpr he, hvl, hincl, (hcover h).ge⟩

end

end Vuma.Lib
