import Vuma.Package.Resolver

/-!
# The sort

A node is taken from the queue when all nodes that depend on it have been taken. The sort gets to
every node of a graph without cycles.
-/

namespace Vuma.Package

open Lib

variable (graph : HashMap String (List String))

/-- The dependencies of a node. -/
def depsOf (node : String) : List String := (graph.lookup node).getD []

/-- A node of the graph, or a dependency of one. -/
def IsNode (node : String) : Prop :=
  (graph.lookup node).isSome ∨ ∃ m, node ∈ depsOf graph m

/-- How often a node is a dependency of nodes that have not been taken. -/
def waiting (taken : List String) (node : String) : Nat :=
  ∑ m ∈ graph.keys.toFinset \ taken.toFinset, (depsOf graph m).count node

variable {graph}

theorem mem_keys_of_mem_depsOf {m node : String} (h : node ∈ depsOf graph m) : m ∈ graph.keys := by
  rw [HashMap.mem_keys_iff]
  rw [depsOf] at h
  cases hm : graph.lookup m with
  | none => simp [hm] at h
  | some ds => rfl

theorem waiting_eq_zero_iff {taken : List String} {node : String} :
    waiting graph taken node = 0 ↔ ∀ m, node ∈ depsOf graph m → m ∈ taken := by
  rw [waiting, Finset.sum_eq_zero_iff]
  constructor
  · intro h m hm
    refine by_contra fun hn => ?_
    have hz := h m (by simp [mem_keys_of_mem_depsOf hm, hn])
    exact List.count_eq_zero.1 hz hm
  · intro h m hm
    rw [Finset.mem_sdiff, List.mem_toFinset, List.mem_toFinset] at hm
    exact List.count_eq_zero.2 fun hd => hm.2 (h m hd)

variable (graph) in
/-- Taking a node lowers what its dependencies wait for. -/
theorem waiting_append_singleton {taken : List String} {node : String} (h : node ∉ taken)
    (n : String) :
    waiting graph taken n = waiting graph (taken ++ [node]) n + (depsOf graph node).count n := by
  have hset : graph.keys.toFinset \ (taken ++ [node]).toFinset =
      (graph.keys.toFinset \ taken.toFinset).erase node := by
    ext m
    simp
    tauto
  rw [waiting, waiting, hset]
  by_cases hk : node ∈ graph.keys
  · exact (Finset.sum_erase_add _ _ (by simp [hk, h])).symm
  · rw [Finset.erase_eq_of_notMem (by simp [hk])]
    have hnone : depsOf graph node = [] := by
      rw [depsOf]
      have hl : graph.lookup node = none := by
        rw [← Option.not_isSome_iff_eq_none, ← HashMap.mem_keys_iff]
        exact hk
      rw [hl]
      rfl
    rw [hnone]
    simp

/-! ## In-degrees -/

theorem foldl_insert_zero (l : List String) (degrees : HashMap String Nat) (n : String) :
    (l.foldl (fun (degrees : HashMap String Nat) node =>
      if (degrees.lookup node).isSome then degrees else degrees.insert node 0) degrees).lookup n =
      if (degrees.lookup n).isSome then degrees.lookup n else if n ∈ l then some 0 else none := by
  induction l generalizing degrees with
  | nil =>
    cases h : degrees.lookup n <;> simp [h]
  | cons k l ih =>
    rw [List.foldl_cons, ih]
    by_cases hk : (degrees.lookup k).isSome
    · rw [if_pos hk]
      by_cases hn : n = k
      · subst hn
        simp [hk]
      · simp [hn]
    · rw [if_neg hk, HashMap.lookup_insert_ite]
      by_cases hn : n = k
      · subst hn
        simp [hk]
      · simp [hn]

theorem foldl_insert_succ (l : List String) (degrees : HashMap String Nat) (n : String) :
    (l.foldl (fun (degrees : HashMap String Nat) dep =>
      degrees.insert dep ((degrees.lookup dep).getD 0 + 1)) degrees).lookup n =
      if n ∈ l then some ((degrees.lookup n).getD 0 + l.count n) else degrees.lookup n := by
  induction l generalizing degrees with
  | nil => simp
  | cons k l ih =>
    rw [List.foldl_cons, ih, HashMap.lookup_insert_ite]
    by_cases hn : n = k
    · subst hn
      by_cases hm : n ∈ l
      · simp [hm]
        omega
      · simp [hm, List.count_eq_zero.2 hm]
    · by_cases hm : n ∈ l <;> simp [hm, hn, Ne.symm hn]

theorem depsOf_of_mem_entries {e : Sigma fun _ : String => List String} (h : e ∈ graph.entries) :
    depsOf graph e.1 = e.2 := by
  have hl : graph.lookup e.1 = some e.2 := AList.mem_lookup_iff.2 h
  rw [depsOf, hl]
  rfl

theorem count_flatMap_entries (n : String) :
    (graph.entries.flatMap fun e => e.2).count n = waiting graph [] n := by
  have hkeys : graph.keys.map (fun m => (depsOf graph m).count n) =
      graph.entries.map fun e => e.2.count n := by
    rw [AList.keys, List.keys, List.map_map]
    refine List.map_congr_left fun e he => ?_
    rw [Function.comp, depsOf_of_mem_entries he]
  rw [waiting, List.toFinset_nil, Finset.sdiff_empty, List.sum_toFinset _ graph.keys_nodup, hkeys,
    List.count_flatMap]
  rfl

theorem mem_flatMap_entries {n : String} :
    (n ∈ graph.entries.flatMap fun e => e.2) ↔ ∃ m, n ∈ depsOf graph m := by
  rw [List.mem_flatMap]
  constructor
  · rintro ⟨e, he, hn⟩
    exact ⟨e.1, by rwa [depsOf_of_mem_entries he]⟩
  · rintro ⟨m, hn⟩
    obtain ⟨ds, hds⟩ := Option.isSome_iff_exists.1
      (HashMap.mem_keys_iff.1 (mem_keys_of_mem_depsOf hn))
    rw [depsOf, hds] at hn
    exact ⟨⟨m, ds⟩, AList.mem_lookup_iff.1 hds, hn⟩

theorem lookup_inDegrees_iff {n : String} {k : Nat} :
    (inDegrees graph).lookup n = some k ↔ IsNode graph n ∧ waiting graph [] n = k := by
  rw [inDegrees, ← List.foldl_flatMap, foldl_insert_succ, foldl_insert_zero,
    count_flatMap_entries, IsNode, ← mem_flatMap_entries]
  have hempty : (∅ : HashMap String Nat).lookup n = none := AList.lookup_empty n
  simp only [HashMap.mem_keys_iff, hempty]
  by_cases hd : n ∈ graph.entries.flatMap fun e => e.2
  · by_cases hk : (graph.lookup n).isSome <;> simp only [hk, hd] <;> simp
  · have hz : waiting graph [] n = 0 :=
      waiting_eq_zero_iff.2 fun m hm => (hd (mem_flatMap_entries.2 ⟨m, hm⟩)).elim
    by_cases hk : (graph.lookup n).isSome <;> simp only [hk, hd, hz] <;> simp

/-! ## The loop -/

/-- The nodes that have been taken and those of the queue wait for nothing, and a node has been
taken after all that depend on it. -/
structure Sorting (graph : HashMap String (List String)) (degrees : HashMap String Nat)
    (queue sorted : List String) : Prop where
  nodup : (sorted ++ queue).Nodup
  degree : ∀ n, IsNode graph n → degrees.lookup n = some (waiting graph sorted n)
  mem : ∀ n, n ∈ sorted ++ queue ↔ IsNode graph n ∧ waiting graph sorted n = 0
  order : ∀ l₁ d l₂, sorted = l₁ ++ d :: l₂ → ∀ m, d ∈ depsOf graph m → m ∈ l₁

variable (graph) in
/-- Lowering degrees one by one puts the nodes into the queue that wait for nothing more. -/
theorem foldl_lowerDegree {wait : String → Nat} {taken deps : List String}
    (hdeps : ∀ d ∈ deps, IsNode graph d) {degrees : HashMap String Nat} {queue : List String}
    (hnodup : (taken ++ queue).Nodup)
    (hdegree : ∀ n, IsNode graph n → degrees.lookup n = some (wait n + deps.count n))
    (hmem : ∀ n, n ∈ taken ++ queue ↔ IsNode graph n ∧ wait n + deps.count n = 0) :
    let s := deps.foldl lowerDegree (degrees, queue)
    (taken ++ s.2).Nodup ∧ (∀ n, IsNode graph n → s.1.lookup n = some (wait n)) ∧
      ∀ n, n ∈ taken ++ s.2 ↔ IsNode graph n ∧ wait n = 0 := by
  induction deps generalizing degrees queue with
  | nil => exact ⟨hnodup, by simpa using hdegree, by simpa using hmem⟩
  | cons d deps ih =>
    have hd := hdeps d List.mem_cons_self
    have hlookup : degrees.lookup d = some (wait d + deps.count d + 1) := by
      rw [hdegree d hd, List.count_cons_self]
      rfl
    have hnot : d ∉ taken ++ queue := by
      rw [hmem, List.count_cons_self]
      omega
    rw [List.foldl_cons, lowerDegree]
    simp only [hlookup, Nat.add_sub_cancel]
    refine ih (fun x hx => hdeps x (List.mem_cons_of_mem _ hx)) ?_ ?_ ?_
    · split_ifs
      · rw [← List.append_assoc]
        exact hnodup.append (List.nodup_singleton d) (by simpa using hnot)
      · exact hnodup
    · intro n hn
      rw [HashMap.lookup_insert_ite]
      by_cases hne : n = d
      · rw [if_pos hne, hne]
      · rw [if_neg hne, hdegree n hn, List.count_cons_of_ne (Ne.symm hne)]
    · intro n
      by_cases hne : n = d
      · subst hne
        split_ifs with hz
        · simp [hd, hz]
        · simp only [hz, and_false, iff_false]
          exact hnot
      · have hn := hmem n
        rw [List.count_cons_of_ne (Ne.symm hne)] at hn
        split_ifs with hz
        · rw [← List.append_assoc, List.mem_append, hn]
          simp [hne]
        · exact hn

theorem Sorting.step {degrees : HashMap String Nat} {node : String} {queue sorted : List String}
    (h : Sorting graph degrees (node :: queue) sorted) :
    let s := (depsOf graph node).foldl lowerDegree (degrees, queue)
    Sorting graph s.1 s.2 (sorted ++ [node]) := by
  have hnodup : ((sorted ++ [node]) ++ queue).Nodup := by simpa using h.nodup
  have hnode : node ∉ sorted := fun hm => by
    have hnd := h.nodup
    rw [List.nodup_append] at hnd
    exact hnd.2.2 node hm node List.mem_cons_self rfl
  have hwait := waiting_append_singleton graph hnode
  have hmem : ∀ n, n ∈ (sorted ++ [node]) ++ queue ↔ IsNode graph n ∧
      waiting graph (sorted ++ [node]) n + (depsOf graph node).count n = 0 := by
    intro n
    rw [← hwait, ← h.mem]
    simp
  obtain ⟨hnd, hdeg, hm⟩ := foldl_lowerDegree graph (fun d hd => .inr ⟨node, hd⟩) hnodup
    (fun n hn => by rw [h.degree n hn, hwait]) hmem
  refine ⟨hnd, hdeg, hm, ?_⟩
  intro l₁ d l₂ hl m hd
  rcases List.eq_nil_or_concat l₂ with rfl | ⟨l₂, x, rfl⟩
  · obtain ⟨rfl, hx⟩ := List.append_inj' hl rfl
    cases hx
    exact waiting_eq_zero_iff.1 ((h.mem node).1 (by simp)).2 m hd
  · have hl' : sorted ++ [node] = (l₁ ++ d :: l₂) ++ [x] := by simpa using hl
    exact h.order l₁ d l₂ (List.append_inj' hl' rfl).1 m hd

theorem Sorting.sortLoop {nodes : Nat} {degrees : HashMap String Nat} {queue sorted : List String}
    (h : Sorting graph degrees queue sorted)
    (hnodes : ∀ l : List String, l.Nodup → (∀ n ∈ l, IsNode graph n) →
      l.length ≤ nodes + sorted.length) :
    ∃ degrees', Sorting graph degrees' [] (sortLoop graph nodes (degrees, queue) sorted) := by
  induction nodes generalizing degrees queue sorted with
  | zero =>
    have hlen := hnodes _ h.nodup fun n hn => ((h.mem n).1 hn).1
    rw [List.length_append] at hlen
    obtain rfl : queue = [] := List.length_eq_zero_iff.1 (by omega)
    exact ⟨degrees, h⟩
  | succ nodes ih =>
    cases queue with
    | nil => exact ⟨degrees, h⟩
    | cons node queue =>
      refine ih h.step fun l hl hn => ?_
      have := hnodes l hl hn
      simp only [List.length_append, List.length_singleton]
      omega

/-- What the sort gives before it compares lengths. -/
structure Sorted (graph : HashMap String (List String)) (sorted : List String) : Prop where
  nodup : sorted.Nodup
  isNode : ∀ n ∈ sorted, IsNode graph n
  order : ∀ l₁ d l₂, sorted = l₁ ++ d :: l₂ → ∀ m, d ∈ depsOf graph m → m ∈ l₁
  closed : ∀ n, IsNode graph n → (∀ m, n ∈ depsOf graph m → m ∈ sorted) → n ∈ sorted

/-- The dependencies of a node come after it. -/
theorem Sorted.mem_of_mem_depsOf {sorted : List String} (h : Sorted graph sorted)
    {l₁ l₂ : List String} {n d : String} (hl : sorted = l₁ ++ n :: l₂) (hd : d ∈ depsOf graph n)
    (hmem : d ∈ sorted) : d ∈ l₂ := by
  have hnd := h.nodup
  rw [hl, List.nodup_append] at hnd
  have hn : n ∉ l₁ := fun hm => hnd.2.2 n hm n List.mem_cons_self rfl
  rw [hl, List.mem_append, List.mem_cons] at hmem
  rcases hmem with hm | rfl | hm
  · obtain ⟨k₁, k₂, rfl⟩ := List.append_of_mem hm
    have hlt := h.order k₁ d (k₂ ++ n :: l₂) (by simp [hl]) n hd
    exact absurd (List.mem_append_left _ hlt) hn
  · exact absurd (h.order l₁ d l₂ hl d hd) hn
  · exact hm

theorem topologicalSort_eq (it : KeyOrder String) (graph : HashMap String (List String)) :
    ∃ sorted, Sorted graph sorted ∧
      (sorted.length = graph.keys.length → topologicalSort it graph = .ok sorted.reverse) ∧
      (sorted.length ≠ graph.keys.length →
        ∃ text, topologicalSort it graph = .error (.circularDependency text)) := by
  have hmem : ∀ n, n ∈ it.order (inDegrees graph).keys ↔ IsNode graph n := by
    intro n
    rw [(it.perm _).mem_iff, HashMap.mem_keys_iff, Option.isSome_iff_exists]
    simp [lookup_inDegrees_iff]
  have hinit : Sorting graph (inDegrees graph) ((it.order (inDegrees graph).keys).filter
      fun node => (inDegrees graph).lookup node = some 0) [] := by
    refine ⟨?_, fun n hn => lookup_inDegrees_iff.2 ⟨hn, rfl⟩, fun n => ?_, ?_⟩
    · exact ((it.perm _).nodup_iff.2 (AList.keys_nodup _)).filter _
    · rw [List.nil_append, List.mem_filter, hmem, decide_eq_true_iff, lookup_inDegrees_iff]
      exact ⟨fun h => h.2, fun h => ⟨h.1, h⟩⟩
    · intro l₁ d l₂ hl
      simp at hl
  obtain ⟨degrees, hsorted⟩ := hinit.sortLoop fun l hl hn => by
    have hsub : l ⊆ (inDegrees graph).keys := fun n hm =>
      (it.perm _).mem_iff.1 ((hmem n).2 (hn n hm))
    simpa using (List.subperm_of_subset hl hsub).length_le
  refine ⟨_, ⟨by simpa using hsorted.nodup, ?_, hsorted.order, ?_⟩, fun hlen => ?_, fun hlen => ?_⟩
  · intro n hn
    exact ((hsorted.mem n).1 (by simpa using hn)).1
  · intro n hn hall
    simpa using (hsorted.mem n).2 ⟨hn, waiting_eq_zero_iff.2 hall⟩
  · rw [topologicalSort]
    exact if_neg (not_not_intro (by rwa [List.length_reverse]))
  · rw [topologicalSort]
    exact ⟨_, if_pos (by rwa [List.length_reverse])⟩

end Vuma.Package
