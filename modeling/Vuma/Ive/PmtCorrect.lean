import Vuma.Ive.Pmt

/-!
# State programs that pass

What a safe state program is, in terms of its nodes and their numbers, and when a program that
`verify_pmt` accepts is safe. It does not look at reads and second consumptions of a state that has
been consumed, and without reads, writes and transforms it accepts all allocations in arenas.
-/

namespace Vuma.Ive

open Lib Scg

/-! ## Safe programs -/

/-- The state that a node consumes. -/
def consumes : NodePayload → Option UInt32
  | .stateTransform n => some n.inputVreg
  | .foreignConsume n => some n.inputVreg
  | _ => none

/-- The state that a node reads, writes or consumes. -/
def uses : NodePayload → Option UInt32
  | .stateRead n => some n.stateVreg
  | .stateWrite n => some n.stateVreg
  | p => consumes p

/-- The state that a node makes. -/
def initialises : NodePayload → Option UInt32
  | .stateInit n => some n.resultVreg
  | .stateTransform n => some n.resultVreg
  | .arenaAlloc n => some n.resultStateVreg
  | _ => none

/-- The variable, the layout and the field of a read or write. -/
def accesses : NodePayload → Option (UInt32 × String × String)
  | .stateRead n => some (n.stateVreg, n.layoutName, n.fieldName)
  | .stateWrite n => some (n.stateVreg, n.layoutName, n.fieldName)
  | _ => none

/-- A node is a write. -/
def IsWrite (p : NodePayload) : Prop := ∃ n, p = .stateWrite n

/-- What is known of the arenas after some nodes. -/
def arenaStateAfter (layouts : HashMap String PmtLayoutSpec) (nodes : List NodePayload) :
    ArenaState :=
  nodes.foldl (fun s node => (arenaStep layouts s node).1) ⟨∅, ∅⟩

namespace VerificationInput

variable (input : VerificationInput)

/-- Some node reads, writes or transforms a state. -/
def HasStateOps : Prop :=
  ∃ id p, input.scg.nodePayload id = some p ∧
    ((accesses p).isSome ∨ ∃ n, p = .stateTransform n)

/-- Allocations in arenas are of registered layouts that are not empty. -/
def ArenaAllocsRegistered : Prop :=
  ∀ id n, input.scg.nodePayload id = some (.arenaAlloc n) →
    ∃ spec, input.layouts.lookup n.layoutName = some spec ∧ 0 < spec.totalSize.toNat

/-- Nodes of some kind do not use a state that has been consumed and not been made again. -/
def LinearFor (P : NodePayload → Prop) : Prop :=
  ∀ id₁ id₂ p q v, input.scg.nodePayload id₁ = some p → input.scg.nodePayload id₂ = some q →
    id₁ < id₂ → consumes p = some v → uses q = some v → P q →
      ∃ id r, id₁ ≤ id ∧ id < id₂ ∧ input.scg.nodePayload id = some r ∧ initialises r = some v

/-- The sizes of the layouts do not wrap around. -/
def LayoutsFit : Prop :=
  ∀ name spec, input.layouts.lookup name = some spec → layoutSize spec.fields < 2 ^ 64

/-- The sizes of the fields of each layout have a sum below `2 ^ 64`. -/
def SizesFit : Prop :=
  ∀ name spec, input.layouts.lookup name = some spec →
    (spec.fields.map fun f => f.size.toNat).sum < 2 ^ 64

/-- A safe state program. -/
structure Safe (it : KeyOrder NodeId) : Prop where
  access : ∀ id p v layoutName fieldName, input.scg.nodePayload id = some p →
    accesses p = some (v, layoutName, fieldName) →
      ∃ spec, input.layouts.lookup layoutName = some spec ∧ ∃ f ∈ spec.fields,
        f.name = fieldName ∧ f.offset.toNat + f.size.toNat ≤ spec.totalSize.toNat
  disjoint : ∀ name spec, input.layouts.lookup name = some spec →
    spec.fields.Pairwise PmtFieldSpec.Disjoint
  transform : ∀ id n, input.scg.nodePayload id = some (.stateTransform n) →
    (input.layouts.lookup n.inputLayout).isSome ∧ (input.layouts.lookup n.outputLayout).isSome
  arena : input.ArenaAllocsRegistered
  capacity : ∀ l₁ n l₂, nodePayloads (input.scg.toSemanticScg it) = l₁ ++ .arenaAlloc n :: l₂ →
    ∀ spec cap, input.layouts.lookup n.layoutName = some spec →
      (arenaStateAfter input.layouts l₁).capacity.lookup n.arenaVreg = some (some cap) →
        (((arenaStateAfter input.layouts l₁).used.lookup n.arenaVreg).getD 0).toNat +
          spec.totalSize.toNat ≤ cap.toNat
  linear : input.LinearFor fun _ => True

end VerificationInput

/-! ## Nodes -/

theorem nodeData_id {scg : CodegenScg} {id : NodeId} {data : NodeData}
    (h : scg.nodeData id = some data) : data.id = id := by
  rw [CodegenScg.nodeData] at h
  cases hs : scg.semanticNodes with
  | some sn =>
    rw [hs] at h
    exact scg.semantic_id sn hs id data h
  | none =>
    rw [hs] at h
    obtain ⟨stmt, -, rfl⟩ := Option.map_eq_some_iff.1 h
    rfl

theorem nodePayload_eq_some_iff {scg : CodegenScg} {id : NodeId} {p : NodePayload} :
    scg.nodePayload id = some p ↔ id ∈ scg.nodeIndex.keys ∧
      ∃ data, scg.nodeData id = some data ∧ data.payload = p := by
  rw [CodegenScg.nodePayload, HashMap.mem_keys_iff]
  split_ifs with h
  · rw [Option.map_eq_some_iff, and_iff_right h]
  · exact iff_of_false (by simp) fun hp => h hp.1

theorem nodePayloads_pushNode (g : SCG) (data : NodeData) :
    nodePayloads (g.pushNode data) = nodePayloads g ++ [data.payload] := by
  simp [nodePayloads, SCG.pushNode, DiGraph.addNode]

/-- Adding a node with a new number adds its payload. -/
theorem nodePayloads_addNodeWithId {g : SCG} {id : NodeId} (h : g.nodeIdToIndex.lookup id = none)
    (t : NodeType) (p : NodePayload) (pp : ProgramPoint) :
    nodePayloads (g.addNodeWithId id t p pp).2 = nodePayloads g ++ [p] ∧
      ∀ id', ((g.addNodeWithId id t p pp).2.nodeIdToIndex.lookup id').isSome →
        id' = id ∨ (g.nodeIdToIndex.lookup id').isSome := by
  have hmap : ∀ id', ((g.pushNode ⟨id, t, none, pp, p⟩).nodeIdToIndex.lookup id').isSome →
      id' = id ∨ (g.nodeIdToIndex.lookup id').isSome := by
    intro id' h'
    rw [SCG.pushNode] at h'
    dsimp only at h'
    rw [HashMap.lookup_insert_ite] at h'
    split_ifs at h' with heq
    · exact .inl heq
    · exact .inr h'
  rw [SCG.addNodeWithId, if_neg (by simp [h])]
  dsimp only
  split_ifs
  · exact ⟨nodePayloads_pushNode g _, hmap⟩
  · exact ⟨nodePayloads_pushNode g _, hmap⟩

theorem mem_nodePayloads_of_nodePayload (it : KeyOrder NodeId) {scg : CodegenScg} {id : NodeId}
    {p : NodePayload} (h : scg.nodePayload id = some p) :
    p ∈ nodePayloads (scg.toSemanticScg it) := by
  obtain ⟨hmem, data, hdata, rfl⟩ := nodePayload_eq_some_iff.1 h
  have hnodup : (it.order scg.nodeIndex.keys).Nodup :=
    (it.perm _).nodup_iff.2 (AList.keys_nodup _)
  have hid : id ∈ it.order scg.nodeIndex.keys := (it.perm _).mem_iff.2 hmem
  obtain ⟨f, hfold, hskip, hadd⟩ : ∃ f : SCG → NodeId → SCG,
      scg.toSemanticScg it = (it.order scg.nodeIndex.keys).foldl f SCG.new ∧
      (∀ g x, scg.nodeData x = none → f g x = g) ∧
      ∀ g x data, scg.nodeData x = some data →
        f g x = (g.addNodeWithId data.id data.nodeType data.payload data.programPoint).2 :=
    ⟨_, rfl, fun _ _ h => by rw [h], fun _ _ _ h => by rw [h]⟩
  rw [hfold]
  generalize it.order scg.nodeIndex.keys = ids at hnodup hid
  have hnone : ∀ id ∈ ids, (SCG.new.nodeIdToIndex.lookup id) = none := fun id _ =>
    AList.lookup_empty id
  -- the nodes that have been added stay, and the numbers to come are new
  suffices hgen : ∀ (ids : List NodeId) (g : SCG), ids.Nodup →
      (∀ id ∈ ids, g.nodeIdToIndex.lookup id = none) →
      (data.payload ∈ nodePayloads g ∨ id ∈ ids) → data.payload ∈ nodePayloads (ids.foldl f g) from
    hgen ids _ hnodup hnone (.inr hid)
  intro ids
  induction ids with
  | nil =>
    intro g _ _ h
    exact h.resolve_right List.not_mem_nil
  | cons x ids ih =>
    intro g hnd hnew h
    obtain ⟨hx, hids⟩ := List.nodup_cons.1 hnd
    rw [List.foldl_cons]
    cases hd : scg.nodeData x with
    | none =>
      rw [hskip g x hd]
      refine ih g hids (fun y hy => hnew y (List.mem_cons_of_mem _ hy)) (h.imp_right fun h => ?_)
      rcases List.mem_cons.1 h with rfl | h
      · rw [hd] at hdata
        cases hdata
      · exact h
    | some d =>
      obtain rfl := nodeData_id hd
      obtain ⟨hp, hm⟩ := nodePayloads_addNodeWithId (hnew _ List.mem_cons_self) d.nodeType
        d.payload d.programPoint
      rw [hadd g _ d hd]
      refine ih _ hids (fun y hy => ?_) ?_
      · rw [← Option.not_isSome_iff_eq_none]
        intro hs
        rcases hm y hs with rfl | hs
        · exact hx hy
        · rw [hnew y (List.mem_cons_of_mem _ hy)] at hs
          cases hs
      · rw [hp]
        rcases h with h | h
        · exact .inl (List.mem_append_left _ h)
        · rcases List.mem_cons.1 h with rfl | h
          · rw [hd] at hdata
            cases hdata
            exact .inl (by simp)
          · exact .inr h

theorem mem_stateNodes_iff (it : KeyOrder NodeId) {scg : CodegenScg} {id : NodeId}
    {p : NodePayload} : (id, p) ∈ stateNodes it scg ↔ scg.nodePayload id = some p := by
  rw [stateNodes, List.mem_mergeSort, List.mem_filterMap]
  constructor
  · rintro ⟨id', -, h⟩
    obtain ⟨p', hp', h⟩ := Option.map_eq_some_iff.1 h
    cases h
    exact hp'
  · intro h
    exact ⟨id, (it.perm _).mem_iff.2 (nodePayload_eq_some_iff.1 h).1, by rw [h]; rfl⟩

theorem nodup_stateNodes (it : KeyOrder NodeId) (scg : CodegenScg) : (stateNodes it scg).Nodup := by
  rw [stateNodes, (List.mergeSort_perm _ _).nodup_iff]
  refine ((it.perm _).nodup_iff.2 (AList.keys_nodup _)).filterMap fun id id' b h h' => ?_
  obtain ⟨_, -, rfl⟩ := Option.map_eq_some_iff.1 h
  obtain ⟨_, -, h'⟩ := Option.map_eq_some_iff.1 h'
  exact (congrArg Prod.fst h').symm

/-- A node stands after those with smaller numbers. -/
theorem mem_of_stateNodes_eq {it : KeyOrder NodeId} {scg : CodegenScg}
    {l₁ l₂ : List (NodeId × NodePayload)} {id id' : NodeId} {p p' : NodePayload}
    (h : stateNodes it scg = l₁ ++ (id, p) :: l₂) (hlt : id' < id)
    (h' : scg.nodePayload id' = some p') : (id', p') ∈ l₁ := by
  have hmem := (mem_stateNodes_iff it).2 h'
  have hsorted : (stateNodes it scg).Pairwise fun a b => decide (a.1 ≤ b.1) := by
    rw [stateNodes]
    refine List.pairwise_mergeSort (fun a b c hab hbc => ?_) (fun a b => ?_) _
    · rw [decide_eq_true_eq] at hab hbc ⊢
      exact UInt64.le_trans hab hbc
    · rw [Bool.or_eq_true, decide_eq_true_eq, decide_eq_true_eq]
      exact UInt64.le_total a.1 b.1
  rw [h] at hmem hsorted
  rcases List.mem_append.1 hmem with hm | hm
  · exact hm
  rcases List.mem_cons.1 hm with heq | hm
  · cases heq
    exact absurd hlt (UInt64.lt_irrefl _)
  · have := (List.pairwise_cons.1 (List.pairwise_append.1 hsorted).2.1).1 _ hm
    exact absurd hlt (UInt64.not_lt.2 (of_decide_eq_true this))

theorem notMem_of_stateNodes_eq {it : KeyOrder NodeId} {scg : CodegenScg}
    {l₁ l₂ : List (NodeId × NodePayload)} {id : NodeId} {p : NodePayload}
    (h : stateNodes it scg = l₁ ++ (id, p) :: l₂) (p' : NodePayload) : (id, p') ∉ l₁ := by
  intro hm
  have hnd := nodup_stateNodes it scg
  have hp : scg.nodePayload id = some p := (mem_stateNodes_iff it).1 (by simp [h])
  have hp' : scg.nodePayload id = some p' := (mem_stateNodes_iff it).1 (by simp [h, hm])
  rw [hp] at hp'
  cases hp'
  rw [h, List.nodup_append] at hnd
  exact hnd.2.2 _ hm _ List.mem_cons_self rfl

/-! ## The walk -/

namespace PmtWalk

theorem stateVar_inj {id id' : NodeId} {v v' : UInt32} (h : stateVar id v = stateVar id' v') :
    id = id' := by
  have hlist : "_state_".toList ++ ((toString id).toList ++ ("_".toList ++ (toString v).toList)) =
      "_state_".toList ++ ((toString id').toList ++ ("_".toList ++ (toString v').toList)) := by
    simpa only [stateVar, String.toList_append] using congrArg String.toList h
  have hdigits := List.append_cancel_left hlist
  rw [show toString id = id.toNat.repr from rfl, show toString id' = id'.toNat.repr from rfl,
    show toString v = v.toNat.repr from rfl, show toString v' = v'.toNat.repr from rfl,
    Nat.toList_repr, Nat.toList_repr, Nat.toList_repr, Nat.toList_repr] at hdigits
  have heq := ((List.append_cons_inj_of_notMem Nat.underscore_not_in_toDigits
    Nat.underscore_not_in_toDigits).1 hdigits).1
  have hnat : id.toNat = id'.toNat := by
    rw [← Nat.ofDigitChars_ten_toDigits (n := id.toNat), heq, Nat.ofDigitChars_ten_toDigits]
  exact UInt64.toNat_inj.1 hnat

variable {layouts : HashMap String PmtLayoutSpec}

/-- The walk over some nodes. -/
def run (layouts : HashMap String PmtLayoutSpec) (w : PmtWalk)
    (l : List (NodeId × NodePayload)) : PmtWalk :=
  l.foldl (fun w node => w.step layouts node.1 node.2) w

/-- What some nodes do to what has been collected. -/
structure Collects (w w' : PmtWalk) (l : List (NodeId × NodePayload)) : Prop where
  layout : ∀ var x, w.stateVarLayouts.lookup var = some x → w'.stateVarLayouts.lookup var = some x
  fresh : ∀ var, (w'.stateVarLayouts.lookup var).isSome →
    (w.stateVarLayouts.lookup var).isSome ∨ ∃ e ∈ l, ∃ v, var = stateVar e.1 v
  reads : w.reads ⊆ w'.reads
  writes : w.writes ⊆ w'.writes
  transforms : w.transforms ⊆ w'.transforms
  consumed : ∀ v, v ∈ w'.consumedVregs ↔ v ∈ w.consumedVregs ∨ ∃ e ∈ l, consumes e.2 = some v

theorem Collects.trans {w₁ w₂ w₃ : PmtWalk} {l l' : List (NodeId × NodePayload)}
    (h : Collects w₁ w₂ l) (h' : Collects w₂ w₃ l') : Collects w₁ w₃ (l ++ l') := by
  refine ⟨fun var x hx => h'.layout var x (h.layout var x hx), fun var hs => ?_,
    List.Subset.trans h.reads h'.reads, List.Subset.trans h.writes h'.writes,
    List.Subset.trans h.transforms h'.transforms, fun v => ?_⟩
  · rcases h'.fresh var hs with hs | ⟨e, he, v, rfl⟩
    · exact (h.fresh var hs).imp_right fun ⟨e, he, hv⟩ => ⟨e, List.mem_append_left _ he, hv⟩
    · exact .inr ⟨e, List.mem_append_right _ he, v, rfl⟩
  · rw [h'.consumed, h.consumed, or_assoc]
    simp only [List.mem_append, or_and_right, exists_or]

theorem setLayout_lookup (w : PmtWalk) (var layoutName var' : String) :
    (w.setLayout var layoutName).stateVarLayouts.lookup var' =
      if var' = var then some ((w.stateVarLayouts.lookup var).getD layoutName)
      else w.stateVarLayouts.lookup var' := by
  rw [setLayout]
  split_ifs with h heq heq
  · obtain ⟨x, hx⟩ := Option.isSome_iff_exists.1 h
    rw [heq, hx]
    rfl
  · rfl
  · rw [Option.not_isSome_iff_eq_none] at h
    rw [HashMap.lookup_insert_ite, if_pos heq, h]
    rfl
  · rw [HashMap.lookup_insert_ite, if_neg heq]

theorem setLayout_keeps (w : PmtWalk) {var layoutName var' x : String}
    (h : w.stateVarLayouts.lookup var' = some x) :
    (w.setLayout var layoutName).stateVarLayouts.lookup var' = some x := by
  rw [setLayout_lookup]
  split_ifs with heq
  · rw [← heq, h]
    rfl
  · exact h

theorem setLayout_fresh (w : PmtWalk) {var layoutName var' : String}
    (h : ((w.setLayout var layoutName).stateVarLayouts.lookup var').isSome) :
    (w.stateVarLayouts.lookup var').isSome ∨ var' = var := by
  rw [setLayout_lookup] at h
  split_ifs at h with heq
  · exact .inr heq
  · exact .inl h

theorem setLayout_other (w : PmtWalk) (var layoutName : String) :
    (w.setLayout var layoutName).reads = w.reads ∧
      (w.setLayout var layoutName).writes = w.writes ∧
      (w.setLayout var layoutName).transforms = w.transforms ∧
      (w.setLayout var layoutName).consumedVregs = w.consumedVregs := by
  rw [setLayout]
  split_ifs <;> exact ⟨rfl, rfl, rfl, rfl⟩

/-- What one node does. -/
theorem step_collects (layouts : HashMap String PmtLayoutSpec) (w : PmtWalk) (id : NodeId)
    (p : NodePayload) : Collects w (w.step layouts id p) [(id, p)] := by
  have hrefl : consumes p = none → Collects w w [(id, p)] := fun h =>
    ⟨fun _ _ h => h, fun _ h => .inl h, fun _ h => h, fun _ h => h, fun _ h => h, by simp [h]⟩
  -- the nodes that set the layout of a variable
  have hlift : ∀ {v : UInt32} {layoutName : String} {w' : PmtWalk},
      w'.stateVarLayouts = (w.setLayout (stateVar id v) layoutName).stateVarLayouts →
      w.reads ⊆ w'.reads → w.writes ⊆ w'.writes → w.transforms ⊆ w'.transforms →
      (∀ v', v' ∈ w'.consumedVregs ↔ v' ∈ w.consumedVregs ∨ consumes p = some v') →
      Collects w w' [(id, p)] := by
    intro v layoutName w' hl hr hw ht hc
    refine ⟨fun var x h => ?_, fun var h => ?_, hr, hw, ht, by simpa using hc⟩
    · rw [hl]
      exact w.setLayout_keeps h
    · rw [hl] at h
      exact (w.setLayout_fresh h).imp_right fun h => ⟨_, List.mem_singleton_self _, v, h⟩
  cases p with
  | stateTransform n =>
    obtain ⟨hr, hw, ht, hc⟩ := w.setLayout_other (stateVar id n.inputVreg) n.inputLayout
    refine hlift rfl ?_ ?_ ?_ ?_
    · simp [step, consume, hr]
    · simp [step, consume, hw]
    · simp [step, consume, ht]
    · simp [step, consume, hc, consumes, or_comm, eq_comm]
  | foreignConsume n =>
    obtain ⟨hr, hw, ht, hc⟩ := w.setLayout_other (stateVar id n.inputVreg) n.layoutName
    refine hlift rfl ?_ ?_ ?_ ?_
    · simp [step, consume, hr]
    · simp [step, consume, hw]
    · simp [step, consume, ht]
    · simp [step, consume, hc, consumes, or_comm, eq_comm]
  | stateRead n | stateWrite n =>
    obtain ⟨hr, hw, ht, hc⟩ := w.setLayout_other (stateVar id n.stateVreg) n.layoutName
    refine hlift rfl ?_ ?_ ?_ ?_
    · simp [step, accessField, hr]
    · simp [step, accessField, hw]
    · simp [step, accessField, ht]
    · simp [step, accessField, hc, consumes]
  | stateInit n =>
    obtain ⟨h₁, h₂, h₃, h₄, h₅, h₆⟩ := hrefl rfl
    exact ⟨h₁, h₂, h₃, h₄, h₅, h₆⟩
  | _ => exact hrefl rfl

theorem run_collects (layouts : HashMap String PmtLayoutSpec) (w : PmtWalk)
    (l : List (NodeId × NodePayload)) : Collects w (run layouts w l) l := by
  induction l generalizing w with
  | nil => exact ⟨fun _ _ h => h, fun _ h => .inl h, fun _ h => h, fun _ h => h, fun _ h => h,
      by simp [run]⟩
  | cons e l ih => exact (w.step_collects layouts e.1 e.2).trans (ih _)

end PmtWalk

section

open PmtWalk

variable (it : KeyOrder NodeId) (layouts : HashMap String PmtLayoutSpec) {scg : CodegenScg}
  {id : NodeId}

theorem exists_stateNodes_eq {p : NodePayload} (h : scg.nodePayload id = some p) :
    ∃ l₁ l₂, stateNodes it scg = l₁ ++ (id, p) :: l₂ ∧
      pmtWalk it layouts scg = run layouts ((run layouts .empty l₁).step layouts id p) l₂ := by
  obtain ⟨l₁, l₂, hl⟩ := List.append_of_mem ((mem_stateNodes_iff it).2 h)
  refine ⟨l₁, l₂, hl, ?_⟩
  rw [pmtWalk, hl, List.foldl_append, List.foldl_cons]
  rfl

theorem lookup_pmtWalk {p : NodePayload} {v : UInt32} {layoutName fieldName : String}
    (h : scg.nodePayload id = some p) (hp : accesses p = some (v, layoutName, fieldName)) :
    (pmtWalk it layouts scg).stateVarLayouts.lookup (stateVar id v) = some layoutName := by
  obtain ⟨l₁, l₂, hl, hw⟩ := exists_stateNodes_eq it layouts h
  have hnone : (run layouts .empty l₁).stateVarLayouts.lookup (stateVar id v) = none := by
    rw [← Option.not_isSome_iff_eq_none]
    intro hs
    rcases (run_collects layouts .empty l₁).fresh _ hs with hs | ⟨⟨id', p'⟩, he, v', hv⟩
    · cases hs
    · obtain rfl := stateVar_inj hv
      exact notMem_of_stateNodes_eq hl p' he
  rw [hw]
  refine (run_collects layouts _ l₂).layout _ _ ?_
  cases p with
  | stateRead n | stateWrite n =>
    cases hp
    simp [step, accessField, setLayout_lookup, hnone]
  | _ => cases hp

theorem mem_reads_pmtWalk {n : StateReadNode} (h : scg.nodePayload id = some (.stateRead n)) :
    ∃ type, (stateVar id n.stateVreg, n.fieldName, type) ∈ (pmtWalk it layouts scg).reads := by
  obtain ⟨l₁, l₂, -, hw⟩ := exists_stateNodes_eq it layouts h
  rw [hw]
  exact ⟨_, (run_collects layouts _ l₂).reads (List.mem_append_right _ List.mem_cons_self)⟩

theorem mem_writes_pmtWalk {n : StateWriteNode} (h : scg.nodePayload id = some (.stateWrite n)) :
    ∃ op ∈ (pmtWalk it layouts scg).writes, op.varName = stateVar id n.stateVreg ∧
      op.fieldName = n.fieldName ∧ ∀ id' p', scg.nodePayload id' = some p' → id' < id →
        consumes p' = some n.stateVreg → op.afterConsume := by
  obtain ⟨l₁, l₂, hl, hw⟩ := exists_stateNodes_eq it layouts h
  rw [hw]
  refine ⟨_, (run_collects layouts _ l₂).writes (List.mem_append_right _ List.mem_cons_self),
    rfl, rfl, fun id' p' hp' hlt hc => decide_eq_true ?_⟩
  rw [accessField]
  dsimp only
  rw [(setLayout_other _ _ _).2.2.2, (run_collects layouts .empty l₁).consumed]
  exact .inr ⟨_, mem_of_stateNodes_eq hl hlt hp', hc⟩

theorem mem_transforms_pmtWalk {n : StateTransformNode}
    (h : scg.nodePayload id = some (.stateTransform n)) :
    (n.inputLayout, n.outputLayout) ∈ (pmtWalk it layouts scg).transforms := by
  obtain ⟨l₁, l₂, -, hw⟩ := exists_stateNodes_eq it layouts h
  rw [hw]
  exact (run_collects layouts _ l₂).transforms (List.mem_append_right _ List.mem_cons_self)

end

/-! ## The verifiers -/

section

variable {layouts : HashMap String PmtLayoutSpec}

theorem exists_of_verifyAccess {exceeds : PmtFieldSpec → String → UInt64 → String}
    {verb var field type layoutName : String} {stateVarLayouts : HashMap String String}
    (hvar : stateVarLayouts.lookup var = some layoutName)
    (h : (verifyAccess exceeds verb stateVarLayouts layouts var field type).valid) :
    ∃ spec, layouts.lookup layoutName = some spec ∧ ∃ f ∈ spec.fields, f.name = field := by
  rw [verifyAccess, hvar] at h
  dsimp only at h
  cases hl : layouts.lookup layoutName with
  | none =>
    rw [hl] at h
    cases h
  | some spec =>
    rw [hl] at h
    dsimp only at h
    cases hf : spec.fields.find? (·.name = field) with
    | none =>
      rw [hf] at h
      cases h
    | some f =>
      have hname := List.find?_some hf
      exact ⟨spec, rfl, f, List.mem_of_find?_eq_some hf, by simpa using hname⟩

theorem isSome_of_verifyTransform {inputLayout outputLayout : String}
    (h : (verifyTransform layouts inputLayout outputLayout).valid) :
    (layouts.lookup inputLayout).isSome ∧ (layouts.lookup outputLayout).isSome := by
  rw [verifyTransform] at h
  cases hin : layouts.lookup inputLayout with
  | none =>
    rw [hin] at h
    cases h
  | some inInfo =>
    rw [hin] at h
    dsimp only at h
    cases hout : layouts.lookup outputLayout with
    | none =>
      rw [hout] at h
      cases h
    | some outInfo => exact ⟨rfl, rfl⟩

theorem exists_of_arenaStep {s : ArenaState} {n : ArenaAllocNode}
    (h : ∀ r ∈ (arenaStep layouts s (.arenaAlloc n)).2, r.valid) :
    ∃ spec, layouts.lookup n.layoutName = some spec ∧ 0 < spec.totalSize.toNat := by
  rw [arenaStep] at h
  cases hl : layouts.lookup n.layoutName with
  | none =>
    rw [hl] at h
    cases h _ rfl
  | some spec =>
    rw [hl] at h
    dsimp only at h
    refine ⟨spec, rfl, Nat.pos_of_ne_zero fun hz => ?_⟩
    rw [if_pos (UInt64.toNat_inj.1 hz)] at h
    cases h _ rfl

theorem exists_of_arenaLoop {s : ArenaState} {nodes : List NodePayload}
    (h : ∀ r ∈ arenaLoop layouts s nodes, r.valid) {n : ArenaAllocNode}
    (hn : .arenaAlloc n ∈ nodes) :
    ∃ spec, layouts.lookup n.layoutName = some spec ∧ 0 < spec.totalSize.toNat := by
  induction nodes generalizing s with
  | nil => cases hn
  | cons node nodes ih =>
    rw [arenaLoop, List.forall_mem_append] at h
    rcases List.mem_cons.1 hn with rfl | hn
    · exact exists_of_arenaStep fun r hr => h.1 r (Option.mem_toList.2 hr)
    · exact ih h.2 hn

theorem arenaStep_capacity {s : ArenaState} (h : ∀ v c, s.capacity.lookup v = some c → c = none)
    (node : NodePayload) :
    ∀ v c, (arenaStep layouts s node).1.capacity.lookup v = some c → c = none := by
  have hinsert : ∀ {result : UInt32} {c : Option UInt64}, c = none → ∀ v c',
      (s.capacity.insert result c).lookup v = some c' → c' = none := by
    intro result c hc v c' hl
    rw [HashMap.lookup_insert_ite] at hl
    split_ifs at hl
    · cases hl
      exact hc
    · exact h v c' hl
  have hpropagate : ∀ arena result v c, (s.propagate arena result).capacity.lookup v = some c →
      c = none := by
    intro arena result v c hl
    rw [ArenaState.propagate] at hl
    cases ha : s.capacity.lookup arena with
    | none =>
      rw [ha] at hl
      exact h v c hl
    | some cap =>
      rw [ha] at hl
      exact hinsert (h arena cap ha) v c hl
  cases node with
  | arenaNew n => exact hinsert rfl
  | arenaAlloc n =>
    have hjoin : (s.capacity.lookup n.arenaVreg).join = none := by
      cases ha : s.capacity.lookup n.arenaVreg with
      | none => rfl
      | some cap =>
        rw [h _ _ ha]
        rfl
    rw [arenaStep]
    cases layouts.lookup n.layoutName with
    | none => exact hpropagate _ _
    | some spec =>
      dsimp only
      rw [hjoin]
      split_ifs
      · exact hpropagate _ _
      · exact hinsert rfl
      · exact hinsert rfl
  | _ => exact h

theorem arenaStateAfter_capacity (nodes : List NodePayload) (v : UInt32) (cap : UInt64) :
    (arenaStateAfter layouts nodes).capacity.lookup v ≠ some (some cap) := by
  have hgen : ∀ (nodes : List NodePayload) (s : ArenaState),
      (∀ v c, s.capacity.lookup v = some c → c = none) →
      ∀ v c, (nodes.foldl (fun s node => (arenaStep layouts s node).1) s).capacity.lookup v =
        some c → c = none := by
    intro nodes
    induction nodes with
    | nil => exact fun s h => h
    | cons node nodes ih => exact fun s h => ih _ (arenaStep_capacity h node)
  intro h
  cases hgen nodes ⟨∅, ∅⟩ (fun v c h => by cases h) v _ h

end

/-! ## The verdict -/

/-- What has been checked when a program is accepted. -/
theorem verifyPmt_proven {its : KeyOrder String} {itn : KeyOrder NodeId}
    {input : VerificationInput} (h : (verifyPmt its itn input).status = .proven) :
    let w := pmtWalk itn input.layouts input.scg
    verifyLayoutConsistency its input.layouts = [] ∧
      (((∀ r ∈ verifyStateReads w.stateVarLayouts input.layouts w.reads, r.valid) ∧
        (∀ r ∈ verifyStateWrites w.stateVarLayouts input.layouts w.writes w.consumedVars,
          r.valid) ∧
        (∀ r ∈ verifyAllTransforms input.layouts w.transforms, r.valid) ∧
        ∀ r ∈ verifyArenaBounds input.layouts (nodePayloads (input.scg.toSemanticScg itn)),
          r.valid) ∨
      w.reads.length + w.writes.length + w.transforms.length = 0) := by
  rw [verifyPmt] at h
  split at h
  · cases h
  · next hlayout =>
    dsimp only at h
    split at h
    · cases h
    · split at h
      · cases h
      · refine ⟨hlayout, ?_⟩
        rw [pmtVerdict] at h
        split_ifs at h with hvalid hops
        · simp only [Bool.and_eq_true, List.all_eq_true] at hvalid
          obtain ⟨⟨⟨hr, hw⟩, ht⟩, ha⟩ := hvalid
          exact .inl ⟨hr, hw, ht, ha⟩
        · exact .inr hops

section

variable {input : VerificationInput}

theorem VerificationInput.HasStateOps.length_ne (itn : KeyOrder NodeId) (h : input.HasStateOps) :
    let w := pmtWalk itn input.layouts input.scg
    w.reads.length + w.writes.length + w.transforms.length ≠ 0 := by
  dsimp only
  obtain ⟨id, p, hp, hop⟩ := h
  rcases hop with hop | ⟨n, rfl⟩
  · cases p with
    | stateRead n =>
      obtain ⟨type, hm⟩ := mem_reads_pmtWalk itn input.layouts hp
      have := List.length_pos_of_mem hm
      omega
    | stateWrite n =>
      obtain ⟨op, hm, -⟩ := mem_writes_pmtWalk itn input.layouts hp
      have := List.length_pos_of_mem hm
      omega
    | _ => cases hop
  · have := List.length_pos_of_mem (mem_transforms_pmtWalk itn input.layouts hp)
    omega

/-- If the sizes of the layouts do not wrap around, an accepted program is safe exactly if it does
not read or consume a state that has been consumed, and its allocations in arenas are of registered
layouts or it has some other operation on states. -/
theorem verifyPmt_iff (its : KeyOrder String) (itn : KeyOrder NodeId) (hfit : input.LayoutsFit)
    (h : (verifyPmt its itn input).status = .proven) :
    input.Safe itn ↔ (input.HasStateOps ∨ input.ArenaAllocsRegistered) ∧
      input.LinearFor fun p => ¬ IsWrite p := by
  obtain ⟨hlayout, hchecked⟩ := verifyPmt_proven h
  have hfields := fun name spec hl => fields_of_layoutMismatches_eq_nil (hfit name spec hl)
    (verifyLayoutConsistency_eq_nil_iff.1 hlayout name spec hl)
  constructor
  · intro hs
    exact ⟨.inr hs.arena, fun id₁ id₂ p q v hp hq hlt hc hu _ =>
      hs.linear id₁ id₂ p q v hp hq hlt hc hu trivial⟩
  rintro ⟨hops, hlinear⟩
  -- without operations on states only the arenas are left
  have hvalid := fun hops : input.HasStateOps => hchecked.resolve_right (hops.length_ne itn)
  refine ⟨?_, fun name spec hl => (hfields name spec hl).1, ?_, ?_, ?_, ?_⟩
  · intro id p v layoutName fieldName hp ha
    have hlookup := lookup_pmtWalk itn input.layouts hp ha
    obtain ⟨hr, hw, -, -⟩ := hvalid ⟨id, p, hp, .inl (Option.isSome_of_eq_some ha)⟩
    obtain ⟨spec, hl, f, hf, hname⟩ : ∃ spec, input.layouts.lookup layoutName = some spec ∧
        ∃ f ∈ spec.fields, f.name = fieldName := by
      cases p with
      | stateRead n =>
        cases ha
        obtain ⟨type, hm⟩ := mem_reads_pmtWalk itn input.layouts hp
        exact exists_of_verifyAccess hlookup (hr _ (List.mem_map_of_mem hm))
      | stateWrite n =>
        cases ha
        obtain ⟨op, hm, hvar, hfield, -⟩ := mem_writes_pmtWalk itn input.layouts hp
        have hv := hw _ (List.mem_map_of_mem hm)
        split_ifs at hv
        rw [hvar, hfield] at hv
        exact exists_of_verifyAccess hlookup hv
      | _ => cases ha
    exact ⟨spec, hl, f, hf, hname, (hfields _ spec hl).2 f hf⟩
  · intro id n hp
    obtain ⟨-, -, ht, -⟩ := hvalid ⟨id, _, hp, .inr ⟨n, rfl⟩⟩
    exact isSome_of_verifyTransform
      (ht _ (List.mem_map_of_mem (mem_transforms_pmtWalk itn input.layouts hp)))
  · rcases hops with hops | harena
    · intro id n hp
      exact exists_of_arenaLoop (hvalid hops).2.2.2 (mem_nodePayloads_of_nodePayload itn hp)
    · exact harena
  · intro l₁ n l₂ _ spec cap _ hcap
    exact absurd hcap (arenaStateAfter_capacity l₁ n.arenaVreg cap)
  · intro id₁ id₂ p q v hp hq hlt hc hu _
    by_cases hwrite : IsWrite q
    · obtain ⟨n, rfl⟩ := hwrite
      cases hu
      obtain ⟨op, hm, -, -, hafter⟩ := mem_writes_pmtWalk itn input.layouts hq
      have hv := (hvalid ⟨id₂, _, hq, .inl rfl⟩).2.1 _ (List.mem_map_of_mem hm)
      rw [if_pos (.inl (hafter id₁ p hp hlt hc))] at hv
      cases hv
    · exact hlinear id₁ id₂ p q v hp hq hlt hc hu hwrite

end

/-- A program of some nodes, which are numbered from 0, with one layout. -/
def programOf (layout : PmtLayoutSpec) (payloads : List NodePayload) : VerificationInput where
  scg := .fromSemanticScg (payloads.zipIdx.map fun (payload, i) =>
    ⟨.ofNat i, .computation, none, ⟨none, none, none, none⟩, payload⟩).reverse
  pmtLayouts := some ((∅ : HashMap String PmtLayoutSpec).insert layout.name layout)
  typedStateMeta := []
  contractNote := ""

theorem eq_of_lookup_programOf {layout spec : PmtLayoutSpec} {payloads : List NodePayload}
    {name : String} (h : (programOf layout payloads).layouts.lookup name = some spec) :
    spec = layout := by
  have hlayouts : (programOf layout payloads).layouts =
      (∅ : HashMap String PmtLayoutSpec).insert layout.name layout := rfl
  rw [hlayouts, HashMap.lookup_insert_ite] at h
  split_ifs at h
  · exact (Option.some.inj h).symm
  · cases h

/-- Nodes that come in the order of their numbers are not moved. -/
theorem stateNodes_eq (it : KeyOrder NodeId) (scg : CodegenScg)
    {l : List (NodeId × NodePayload)} (h : ((it.order scg.nodeIndex.keys).filterMap fun id =>
      (scg.nodePayload id).map fun payload => (id, payload)) = l)
    (hl : l.Pairwise fun a b => decide (a.1 ≤ b.1)) : stateNodes it scg = l := by
  rw [stateNodes, h, List.mergeSort_of_pairwise hl]

def point : PmtLayoutSpec := ⟨"Point", 8, [⟨"x", 0, 4, "u32"⟩, ⟨"y", 4, 4, "u32"⟩]⟩

def pointProgram : VerificationInput :=
  programOf point [.stateInit ⟨"Point", 1⟩, .stateWrite ⟨1, "Point", "x", 2⟩,
    .stateRead ⟨1, "Point", "y", 3⟩, .stateTransform ⟨1, "Point", "Point", 4⟩,
    .foreignConsume ⟨4, "Point"⟩, .arenaNew ⟨5, 6⟩, .arenaAlloc ⟨6, "Point", 7, 8⟩]

theorem verifyPmt_pointProgram : pointProgram.Safe .id := by
  have hnodes := stateNodes_eq .id pointProgram.scg rfl (by decide +kernel)
  refine (verifyPmt_iff .id .id (fun name spec h => ?_) ?_).2 ⟨.inl ⟨1, _, rfl, .inl rfl⟩, ?_⟩
  · rw [eq_of_lookup_programOf h]
    decide +kernel
  · rw [verifyPmt, pmtWalk, hnodes]
    decide +kernel
  · intro id₁ id₂ p q v hp hq hlt hc hu _
    have hp := (mem_stateNodes_iff .id).2 hp
    have hq := (mem_stateNodes_iff .id).2 hq
    rw [hnodes] at hp hq
    generalize hl : List.filterMap _ _ = l at hp hq
    have hall : ∀ e₁ ∈ l, ∀ e₂ ∈ l, e₁.1 < e₂.1 → consumes e₁.2 ≠ none →
        uses e₂.2 ≠ consumes e₁.2 := by
      rw [← hl]
      decide +kernel
    exact absurd (hu.trans hc.symm) (hall _ hp _ hq hlt (by simp [hc]))

/-- An allocation of a layout that is not there, and nothing else. -/
def arenaOnly : VerificationInput := programOf point [.arenaAlloc ⟨0, "Line", 1, 2⟩]

/-- A read of a state that has been consumed. -/
def readAfterConsume : VerificationInput :=
  programOf point [.stateTransform ⟨1, "Point", "Point", 2⟩, .stateRead ⟨1, "Point", "x", 3⟩]

/-- A layout whose second field wraps around to the start of the first. -/
def wrapped : VerificationInput :=
  programOf ⟨"Wrapped", 8, [⟨"a", 0, 0xFFFFFFFFFFFFFFFE, "u8"⟩, ⟨"b", 0, 1, "i64"⟩]⟩ []

/-- Programs that are accepted and not safe. -/
theorem verifyPmt_unsafe :
    (arenaOnly.SizesFit ∧ (verifyPmt .id .id arenaOnly).status = .proven ∧ ¬ arenaOnly.Safe .id) ∧
    (readAfterConsume.SizesFit ∧ (verifyPmt .id .id readAfterConsume).status = .proven ∧
      ¬ readAfterConsume.Safe .id) ∧
    wrapped.SizesFit ∧ (verifyPmt .id .id wrapped).status = .proven ∧ ¬ wrapped.Safe .id := by
  refine ⟨⟨fun name spec h => ?_, ?_, fun h => ?_⟩, ⟨fun name spec h => ?_, ?_, fun h => ?_⟩,
    fun name spec h => ?_, ?_, fun h => ?_⟩
  · rw [eq_of_lookup_programOf h]
    decide +kernel
  · rw [verifyPmt, pmtWalk, stateNodes_eq .id arenaOnly.scg rfl (by decide +kernel)]
    decide +kernel
  · obtain ⟨spec, hl, -⟩ := h.arena 0 _ rfl
    have hnone : arenaOnly.layouts.lookup "Line" = none := by decide +kernel
    rw [hnone] at hl
    cases hl
  · rw [eq_of_lookup_programOf h]
    decide +kernel
  · rw [verifyPmt, pmtWalk, stateNodes_eq .id readAfterConsume.scg rfl (by decide +kernel)]
    decide +kernel
  · obtain ⟨id, r, hle, hlt, hr, hi⟩ := h.linear 0 1 _ _ 1 rfl rfl (by decide) rfl rfl trivial
    have hr := (mem_stateNodes_iff .id).2 hr
    rw [stateNodes_eq .id readAfterConsume.scg rfl (by decide +kernel)] at hr
    generalize hl : List.filterMap _ _ = l at hr
    have hall : ∀ e ∈ l, initialises e.2 ≠ some 1 := by
      rw [← hl]
      decide +kernel
    exact hall _ hr hi
  · rw [eq_of_lookup_programOf h]
    decide +kernel
  · rw [verifyPmt, pmtWalk, stateNodes_eq .id wrapped.scg rfl (by decide +kernel)]
    decide +kernel
  · have hd := h.disjoint "Wrapped" _ rfl
    rw [List.pairwise_pair] at hd
    rcases hd with hd | hd
    · exact absurd hd (by decide)
    · exact absurd hd (by decide)

end Vuma.Ive
