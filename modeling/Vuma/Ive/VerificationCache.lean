import Vuma.Ive.Fingerprint

/-!
# The verification cache

`compute_fingerprint` leaves out the payloads of the nodes and the labels of the edges, and feeds
the edges in the order in which they are stored. Two subgraphs that differ in a payload or a label
only have one fingerprint, and the same subgraph has two when its edges are stored in two orders.
Apart from this a result found in the cache was inserted for the subgraph that is asked for.
-/

namespace Vuma.Ive

open Codegen.Adapter Lib Scg

inductive Severity where
  | low | medium | high
  deriving DecidableEq, Repr

/-- `InvariantViolation` of the cache. -/
structure CacheViolation where
  invariant : String
  node : NodeId
  description : String
  severity : Severity
  deriving DecidableEq, Repr

section

variable {F : Type} (finish : List Fed → F)

/-- `compute_fingerprint`; `finish` is what the hasher makes of all that is fed to it. -/
def computeFingerprint (g : Codegen.Adapter.Scg) (nodes : List NodeId) : F := finish (fed g nodes)

abbrev VerificationCache (F : Type) := HashMap F (List CacheViolation)

namespace VerificationCache

variable [DecidableEq F]

def computeAndInsert (cache : VerificationCache F) (g : Codegen.Adapter.Scg) (nodes : List NodeId)
    (violations : List CacheViolation) : VerificationCache F :=
  cache.insert (computeFingerprint finish g nodes) violations

def getForNodes (cache : VerificationCache F) (g : Codegen.Adapter.Scg) (nodes : List NodeId) :
    Option (List CacheViolation) :=
  cache.lookup (computeFingerprint finish g nodes)

/-- The calls that change a cache. -/
inductive Op (F : Type) where
  | insert (fingerprint : F) (violations : List CacheViolation)
  | invalidate (fingerprint : F)
  | clear
  | computeAndInsert (g : Codegen.Adapter.Scg) (nodes : List NodeId)
      (violations : List CacheViolation)

/-- One call. -/
def step (cache : VerificationCache F) : Op F → VerificationCache F
  | .insert fingerprint violations => AList.insert fingerprint violations cache
  | .invalidate fingerprint => AList.erase fingerprint cache
  | .clear => ∅
  | .computeAndInsert g nodes violations => cache.computeAndInsert finish g nodes violations

/-- The cache after some calls, from a new one. -/
def run (ops : List (Op F)) : VerificationCache F := ops.foldl (step finish) ∅

end VerificationCache

end

/-! ## When a result may be used again -/

section

variable (g : Codegen.Adapter.Scg) (ns : List NodeId) (h : Codegen.Adapter.Scg) (ms : List NodeId)

/-- The nodes have the same types and payloads. -/
def SameNodeData : Prop :=
  ∀ id ∈ ns, g.nodeType id = h.nodeType id ∧ g.nodePayload id = h.nodePayload id

/-- Two subgraphs are equal: the nodes, their types and payloads, and the incident edges. -/
structure SameSubgraph : Prop where
  nodes : ∀ id, id ∈ ns ↔ id ∈ ms
  data : SameNodeData g ns h
  edges : (incidentEdges g ns).Perm (incidentEdges h ms)

/-- What the cache relies on, for two subgraphs. -/
structure FingerprintRight {F : Type} [DecidableEq F] (finish : List Fed → F) : Prop where
  /-- A changed subgraph has another fingerprint. -/
  changed : computeFingerprint finish g ns = computeFingerprint finish h ms →
    SameSubgraph g ns h ms
  /-- The orders of the nodes and of the edges do not matter. -/
  reordered : ns.Perm ms → SameNodeData g ns h →
    (incidentEdges g ns).Perm (incidentEdges h ms) →
    computeFingerprint finish g ns = computeFingerprint finish h ms
  /-- What is inserted for one subgraph is found for an equal one only. -/
  found : ∀ (cache : VerificationCache F) (inserted violations : List CacheViolation),
    (cache.computeAndInsert finish h ms inserted).getForNodes finish g ns = some violations →
    SameSubgraph g ns h ms ∨ cache.getForNodes finish g ns = some violations

/-- All that is fed agrees. -/
structure SameFed : Prop where
  nodes : ns.Perm ms
  types : ∀ id ∈ ns, g.nodeType id = h.nodeType id
  edges : (incidentEdges g ns).map CodegenEdge.key = (incidentEdges h ms).map CodegenEdge.key

/-- The subgraphs differ in what is not fed: in a payload, or in the labels of their edges. -/
def Stale : Prop :=
  SameFed g ns h ms ∧ ((∃ id ∈ ns, g.nodePayload id ≠ h.nodePayload id) ∨
    ¬(incidentEdges g ns).Perm (incidentEdges h ms))

/-- The subgraphs are equal, and their edges are stored in orders that can be told apart. -/
def EdgesReordered : Prop :=
  SameNodeData g ns h ∧ ns.Perm ms ∧ (incidentEdges g ns).Perm (incidentEdges h ms) ∧
    (incidentEdges g ns).map CodegenEdge.key ≠ (incidentEdges h ms).map CodegenEdge.key

end

section

variable {F : Type} {finish : List Fed → F} {g h : Codegen.Adapter.Scg} {ns ms : List NodeId}

theorem computeFingerprint_eq_iff (hfinish : Function.Injective finish) :
    computeFingerprint finish g ns = computeFingerprint finish h ms ↔ SameFed g ns h ms := by
  rw [computeFingerprint, computeFingerprint, hfinish.eq_iff, fed_eq_iff]
  constructor
  · rintro ⟨hnodes, htypes, hedges⟩
    exact ⟨hnodes, htypes, hedges⟩
  · intro hsame
    exact ⟨hsame.nodes, hsame.types, hsame.edges⟩

theorem SameFed.sameSubgraph (hsame : SameFed g ns h ms) (hstale : ¬Stale g ns h ms) :
    SameSubgraph g ns h ms := by
  have hdata : ∀ id ∈ ns, g.nodePayload id = h.nodePayload id := by
    intro id hid
    by_contra hne
    exact hstale ⟨hsame, .inl ⟨id, hid, hne⟩⟩
  have hedges : (incidentEdges g ns).Perm (incidentEdges h ms) := by
    by_contra hne
    exact hstale ⟨hsame, .inr hne⟩
  exact ⟨fun id => hsame.nodes.mem_iff, fun id hid => ⟨hsame.types id hid, hdata id hid⟩, hedges⟩

theorem Stale.not_sameSubgraph (hstale : Stale g ns h ms) : ¬SameSubgraph g ns h ms := by
  intro hsame
  rcases hstale.2 with ⟨id, hid, hne⟩ | hne
  · exact hne (hsame.data id hid).2
  · exact hne hsame.edges

namespace VerificationCache

variable [DecidableEq F]

theorem getForNodes_computeAndInsert (cache : VerificationCache F) (v : List CacheViolation) :
    (cache.computeAndInsert finish h ms v).getForNodes finish g ns =
      if computeFingerprint finish g ns = computeFingerprint finish h ms then some v
      else cache.getForNodes finish g ns :=
  HashMap.lookup_insert_ite _ _ _ _

/-- A call that leaves a result under a fingerprint has inserted it, or it was there before. -/
theorem lookup_step {cache : VerificationCache F} {op : Op F} {k : F} {v : List CacheViolation}
    (hv : AList.lookup k (cache.step finish op) = some v) :
    op = .insert k v ∨
      (∃ h ms, op = .computeAndInsert h ms v ∧ computeFingerprint finish h ms = k) ∨
      AList.lookup k cache = some v := by
  cases op with
  | insert fingerprint violations =>
    have hv : (AList.insert fingerprint violations cache).lookup k = some v := hv
    rw [HashMap.lookup_insert_ite] at hv
    split_ifs at hv with heq
    · rw [heq, Option.some.inj hv]
      exact .inl rfl
    · exact .inr (.inr hv)
  | invalidate fingerprint =>
    have hv : (AList.erase fingerprint cache).lookup k = some v := hv
    rw [HashMap.lookup_erase_ite] at hv
    split_ifs at hv
    exact .inr (.inr hv)
  | clear => exact absurd hv (by simp [step])
  | computeAndInsert h ms violations =>
    have hv : (AList.insert (computeFingerprint finish h ms) violations cache).lookup k =
      some v := hv
    rw [HashMap.lookup_insert_ite] at hv
    split_ifs at hv with heq
    · rw [Option.some.inj hv]
      exact .inr (.inl ⟨h, ms, rfl, heq.symm⟩)
    · exact .inr (.inr hv)

theorem lookup_run {ops : List (Op F)} {k : F} {v : List CacheViolation}
    (hv : AList.lookup k (run finish ops) = some v) :
    .insert k v ∈ ops ∨
      ∃ h ms, .computeAndInsert h ms v ∈ ops ∧ computeFingerprint finish h ms = k := by
  induction ops using List.reverseRecOn with
  | nil => exact absurd hv (by simp [run])
  | append_singleton ops op ih =>
    rw [run, List.foldl_append] at hv
    rcases lookup_step hv with rfl | ⟨h, ms, rfl, hk⟩ | hold
    · exact .inl (by simp)
    · exact .inr ⟨h, ms, by simp, hk⟩
    · rcases ih hold with hmem | ⟨h, ms, hmem, hk⟩
      · exact .inl (List.mem_append_left _ hmem)
      · exact .inr ⟨h, ms, List.mem_append_left _ hmem, hk⟩

end VerificationCache

end

/-- The cache may be relied on for two subgraphs exactly when they do not differ in a payload or in
labels alone, and are not one subgraph with its edges in two orders. In every run that inserts for
no subgraph that differs so from the one asked for, what is found was inserted for an equal
subgraph, or under its fingerprint directly. -/
theorem fingerprintRight_iff {F : Type} [DecidableEq F] (finish : List Fed → F)
    (hfinish : Function.Injective finish) :
    (∀ g ns h ms, FingerprintRight g ns h ms finish ↔
      ¬Stale g ns h ms ∧ ¬EdgesReordered g ns h ms) ∧
    ∀ (ops : List (VerificationCache.Op F)) (g : Codegen.Adapter.Scg) (ns : List NodeId),
      (∀ h ms v, .computeAndInsert h ms v ∈ ops → ¬Stale g ns h ms) →
      ∀ v, (VerificationCache.run finish ops).getForNodes finish g ns = some v →
        (∃ h ms, .computeAndInsert h ms v ∈ ops ∧ SameSubgraph g ns h ms) ∨
          .insert (computeFingerprint finish g ns) v ∈ ops := by
  constructor
  · intro g ns h ms
    have heq : computeFingerprint finish g ns = computeFingerprint finish h ms ↔
        SameFed g ns h ms := computeFingerprint_eq_iff hfinish
    constructor
    · intro hright
      constructor
      · intro hstale
        exact hstale.not_sameSubgraph (hright.changed (heq.2 hstale.1))
      · rintro ⟨hdata, hperm, hedges, hne⟩
        exact hne (heq.1 (hright.reordered hperm hdata hedges)).edges
    · rintro ⟨hstale, hreordered⟩
      have hchanged := fun hfp => (heq.1 hfp).sameSubgraph hstale
      refine ⟨hchanged, ?_, ?_⟩
      · intro hperm hdata hedges
        apply heq.2
        refine ⟨hperm, fun id hid => (hdata id hid).1, ?_⟩
        by_contra hne
        exact hreordered ⟨hdata, hperm, hedges, hne⟩
      · intro cache inserted violations hfound
        rw [VerificationCache.getForNodes_computeAndInsert] at hfound
        split_ifs at hfound with hfp
        · exact .inl (hchanged hfp)
        · exact .inr hfound
  · intro ops g ns hops v hv
    rcases VerificationCache.lookup_run hv with hmem | ⟨h, ms, hmem, hfp⟩
    · exact .inr hmem
    · have hsame := (computeFingerprint_eq_iff hfinish).1 hfp.symm
      exact .inl ⟨h, ms, hmem, hsame.sameSubgraph (hops h ms v hmem)⟩

/-- Some statements of one function, numbered in order, with edges over them. -/
def statements (body : List ScgStatement) (edges : List CodegenEdge) : Codegen.Adapter.Scg where
  nodes := [.function body]
  edges := edges
  nodeIndex := body.zipIdx.foldl
    (fun index p => AList.insert (UInt64.ofNat p.2) (NodeLoc.mk 0 p.2) index) ∅
  semanticNodes := none

/-- One stack allocation. -/
def stackAllocation (size : UInt32) : Codegen.Adapter.Scg :=
  statements [.allocation (.stack size)] []

/-- An allocation that is read twice. -/
def readTwice (first second : NodeId) : Codegen.Adapter.Scg :=
  statements [.allocation (.stack 8), .access .load, .access .load]
    [⟨0, first, .dataFlow, none⟩, ⟨0, second, .dataFlow, none⟩]

/-- A subgraph with another node in it has another fingerprint. -/
theorem fingerprintRight_readTwice :
    FingerprintRight (stackAllocation 8) [0] (readTwice 1 2) [0, 1] id :=
  ((fingerprintRight_iff id Function.injective_id).1 _ _ _ _).2
    ⟨fun hstale => absurd hstale.1.nodes.length_eq (by decide),
      fun hreordered => absurd hreordered.2.1.length_eq (by decide)⟩

/-- An allocation that has grown keeps its fingerprint, and two edges stored the other way round
give another one. -/
theorem not_fingerprintRight :
    ¬FingerprintRight (stackAllocation 64) [0] (stackAllocation 128) [0] id ∧
    ¬FingerprintRight (readTwice 1 2) [0] (readTwice 2 1) [0] id := by
  constructor
  · intro hright
    have hsame := (hright.changed (by decide)).data 0 (by simp)
    exact absurd hsame.2 (by decide)
  · intro hright
    have hdata : SameNodeData (readTwice 1 2) [0] (readTwice 2 1) := by
      intro id _
      exact ⟨rfl, rfl⟩
    have hedges : (incidentEdges (readTwice 1 2) [0]).Perm (incidentEdges (readTwice 2 1) [0]) :=
      List.Perm.swap _ _ _
    exact absurd (hright.reordered (.refl _) hdata hedges) (by decide)

end Vuma.Ive
