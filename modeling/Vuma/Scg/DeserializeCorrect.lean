import Vuma.Scg.Deserialize
import Vuma.Scg.Invariant

/-!
# Reading any bytes

Whatever the bytes are, the reading of a graph comes to no slice that is out of range and never
runs out of stack frames. It crashes exactly when it asks for something that is refused: room for
too many elements, or a counter above the largest identifier. A graph that is read has its maps and
slots in agreement, whatever became of its counters.
-/

namespace Vuma.Scg

open Lib

/-! ## What the readers ask for -/

section

variable {utf8Error : Bytes → String} {n : Nat}

theorem asks_readBytes (m : Nat) (context : String) :
    Asks n m fun _ : Request → Bool => readBytes m context :=
  Asks.takeBytes _ m

theorem asks_readU8 (context : String) :
    Asks n 0 fun _ : Request → Bool => readU8 context :=
  ((asks_readBytes 1 context).mono le_rfl (Nat.zero_le 1)).andThen fun _ => .pure _

theorem asks_readBool (context : String) :
    Asks n 0 fun _ : Request → Bool => readBool context :=
  (asks_readU8 context).andThen fun _ => .pure _

theorem takes_readU32Le (context : String) :
    Asks n 4 fun _ : Request → Bool => readU32Le context :=
  (asks_readBytes 4 context).bind fun _ => .pure _

theorem asks_readU32Le (context : String) :
    Asks n 0 fun _ : Request → Bool => readU32Le context :=
  (takes_readU32Le context).mono le_rfl (Nat.zero_le 4)

theorem asks_readU64Le (context : String) :
    Asks n 0 fun _ : Request → Bool => readU64Le context :=
  ((asks_readBytes 8 context).mono le_rfl (Nat.zero_le 8)).andThen fun _ => .pure _

theorem asks_fromUtf8 (bytes : Bytes) (context : String) :
    Asks n 0 fun _ : Request → Bool => fromUtf8 utf8Error bytes context := by
  unfold fromUtf8
  cases String.fromUTF8? ⟨bytes.toArray⟩ with
  | none => exact .throw _
  | some s => exact .pure s

theorem asks_readString (context : String) :
    Asks n 0 fun _ : Request → Bool => readString utf8Error context := by
  apply (asks_readU32Le _).andThen
  intro len
  apply Asks.ite
  · intro _
    exact .pure ""
  · intro _
    exact ((asks_readBytes len.toNat context).mono le_rfl (Nat.zero_le _)).andThen
      fun bytes => asks_fromUtf8 bytes context

theorem asks_readOptionalString (context : String) :
    Asks n 0 fun _ : Request → Bool => readOptionalString utf8Error context :=
  (asks_readBool _).andThen fun _ =>
    .ite (fun _ => (asks_readString context).andThen fun _ => .pure _) fun _ => .pure none

theorem asks_readOptionalU64 (context : String) :
    Asks n 0 fun _ : Request → Bool => readOptionalU64 context :=
  (asks_readBool _).andThen fun _ =>
    .ite (fun _ => (asks_readU64Le context).andThen fun _ => .pure _) fun _ => .pure none

theorem asks_ofTag {α : Type} (table : List α) (field : String) (tag : UInt32) :
    Asks n 0 fun _ : Request → Bool => ofTag table field tag := by
  unfold ofTag
  cases table[tag.toNat]? with
  | none => exact .throw _
  | some a => exact .pure a

theorem asks_tagToDeploymentTarget (tag : UInt32) :
    Asks n 0 fun _ : Request → Bool => tagToDeploymentTarget utf8Error tag :=
  .ite (fun _ => (asks_readString _).andThen fun _ => .pure _) fun _ => asks_ofTag _ _ _

theorem asks_readVec {α : Type} (elem : Elem) (count : UInt64)
    {r : (Request → Bool) → Nat → Read α} (h : ∀ i, Asks n 0 fun allow => r allow i) :
    Asks n 0 fun allow => readVec allow elem count (r allow) :=
  (Asks.ask _).andThen fun _ => Asks.readIndexed (r := fun i allow => r allow i) h 0 count.toNat

theorem asks_readIf {α : Type} (has : Bool) {r : (Request → Bool) → Read α} (h : Asks n 0 r) :
    Asks n 0 fun allow => readIf has (r allow) :=
  .ite (fun _ => h.andThen fun _ => .pure _) fun _ => .pure none

theorem asks_readOptionalBdReference (context : String) :
    Asks n 0 fun _ : Request → Bool => readOptionalBdReference context :=
  (asks_readBool _).andThen fun _ =>
    .ite (fun _ => (asks_readU64Le _).andThen fun _ =>
      (asks_readOptionalU64 _).andThen fun _ => .pure _) fun _ => .pure none

theorem asks_readProgramPoint (context : String) :
    Asks n 0 fun _ : Request → Bool => readProgramPoint utf8Error context :=
  (asks_readOptionalString _).andThen fun _ => (asks_readOptionalU64 _).andThen fun _ =>
    (asks_readOptionalU64 _).andThen fun _ => (asks_readOptionalU64 _).andThen fun _ => .pure _

theorem asks_readMatchPattern {frames : Nat} (h : n < frames) (context : String) :
    Asks n 0 fun allow => readMatchPattern allow utf8Error frames context := by
  induction frames generalizing n context with
  | zero => exact absurd h (Nat.not_lt_zero n)
  | succ frames ih =>
    refine ((takes_readU32Le (context ++ ".tag")).bind_lt (j := 0) ?_).mono le_rfl (Nat.zero_le _)
    intro hn tag
    have hnested : ∀ i : Nat, Asks (n - 4) 0 fun allow =>
        readMatchPattern allow utf8Error frames s!"{context}.pattern[{i}]" :=
      fun i => ih (by omega) _
    generalize tag.toNat = t
    match t with
    | 0 => exact .pure _
    | 1 => exact (asks_readU64Le _).andThen fun _ => .pure _
    | 2 => exact (asks_readString _).andThen fun _ => .pure _
    | 3 =>
      exact (asks_readString _).andThen fun _ =>
        (asks_readOptionalString _).andThen fun _ => .pure _
    | 4 =>
      exact (asks_readString _).andThen fun _ => (asks_readU64Le _).andThen fun count =>
        (asks_readVec _ count fun i => asks_readString _).andThen fun _ => .pure _
    | 5 =>
      exact (asks_readU64Le _).andThen fun count =>
        (asks_readVec _ count hnested).andThen fun _ => .pure _
    | _ + 6 => exact .throw _

theorem asks_readStructField (context : String) (i : Nat) :
    Asks n 0 fun _ : Request → Bool => readStructField utf8Error context i :=
  (asks_readString _).andThen fun _ => (asks_readString _).andThen fun _ =>
    (asks_readU64Le _).andThen fun _ => (asks_readU64Le _).andThen fun _ => .pure _

theorem asks_readEnumVariant (context : String) (i : Nat) :
    Asks n 0 fun _ : Request → Bool => readEnumVariant utf8Error context i :=
  (asks_readString _).andThen fun _ => (asks_readU64Le _).andThen fun _ =>
    (asks_readOptionalString _).andThen fun _ => (asks_readU64Le _).andThen fun _ => .pure _

theorem asks_readMatchArm {frames : Nat} (h : n < frames) (context : String) (i : Nat) :
    Asks n 0 fun allow => readMatchArm allow utf8Error frames context i :=
  (asks_readMatchPattern h _).andThen fun _ => (asks_readOptionalString _).andThen fun _ =>
    (asks_readU64Le _).andThen fun count =>
      (asks_readVec _ count fun _ => asks_readString _).andThen fun _ => .pure _

/-- Each payload is a sequence of fields. -/
theorem asks_readPayloadOf {frames : Nat} (h : n < frames) (payloadType : NodeType)
    (context : String) :
    Asks n 0 fun allow => readPayloadOf allow utf8Error frames payloadType context := by
  cases payloadType
  case computation =>
    exact (asks_readString _).andThen fun _ => (asks_readOptionalString _).andThen fun _ =>
      .pure _
  case allocation =>
    exact (asks_readU64Le _).andThen fun _ => (asks_readU64Le _).andThen fun _ =>
      (asks_readU64Le _).andThen fun _ => (asks_readOptionalString _).andThen fun _ => .pure _
  case deallocation =>
    exact (asks_readU64Le _).andThen fun _ => (asks_readU64Le _).andThen fun _ => .pure _
  case access =>
    exact (asks_readU32Le _).andThen fun _ => (asks_ofTag _ _ _).andThen fun _ =>
      (asks_readU64Le _).andThen fun _ => (asks_readOptionalU64 _).andThen fun _ =>
      (asks_readOptionalU64 _).andThen fun _ => .pure _
  case cast =>
    exact (asks_readString _).andThen fun _ => (asks_readString _).andThen fun _ =>
      (asks_readBool _).andThen fun _ => .pure _
  case effect =>
    exact (asks_readString _).andThen fun _ => (asks_readBool _).andThen fun _ => .pure _
  case control =>
    exact (asks_readU32Le _).andThen fun _ => (asks_ofTag _ _ _).andThen fun _ =>
      (asks_readOptionalString _).andThen fun _ => .pure _
  case phantom =>
    exact (asks_readString _).andThen fun _ => .pure _
  case vTable =>
    exact (asks_readString _).andThen fun _ => (asks_readString _).andThen fun _ =>
      (asks_readU64Le _).andThen fun _ =>
      (asks_readVec _ _ fun _ => asks_readU64Le _).andThen fun _ => .pure _
  case closureEnv =>
    exact (asks_readU64Le _).andThen fun _ =>
      (asks_readVec _ _ fun _ => asks_readString _).andThen fun _ =>
      (asks_readU64Le _).andThen fun _ =>
      (asks_readVec _ _ fun _ => asks_readBool _).andThen fun _ =>
      (asks_readOptionalU64 _).andThen fun _ => .pure _
  case structDef =>
    exact (asks_readString _).andThen fun _ => (asks_readU64Le _).andThen fun _ =>
      (asks_readVec _ _ (asks_readStructField context)).andThen fun _ =>
      (asks_readU64Le _).andThen fun _ => (asks_readU64Le _).andThen fun _ => .pure _
  case enumDef =>
    exact (asks_readString _).andThen fun _ => (asks_readU64Le _).andThen fun _ =>
      (asks_readVec _ _ (asks_readEnumVariant context)).andThen fun _ =>
      (asks_readString _).andThen fun _ => (asks_readU64Le _).andThen fun _ =>
      (asks_readU64Le _).andThen fun _ => (asks_readU64Le _).andThen fun _ =>
      (asks_readU64Le _).andThen fun _ => .pure _
  case matchDispatch =>
    exact (asks_readString _).andThen fun _ => (asks_readString _).andThen fun _ =>
      (asks_readU64Le _).andThen fun _ =>
      (asks_readVec _ _ (asks_readMatchArm h context)).andThen fun _ => .pure _
  case constantTime =>
    exact (asks_readU32Le _).andThen fun _ => (asks_ofTag _ _ _).andThen fun _ =>
      (asks_readString _).andThen fun _ => (asks_readU64Le _).andThen fun _ =>
      (asks_readVec _ _ fun _ => asks_readString _).andThen fun _ => .pure _
  case syscall =>
    exact (asks_readU32Le _).andThen fun _ => (asks_readU32Le _).andThen fun _ =>
      (asks_readIf _ (asks_readString _)).andThen fun _ => (asks_readU64Le _).andThen fun _ =>
      (asks_readVec _ _ fun _ => asks_readString _).andThen fun _ => .pure _
  case stateInit =>
    exact (asks_readString _).andThen fun _ => (asks_readU32Le _).andThen fun _ => .pure _
  case stateRead =>
    exact (asks_readU32Le _).andThen fun _ => (asks_readString _).andThen fun _ =>
      (asks_readString _).andThen fun _ => (asks_readU32Le _).andThen fun _ => .pure _
  case stateWrite =>
    exact (asks_readU32Le _).andThen fun _ => (asks_readString _).andThen fun _ =>
      (asks_readString _).andThen fun _ => (asks_readU32Le _).andThen fun _ => .pure _
  case stateTransform =>
    exact (asks_readU32Le _).andThen fun _ => (asks_readString _).andThen fun _ =>
      (asks_readString _).andThen fun _ => (asks_readU32Le _).andThen fun _ => .pure _
  case foreignConsume =>
    exact (asks_readU32Le _).andThen fun _ => (asks_readString _).andThen fun _ => .pure _
  case arenaNew =>
    exact (asks_readU32Le _).andThen fun _ => (asks_readU32Le _).andThen fun _ => .pure _
  case arenaAlloc =>
    exact (asks_readU32Le _).andThen fun _ => (asks_readString _).andThen fun _ =>
      (asks_readU32Le _).andThen fun _ => (asks_readU32Le _).andThen fun _ => .pure _
  case arenaGrow =>
    exact (asks_readU32Le _).andThen fun _ => (asks_readU32Le _).andThen fun _ =>
      (asks_readU32Le _).andThen fun _ => .pure _
  case arenaFree =>
    exact (asks_readU32Le _).andThen fun _ => .pure _
  case channelOpen =>
    exact (asks_readString _).andThen fun _ => (asks_readString _).andThen fun _ => .pure _
  case channelSend =>
    exact (asks_readString _).andThen fun _ => (asks_readString _).andThen fun _ =>
      (asks_readString _).andThen fun _ => .pure _
  case channelRecv =>
    exact (asks_readString _).andThen fun _ => (asks_readString _).andThen fun _ =>
      (asks_readString _).andThen fun _ => .pure _
  case channelClose =>
    exact (asks_readString _).andThen fun _ => .pure _

theorem asks_readPayload {frames : Nat} (h : n < frames) (expectedType : NodeType)
    (context : String) :
    Asks n 0 fun allow => readPayload allow utf8Error frames expectedType context := by
  refine (asks_readU32Le _).andThen fun tag => (asks_ofTag _ _ tag).andThen fun payloadType => ?_
  exact .ite (fun _ => .throw _) fun _ => asks_readPayloadOf h payloadType context

theorem asks_readNode {frames : Nat} (h : n < frames) (index : Nat) :
    Asks n 0 fun allow => readNode allow utf8Error frames index :=
  (asks_readU64Le _).andThen fun _ => (asks_readU32Le _).andThen fun tag =>
    (asks_ofTag _ _ tag).andThen fun nodeType => (asks_readOptionalBdReference _).andThen fun _ =>
      (asks_readProgramPoint _).andThen fun _ => (asks_readPayload h nodeType _).andThen fun _ =>
        .pure _

theorem asks_readEdge (index : Nat) :
    Asks n 0 fun _ : Request → Bool => readEdge utf8Error index :=
  (asks_readU64Le _).andThen fun _ => (asks_readU64Le _).andThen fun _ =>
    (asks_readU64Le _).andThen fun _ => (asks_readU32Le _).andThen fun tag =>
      (asks_ofTag _ _ tag).andThen fun _ => (asks_readOptionalString _).andThen fun _ => .pure _

theorem asks_readRegion (index : Nat) :
    Asks n 0 fun _ : Request → Bool => readRegion utf8Error index :=
  (asks_readU64Le _).andThen fun _ => (asks_readU32Le _).andThen fun nodeCount =>
    (Asks.readIndexed (fun _ => asks_readU64Le _) 0 nodeCount.toNat).andThen fun _ =>
      (asks_readU32Le _).andThen fun _ => (asks_readBool _).andThen fun _ =>
        (asks_readU32Le _).andThen fun tag =>
          (asks_tagToDeploymentTarget tag).andThen fun _ => .pure _

theorem asks_readScg {frames : Nat} (h : n ≤ frames) :
    Asks n 0 fun allow => readScg allow utf8Error frames := by
  refine ((asks_readBytes 4 "magic").bind_lt (j := 0) ?_).mono le_rfl (Nat.zero_le _)
  intro hn magic
  have hframes : n - 4 < frames := by omega
  apply Asks.ite
  · intro _
    exact .throw _
  · intro _
    apply (asks_readU32Le _).andThen
    intro version
    apply Asks.ite
    · intro _
      exact .throw _
    · intro _
      exact (asks_readU64Le _).andThen fun _ => (asks_readU64Le _).andThen fun _ =>
        (asks_readU32Le _).andThen fun nodeCount => (asks_readU32Le _).andThen fun edgeCount =>
          (asks_readU32Le _).andThen fun regionCount =>
            (asks_readVec _ _ (asks_readNode hframes)).andThen fun _ =>
              (asks_readVec _ _ asks_readEdge).andThen fun _ =>
                (asks_readVec _ _ asks_readRegion).andThen fun _ => .pure _

end

/-! ## What the graph asks for -/

theorem asksFor_ask (q : Request) :
    AsksFor (fun _ => True) fun allow => (ask allow q : Except (Failure DeserializeError) Unit) :=
  AsksFor.ask (o := .ok ()) q rfl trivial

theorem asksFor_ofOutcome {α : Type} {out : Outcome SCGError α × SCG} (hout : out.1 ≠ .panic)
    (hsound : ∀ a, out.1 = .ok a → out.2.Sound) :
    AsksFor SCG.Sound fun _ : Request → Bool => ofOutcome out := by
  obtain ⟨o, g⟩ := out
  cases o with
  | ok a => exact .ok (hsound a rfl)
  | err e => exact .err _
  | panic => exact absurd rfl hout

theorem sound_addNodeWithId {g : SCG} (hg : g.Sound) (id : NodeId) (t : NodeType) (p : NodePayload)
    (pp : ProgramPoint) :
    (g.addNodeWithId id t p pp).1 ≠ .panic ∧ (g.addNodeWithId id t p pp).2.Sound := by
  cases hid : g.nodeIdToIndex.lookup id with
  | some idx =>
    rw [SCG.addNodeWithId_of_isSome (by simp [hid])]
    exact ⟨nofun, hg⟩
  | none =>
    rw [SCG.addNodeWithId_of_none hid]
    have hpush : (g.pushNode ⟨id, t, none, pp, p⟩).Sound := hg.pushNode hid
    exact ⟨nofun, hpush.setCounters _ _⟩

theorem sound_addEdgeWithId {g : SCG} (hg : g.Sound) (id : EdgeId) (source target : NodeId)
    (kind : EdgeKind) :
    (g.addEdgeWithId id source target kind).1 ≠ .panic ∧
      (g.addEdgeWithId id source target kind).2.Sound := by
  cases hid : g.edgeIdToIndex.lookup id with
  | some eidx =>
    rw [SCG.addEdgeWithId_of_isSome (by simp [hid])]
    exact ⟨nofun, hg⟩
  | none =>
    cases hs : g.nodeIdToIndex.lookup source with
    | none =>
      rw [SCG.addEdgeWithId_of_none hid (.inl hs)]
      exact ⟨nofun, hg⟩
    | some i =>
      cases ht : g.nodeIdToIndex.lookup target with
      | none =>
        rw [SCG.addEdgeWithId_of_none hid (.inr ht)]
        exact ⟨nofun, hg⟩
      | some j =>
        rw [SCG.addEdgeWithId_of_some hid hs ht]
        have ha := (hg.nodes.toIndex_iff _ _).1 hs
        have hb := (hg.nodes.toIndex_iff _ _).1 ht
        have hpush : (g.pushEdge i j ⟨id, source, target, kind, none⟩).Sound :=
          hg.pushEdge ha hb hid
        exact ⟨nofun, hpush.setCounters _ _⟩

theorem asksFor_restoreNode {scg : SCG} (h : scg.Sound) (node : NodeData) :
    AsksFor SCG.Sound fun allow => restoreNode allow scg node := by
  obtain ⟨hout, hsound⟩ :=
    sound_addNodeWithId h node.id node.nodeType node.payload node.programPoint
  refine (asksFor_ofOutcome hout fun _ _ => hsound).bind ?_
  intro g hg
  have hset : AsksFor SCG.Sound fun _ : Request → Bool =>
      (node.annotation.elim (pure g) fun ann => pure
        (g.modifyNode node.id fun nd => { nd with annotation := some ann }) :
          Except (Failure DeserializeError) SCG) := by
    cases node.annotation with
    | none => exact .ok hg
    | some ann => exact .ok (hg.modifyNode node.id fun _ => rfl)
  by_cases hle : scg.nextNodeId ≤ node.id
  · simp only [if_pos hle]
    refine (asksFor_ask (.successor node.id)).bind fun _ _ => ?_
    revert hset
    cases node.annotation <;> exact id
  · simp only [if_neg hle]
    revert hset
    cases node.annotation <;> exact id

theorem asksFor_restoreEdge {scg : SCG} (h : scg.Sound) (edge : EdgeData) :
    AsksFor SCG.Sound fun allow => restoreEdge allow scg edge := by
  obtain ⟨hout, hsound⟩ := sound_addEdgeWithId h edge.id edge.source edge.target edge.kind
  refine (asksFor_ofOutcome hout fun _ _ => hsound).bind ?_
  intro g hg
  have hset : AsksFor SCG.Sound fun _ : Request → Bool =>
      (edge.label.elim (pure g) fun label => pure
        (g.modifyEdge edge.id fun ed => { ed with label := some label }) :
          Except (Failure DeserializeError) SCG) := by
    cases edge.label with
    | none => exact .ok hg
    | some label => exact .ok (hg.modifyEdge edge.id fun _ => ⟨rfl, rfl, rfl⟩)
  by_cases hle : scg.nextEdgeId ≤ edge.id
  · simp only [if_pos hle]
    refine (asksFor_ask (.successor edge.id)).bind fun _ _ => ?_
    revert hset
    cases edge.label <;> exact id
  · simp only [if_neg hle]
    revert hset
    cases edge.label <;> exact id

theorem asksFor_serializedToScg (s : SerializedSCG) :
    AsksFor SCG.Sound fun allow => serializedToScg allow s := by
  have hnodes := AsksFor.foldlM (f := restoreNode) (fun g node hg => asksFor_restoreNode hg node)
    s.nodes SCG.valid_new.sound
  refine hnodes.bind fun g hg => ?_
  have hedges := AsksFor.foldlM (f := restoreEdge) (fun g edge hg => asksFor_restoreEdge hg edge)
    s.edges hg
  refine hedges.bind fun g hg => .ok ?_
  clear hnodes hedges
  induction s.regions generalizing g with
  | nil => exact hg
  | cons region regions ih => exact ih _ (hg.addRegion region)

theorem asksFor_deserializeScg (utf8Error : Bytes → String) (data : Bytes) :
    AsksFor SCG.Sound fun allow => deserializeScg allow utf8Error data :=
  ((asks_readScg (Nat.le_refl _)) data le_rfl).bind
    (f := fun allow p => serializedToScg allow p.1) fun p _ => asksFor_serializedToScg p.1

/-! ## Any bytes -/

/-- Something is asked for on some bytes: the reading of them crashes when it alone is refused. -/
def AsksToRead (utf8Error : Bytes → String) (data : Bytes) (q : Request) : Prop :=
  deserializeScg (fun q' => q' != q) utf8Error data = .error .panic

/-- What the program is granted: vectors of less than `2 ^ 63` bytes, and a counter above an
identifier when there is one, or when the overflow goes unchecked. -/
def granted (size : Elem → Nat) (overflowChecks : Bool) : Request → Bool
  | .room elem count => count.toNat * size elem < 2 ^ 63
  | .successor id => !overflowChecks || id.toNat + 1 < 2 ^ 64

/-- The reading of some bytes ends with a graph or an error, and a graph has unique identifiers and
the ends of its edges. -/
def DeserializesSafely (size : Elem → Nat) (overflowChecks : Bool) (utf8Error : Bytes → String)
    (data : Bytes) : Prop :=
  deserializeScg (granted size overflowChecks) utf8Error data ≠ .error .panic ∧
    ∀ scg, deserializeScg (granted size overflowChecks) utf8Error data = .ok scg → scg.Sound

/-- The reading is safe when all that is asked for is granted. -/
theorem deserializesSafely_iff (size : Elem → Nat) (overflowChecks : Bool)
    (utf8Error : Bytes → String) (data : Bytes) :
    DeserializesSafely size overflowChecks utf8Error data ↔
      ∀ q, AsksToRead utf8Error data q → granted size overflowChecks q = true := by
  obtain ⟨asked, o, hdep, hok⟩ := asksFor_deserializeScg utf8Error data
  have hasked : ∀ q, AsksToRead utf8Error data q ↔ q ∈ asked := fun q => (hdep.mem_iff q).symm
  constructor
  · rintro ⟨hne, -⟩ q hq
    have hgranted := granted_of_not_refused fun hrefused => hne (hdep.2.2 _ hrefused)
    exact hgranted q ((hasked q).1 hq)
  · intro hall
    have hrun : deserializeScg (granted size overflowChecks) utf8Error data = o :=
      hdep.2.1 _ fun q hq => hall q ((hasked q).2 hq)
    refine ⟨?_, ?_⟩
    · rw [hrun]
      exact hdep.1
    · intro scg hscg
      exact hok scg (hrun.symm.trans hscg)

/-- A graph with a table of `2 ^ 63` methods. -/
def manyMethods : Bytes :=
  magicBytes ++ leBytes 4 1 ++ leBytes 8 0 ++ leBytes 8 0 ++ leBytes 4 1 ++ leBytes 4 0 ++
    leBytes 4 0 ++ leBytes 8 0 ++ leBytes 4 8 ++ [0] ++ [0, 0, 0, 0] ++ leBytes 4 8 ++
    leBytes 4 0 ++ leBytes 4 0 ++ leBytes 8 (2 ^ 63)

/-- An identifier takes eight bytes. -/
theorem not_deserializesSafely :
    ¬DeserializesSafely (fun _ => 8) false (fun _ => "") manyMethods := by
  have hpanic : (match deserializeScg (granted (fun _ => 8) false) (fun _ => "") manyMethods with
      | .error .panic => true
      | _ => false) = true := by decide +kernel
  rintro ⟨hne, -⟩
  apply hne
  split at hpanic
  · assumption
  · cases hpanic

end Vuma.Scg
