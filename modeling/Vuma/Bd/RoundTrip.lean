import Vuma.Bd.Serialize

/-!
# Reading back a serialized descriptor

For each pair of a writer and a reader, what is written is an encoding of the value for the reader.
Lengths are written as `u32`, so strings and collections have to be shorter than `2 ^ 32`.
-/

namespace Vuma.Bd

open Vuma.Lib

/-! ## Primitives -/

theorem encodes_u8 (v : UInt8) : Encodes readU8 (writeU8 v) v := by
  have h := (encodes_readLe BinaryError.io (n := 1) v.toNat_lt).bind_pure (k := UInt8.ofNat)
  rwa [UInt8.ofNat_toNat] at h

theorem encodes_u32 (v : UInt32) : Encodes readU32 (writeU32 v) v := by
  have h := (encodes_readLe BinaryError.io (n := 4) v.toNat_lt).bind_pure (k := UInt32.ofNat)
  rwa [UInt32.ofNat_toNat] at h

theorem encodes_u64 (v : UInt64) : Encodes readU64 (writeU64 v) v := by
  have h := (encodes_readLe BinaryError.io (n := 8) v.toNat_lt).bind_pure (k := UInt64.ofNat)
  rwa [UInt64.ofNat_toNat] at h

theorem encodes_bool (v : Bool) : Encodes readBool (writeBool v) v := by
  have h := (encodes_u8 (if v then 1 else 0)).bind_pure (k := fun v => v != 0)
  cases v <;> exact h

/-- A length below `2 ^ 32` survives being written as a `u32`. -/
theorem toNat_ofNat_length {n : Nat} (h : n < 2 ^ 32) : (UInt32.ofNat n).toNat = n := by
  rw [UInt32.toNat_ofNat']
  exact Nat.mod_eq_of_lt h

def StringFits (s : String) : Prop := (asBytes s).length < 2 ^ 32

instance (s : String) : Decidable (StringFits s) := inferInstanceAs (Decidable (_ < _))

theorem fromUTF8_asBytes (s : String) : String.fromUTF8? ⟨(asBytes s).toArray⟩ = some s := by
  have hbytes : (⟨(asBytes s).toArray⟩ : ByteArray) = s.toByteArray := by simp [asBytes]
  rw [hbytes, String.fromUTF8?, dif_pos s.isValidUTF8]
  rfl

theorem encodes_string {s : String} (h : StringFits s) : Encodes readString (writeString s) s := by
  refine (encodes_u32 _).bind ?_
  rw [toNat_ofNat_length h]
  refine (encodes_takeBytes BinaryError.io (asBytes s)).bind_nil ?_
  rw [fromUTF8_asBytes]
  exact .pure s

section

variable {α β : Type}

theorem encodes_opt {r : Read α} {w : α → Bytes} (h : ∀ a, Encodes r (w a) a) (o : Option α) :
    Encodes (readOpt r) (writeOpt w o) o := by
  cases o with
  | none => exact (encodes_u8 0).bind_nil (.pure _)
  | some v => exact (encodes_u8 1).bind (h v).bind_pure

/-- Elements that are encoded one after the other, after their number. -/
theorem encodes_count {r : Read α} {n : Nat} {bs : Bytes} {as : List α} (hn : n < 2 ^ 32)
    (h : Encodes (readTimes r n) bs as) :
    Encodes (readVec r) (writeU32 (UInt32.ofNat n) ++ bs) as := by
  refine (encodes_u32 _).bind ?_
  rwa [toNat_ofNat_length hn]

theorem encodes_vec {r : Read α} {w : α → Bytes} {v : List α} (hlen : v.length < 2 ^ 32)
    (h : ∀ a ∈ v, Encodes r (w a) a) : Encodes (readVec r) (writeVec w v) v := by
  have := encodes_count hlen (encodes_readTimes (g := id) h)
  rwa [List.map_id] at this

/-- Inserting the elements in any order gives the set. -/
theorem foldl_insert_eq [DecidableEq α] (l : List α) (s : Finset α) :
    l.foldl (fun out item => insert item out) s = s ∪ l.toFinset := by
  induction l generalizing s with
  | nil => simp
  | cons a l ih =>
    rw [List.foldl_cons, ih, List.toFinset_cons, Finset.insert_union, Finset.union_insert]

def HashSet.Fits (s : HashSet α) : Prop := s.iter.length < 2 ^ 32

instance (s : HashSet α) : Decidable s.Fits := inferInstanceAs (Decidable (_ < _))

theorem encodes_hashset [DecidableEq α] {r : Read α} {w : α → Bytes} {s : HashSet α}
    (hlen : s.Fits) (h : ∀ a, Encodes r (w a) a) :
    Encodes (readHashset r) (writeHashset w s) s.elems := by
  have hset : s.iter.foldl (fun out item => insert item out) ∅ = s.elems := by
    rw [foldl_insert_eq, Finset.empty_union]
    ext a
    rw [List.mem_toFinset]
    rfl
  have := (encodes_vec hlen fun a _ => h a).bind_pure
    (k := fun items => items.foldl (fun out item => insert item out) (∅ : Finset α))
  rwa [hset] at this

theorem encodes_tag {name : String} {tag : α → UInt8} {ofTag : Nat → Option α}
    (h : ∀ a, ofTag (tag a).toNat = some a) (a : α) :
    Encodes (readTag name ofTag) (writeU8 (tag a)) a := by
  refine (encodes_u8 (tag a)).bind_nil ?_
  rw [h]
  exact .pure a

end

/-! ## Capabilities and relations -/

theorem encodes_capability (c : Capability) : Encodes readCapability (writeCapability c) c :=
  encodes_tag (by intro c; cases c <;> rfl) c

theorem encodes_condition (c : Condition) : Encodes readCondition (writeCondition c) c := by
  cases c with
  | inPhase id => exact (encodes_u8 0).bind (encodes_u64 id).bind_pure
  | afterOp id => exact (encodes_u8 1).bind (encodes_u64 id).bind_pure
  | beforeOp id => exact (encodes_u8 2).bind (encodes_u64 id).bind_pure
  | notConcurrentWith id => exact (encodes_u8 3).bind (encodes_u64 id).bind_pure
  | requiresLock id => exact (encodes_u8 4).bind (encodes_u64 id).bind_pure
  | securityLevel lvl => exact (encodes_u8 5).bind (encodes_u8 lvl).bind_pure
  | validDuring id => exact (encodes_u8 6).bind (encodes_u64 id).bind_pure

structure CapD.Fits (c : CapD HashSet) : Prop where
  caps : c.caps.Fits
  conditions : c.conditions.Fits

theorem encodes_capD {c : CapD HashSet} (h : c.Fits) : Encodes readCapD (writeCapD c) c.elems :=
  (encodes_hashset h.caps encodes_capability).bind
    (encodes_hashset h.conditions encodes_condition).bind_pure

theorem encodes_temporalKind (k : TemporalKind) :
    Encodes readTemporalKind (writeTemporalKind k) k :=
  encodes_tag (by intro k; cases k <;> rfl) k

theorem encodes_depKind (k : DepKind) : Encodes readDepKind (writeDepKind k) k :=
  encodes_tag (by intro k; cases k <;> rfl) k

theorem encodes_flowPolicy (p : FlowPolicy) : Encodes readFlowPolicy (writeFlowPolicy p) p :=
  encodes_tag (by intro p; cases p <;> rfl) p

theorem encodes_relation (r : Relation) : Encodes readRelation (writeRelation r) r := by
  cases r with
  | temporal k => exact (encodes_u8 0).bind (encodes_temporalKind k).bind_pure
  | containment => exact (encodes_u8 1).bind_nil (.pure _)
  | dependency k => exact (encodes_u8 2).bind (encodes_depKind k).bind_pure
  | equivalence => exact (encodes_u8 3).bind_nil (.pure _)
  | security p => exact (encodes_u8 4).bind (encodes_flowPolicy p).bind_pure
  | liveness => exact (encodes_u8 5).bind_nil (.pure _)

def RelD.Fits (r : RelD HashSet) : Prop := r.relations.Fits

theorem encodes_relD {r : RelD HashSet} (h : r.Fits) : Encodes readRelD (writeRelD r) r.elems :=
  (encodes_hashset h encodes_relation).bind_pure

/-! ## Leaf representations -/

theorem encodes_spaceFillingCurve (c : SpaceFillingCurve) :
    Encodes readSpaceFillingCurve (writeSpaceFillingCurve c) c :=
  encodes_tag (by intro c; cases c <;> rfl) c

theorem encodes_byteRep (b : ByteRep) : Encodes readByteRep (writeByteRep b) b :=
  (encodes_u64 b.size).bind (encodes_u64 b.align).bind_pure

def ManifoldSpatialRep.Fits (m : ManifoldSpatialRep) : Prop := m.dimSizes.length < 2 ^ 32

theorem encodes_manifoldSpatialRep {m : ManifoldSpatialRep} (h : m.Fits) :
    Encodes readManifoldSpatialRep (writeManifoldSpatialRep m) m :=
  (encodes_u32 m.dimensions).bind <|
    (encodes_vec h fun d _ => encodes_u64 d).bind <|
    (encodes_u64 m.elementSize).bind <|
    (encodes_spaceFillingCurve m.curve).bind <|
    (encodes_u32 m.order).bind (encodes_u64 m.totalBytes).bind_pure

structure GestaltSuperpositionRep.Fits (g : GestaltSuperpositionRep) : Prop where
  length : g.variants.length < 2 ^ 32
  variants : ∀ s ∈ g.variants, StringFits s

theorem encodes_gestaltSuperpositionRep {g : GestaltSuperpositionRep} (h : g.Fits) :
    Encodes readGestaltSuperpositionRep (writeGestaltSuperpositionRep g) g :=
  (encodes_vec h.length fun s hs => encodes_string (h.variants s hs)).bind <|
    (encodes_u64 g.maxSize).bind <|
    (encodes_u64 g.maxAlign).bind <|
    (encodes_bool g.degraded).bind (encodes_opt encodes_u64 g.tagOffset).bind_pure

structure ConceptRelationalRep.Fits (c : ConceptRelationalRep) : Prop where
  namesLength : c.fieldNames.length < 2 ^ 32
  names : ∀ s ∈ c.fieldNames, StringFits s
  offsetsLength : c.fieldOffsets.length < 2 ^ 32
  offsets : ∀ f ∈ c.fieldOffsets, StringFits f.1

theorem encodes_fieldOffset {f : String × UInt64} (h : StringFits f.1) :
    Encodes readFieldOffset (writeFieldOffset f) f :=
  (encodes_string h).bind (encodes_u64 f.2).bind_pure

theorem encodes_conceptRelationalRep {c : ConceptRelationalRep} (h : c.Fits) :
    Encodes readConceptRelationalRep (writeConceptRelationalRep c) c :=
  (encodes_vec h.namesLength fun s hs => encodes_string (h.names s hs)).bind <|
    (encodes_vec h.offsetsLength fun f hf => encodes_fieldOffset (h.offsets f hf)).bind <|
    (encodes_u64 c.totalSize).bind <|
    (encodes_u64 c.align).bind (encodes_bool c.useSoa).bind_pure

/-! ## Representations -/

mutual

/-- Every string and every collection is shorter than `2 ^ 32`. -/
def RepD.Fits : RepD HashSet → Prop
  | .byte _ => True
  | .struct fields _ _ => fields.length < 2 ^ 32 ∧ FieldsFit fields
  | .array element _ => element.Fits
  | .enum variants => variants.length < 2 ^ 32 ∧ FieldsFit variants
  | .ptr pointee => pointee.Fits
  | .union alternatives _ _ => alternatives.length < 2 ^ 32 ∧ RepsFit alternatives
  | .func params result => params.length < 2 ^ 32 ∧ RepsFit params ∧ result.Fits
  | .manifoldSpatial m => m.Fits
  | .gestaltSuperposition g => g.Fits
  | .conceptRelational c => c.Fits
  | .generic name constraints =>
    StringFits name ∧ constraints.length < 2 ^ 32 ∧ ConstraintsFit constraints
  | .state _ => True
  | .ref _ _ => True
  | .dependentArray elem countVar => elem.Fits ∧ StringFits countVar

def BDConstraint.Fits : BDConstraint HashSet → Prop
  | .capDAtLeast capd => capd.Fits
  | .repDCompatibleWith repd => repd.Fits
  | .relDContains reld => reld.Fits

def FieldsFit : List (UInt64 × RepD HashSet) → Prop
  | [] => True
  | (_, rep) :: fields => rep.Fits ∧ FieldsFit fields

def RepsFit : List (RepD HashSet) → Prop
  | [] => True
  | rep :: reps => rep.Fits ∧ RepsFit reps

def ConstraintsFit : List (BDConstraint HashSet) → Prop
  | [] => True
  | c :: cs => c.Fits ∧ ConstraintsFit cs

end

/-- One byte of the encoding is the tag, so what follows it is shorter than the fuel. -/
theorem encodes_tagged {tag : UInt8} {bs : Bytes} {fuel : Nat} {rep : RepD Finset}
    (hfuel : (writeU8 tag ++ bs).length ≤ fuel)
    (h : ∀ k, bs.length ≤ k → Encodes (readRepDTagged (readRepDFuel k) tag) bs rep) :
    Encodes (readRepDFuel fuel) (writeU8 tag ++ bs) rep := by
  cases fuel with
  | zero => cases hfuel
  | succ k =>
    have hbs : bs.length ≤ k := by
      rw [List.length_append, writeU8, length_leBytes] at hfuel
      omega
    exact (encodes_u8 tag).bind (h k hbs)

mutual

-- By recursion on the representation; the encoding of a part is part of the encoding, so it is no
-- longer than the fuel that is left.
theorem encodes_repDFuel : ∀ (rep : RepD HashSet) (fuel : Nat), rep.Fits →
    (writeRepD rep).length ≤ fuel → Encodes (readRepDFuel fuel) (writeRepD rep) rep.elems
  | .byte b, fuel, _, hfuel =>
    encodes_tagged hfuel fun _ _ => (encodes_byteRep b).bind_pure
  | .struct fields totalSize align, fuel, hfit, hfuel => by
    refine encodes_tagged hfuel fun k hk => ?_
    have hfields := encodes_offsetRepds fields k hfit.2 (by simp at hk; omega)
    exact (encodes_count hfit.1 hfields).bind
      ((encodes_u64 totalSize).bind (encodes_u64 align).bind_pure)
  | .array element count, fuel, hfit, hfuel => by
    refine encodes_tagged hfuel fun k hk => ?_
    have helement := encodes_repDFuel element k hfit (by simp at hk; omega)
    exact helement.bind (encodes_u64 count).bind_pure
  | .enum variants, fuel, hfit, hfuel => by
    refine encodes_tagged hfuel fun k hk => ?_
    have hvariants := encodes_offsetRepds variants k hfit.2 (by simp at hk; omega)
    exact (encodes_count hfit.1 hvariants).bind_pure
  | .ptr pointee, fuel, hfit, hfuel => by
    refine encodes_tagged hfuel fun k hk => ?_
    exact (encodes_repDFuel pointee k hfit hk).bind_pure
  | .union alternatives maxSize maxAlign, fuel, hfit, hfuel => by
    refine encodes_tagged hfuel fun k hk => ?_
    have halternatives := encodes_repDs alternatives k hfit.2 (by simp at hk; omega)
    exact (encodes_count hfit.1 halternatives).bind
      ((encodes_u64 maxSize).bind (encodes_u64 maxAlign).bind_pure)
  | .func params result, fuel, hfit, hfuel => by
    refine encodes_tagged hfuel fun k hk => ?_
    have hparams := encodes_repDs params k hfit.2.1 (by simp at hk; omega)
    have hresult := encodes_repDFuel result k hfit.2.2 (by simp at hk; omega)
    exact (encodes_count hfit.1 hparams).bind hresult.bind_pure
  | .manifoldSpatial m, fuel, hfit, hfuel =>
    encodes_tagged hfuel fun _ _ => (encodes_manifoldSpatialRep hfit).bind_pure
  | .gestaltSuperposition g, fuel, hfit, hfuel =>
    encodes_tagged hfuel fun _ _ => (encodes_gestaltSuperpositionRep hfit).bind_pure
  | .conceptRelational c, fuel, hfit, hfuel =>
    encodes_tagged hfuel fun _ _ => (encodes_conceptRelationalRep hfit).bind_pure
  | .generic name constraints, fuel, hfit, hfuel => by
    refine encodes_tagged hfuel fun k hk => ?_
    have hconstraints := encodes_bdConstraints constraints k hfit.2.2 (by simp at hk; omega)
    exact (encodes_string hfit.1).bind (encodes_count hfit.2.1 hconstraints).bind_pure
  | .state layout, fuel, _, hfuel =>
    encodes_tagged hfuel fun _ _ => (encodes_u32 layout).bind_pure
  | .ref layout field, fuel, _, hfuel =>
    encodes_tagged hfuel fun _ _ => (encodes_u32 layout).bind (encodes_u32 field).bind_pure
  | .dependentArray elem countVar, fuel, hfit, hfuel => by
    refine encodes_tagged hfuel fun k hk => ?_
    have helem := encodes_repDFuel elem k hfit.1 (by simp at hk; omega)
    exact helem.bind (encodes_string hfit.2).bind_pure

theorem encodes_bdConstraint : ∀ (c : BDConstraint HashSet) (fuel : Nat), c.Fits →
    (writeBDConstraint c).length ≤ fuel →
    Encodes (readBDConstraint (readRepDFuel fuel)) (writeBDConstraint c) c.elems
  | .capDAtLeast capd, fuel, hfit, _ => (encodes_u8 0).bind (encodes_capD hfit).bind_pure
  | .repDCompatibleWith repd, fuel, hfit, hfuel => by
    have hrepd := encodes_repDFuel repd fuel hfit (by simp [writeBDConstraint] at hfuel; omega)
    exact (encodes_u8 1).bind hrepd.bind_pure
  | .relDContains reld, fuel, hfit, _ => (encodes_u8 2).bind (encodes_relD hfit).bind_pure

theorem encodes_offsetRepds : ∀ (fields : List (UInt64 × RepD HashSet)) (fuel : Nat),
    FieldsFit fields → (writeOffsetRepds fields).length ≤ fuel →
    Encodes (readTimes (readOffsetRepd (readRepDFuel fuel)) fields.length)
      (writeOffsetRepds fields) (fieldElems fields)
  | [], _, _, _ => .pure []
  | (off, rep) :: fields, fuel, hfit, hfuel => by
    simp only [writeOffsetRepds, List.length_append] at hfuel
    have hrep := encodes_repDFuel rep fuel hfit.1 (by omega)
    have hpair : Encodes (readOffsetRepd (readRepDFuel fuel)) (writeU64 off ++ writeRepD rep)
      (off, rep.elems) := (encodes_u64 off).bind hrep.bind_pure
    exact hpair.bind (encodes_offsetRepds fields fuel hfit.2 (by omega)).bind_pure

theorem encodes_repDs : ∀ (reps : List (RepD HashSet)) (fuel : Nat),
    RepsFit reps → (writeRepDs reps).length ≤ fuel →
    Encodes (readTimes (readRepDFuel fuel) reps.length) (writeRepDs reps) (repElems reps)
  | [], _, _, _ => .pure []
  | rep :: reps, fuel, hfit, hfuel => by
    simp only [writeRepDs, List.length_append] at hfuel
    have hrep := encodes_repDFuel rep fuel hfit.1 (by omega)
    exact hrep.bind (encodes_repDs reps fuel hfit.2 (by omega)).bind_pure

theorem encodes_bdConstraints : ∀ (cs : List (BDConstraint HashSet)) (fuel : Nat),
    ConstraintsFit cs → (writeBDConstraints cs).length ≤ fuel →
    Encodes (readTimes (readBDConstraint (readRepDFuel fuel)) cs.length) (writeBDConstraints cs)
      (constraintElems cs)
  | [], _, _, _ => .pure []
  | c :: cs, fuel, hfit, hfuel => by
    simp only [writeBDConstraints, List.length_append] at hfuel
    have hc := encodes_bdConstraint c fuel hfit.1 (by omega)
    exact hc.bind (encodes_bdConstraints cs fuel hfit.2 (by omega)).bind_pure

end

theorem encodes_repD {rep : RepD HashSet} (h : rep.Fits) :
    Encodes readRepD (writeRepD rep) rep.elems := by
  intro t
  have hfuel : (writeRepD rep).length ≤ (writeRepD rep ++ t).length + 1 := by
    rw [List.length_append]
    omega
  exact encodes_repDFuel rep _ h hfuel t

/-! ## Descriptors -/

structure BD.Fits (bd : BD HashSet) : Prop where
  repd : bd.repd.Fits
  capd : bd.capd.Fits
  reld : bd.reld.Fits

theorem encodes_bd {bd : BD HashSet} (h : bd.Fits) : Encodes readBD (writeBD bd) bd.elems :=
  (encodes_repD h.repd).bind ((encodes_capD h.capd).bind (encodes_relD h.reld).bind_pure)

theorem deserializeBd_eq {bd : BD HashSet} (h : bd.Fits) :
    deserializeBd (serializeBd bd) = .ok bd.elems := by
  have hmagic : (takeBytes BinaryError.io 4).run (magic ++ (writeU32 version ++ writeBD bd)) =
      .ok (magic, writeU32 version ++ writeBD bd) := encodes_takeBytes BinaryError.io magic _
  have hversion : readU32.run (writeU32 version ++ writeBD bd) = .ok (version, writeBD bd) :=
    encodes_u32 version _
  have hbd : readBD.run (writeBD bd) = .ok (bd.elems, []) := by
    have := encodes_bd h []
    rwa [List.append_nil] at this
  rw [deserializeBd, serializeBd, List.append_assoc, hmagic]
  simp [bind, Except.bind, pure, Except.pure, hversion, hbd]

/-- Reading what was written for a descriptor gives the descriptor back and leaves the bytes that
follow, in whatever order its sets were iterated over. -/
theorem readBD_writeBD (bd : BD HashSet) (h : bd.Fits) :
    (∀ t, readBD.run (writeBD bd ++ t) = .ok (bd.elems, t)) ∧
      deserializeBd (serializeBd bd) = .ok bd.elems :=
  ⟨encodes_bd h, deserializeBd_eq h⟩

/-- A struct in a generic in an array, with two capabilities and a condition. -/
def nestedBD : BD HashSet where
  repd := .array (.generic "T" [.capDAtLeast ⟨⟨[.write, .read], by decide⟩, ⟨[], by decide⟩⟩,
    .repDCompatibleWith (.struct [(0, .byte ⟨4, 4⟩), (8, .ptr (.state 3))] 16 8)]) 10
  capd := ⟨⟨[.read, .execute], by decide⟩, ⟨[.inPhase 7], by decide⟩⟩
  reld := ⟨⟨[.liveness, .dependency .dataDep], by decide⟩⟩

theorem nestedBD_fits : nestedBD.Fits := by
  have hname : StringFits "T" := by decide +kernel
  refine ⟨⟨hname, by decide, ⟨by decide, by decide⟩, ?_, trivial⟩, ⟨by decide, by decide⟩, ?_⟩
  · exact ⟨by decide, trivial, trivial, trivial⟩
  · exact (by decide : 2 < 2 ^ 32)

theorem readBD_writeBD_nestedBD :
    nestedBD.Fits ∧ (∀ t, readBD.run (writeBD nestedBD ++ t) = .ok (nestedBD.elems, t)) ∧
      deserializeBd (serializeBd nestedBD) = .ok nestedBD.elems :=
  ⟨nestedBD_fits, readBD_writeBD nestedBD nestedBD_fits⟩

end Vuma.Bd
