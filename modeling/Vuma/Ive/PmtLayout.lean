import Vuma.Lib.HashMap

/-!
# Layouts of states

The layouts that the pipeline gives to the verifier, and the checks of `verification.rs` that compare
them with layouts derived anew from the types of the fields and with the fields that are used.
Offsets and sizes are `u64`s, whose arithmetic wraps around.
-/

namespace Vuma.Ive

open Lib

/-- `PmtFieldSpec`. The three state verifiers have the same structure under the name `FieldInfo`. -/
structure PmtFieldSpec where
  name : String
  offset : UInt64
  size : UInt64
  typeName : String
  deriving DecidableEq, Repr

/-- `PmtLayoutSpec`. The three state verifiers have the same structure under the name
`LayoutInfo`. -/
structure PmtLayoutSpec where
  name : String
  totalSize : UInt64
  fields : List PmtFieldSpec
  deriving DecidableEq, Repr

/-! ## Alignment of types -/

def isWhiteSpace (c : Char) : Bool :=
  let n := c.toNat
  (9 ≤ n && n ≤ 13) || n = 0x20 || n = 0x85 || n = 0xA0 || n = 0x1680 ||
    (0x2000 ≤ n && n ≤ 0x200A) || n = 0x2028 || n = 0x2029 || n = 0x202F || n = 0x205F || n = 0x3000

def trim (s : List Char) : List Char :=
  ((s.dropWhile isWhiteSpace).reverse.dropWhile isWhiteSpace).reverse

/-- The number that some digits stand for, if it fits. -/
def parseDigits (s : List Char) : Option UInt64 :=
  let n := s.foldl (fun n c => 10 * n + (c.toNat - '0'.toNat)) 0
  if s ≠ [] ∧ s.all Char.isDigit ∧ n < 2 ^ 64 then some (.ofNat n) else none

/-- `str::parse::<u64>`. -/
def parseU64 : List Char → Option UInt64
  | '+' :: s => parseDigits s
  | s => parseDigits s

/-- What stands before and after the last of some character, as `rfind` gives it. -/
def splitLast (c : Char) (s : List Char) : Option (List Char × List Char) :=
  match s.reverse.span (· ≠ c) with
  | (_, []) => none
  | (after, _ :: before) => some (before.reverse, after.reverse)

def saturatingMul (a b : UInt64) : UInt64 :=
  if a.toNat * b.toNat < 2 ^ 64 then a * b else .ofNat (2 ^ 64 - 1)

/-- The scalar and pointer types of `type_align_size`. -/
def scalarAlignSize (t : List Char) : UInt64 × UInt64 :=
  if "*".toList.isPrefixOf t || "Ptr<".toList.isPrefixOf t || "RegionPtr<".toList.isPrefixOf t ||
      t = "Channel".toList then (8, 8)
  else if t ∈ ["i8".toList, "u8".toList, "bool".toList] then (1, 1)
  else if t ∈ ["i16".toList, "u16".toList] then (2, 2)
  else if t ∈ ["i32".toList, "u32".toList, "f32".toList] then (4, 4)
  else (8, 8)

/-- `type_align_size`, to a depth of arrays. -/
def typeAlignSizeTo : Nat → List Char → UInt64 × UInt64
  | 0, _ => (8, 8)
  | depth + 1, typeName =>
    let t := trim typeName
    if t.head? = some '[' ∧ t.getLast? = some ']' then
      match splitLast ';' t.tail.dropLast with
      | none => (8, 8)
      | some (elem, count) =>
        match parseU64 (trim count) with
        | none => (8, 8)
        | some count =>
          let (align, size) := typeAlignSizeTo depth (trim elem)
          (align, saturatingMul size count)
    else scalarAlignSize t

/-- `type_align_size`: an array type is longer than the type of its elements. -/
def typeAlignSize (typeName : String) : UInt64 × UInt64 :=
  typeAlignSizeTo (typeName.toList.length + 1) typeName.toList

/-! ## Layouts derived anew -/

/-- An offset is moved up to a multiple of an alignment. -/
def alignUp (offset align : UInt64) : UInt64 :=
  if align > 1 ∧ offset % align ≠ 0 then (offset + align - 1) &&& ~~~(align - 1) else offset

/-- The loop of `rederive_layout`, with the offsets, the end and the largest alignment that it
gives. -/
def rederiveFields : List PmtFieldSpec → UInt64 → UInt64 → List (UInt64 × UInt64) × UInt64 × UInt64
  | [], offset, maxAlign => ([], offset, maxAlign)
  | field :: fields, offset, maxAlign =>
    let align := (typeAlignSize field.typeName).1
    let start := alignUp offset align
    let rest := rederiveFields fields (start + field.size) (max maxAlign align)
    ((start, field.size) :: rest.1, rest.2)

def rederiveLayout (fields : List PmtFieldSpec) : UInt64 × List (UInt64 × UInt64) :=
  let r := rederiveFields fields 0 1
  (alignUp r.2.1 r.2.2, r.1)

/-- The mismatches of one layout. -/
def layoutMismatches (name : String) (spec : PmtLayoutSpec) : List String :=
  let (total, derived) := rederiveLayout spec.fields
  (if total ≠ spec.totalSize then
    [s!"Layout '{name}': total_size mismatch (pipeline={spec.totalSize}, derived={total})"]
  else []) ++
    (derived.zip spec.fields).flatMap fun ((offset, size), field) =>
      (if offset ≠ field.offset then
        [s!"Layout '{name}'.{field.name}: offset mismatch (pipeline={field.offset}, " ++
          s!"derived={offset})"]
      else []) ++
        if size ≠ field.size then
          [s!"Layout '{name}'.{field.name}: size mismatch (pipeline={field.size}, derived={size})"]
        else []

def verifyLayoutConsistency (it : KeyOrder String) (layouts : HashMap String PmtLayoutSpec) :
    List String :=
  (it.order layouts.keys).flatMap fun name =>
    match layouts.lookup name with
    | some spec => layoutMismatches name spec
    | none => []

/-- The mismatches of the fields that are used of one layout. -/
def fieldListMismatches (name : String) (used : List String) (spec : PmtLayoutSpec) :
    List String :=
  let declared := spec.fields.map PmtFieldSpec.name
  (if used.length > spec.fields.length then
    [s!"Layout '{name}': field count mismatch (parser={spec.fields.length}, " ++
      s!"ivederived={used.length}) — IVE-derived references more fields than parser declares"]
  else []) ++
    used.zipIdx.flatMap fun (field, i) =>
      if field ∈ declared then []
      else
        [s!"Layout '{name}'.field[{i}] ('{field}'): referenced in SCG state op but not declared " ++
          s!"in parser-provided layout (parser fields: [" ++ ", ".intercalate declared ++ "])"]

/-- `verify_layout_field_list_consistency`; of the derived layouts it reads the names and the field
names. -/
def verifyLayoutFieldListConsistency (it : KeyOrder String)
    (layouts : HashMap String PmtLayoutSpec) (used : HashMap String (List String)) : List String :=
  (it.order used.keys).flatMap fun name =>
    match layouts.lookup name with
    | none => [s!"Layout '{name}': present in IVE-derived (SCG) but missing from " ++
        "parser-provided layouts"]
    | some spec => fieldListMismatches name ((used.lookup name).getD []) spec

end Vuma.Ive

/-!
# Layouts that pass

A layout that is the same as the one derived anew has disjoint fields inside of it, if its size does
not wrap around.
-/

namespace Vuma.Ive

open Lib

/-! ## Alignment -/

/-- The alignments of types. -/
def alignments : List UInt64 := [1, 2, 4, 8]

/-- The least multiple of an alignment from a number on. -/
def roundUp (n align : Nat) : Nat := (n + align - 1) / align * align

theorem typeAlignSizeTo_mem (depth : Nat) (t : List Char) :
    (typeAlignSizeTo depth t).1 ∈ alignments := by
  have h8 : (8, 8).1 ∈ alignments := by decide
  induction depth generalizing t with
  | zero => exact h8
  | succ depth ih =>
    rw [typeAlignSizeTo]
    dsimp only
    split_ifs
    · cases splitLast ';' (trim t).tail.dropLast with
      | none => exact h8
      | some p =>
        dsimp only
        cases parseU64 (trim p.2) with
        | none => exact h8
        | some count => exact ih (trim p.1)
    · rw [scalarAlignSize]
      split_ifs <;> decide

theorem typeAlignSize_mem (typeName : String) : (typeAlignSize typeName).1 ∈ alignments :=
  typeAlignSizeTo_mem _ _

/-- Clearing the low bits of a word. -/
theorem toNat_and_not (x : UInt64) (k : Nat) :
    (x &&& ~~~(UInt64.ofNat (2 ^ k - 1))).toNat = x.toNat / 2 ^ k * 2 ^ k := by
  have hbits : x.toBitVec &&& ~~~(BitVec.ofNat 64 (2 ^ k - 1)) = (x.toBitVec >>> k) <<< k := by
    refine BitVec.eq_of_getLsbD_eq fun i hi => ?_
    simp only [BitVec.getLsbD_and, BitVec.getLsbD_not, BitVec.getLsbD_ofNat,
      Nat.testBit_two_pow_sub_one, BitVec.getLsbD_shiftLeft, BitVec.getLsbD_ushiftRight]
    by_cases h : i < k
    · simp [h]
    · simp [h, hi, Nat.add_sub_cancel' (Nat.le_of_not_lt h)]
  have hlt : x.toBitVec.toNat / 2 ^ k * 2 ^ k < 2 ^ 64 :=
    Nat.lt_of_le_of_lt (Nat.div_mul_le_self _ _) x.toNat_lt
  have h := congrArg BitVec.toNat hbits
  rw [BitVec.toNat_shiftLeft, BitVec.toNat_ushiftRight, Nat.shiftRight_eq_div_pow,
    Nat.shiftLeft_eq, Nat.mod_eq_of_lt hlt] at h
  exact h

theorem exists_eq_two_pow {align : UInt64} (h : align ∈ alignments) :
    ∃ k < 4, align = .ofNat (2 ^ k) := by
  simp only [alignments, List.mem_cons, List.not_mem_nil, or_false] at h
  rcases h with rfl | rfl | rfl | rfl
  · exact ⟨0, by decide, rfl⟩
  · exact ⟨1, by decide, rfl⟩
  · exact ⟨2, by decide, rfl⟩
  · exact ⟨3, by decide, rfl⟩

/-- An offset that can be moved up is moved up as it should be. -/
theorem toNat_alignUp {offset align : UInt64} (h : align ∈ alignments)
    (hfit : roundUp offset.toNat align.toNat < 2 ^ 64) :
    (alignUp offset align).toNat = roundUp offset.toNat align.toNat := by
  obtain ⟨k, hk, rfl⟩ := exists_eq_two_pow h
  have halign : (UInt64.ofNat (2 ^ k)).toNat = 2 ^ k := by interval_cases k <;> rfl
  have hsub : UInt64.ofNat (2 ^ k) - 1 = .ofNat (2 ^ k - 1) := by interval_cases k <;> rfl
  have hone : UInt64.ofNat (2 ^ k) > 1 ↔ 1 < 2 ^ k := by
    rw [gt_iff_lt, UInt64.lt_iff_toNat_lt, halign]
    rfl
  have hmod : offset % .ofNat (2 ^ k) ≠ 0 ↔ offset.toNat % 2 ^ k ≠ 0 := by
    rw [Ne, ← UInt64.toNat_inj, UInt64.toNat_mod, halign]
    rfl
  have hlt := offset.toNat_lt
  have hadd : (offset + .ofNat (2 ^ k) - 1).toNat = (offset.toNat + 2 ^ k - 1) % 2 ^ 64 := by
    rw [UInt64.toNat_sub, UInt64.toNat_add, halign]
    interval_cases k <;> simp <;> omega
  rw [halign, roundUp] at hfit ⊢
  rw [alignUp]
  simp only [hone, hmod]
  split_ifs with hc
  · rw [hsub, toNat_and_not, hadd]
    interval_cases k <;> omega
  · interval_cases k <;> omega

theorem le_roundUp {n align : Nat} (h : 0 < align) : n ≤ roundUp n align := by
  rw [roundUp]
  have h₁ := Nat.div_add_mod (n + align - 1) align
  have h₂ := Nat.mod_lt (n + align - 1) h
  rw [Nat.mul_comm] at h₁
  omega

theorem toNat_pos_of_mem {align : UInt64} (h : align ∈ alignments) : 0 < align.toNat := by
  simp only [alignments, List.mem_cons, List.not_mem_nil, or_false] at h
  rcases h with rfl | rfl | rfl | rfl <;> decide

/-! ## The size of a layout -/

/-- Where the fields end that start at a number, without wrapping around. -/
def fieldsEnd : List PmtFieldSpec → Nat → Nat
  | [], offset => offset
  | field :: fields, offset =>
    fieldsEnd fields (roundUp offset (typeAlignSize field.typeName).1.toNat + field.size.toNat)

/-- The largest alignment of some fields. -/
def maxAlign (fields : List PmtFieldSpec) : UInt64 :=
  fields.foldl (fun align field => max align (typeAlignSize field.typeName).1) 1

/-- The size of a layout with its padding, without wrapping around. -/
def layoutSize (fields : List PmtFieldSpec) : Nat :=
  roundUp (fieldsEnd fields 0) (maxAlign fields).toNat

theorem le_fieldsEnd (fields : List PmtFieldSpec) (offset : Nat) :
    offset ≤ fieldsEnd fields offset := by
  induction fields generalizing offset with
  | nil => exact Nat.le_refl _
  | cons field fields ih =>
    have hround := le_roundUp (n := offset) (toNat_pos_of_mem (typeAlignSize_mem field.typeName))
    exact (hround.trans (Nat.le_add_right _ _)).trans (ih _)

theorem foldl_max_mem {fields : List PmtFieldSpec} {align : UInt64} (h : align ∈ alignments) :
    fields.foldl (fun align field => max align (typeAlignSize field.typeName).1) align ∈
      alignments := by
  induction fields generalizing align with
  | nil => exact h
  | cons field fields ih =>
    refine ih ?_
    dsimp only
    rw [UInt64.max_def]
    split_ifs
    · exact typeAlignSize_mem field.typeName
    · exact h

theorem maxAlign_mem (fields : List PmtFieldSpec) : maxAlign fields ∈ alignments :=
  foldl_max_mem (by decide)

/-- The ranges of two fields do not overlap. -/
def PmtFieldSpec.Disjoint (f g : PmtFieldSpec) : Prop :=
  f.offset.toNat + f.size.toNat ≤ g.offset.toNat ∨ g.offset.toNat + g.size.toNat ≤ f.offset.toNat

/-- The loop gives every field its place, one after another. -/
theorem rederiveFields_spec {fields : List PmtFieldSpec} {o a : UInt64}
    (hfit : fieldsEnd fields o.toNat < 2 ^ 64)
    (h : (rederiveFields fields o a).1 = fields.map fun f => (f.offset, f.size)) :
    (rederiveFields fields o a).2.1.toNat = fieldsEnd fields o.toNat ∧
      (rederiveFields fields o a).2.2 =
        fields.foldl (fun align field => max align (typeAlignSize field.typeName).1) a ∧
      fields.Pairwise PmtFieldSpec.Disjoint ∧
      ∀ f ∈ fields, o.toNat ≤ f.offset.toNat ∧
        f.offset.toNat + f.size.toNat ≤ fieldsEnd fields o.toNat := by
  induction fields generalizing o a with
  | nil => simp [rederiveFields, fieldsEnd]
  | cons field fields ih =>
    have hmem := typeAlignSize_mem field.typeName
    rw [rederiveFields, List.map_cons, List.cons.injEq] at h
    obtain ⟨hfield, hrest⟩ := h
    have hstart : alignUp o (typeAlignSize field.typeName).1 = field.offset :=
      congrArg Prod.fst hfield
    rw [fieldsEnd] at hfit
    have hle := le_fieldsEnd fields
      (roundUp o.toNat (typeAlignSize field.typeName).1.toNat + field.size.toNat)
    have hround : (alignUp o (typeAlignSize field.typeName).1).toNat = _ :=
      toNat_alignUp hmem (by omega)
    rw [hstart] at hround hrest
    have hend : (field.offset + field.size).toNat =
        roundUp o.toNat (typeAlignSize field.typeName).1.toNat + field.size.toNat := by
      rw [UInt64.toNat_add, hround]
      exact Nat.mod_eq_of_lt (by omega)
    rw [← hend] at hfit hle
    obtain ⟨h₁, h₂, h₃, h₄⟩ := ih hfit hrest
    have hoffset := le_roundUp (n := o.toNat) (toNat_pos_of_mem hmem)
    rw [rederiveFields, fieldsEnd, ← hend]
    dsimp only
    rw [hstart]
    refine ⟨h₁, h₂, List.pairwise_cons.2 ⟨fun g hg => .inl ?_, h₃⟩,
      List.forall_mem_cons.2 ⟨?_, fun g hg => ?_⟩⟩
    · have := (h₄ g hg).1
      omega
    · omega
    · have := h₄ g hg
      omega

theorem length_rederiveFields (fields : List PmtFieldSpec) (offset align : UInt64) :
    (rederiveFields fields offset align).1.length = fields.length := by
  induction fields generalizing offset align with
  | nil => rfl
  | cons field fields ih => simp [rederiveFields, ih]

theorem layoutMismatches_eq_nil_iff {name : String} {spec : PmtLayoutSpec} :
    layoutMismatches name spec = [] ↔ (rederiveLayout spec.fields).1 = spec.totalSize ∧
      (rederiveLayout spec.fields).2 = spec.fields.map fun f => (f.offset, f.size) := by
  rw [layoutMismatches]
  dsimp only
  rw [List.append_eq_nil_iff, List.flatMap_eq_nil_iff]
  refine and_congr (by simp) ?_
  have hlen : (rederiveLayout spec.fields).2.length = spec.fields.length :=
    length_rederiveFields _ _ _
  generalize (rederiveLayout spec.fields).2 = derived at hlen
  generalize spec.fields = fields at hlen
  induction derived generalizing fields with
  | nil =>
    cases fields with
    | nil => simp
    | cons _ _ => simp at hlen
  | cons d derived ih =>
    cases fields with
    | nil => simp at hlen
    | cons f fields =>
      rw [List.zip_cons_cons, List.forall_mem_cons, List.map_cons, List.cons.injEq]
      refine and_congr ?_ (ih fields (by simpa using hlen))
      rw [List.append_eq_nil_iff, Prod.ext_iff]
      simp

theorem fields_of_layoutMismatches_eq_nil {name : String} {spec : PmtLayoutSpec}
    (hfit : layoutSize spec.fields < 2 ^ 64) (h : layoutMismatches name spec = []) :
    spec.fields.Pairwise PmtFieldSpec.Disjoint ∧
      ∀ f ∈ spec.fields, f.offset.toNat + f.size.toNat ≤ spec.totalSize.toNat := by
  obtain ⟨htotal, hfields⟩ := layoutMismatches_eq_nil_iff.1 h
  rw [layoutSize] at hfit
  have hround := le_roundUp (n := fieldsEnd spec.fields 0)
    (toNat_pos_of_mem (maxAlign_mem spec.fields))
  have hend : fieldsEnd spec.fields 0 < 2 ^ 64 := by omega
  obtain ⟨h₁, h₂, h₃, h₄⟩ := rederiveFields_spec (o := 0) (a := 1) hend hfields
  have htotal' : spec.totalSize.toNat = roundUp (fieldsEnd spec.fields 0)
      (maxAlign spec.fields).toNat := by
    rw [← htotal, rederiveLayout]
    dsimp only
    rw [toNat_alignUp, h₁, h₂]
    · rfl
    · rw [h₂]
      exact maxAlign_mem _
    · rw [h₁, h₂]
      exact hfit
  refine ⟨h₃, fun f hf => ?_⟩
  have := (h₄ f hf).2
  rw [htotal']
  exact this.trans hround

theorem verifyLayoutConsistency_eq_nil_iff {it : KeyOrder String}
    {layouts : HashMap String PmtLayoutSpec} :
    verifyLayoutConsistency it layouts = [] ↔
      ∀ name spec, layouts.lookup name = some spec → layoutMismatches name spec = [] := by
  rw [verifyLayoutConsistency, List.flatMap_eq_nil_iff]
  constructor
  · intro h name spec hl
    have := h name ((it.perm _).mem_iff.2 (HashMap.mem_keys_iff.2 (Option.isSome_of_eq_some hl)))
    rwa [hl] at this
  · intro h name hn
    cases hl : layouts.lookup name with
    | none => rfl
    | some spec => exact h name spec hl

end Vuma.Ive
