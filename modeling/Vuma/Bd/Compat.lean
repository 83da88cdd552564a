import Vuma.Bd.Descriptor

/-!
# Equality, compatibility and refinement of descriptors

`==`, `RepD::size`, `RepD::alignment`, `RepD::compatible`, `RepD::subsumes`,
`generic_satisfies_constraints`, the lattice operations of `CapD` and `RelD`, and `BD::compatible`
and `BD::refines`. Sizes are `u64` and wrap around.
-/

namespace Vuma.Bd

/-! ## Equality -/

instance : DecidableEq (CapD Finset) := fun a b =>
  decidable_of_iff (a.caps = b.caps ∧ a.conditions = b.conditions) (by
    cases a
    cases b
    simp)

instance : DecidableEq (RelD Finset) := fun a b =>
  decidable_of_iff (a.relations = b.relations) (by
    cases a
    cases b
    simp)

mutual

def RepD.beq : RepD Finset → RepD Finset → Bool
  | .byte b, .byte b' => b = b'
  | .struct fields totalSize align, .struct fields' totalSize' align' =>
    beqFields fields fields' && totalSize = totalSize' && align = align'
  | .array element count, .array element' count' => element.beq element' && count = count'
  | .enum variants, .enum variants' => beqFields variants variants'
  | .ptr pointee, .ptr pointee' => pointee.beq pointee'
  | .union alternatives maxSize maxAlign, .union alternatives' maxSize' maxAlign' =>
    beqReps alternatives alternatives' && maxSize = maxSize' && maxAlign = maxAlign'
  | .func params result, .func params' result' => beqReps params params' && result.beq result'
  | .manifoldSpatial m, .manifoldSpatial m' => m = m'
  | .gestaltSuperposition g, .gestaltSuperposition g' => g = g'
  | .conceptRelational c, .conceptRelational c' => c = c'
  | .generic name constraints, .generic name' constraints' =>
    name = name' && beqConstraints constraints constraints'
  | .state layout, .state layout' => layout = layout'
  | .ref layout field, .ref layout' field' => layout = layout' && field = field'
  | .dependentArray elem countVar, .dependentArray elem' countVar' =>
    elem.beq elem' && countVar = countVar'
  | _, _ => false

def BDConstraint.beq : BDConstraint Finset → BDConstraint Finset → Bool
  | .capDAtLeast capd, .capDAtLeast capd' => capd = capd'
  | .repDCompatibleWith repd, .repDCompatibleWith repd' => repd.beq repd'
  | .relDContains reld, .relDContains reld' => reld = reld'
  | _, _ => false

def beqFields : List (UInt64 × RepD Finset) → List (UInt64 × RepD Finset) → Bool
  | [], [] => true
  | (off, rep) :: fields, (off', rep') :: fields' =>
    off = off' && rep.beq rep' && beqFields fields fields'
  | _, _ => false

def beqReps : List (RepD Finset) → List (RepD Finset) → Bool
  | [], [] => true
  | rep :: reps, rep' :: reps' => rep.beq rep' && beqReps reps reps'
  | _, _ => false

def beqConstraints : List (BDConstraint Finset) → List (BDConstraint Finset) → Bool
  | [], [] => true
  | c :: cs, c' :: cs' => c.beq c' && beqConstraints cs cs'
  | _, _ => false

end

mutual

theorem RepD.beq_iff : ∀ r r' : RepD Finset, r.beq r' = true ↔ r = r'
  | .byte _, r' => by cases r' <;> simp [RepD.beq]
  | .struct fields _ _, r' => by cases r' <;> simp [RepD.beq, beqFields_iff fields, and_assoc]
  | .array element _, r' => by cases r' <;> simp [RepD.beq, RepD.beq_iff element]
  | .enum variants, r' => by cases r' <;> simp [RepD.beq, beqFields_iff variants]
  | .ptr pointee, r' => by cases r' <;> simp [RepD.beq, RepD.beq_iff pointee]
  | .union alternatives _ _, r' => by
    cases r' <;> simp [RepD.beq, beqReps_iff alternatives, and_assoc]
  | .func params result, r' => by
    cases r' <;> simp [RepD.beq, beqReps_iff params, RepD.beq_iff result]
  | .manifoldSpatial _, r' => by cases r' <;> simp [RepD.beq]
  | .gestaltSuperposition _, r' => by cases r' <;> simp [RepD.beq]
  | .conceptRelational _, r' => by cases r' <;> simp [RepD.beq]
  | .generic _ constraints, r' => by cases r' <;> simp [RepD.beq, beqConstraints_iff constraints]
  | .state _, r' => by cases r' <;> simp [RepD.beq]
  | .ref _ _, r' => by cases r' <;> simp [RepD.beq]
  | .dependentArray elem _, r' => by cases r' <;> simp [RepD.beq, RepD.beq_iff elem]

theorem BDConstraint.beq_iff : ∀ c c' : BDConstraint Finset, c.beq c' = true ↔ c = c'
  | .capDAtLeast _, c' => by cases c' <;> simp [BDConstraint.beq]
  | .repDCompatibleWith repd, c' => by cases c' <;> simp [BDConstraint.beq, RepD.beq_iff repd]
  | .relDContains _, c' => by cases c' <;> simp [BDConstraint.beq]

theorem beqFields_iff : ∀ fs fs' : List (UInt64 × RepD Finset), beqFields fs fs' = true ↔ fs = fs'
  | [], fs' => by cases fs' <;> simp [beqFields]
  | (_, rep) :: fs, fs' => by
    cases fs' with
    | nil => simp [beqFields]
    | cons f' fs' =>
      obtain ⟨_, _⟩ := f'
      simp [beqFields, RepD.beq_iff rep, beqFields_iff fs]

theorem beqReps_iff : ∀ rs rs' : List (RepD Finset), beqReps rs rs' = true ↔ rs = rs'
  | [], rs' => by cases rs' <;> simp [beqReps]
  | rep :: rs, rs' => by cases rs' <;> simp [beqReps, RepD.beq_iff rep, beqReps_iff rs]

theorem beqConstraints_iff : ∀ cs cs' : List (BDConstraint Finset),
    beqConstraints cs cs' = true ↔ cs = cs'
  | [], cs' => by cases cs' <;> simp [beqConstraints]
  | c :: cs, cs' => by
    cases cs' <;> simp [beqConstraints, BDConstraint.beq_iff c, beqConstraints_iff cs]

end

instance : DecidableEq (RepD Finset) := fun r r' => decidable_of_iff _ (RepD.beq_iff r r')

instance : DecidableEq (BD Finset) := fun a b =>
  decidable_of_iff (a.repd = b.repd ∧ a.capd = b.capd ∧ a.reld = b.reld) (by
    cases a
    cases b
    simp)

/-! ## Sizes and alignments -/

def pointerSize : UInt64 := 8

/-- `align_to`; `div_ceil` of the standard library rounds the quotient up. -/
def alignTo (val align : UInt64) : UInt64 :=
  (val / align + if val % align = 0 then 0 else 1) * align

mutual

def RepD.size : RepD Finset → UInt64
  | .byte b => b.size
  | .struct _ totalSize _ => totalSize
  | .array element count => element.size * count
  | .enum variants => 8 + alignTo (maxSizes variants) 8
  | .ptr _ => pointerSize
  | .union _ maxSize _ => maxSize
  | .func _ _ => pointerSize
  | .generic _ _ => 0
  | .manifoldSpatial m => m.totalBytes
  | .gestaltSuperposition g => g.maxSize
  | .conceptRelational c => c.totalSize
  | .state _ => 0
  | .ref _ _ => pointerSize
  | .dependentArray _ _ => 0

/-- The greatest size of a variant, or zero. -/
def maxSizes : List (UInt64 × RepD Finset) → UInt64
  | [] => 0
  | (_, rep) :: variants => max rep.size (maxSizes variants)

end

def RepD.alignment : RepD Finset → UInt64
  | .byte b => b.align
  | .struct _ _ align => align
  | .array element _ => element.alignment
  | .enum _ => 8
  | .ptr _ => pointerSize
  | .union _ _ maxAlign => maxAlign
  | .func _ _ => pointerSize
  | .generic _ _ => 1
  | .manifoldSpatial m => max m.elementSize 8
  | .gestaltSuperposition g => g.maxAlign
  | .conceptRelational c => max c.align 1
  | .state _ => 1
  | .ref _ _ => pointerSize
  | .dependentArray elem _ => elem.alignment

theorem toNat_max (a b : UInt64) : (max a b).toNat = max a.toNat b.toNat := by
  change (if a ≤ b then b else a).toNat = _
  split
  · next h =>
    rw [UInt64.le_iff_toNat_le] at h
    omega
  · next h =>
    rw [UInt64.le_iff_toNat_le] at h
    omega

/-! ## Compatibility and subsumption -/

mutual

def RepD.compatible (r r' : RepD Finset) : Bool :=
  match r, r' with
  | .generic _ constraints, r' => genericSatisfiesConstraints constraints r'
  | r, .generic _ constraints => genericSatisfiesConstraints constraints r
  | r, r' =>
    if r.size ≠ r'.size ∨ r.alignment ≠ r'.alignment then false
    else
      match r, r' with
      | .byte _, _ => true
      | _, .byte _ => true
      | .struct fields _ _, .struct fields' _ _ => compatibleFields fields fields'
      | .array element count, .array element' count' =>
        count = count' && element.compatible element'
      | .enum variants, .enum variants' => compatibleFields variants variants'
      | .ptr pointee, .ptr pointee' => pointee.compatible pointee'
      | .union alternatives _ _, .union alternatives' _ _ =>
        compatibleReps alternatives alternatives'
      | .func params result, .func params' result' =>
        compatibleReps params params' && result.compatible result'
      | _, _ => false
termination_by sizeOf r + sizeOf r'

/-- As many pairs, with equal numbers and compatible representations. -/
def compatibleFields (fs fs' : List (UInt64 × RepD Finset)) : Bool :=
  match fs, fs' with
  | [], [] => true
  | (off, rep) :: fs, (off', rep') :: fs' =>
    off = off' && rep.compatible rep' && compatibleFields fs fs'
  | _, _ => false
termination_by sizeOf fs + sizeOf fs'

def compatibleReps (rs rs' : List (RepD Finset)) : Bool :=
  match rs, rs' with
  | [], [] => true
  | rep :: rs, rep' :: rs' => rep.compatible rep' && compatibleReps rs rs'
  | _, _ => false
termination_by sizeOf rs + sizeOf rs'

/-- `generic_satisfies_constraints`; only constraints on the representation are looked at. -/
def genericSatisfiesConstraints (cs : List (BDConstraint Finset)) (concrete : RepD Finset) : Bool :=
  match cs with
  | [] => true
  | .repDCompatibleWith required :: cs =>
    concrete.compatible required && genericSatisfiesConstraints cs concrete
  | .capDAtLeast _ :: cs => genericSatisfiesConstraints cs concrete
  | .relDContains _ :: cs => genericSatisfiesConstraints cs concrete
termination_by sizeOf cs + sizeOf concrete

end

mutual

def RepD.subsumes (r r' : RepD Finset) : Bool :=
  match r, r' with
  | .byte b, _ => b.size = r'.size && b.align = r'.alignment
  | .generic _ constraints, _ => genericSatisfiesConstraints constraints r'
  | .struct fields _ _, .struct fields' _ _ => subsumesFields fields fields'
  | .array element count, .array element' count' => count = count' && element.subsumes element'
  | .enum variants, .enum variants' => subsumesFields variants variants'
  | .ptr pointee, .ptr pointee' => pointee.subsumes pointee'
  | .union alternatives _ _, .union alternatives' _ _ => subsumesReps alternatives alternatives'
  | .func params result, .func params' result' =>
    subsumesReps params params' && result.subsumes result'
  | _, _ => false

def subsumesFields : List (UInt64 × RepD Finset) → List (UInt64 × RepD Finset) → Bool
  | [], [] => true
  | (off, rep) :: fs, (off', rep') :: fs' =>
    off = off' && rep.subsumes rep' && subsumesFields fs fs'
  | _, _ => false

def subsumesReps : List (RepD Finset) → List (RepD Finset) → Bool
  | [], [] => true
  | rep :: rs, rep' :: rs' => rep.subsumes rep' && subsumesReps rs rs'
  | _, _ => false

end

/-! ## Capabilities and relations -/

def CapD.isSubset (c c' : CapD Finset) : Bool :=
  c.caps ⊆ c'.caps && c'.conditions ⊆ c.conditions

def CapD.meet (c c' : CapD Finset) : CapD Finset :=
  ⟨c.caps ∩ c'.caps, c.conditions ∪ c'.conditions⟩

def RelD.refines (r r' : RelD Finset) : Bool := r'.relations ⊆ r.relations

def RelD.compose (r r' : RelD Finset) : RelD Finset := ⟨r.relations ∪ r'.relations⟩

def RelD.merge (r r' : RelD Finset) : RelD Finset := ⟨r.relations ∩ r'.relations⟩

def RelD.isConsistent (r : RelD Finset) : Bool :=
  let has k := decide (.temporal k ∈ r.relations)
  !(has .outlives && has .succeeds) && !(has .precedes && has .succeeds) &&
    !(has .epochBefore && has .epochAfter)

/-! ## Descriptors -/

def BD.compatible (a b : BD Finset) : Bool :=
  a.repd.compatible b.repd && decide ((a.capd.meet b.capd).caps ≠ ∅) &&
    (a.reld.compose b.reld).isConsistent

def BD.refines (a b : BD Finset) : Bool :=
  a.repd.subsumes b.repd && a.capd.isSubset b.capd && a.reld.refines b.reld

end Vuma.Bd
