import Vuma.Bd.Compat
import Vuma.Lib.RoundUp

/-!
# The registry of layouts

`LayoutRegistry` of `repd.rs`: registering a layout places its fields one after the other, each at
the next multiple of its alignment. Sums and products of `u64` wrap around.
-/

namespace Vuma.Bd

structure LayoutField where
  name : String
  fieldId : UInt32
  offset : UInt64
  size : UInt64
  repd : RepD Finset

structure LayoutDef where
  name : String
  fields : List LayoutField
  totalSize : UInt64
  alignment : UInt64

/-- `names` holds the latest entry for a name first. -/
structure LayoutRegistry where
  names : List (String × UInt32)
  layouts : List LayoutDef

/-- The alignment `register` gives a field. -/
def RepD.fieldAlign (repd : RepD Finset) : UInt64 := max repd.alignment 1

/-- The running offset, moved up to an alignment. -/
def bumpOffset (offset align : UInt64) : UInt64 :=
  if align > 1 ∧ offset % align ≠ 0 then alignTo offset align else offset

/-- The loop of `register`: the fields, the last offset and the greatest alignment. -/
def resolveFields : List (String × RepD Finset) → Nat → UInt64 → UInt64 →
    List LayoutField × UInt64 × UInt64
  | [], _, currentOffset, maxAlign => ([], currentOffset, maxAlign)
  | (name, repd) :: fields, index, currentOffset, maxAlign =>
    let offset := bumpOffset currentOffset repd.fieldAlign
    let (resolved, last, align) :=
      resolveFields fields (index + 1) (offset + repd.size) (max maxAlign repd.fieldAlign)
    (⟨name, .ofNat index, offset, repd.size, repd⟩ :: resolved, last, align)

def totalSize (currentOffset alignment : UInt64) : UInt64 :=
  if currentOffset = 0 then 0
  else if currentOffset % alignment = 0 then currentOffset
  else alignTo currentOffset alignment

/-- The layout that `register` stores. -/
def resolveLayout (name : String) (fields : List (String × RepD Finset)) : LayoutDef :=
  let (resolved, currentOffset, maxAlign) := resolveFields fields 0 0 1
  let alignment := max maxAlign 1
  ⟨name, resolved, totalSize currentOffset alignment, alignment⟩

namespace LayoutRegistry

def new : LayoutRegistry := ⟨[], []⟩

/-- `register`: the registry afterwards, and the id. -/
def register (reg : LayoutRegistry) (name : String) (fields : List (String × RepD Finset)) :
    LayoutRegistry × UInt32 :=
  let id := .ofNat reg.layouts.length
  (⟨(name, id) :: reg.names, reg.layouts ++ [resolveLayout name fields]⟩, id)

def get (reg : LayoutRegistry) (id : UInt32) : Option LayoutDef := reg.layouts[id.toNat]?

def stateSize (reg : LayoutRegistry) (id : UInt32) : UInt64 :=
  match reg.get id with
  | some layout => layout.totalSize
  | none => 0

/-- Calls of `register`, one after the other. -/
def registerAll (reg : LayoutRegistry) (calls : List (String × List (String × RepD Finset))) :
    LayoutRegistry :=
  calls.foldl (fun reg call => (reg.register call.1 call.2).1) reg

end LayoutRegistry

end Vuma.Bd
