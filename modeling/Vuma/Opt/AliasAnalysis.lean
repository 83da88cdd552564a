import Vuma.IR.Syntax

/-!
# Alias classes

`alias_analysis.rs` gives each register a class from one pass over the instructions in layout order:
an allocation has a class of its own, pointer arithmetic and casts inherit, and a loaded pointer has
the class of the type it was loaded with.
-/

namespace Vuma.Opt

open IR

inductive AliasClass where
  | any | u8 | u32 | u64
  | unique (id : VReg)
  deriving DecidableEq, Repr

def AliasClass.mayAlias : AliasClass → AliasClass → Bool
  | .any, _ | _, .any => true
  | .unique a, .unique b => a == b
  | .unique _, _ | _, .unique _ => true
  | a, b => a == b

/-- The classes found so far. -/
abbrev AliasClasses := VReg → Option AliasClass

/-- A result that inherits the class of an operand, if both are registers and the operand has one. -/
def AliasClasses.inherit (classes : AliasClasses) (dst src : IRValue) : AliasClasses :=
  match dst, src with
  | .register d, .register s =>
    match classes s with
    | some c => Function.update classes d (some c)
    | none => classes
  | _, _ => classes

/-- The class of a loaded pointer. -/
def loadClass : IRType → AliasClass
  | .u8 => .u8
  | .u32 => .u32
  | .u64 => .u64
  | _ => .any

/-- The class of a phi: the classes of its operands, joined from the left. -/
def phiClass (classes : AliasClasses) (incoming : List (IRValue × String)) : AliasClass :=
  incoming.foldl (fun combined e =>
    match e.1.asRegister.bind classes with
    | some c =>
      if combined = .any then c else if combined.mayAlias c then .any else c
    | none => combined) .any

/-- One instruction of `AliasAnalysis::analyze`. -/
def AliasClasses.add (classes : AliasClasses) : IRInstr → AliasClasses
  | .alloc (.register d) _ => Function.update classes d (some (.unique d))
  | .binOp _ dst lhs _ _ => classes.inherit dst lhs
  | .load (.register d) _ _ ty => Function.update classes d (some (loadClass ty))
  | .offset dst base _ => classes.inherit dst base
  | .cast _ dst src _ _ => classes.inherit dst src
  | .phi (.register d) incoming => Function.update classes d (some (phiClass classes incoming))
  | _ => classes

/-- `AliasAnalysis::analyze`. -/
def analyzeAliases (f : IRFunction) : AliasClasses :=
  (f.blocks.flatMap (·.instructions)).foldl AliasClasses.add (fun _ => none)

def AliasClasses.valuesMayAlias (classes : AliasClasses) : IRValue → IRValue → Bool
  | .register a, .register b => ((classes a).getD .any).mayAlias ((classes b).getD .any)
  | _, _ => true

end Vuma.Opt
