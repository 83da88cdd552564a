import Vuma.Bd.RoundTrip
import Vuma.Lib.Checked

/-!
# Capability tokens on the wire

The records of the module `capability` of `ipc.rs` and their fixed-width encodings. A decoder slices
bytes that nobody has checked, so it is written with slices that may panic; `utf8Error` is the text
of the error of `str::from_utf8`.
-/

namespace Vuma.Ipc

open Lib Checked
open Vuma.Bd (asBytes fromUTF8_asBytes)

inductive Resource where
  | file (path : String)
  | network (host : String) (port : UInt16)
  | memory (base size : UInt64)
  | mmio (base size : UInt64)
  | channel (id : UInt64)
  deriving DecidableEq, Repr

structure MemoryPermissions where
  read : Bool
  write : Bool
  execute : Bool
  deriving DecidableEq, Repr

structure CapabilityToken where
  id : BitVec 128
  sourcePid : UInt64
  targetPid : UInt64
  resource : Resource
  permissions : MemoryPermissions
  delegationDepth : UInt8
  createdAt : UInt64
  expiresAt : UInt64
  signature : Vector UInt8 32
  deriving DecidableEq

def capabilityTokenSize : Nat := 160

def resourceOffset : Nat := 84

def resourceFieldSize : Nat := 76

def maxResourceString : Nat := 64

def networkPortOffset : Nat := 66

/-- The tag, the length and the bytes of a string that is cut off after `MAX_RESOURCE_STRING`
bytes. -/
def encodeString (tag : UInt8) (s : String) : Bytes :=
  let len := min (asBytes s).length maxResourceString
  [tag, UInt8.ofNat len] ++ (asBytes s).take len

/-- `Resource::encode`: what is written into a buffer of zeros, field by field. -/
def Resource.encode : Resource → Bytes
  | .file s => padTo resourceFieldSize (encodeString 1 s)
  | .network s port =>
    padTo resourceFieldSize (padTo networkPortOffset (encodeString 2 s) ++ leBytes 2 port.toNat)
  | .memory base size =>
    padTo resourceFieldSize ([3] ++ leBytes 8 base.toNat ++ leBytes 8 size.toNat)
  | .mmio base size =>
    padTo resourceFieldSize ([4] ++ leBytes 8 base.toNat ++ leBytes 8 size.toNat)
  | .channel id => padTo resourceFieldSize ([5] ++ leBytes 8 id.toNat)

/-- `if b { 1 } else { 0 }`. -/
def flagByte (b : Bool) : UInt8 := if b then 1 else 0

def CapabilityToken.encode (t : CapabilityToken) : Bytes :=
  (padTo capabilityTokenSize
    (leBytes 16 t.id.toNat ++ leBytes 8 t.sourcePid.toNat ++ leBytes 8 t.targetPid.toNat ++
      leBytes 8 t.createdAt.toNat ++ leBytes 8 t.expiresAt.toNat ++ t.signature.toList ++
      [t.delegationDepth, flagByte t.permissions.read, flagByte t.permissions.write,
        flagByte t.permissions.execute] ++ t.resource.encode)).take capabilityTokenSize

section

variable (utf8Error : Bytes → String)

/-- The string at the front of a resource field; `what` and `kind` name it in the errors. -/
def decodeString (what kind : String) (bytes : Bytes) : Checked String String := do
  let len := (← byteAt bytes 1).toNat
  if len > maxResourceString then
    throw s!"{what} length {len} exceeds {maxResourceString}"
  else
    let s ← slice bytes 2 (2 + len)
    match String.fromUTF8? ⟨s.toArray⟩ with
    | some s => pure s
    | none => throw s!"invalid utf-8 in {kind} resource: {utf8Error s}"

def Resource.decode (bytes : Bytes) : Checked String Resource := do
  if bytes.length < resourceFieldSize then
    throw s!"resource field too short: {bytes.length} < {resourceFieldSize}"
  else
    let tag ← byteAt bytes 0
    match tag.toNat with
    | 1 =>
      let s ← decodeString utf8Error "file string" "File" bytes
      pure (.file s)
    | 2 =>
      let s ← decodeString utf8Error "network host" "Network" bytes
      let port ← leAt 2 bytes networkPortOffset (networkPortOffset + 2)
      pure (.network s (UInt16.ofNat port))
    | 3 =>
      let base ← leAt 8 bytes 1 9
      let size ← leAt 8 bytes 9 17
      pure (.memory (UInt64.ofNat base) (UInt64.ofNat size))
    | 4 =>
      let base ← leAt 8 bytes 1 9
      let size ← leAt 8 bytes 9 17
      pure (.mmio (UInt64.ofNat base) (UInt64.ofNat size))
    | 5 =>
      let id ← leAt 8 bytes 1 9
      pure (.channel (UInt64.ofNat id))
    | other => throw s!"unknown resource tag: {other}"

def CapabilityToken.decode (bytes : Bytes) : Checked String CapabilityToken := do
  if bytes.length < capabilityTokenSize then
    throw s!"token too short: {bytes.length} < {capabilityTokenSize}"
  else
    let field ← slice bytes resourceOffset (resourceOffset + resourceFieldSize)
    let resource ← Resource.decode utf8Error field
    let id ← leAt 16 bytes 0 16
    let sourcePid ← leAt 8 bytes 16 24
    let targetPid ← leAt 8 bytes 24 32
    let createdAt ← leAt 8 bytes 32 40
    let expiresAt ← leAt 8 bytes 40 48
    let signature ← toVector 32 (← slice bytes 48 80)
    let delegationDepth ← byteAt bytes 80
    let read ← byteAt bytes 81
    let write ← byteAt bytes 82
    let execute ← byteAt bytes 83
    pure
      { id := BitVec.ofNat 128 id
        sourcePid := UInt64.ofNat sourcePid
        targetPid := UInt64.ofNat targetPid
        resource
        permissions := ⟨read != 0, write != 0, execute != 0⟩
        delegationDepth
        createdAt := UInt64.ofNat createdAt
        expiresAt := UInt64.ofNat expiresAt
        signature }

end

end Vuma.Ipc
