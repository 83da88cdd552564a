import Vuma.Ipc.Capability

/-!
# Framed messages

`frame_message` and `deframe_message` of `ipc.rs`: a header of fixed width, the payload, the
capability tokens and a checksum over all of it.
-/

namespace Vuma.Ipc

open Lib Checked

def magic : Vector UInt8 4 := #v[0x56, 0x55, 0x4D, 0x41]

def protocolVersion : UInt16 := 2

def headerSize : Nat := 44

def crc32Size : Nat := 4

def maxPayloadSize : UInt64 := 16 * 1024 * 1024

structure MessageFlags where
  bits : UInt16
  deriving DecidableEq, Repr

def MessageFlags.hasCaps : MessageFlags := ⟨0x0002⟩

def MessageFlags.fromBitsTruncate (v : UInt16) : MessageFlags := ⟨v⟩

/-- `bitor_assign`. -/
def MessageFlags.or (a b : MessageFlags) : MessageFlags := ⟨a.bits ||| b.bits⟩

structure MessageHeader where
  magic : Vector UInt8 4
  version : UInt16
  flags : MessageFlags
  channelId : UInt64
  sequence : UInt64
  typeHash : UInt64
  payloadLen : UInt64
  capCount : UInt32
  deriving DecidableEq

structure EncapsulatedMessage where
  header : MessageHeader
  payload : Bytes
  capabilities : List CapabilityToken
  deriving DecidableEq

/-- One bit of the checksum. -/
def crcBit (crc : UInt32) : UInt32 :=
  if crc &&& 1 ≠ 0 then (crc >>> 1) ^^^ 0xEDB88320 else crc >>> 1

def crc32 (data : Bytes) : UInt32 :=
  ~~~ data.foldl (fun crc byte => crcBit^[8] (crc ^^^ byte.toUInt32)) 0xFFFFFFFF

/-- The flags that `frame_message` writes. -/
def effectiveFlags (msg : EncapsulatedMessage) : MessageFlags :=
  if msg.capabilities.isEmpty then msg.header.flags else msg.header.flags.or .hasCaps

/-- What `frame_message` writes before the checksum. -/
def frameBody (msg : EncapsulatedMessage) : Bytes :=
  magic.toList ++ leBytes 2 protocolVersion.toNat ++ leBytes 2 (effectiveFlags msg).bits.toNat ++
    leBytes 8 msg.header.channelId.toNat ++ leBytes 8 msg.header.sequence.toNat ++
    leBytes 8 msg.header.typeHash.toNat ++ leBytes 8 (UInt64.ofNat msg.payload.length).toNat ++
    leBytes 4 (UInt32.ofNat msg.capabilities.length).toNat ++ msg.payload ++
    msg.capabilities.flatMap CapabilityToken.encode

def frameMessage (msg : EncapsulatedMessage) : Bytes :=
  frameBody msg ++ leBytes 4 (crc32 (frameBody msg)).toNat

inductive FrameError where
  | tooShort
  | badMagic (expected actual : Vector UInt8 4)
  | unsupportedVersion (expected actual : UInt16)
  | payloadTooLarge (declared limit : UInt64)
  | lengthMismatch (expected actual : Nat)
  | crcMismatch (expected actual : UInt32)
  | capabilityDecodeError (msg : String)
  deriving DecidableEq

section

variable (utf8Error : Bytes → String)

/-- The loop over the capability tokens of `deframe_message`. -/
def deframeCaps (data : Bytes) : Nat → Nat → Checked FrameError (List CapabilityToken)
  | 0, _ => pure []
  | n + 1, capOffset => do
    let capSlice ← slice data capOffset (← add capOffset capabilityTokenSize)
    let cap ← mapErr .capabilityDecodeError (CapabilityToken.decode utf8Error capSlice)
    let caps ← deframeCaps data n (← add capOffset capabilityTokenSize)
    pure (cap :: caps)

def deframeMessage (data : Bytes) : Checked FrameError EncapsulatedMessage := do
  if data.length < headerSize + crc32Size then throw .tooShort
  let actualMagic ← toVector 4 (← slice data 0 4)
  if actualMagic ≠ magic then throw (.badMagic magic actualMagic)
  let version := UInt16.ofNat (← leAt 2 data 4 6)
  if version ≠ protocolVersion then throw (.unsupportedVersion protocolVersion version)
  let flags := MessageFlags.fromBitsTruncate (UInt16.ofNat (← leAt 2 data 6 8))
  let channelId := UInt64.ofNat (← leAt 8 data 8 16)
  let sequence := UInt64.ofNat (← leAt 8 data 16 24)
  let typeHash := UInt64.ofNat (← leAt 8 data 24 32)
  let payloadLen := UInt64.ofNat (← leAt 8 data 32 40)
  let capCount := UInt32.ofNat (← leAt 4 data 40 44)
  if payloadLen > maxPayloadSize then throw (.payloadTooLarge payloadLen maxPayloadSize)
  let tooLarge := FrameError.payloadTooLarge payloadLen maxPayloadSize
  let capsSize ← okOr tooLarge (checkedMul capCount.toNat capabilityTokenSize)
  let expectedTotal ← okOr tooLarge (do
    let n ← checkedAdd headerSize payloadLen.toNat
    let n ← checkedAdd n capsSize
    checkedAdd n crc32Size)
  if data.length ≠ expectedTotal then throw (.lengthMismatch expectedTotal data.length)
  let bodyEnd ← sub data.length crc32Size
  let storedCrc := UInt32.ofNat (← leAt 4 data bodyEnd data.length)
  let computedCrc := crc32 (← slice data 0 bodyEnd)
  if storedCrc ≠ computedCrc then throw (.crcMismatch storedCrc computedCrc)
  let payloadEnd ← add headerSize payloadLen.toNat
  let payload ← slice data headerSize payloadEnd
  let capabilities ← deframeCaps utf8Error data capCount.toNat payloadEnd
  pure
    { header :=
        { magic := actualMagic
          version, flags, channelId, sequence, typeHash, payloadLen, capCount }
      payload
      capabilities }

end

end Vuma.Ipc
