import Vuma.Ipc.Frame

/-!
# Framing and deframing

Deframing a framed message gives the message back, with the fields of the header that framing
writes itself; and deframing never panics, whatever the bytes are.
-/

namespace Vuma.Ipc

open Lib Checked
open Vuma.Bd (asBytes fromUTF8_asBytes)

/-! ## Resources -/

/-- The string of a resource is not cut off. -/
def Resource.Fits : Resource → Prop
  | .file s | .network s _ => (asBytes s).length ≤ maxResourceString
  | _ => True

theorem length_encodeString (tag : UInt8) (s : String) :
    (encodeString tag s).length ≤ networkPortOffset := by
  simp only [encodeString, List.length_append, List.length_cons, List.length_nil, List.length_take,
    maxResourceString, networkPortOffset]
  omega

theorem Resource.length_encode (r : Resource) : r.encode.length = resourceFieldSize := by
  cases r with
  | file s =>
    refine length_padTo ((length_encodeString 1 s).trans ?_)
    decide
  | network s port =>
    refine length_padTo ?_
    rw [List.length_append, length_padTo (length_encodeString 2 s), length_leBytes]
    decide
  | memory | mmio | channel =>
    refine length_padTo ?_
    simp [length_leBytes, resourceFieldSize]

theorem encodeString_eq {s : String} (h : (asBytes s).length ≤ maxResourceString) (tag : UInt8) :
    encodeString tag s = tag :: UInt8.ofNat (asBytes s).length :: asBytes s := by
  simp only [encodeString, min_eq_left h, List.take_length]
  rfl

section

variable {utf8Error : Bytes → String}

theorem decodeString_eq {s : String} (h : (asBytes s).length ≤ maxResourceString)
    (what kind : String) {bytes rest : Bytes} {tag : UInt8}
    (a₀ : At bytes 0 (encodeString tag s ++ rest)) :
    decodeString utf8Error what kind bytes = pure s := by
  rw [encodeString_eq h] at a₀
  have hlen : (UInt8.ofNat (asBytes s).length).toNat = (asBytes s).length := by
    rw [UInt8.toNat_ofNat']
    have : maxResourceString = 64 := rfl
    omega
  have a₁ : At bytes 1 ([UInt8.ofNat (asBytes s).length] ++ (asBytes s ++ rest)) :=
    At.next (b := [tag]) a₀ rfl
  have a₂ : At bytes 2 (asBytes s ++ rest) := a₁.next rfl
  simp only [decodeString, a₁.byte, pure_bind, hlen, if_neg (Nat.not_lt.mpr h), a₂.slice rfl,
    fromUTF8_asBytes]

section

variable {bytes rest : Bytes} (hlen : bytes.length = resourceFieldSize)

include hlen

theorem Resource.decode_file {s : String} (h : (asBytes s).length ≤ maxResourceString)
    (a₀ : At bytes 0 (encodeString 1 s ++ rest)) :
    Resource.decode utf8Error bytes = pure (.file s) := by
  have htag : byteAt (ε := String) bytes 0 = pure 1 := At.byte (c := _ :: (_ ++ _)) a₀
  rw [Resource.decode, if_neg (by omega), htag, pure_bind]
  exact congrArg (· >>= _) (decodeString_eq h "file string" "File" a₀)

theorem Resource.decode_network {s : String} (h : (asBytes s).length ≤ maxResourceString)
    {port : UInt16}
    (a₀ : At bytes 0 (padTo networkPortOffset (encodeString 2 s) ++ (leBytes 2 port.toNat ++ rest))) :
    Resource.decode utf8Error bytes = pure (.network s port) := by
  have hport : At bytes networkPortOffset (leBytes 2 port.toNat ++ rest) :=
    a₀.next (by rw [length_padTo (length_encodeString 2 s), Nat.zero_add])
  rw [padTo, List.append_assoc] at a₀
  have htag : byteAt (ε := String) bytes 0 = pure 2 := At.byte (c := _ :: (_ ++ _)) a₀
  have hstring : decodeString utf8Error "network host" "Network" bytes = pure s :=
    decodeString_eq h _ _ a₀
  have hle : leAt (ε := String) 2 bytes networkPortOffset (networkPortOffset + 2) =
      pure port.toNat := hport.le_eq rfl port.toNat_lt
  rw [Resource.decode, if_neg (by omega), htag, pure_bind]
  simp only [UInt8.reduceToNat, hstring, hle, pure_bind, UInt16.ofNat_toNat]

theorem Resource.decode_memory {base size : UInt64}
    (a₀ : At bytes 0 ([3] ++ (leBytes 8 base.toNat ++ (leBytes 8 size.toNat ++ rest)))) :
    Resource.decode utf8Error bytes = pure (.memory base size) := by
  have a₁ : At bytes 1 _ := a₀.next rfl
  have a₂ : At bytes 9 _ := a₁.next (by rw [length_leBytes])
  have hbase : leAt (ε := String) 8 bytes 1 9 = pure base.toNat := a₁.le_eq rfl base.toNat_lt
  have hsize : leAt (ε := String) 8 bytes 9 17 = pure size.toNat := a₂.le_eq rfl size.toNat_lt
  rw [Resource.decode, if_neg (by omega), At.byte a₀, pure_bind]
  simp only [UInt8.reduceToNat, hbase, hsize, pure_bind, UInt64.ofNat_toNat]

theorem Resource.decode_mmio {base size : UInt64}
    (a₀ : At bytes 0 ([4] ++ (leBytes 8 base.toNat ++ (leBytes 8 size.toNat ++ rest)))) :
    Resource.decode utf8Error bytes = pure (.mmio base size) := by
  have a₁ : At bytes 1 _ := a₀.next rfl
  have a₂ : At bytes 9 _ := a₁.next (by rw [length_leBytes])
  have hbase : leAt (ε := String) 8 bytes 1 9 = pure base.toNat := a₁.le_eq rfl base.toNat_lt
  have hsize : leAt (ε := String) 8 bytes 9 17 = pure size.toNat := a₂.le_eq rfl size.toNat_lt
  rw [Resource.decode, if_neg (by omega), At.byte a₀, pure_bind]
  simp only [UInt8.reduceToNat, hbase, hsize, pure_bind, UInt64.ofNat_toNat]

theorem Resource.decode_channel {id : UInt64}
    (a₀ : At bytes 0 ([5] ++ (leBytes 8 id.toNat ++ rest))) :
    Resource.decode utf8Error bytes = pure (.channel id) := by
  have a₁ : At bytes 1 _ := a₀.next rfl
  have hid : leAt (ε := String) 8 bytes 1 9 = pure id.toNat := a₁.le_eq rfl id.toNat_lt
  rw [Resource.decode, if_neg (by omega), At.byte a₀, pure_bind]
  simp only [UInt8.reduceToNat, hid, pure_bind, UInt64.ofNat_toNat]

end

/-- Decoding an encoded resource gives the resource. -/
theorem Resource.decode_encode {r : Resource} (h : r.Fits) :
    Resource.decode utf8Error r.encode = pure r := by
  have hlen := r.length_encode
  cases r with
  | file s => exact decode_file hlen h (.zero _)
  | network s port =>
    exact decode_network hlen h (.of_eq (by rw [encode, padTo, List.append_assoc]))
  | memory base size =>
    exact decode_memory hlen (.of_eq (by
      rw [encode, padTo, List.append_assoc, List.append_assoc]))
  | mmio base size =>
    exact decode_mmio hlen (.of_eq (by
      rw [encode, padTo, List.append_assoc, List.append_assoc]))
  | channel id =>
    exact decode_channel hlen (.of_eq (by rw [encode, padTo, List.append_assoc]))

/-! ## Tokens -/

/-- The fields of an encoded token; there is nothing to pad or to cut off. -/
theorem CapabilityToken.encode_eq (t : CapabilityToken) :
    t.encode = leBytes 16 t.id.toNat ++ (leBytes 8 t.sourcePid.toNat ++
      (leBytes 8 t.targetPid.toNat ++ (leBytes 8 t.createdAt.toNat ++
      (leBytes 8 t.expiresAt.toNat ++ (t.signature.toList ++ ([t.delegationDepth] ++
      ([flagByte t.permissions.read] ++ ([flagByte t.permissions.write] ++
      ([flagByte t.permissions.execute] ++ t.resource.encode))))))))) := by
  have hlen := t.resource.length_encode
  rw [encode, padTo, List.take_append_of_le_length]
  · simp only [List.append_assoc, List.cons_append, List.nil_append]
    refine List.take_of_length_le ?_
    simp [length_leBytes, hlen, resourceFieldSize, capabilityTokenSize]
  · simp [length_leBytes, hlen, resourceFieldSize, capabilityTokenSize]

theorem CapabilityToken.length_encode (t : CapabilityToken) :
    t.encode.length = capabilityTokenSize := by
  rw [encode_eq]
  simp [length_leBytes, t.resource.length_encode, resourceFieldSize, capabilityTokenSize]

theorem flagByte_ne_zero (b : Bool) : (flagByte b != 0) = b := by cases b <;> rfl

theorem CapabilityToken.decode_encode {t : CapabilityToken} (h : t.resource.Fits) :
    CapabilityToken.decode utf8Error t.encode = pure t := by
  have hlen := t.length_encode
  have a₀ : At t.encode 0 _ := .of_eq t.encode_eq
  have a₁ : At t.encode 16 _ := a₀.next (by rw [length_leBytes])
  have a₂ : At t.encode 24 _ := a₁.next (by rw [length_leBytes])
  have a₃ : At t.encode 32 _ := a₂.next (by rw [length_leBytes])
  have a₄ : At t.encode 40 _ := a₃.next (by rw [length_leBytes])
  have a₅ : At t.encode 48 _ := a₄.next (by rw [length_leBytes])
  have a₆ : At t.encode 80 _ := a₅.next (by rw [Vector.length_toList])
  have a₇ : At t.encode 81 _ := a₆.next rfl
  have a₈ : At t.encode 82 _ := a₇.next rfl
  have a₉ : At t.encode 83 _ := a₈.next rfl
  have ar : At t.encode resourceOffset (t.resource.encode ++ []) := by
    rw [List.append_nil]
    exact a₉.next rfl
  have hid : leAt (ε := String) 16 t.encode 0 16 = pure t.id.toNat :=
    a₀.le_eq rfl (t.id.isLt.trans_eq (by norm_num))
  have hsource : leAt (ε := String) 8 t.encode 16 24 = pure t.sourcePid.toNat :=
    a₁.le_eq rfl t.sourcePid.toNat_lt
  have htarget : leAt (ε := String) 8 t.encode 24 32 = pure t.targetPid.toNat :=
    a₂.le_eq rfl t.targetPid.toNat_lt
  have hcreated : leAt (ε := String) 8 t.encode 32 40 = pure t.createdAt.toNat :=
    a₃.le_eq rfl t.createdAt.toNat_lt
  have hexpires : leAt (ε := String) 8 t.encode 40 48 = pure t.expiresAt.toNat :=
    a₄.le_eq rfl t.expiresAt.toNat_lt
  have hsig : slice (ε := String) t.encode 48 80 = pure t.signature.toList :=
    a₅.slice (by rw [Vector.length_toList])
  have hres : slice (ε := String) t.encode resourceOffset (resourceOffset + resourceFieldSize) =
      pure t.resource.encode := ar.slice (by rw [t.resource.length_encode])
  rw [CapabilityToken.decode, if_neg (by omega)]
  simp only [hres, Resource.decode_encode h, hid, hsource, htarget, hcreated, hexpires, hsig,
    toVector_toList, a₆.byte, a₇.byte, a₈.byte, a₉.byte, pure_bind, flagByte_ne_zero,
    UInt64.ofNat_toNat, BitVec.ofNat_toNat, BitVec.setWidth_eq]

/-! ## Messages -/

/-- The message with the fields of the header that framing writes itself. -/
def EncapsulatedMessage.normalised (msg : EncapsulatedMessage) : EncapsulatedMessage :=
  { msg with
    header :=
      { msg.header with
        magic := magic
        version := protocolVersion
        flags := effectiveFlags msg
        payloadLen := UInt64.ofNat msg.payload.length
        capCount := UInt32.ofNat msg.capabilities.length } }

theorem deframeCaps_eq {caps : List CapabilityToken} (h : ∀ c ∈ caps, c.resource.Fits)
    {data rest : Bytes} {lo : Nat} (ha : At data lo (caps.flatMap CapabilityToken.encode ++ rest))
    (hdata : data.length < usizeBound) :
    deframeCaps utf8Error data caps.length lo = pure caps := by
  induction caps generalizing lo with
  | nil => rfl
  | cons c caps ih =>
    rw [List.flatMap_cons, List.append_assoc] at ha
    have hlen := ha.length
    rw [List.length_append, c.length_encode] at hlen
    have hnext : At data (lo + capabilityTokenSize) (caps.flatMap CapabilityToken.encode ++ rest) :=
      ha.next (by rw [c.length_encode])
    have hadd : Checked.add (ε := FrameError) lo capabilityTokenSize =
        pure (lo + capabilityTokenSize) := if_pos (by omega)
    have hslice : slice (ε := FrameError) data lo (lo + capabilityTokenSize) = pure c.encode :=
      ha.slice (by rw [c.length_encode])
    have hcap : mapErr FrameError.capabilityDecodeError (CapabilityToken.decode utf8Error c.encode) =
        pure c := by
      rw [CapabilityToken.decode_encode (h c (List.mem_cons_self ..))]
      rfl
    have htail := ih (fun c' hc' => h c' (List.mem_cons_of_mem _ hc')) hnext
    simp only [List.length_cons, deframeCaps, hadd, hslice, hcap, htail, pure_bind]

theorem frameMessage_eq (msg : EncapsulatedMessage) :
    frameMessage msg = magic.toList ++ (leBytes 2 protocolVersion.toNat ++
      (leBytes 2 (effectiveFlags msg).bits.toNat ++ (leBytes 8 msg.header.channelId.toNat ++
      (leBytes 8 msg.header.sequence.toNat ++ (leBytes 8 msg.header.typeHash.toNat ++
      (leBytes 8 (UInt64.ofNat msg.payload.length).toNat ++
      (leBytes 4 (UInt32.ofNat msg.capabilities.length).toNat ++ (msg.payload ++
      (msg.capabilities.flatMap CapabilityToken.encode ++
      leBytes 4 (crc32 (frameBody msg)).toNat))))))))) := by
  rw [frameMessage]
  generalize crc32 (frameBody msg) = crc
  simp only [frameBody, List.append_assoc]

theorem length_caps (caps : List CapabilityToken) :
    (caps.flatMap CapabilityToken.encode).length = caps.length * capabilityTokenSize := by
  induction caps with
  | nil => rfl
  | cons c caps ih =>
    rw [List.flatMap_cons, List.length_append, c.length_encode, ih, List.length_cons, Nat.succ_mul,
      Nat.add_comm]

theorem length_frameBody (msg : EncapsulatedMessage) :
    (frameBody msg).length =
      headerSize + msg.payload.length + msg.capabilities.length * capabilityTokenSize := by
  simp only [frameBody, List.length_append, length_leBytes, Vector.length_toList, length_caps,
    headerSize]

/-- Deframing a framed message gives the message, normalised. -/
theorem deframeMessage_frameMessage {msg : EncapsulatedMessage}
    (hpayload : msg.payload.length ≤ maxPayloadSize.toNat)
    (hcaps : msg.capabilities.length < 2 ^ 32)
    (hfits : ∀ c ∈ msg.capabilities, c.resource.Fits) :
    deframeMessage utf8Error (frameMessage msg) = pure msg.normalised := by
  have hbody := length_frameBody msg
  have hlen : (frameMessage msg).length = (frameBody msg).length + 4 := by
    rw [frameMessage, List.length_append, length_leBytes]
  have hmax : maxPayloadSize.toNat = 16777216 := rfl
  have hhead : headerSize = 44 := rfl
  have hcapsize : msg.capabilities.length * capabilityTokenSize ≤ 2 ^ 32 * 160 :=
    Nat.mul_le_mul hcaps.le le_rfl
  have hcrc : crc32Size = 4 := rfl
  have hbound : usizeBound = 18446744073709551616 := rfl
  have hpay : (UInt64.ofNat msg.payload.length).toNat = msg.payload.length := by
    rw [UInt64.toNat_ofNat']
    omega
  have hcount : (UInt32.ofNat msg.capabilities.length).toNat = msg.capabilities.length := by
    rw [UInt32.toNat_ofNat']
    omega
  have a₀ : At (frameMessage msg) 0 _ := .of_eq (frameMessage_eq msg)
  have a₁ : At (frameMessage msg) 4 _ := a₀.next (by rw [Vector.length_toList])
  have a₂ : At (frameMessage msg) 6 _ := a₁.next (by rw [length_leBytes])
  have a₃ : At (frameMessage msg) 8 _ := a₂.next (by rw [length_leBytes])
  have a₄ : At (frameMessage msg) 16 _ := a₃.next (by rw [length_leBytes])
  have a₅ : At (frameMessage msg) 24 _ := a₄.next (by rw [length_leBytes])
  have a₆ : At (frameMessage msg) 32 _ := a₅.next (by rw [length_leBytes])
  have a₇ : At (frameMessage msg) 40 _ := a₆.next (by rw [length_leBytes])
  have a₈ : At (frameMessage msg) headerSize _ := a₇.next (by rw [length_leBytes]; rfl)
  have a₉ : At (frameMessage msg) (headerSize + msg.payload.length) _ := a₈.next rfl
  have acrc : At (frameMessage msg) (frameBody msg).length
      (leBytes 4 (crc32 (frameBody msg)).toNat ++ []) := by
    rw [List.append_nil]
    have hstart : At (frameMessage msg) 0 (frameBody msg ++ _) := .of_eq rfl
    exact hstart.next (Nat.zero_add _).symm
  have hmagic : slice (ε := FrameError) (frameMessage msg) 0 4 = pure magic.toList :=
    a₀.slice (by rw [Vector.length_toList])
  have hversion : leAt (ε := FrameError) 2 (frameMessage msg) 4 6 = pure protocolVersion.toNat :=
    a₁.le_eq rfl protocolVersion.toNat_lt
  have hflags : leAt (ε := FrameError) 2 (frameMessage msg) 6 8 =
      pure (effectiveFlags msg).bits.toNat := a₂.le_eq rfl (effectiveFlags msg).bits.toNat_lt
  have hchannel : leAt (ε := FrameError) 8 (frameMessage msg) 8 16 =
      pure msg.header.channelId.toNat := a₃.le_eq rfl msg.header.channelId.toNat_lt
  have hsequence : leAt (ε := FrameError) 8 (frameMessage msg) 16 24 =
      pure msg.header.sequence.toNat := a₄.le_eq rfl msg.header.sequence.toNat_lt
  have htype : leAt (ε := FrameError) 8 (frameMessage msg) 24 32 =
      pure msg.header.typeHash.toNat := a₅.le_eq rfl msg.header.typeHash.toNat_lt
  have hplen : leAt (ε := FrameError) 8 (frameMessage msg) 32 40 =
      pure (UInt64.ofNat msg.payload.length).toNat := a₆.le_eq rfl (UInt64.toNat_lt _)
  have hclen : leAt (ε := FrameError) 4 (frameMessage msg) 40 44 =
      pure (UInt32.ofNat msg.capabilities.length).toNat := a₇.le_eq rfl (UInt32.toNat_lt _)
  have hstored : leAt (ε := FrameError) 4 (frameMessage msg) (frameBody msg).length
      (frameMessage msg).length = pure (crc32 (frameBody msg)).toNat :=
    acrc.le_eq hlen (UInt32.toNat_lt _)
  have hcovered : slice (ε := FrameError) (frameMessage msg) 0 (frameBody msg).length =
      pure (frameBody msg) := At.slice (.of_eq rfl) (Nat.zero_add _).symm
  have hpslice : slice (ε := FrameError) (frameMessage msg) headerSize
      (headerSize + msg.payload.length) = pure msg.payload := a₈.slice rfl
  have hdecoded : deframeCaps utf8Error (frameMessage msg) msg.capabilities.length
      (headerSize + msg.payload.length) = pure msg.capabilities :=
    deframeCaps_eq hfits a₉ (by omega)
  have hsmall : ¬ UInt64.ofNat msg.payload.length > maxPayloadSize := by
    rw [gt_iff_lt, UInt64.lt_iff_toNat_lt, hpay]
    omega
  have hmul : checkedMul msg.capabilities.length capabilityTokenSize =
      some (msg.capabilities.length * capabilityTokenSize) := if_pos (by omega)
  have hadd₁ : checkedAdd headerSize msg.payload.length =
      some (headerSize + msg.payload.length) := if_pos (by omega)
  have hadd₂ : checkedAdd (headerSize + msg.payload.length)
      (msg.capabilities.length * capabilityTokenSize) = some (frameBody msg).length := by
    rw [checkedAdd, if_pos (by omega), hbody]
  have hadd₃ : checkedAdd (frameBody msg).length crc32Size = some (frameMessage msg).length := by
    rw [checkedAdd, if_pos (by omega), hlen, hcrc]
  have hsub : Checked.sub (ε := FrameError) (frameMessage msg).length crc32Size =
      pure (frameBody msg).length := by
    rw [Checked.sub, if_pos (by omega), hlen, hcrc, Nat.add_sub_cancel]
  have hend : Checked.add (ε := FrameError) headerSize msg.payload.length =
      pure (headerSize + msg.payload.length) := if_pos (by omega)
  rw [deframeMessage, if_neg (by omega)]
  simp only [hmagic, toVector_toList, hversion, hflags, hchannel, hsequence, htype, hplen, hclen,
    pure_bind, UInt16.ofNat_toNat, UInt64.ofNat_toNat, UInt32.ofNat_toNat, ne_eq, not_true_eq_false,
    if_false, hsmall, hcount, hpay, hmul, hadd₁, hadd₂, hadd₃, okOr, Option.bind_eq_bind,
    Option.bind_some, hsub, hstored, hcovered, hend, hpslice, hdecoded]
  rfl

end

/-! ## No panics -/

section

variable (utf8Error : Bytes → String)

theorem safe_decodeString (what kind : String) {bytes : Bytes}
    (h : resourceFieldSize ≤ bytes.length) :
    Safe (decodeString utf8Error what kind bytes) fun _ => True := by
  have hsize : resourceFieldSize = 76 := rfl
  have hmax : maxResourceString = 64 := rfl
  refine (Safe.byteAt (by omega)).bind fun len _ => ?_
  refine .ite (fun _ => .throw _) fun hlen => ?_
  refine (Safe.slice (by omega) (by omega)).bind fun s _ => ?_
  split
  · exact .pure trivial
  · exact .throw _

theorem Resource.safe_decode (bytes : Bytes) :
    Safe (Resource.decode utf8Error bytes) fun _ => True := by
  have hsize : resourceFieldSize = 76 := rfl
  have hoff : networkPortOffset = 66 := rfl
  refine .ite (fun _ => .throw _) fun hlen => ?_
  refine (Safe.byteAt (by omega)).bind fun tag _ => ?_
  split
  · exact (safe_decodeString _ _ _ (by omega)).bind fun _ _ => .pure trivial
  · refine (safe_decodeString _ _ _ (by omega)).bind fun _ _ => ?_
    exact (Safe.leAt rfl (by omega)).bind fun _ _ => .pure trivial
  · refine (Safe.leAt rfl (by omega)).bind fun _ _ => ?_
    exact (Safe.leAt rfl (by omega)).bind fun _ _ => .pure trivial
  · refine (Safe.leAt rfl (by omega)).bind fun _ _ => ?_
    exact (Safe.leAt rfl (by omega)).bind fun _ _ => .pure trivial
  · exact (Safe.leAt rfl (by omega)).bind fun _ _ => .pure trivial
  · exact .throw _

theorem CapabilityToken.safe_decode (bytes : Bytes) :
    Safe (CapabilityToken.decode utf8Error bytes) fun _ => True := by
  have hsize : capabilityTokenSize = 160 := rfl
  have hoff : resourceOffset = 84 := rfl
  have hfield : resourceFieldSize = 76 := rfl
  refine .ite (fun _ => .throw _) fun hlen => ?_
  refine (Safe.slice (by omega) (by omega)).bind fun field _ => ?_
  refine (Resource.safe_decode _ field).bind fun _ _ => ?_
  refine (Safe.leAt rfl (by omega)).bind fun _ _ => ?_
  refine (Safe.leAt rfl (by omega)).bind fun _ _ => ?_
  refine (Safe.leAt rfl (by omega)).bind fun _ _ => ?_
  refine (Safe.leAt rfl (by omega)).bind fun _ _ => ?_
  refine (Safe.leAt rfl (by omega)).bind fun _ _ => ?_
  refine (Safe.slice (by omega) (by omega)).bind fun sig hsig => ?_
  refine (Safe.toVector (by omega)).bind fun _ _ => ?_
  refine (Safe.byteAt (by omega)).bind fun _ _ => ?_
  refine (Safe.byteAt (by omega)).bind fun _ _ => ?_
  refine (Safe.byteAt (by omega)).bind fun _ _ => ?_
  exact (Safe.byteAt (by omega)).bind fun _ _ => .pure trivial

theorem safe_deframeCaps {data : Bytes} (hdata : data.length < usizeBound) (n lo : Nat)
    (h : lo + n * capabilityTokenSize ≤ data.length) :
    Safe (deframeCaps utf8Error data n lo) fun _ => True := by
  induction n generalizing lo with
  | zero => exact .pure trivial
  | succ n ih =>
    rw [Nat.succ_mul] at h
    refine (Safe.add (by omega)).bind fun hi hhi => ?_
    refine (Safe.slice (by omega) (by omega)).bind fun capSlice _ => ?_
    refine (Safe.mapErr (CapabilityToken.safe_decode _ capSlice)).bind fun _ _ => ?_
    refine (Safe.add (by omega)).bind fun hi' hhi' => ?_
    exact (ih hi' (by omega)).bind fun _ _ => .pure trivial

theorem checkedAdd_eq_some {a b n : Nat} (h : checkedAdd a b = some n) :
    n = a + b ∧ n < usizeBound := by
  unfold checkedAdd at h
  split at h
  · cases h
    exact ⟨rfl, by assumption⟩
  · cases h

theorem checkedMul_eq_some {a b n : Nat} (h : checkedMul a b = some n) : n = a * b := by
  unfold checkedMul at h
  split at h
  · cases h
    rfl
  · cases h

/-- Deframing does not panic, and it gives a message only when the stored checksum is that of what
comes before it. -/
theorem safe_deframeMessage (data : Bytes) :
    Safe (deframeMessage utf8Error data) fun _ =>
      UInt32.ofNat (ofLeBytes (data.drop (data.length - crc32Size))) =
        crc32 (data.take (data.length - crc32Size)) := by
  have hhead : headerSize = 44 := rfl
  have hcrc : crc32Size = 4 := rfl
  unfold deframeMessage
  dsimp only
  refine .guard fun hlen => ?_
  refine (Safe.slice (by omega) (by omega)).bind fun m hm => ?_
  refine (Safe.toVector (by omega)).bind fun actualMagic _ => ?_
  refine .guard fun _ => ?_
  refine (Safe.leAt rfl (by omega)).bind fun version _ => ?_
  refine .guard fun _ => ?_
  refine (Safe.leAt rfl (by omega)).bind fun flags _ => ?_
  refine (Safe.leAt rfl (by omega)).bind fun channelId _ => ?_
  refine (Safe.leAt rfl (by omega)).bind fun sequence _ => ?_
  refine (Safe.leAt rfl (by omega)).bind fun typeHash _ => ?_
  refine (Safe.leAt rfl (by omega)).bind fun payloadLen _ => ?_
  refine (Safe.leAt rfl (by omega)).bind fun capCount _ => ?_
  refine .guard fun _ => ?_
  refine (Safe.okOr fun n h => checkedMul_eq_some h).bind fun capsSize hcaps => ?_
  refine Safe.bind (Q := fun n => n < usizeBound ∧
    n = headerSize + (UInt64.ofNat payloadLen).toNat + capsSize + crc32Size) ?_ ?_
  · refine Safe.okOr fun n h => ?_
    obtain ⟨a, ha, h⟩ := Option.bind_eq_some_iff.mp h
    obtain ⟨b, hb, h⟩ := Option.bind_eq_some_iff.mp h
    obtain ⟨rfl, -⟩ := checkedAdd_eq_some ha
    obtain ⟨rfl, -⟩ := checkedAdd_eq_some hb
    obtain ⟨rfl, hn⟩ := checkedAdd_eq_some h
    exact ⟨hn, rfl⟩
  rintro expectedTotal ⟨hbound, htotal⟩
  refine .guard fun heq => ?_
  rw [ne_eq, not_not] at heq
  refine (Safe.sub (by omega)).bind fun bodyEnd hend => ?_
  have hdrop : (data.drop bodyEnd).length = 4 := by
    rw [List.length_drop]
    omega
  have hstored : leAt (ε := FrameError) 4 data bodyEnd data.length =
      pure (ofLeBytes (data.drop bodyEnd)) := by
    rw [leAt, slice, if_pos ⟨by omega, le_rfl⟩, List.take_length, pure_bind, toVector,
      dif_pos hdrop, pure_bind]
    rfl
  have hcovered : slice (ε := FrameError) data 0 bodyEnd = pure (data.take bodyEnd) :=
    if_pos ⟨Nat.zero_le _, by omega⟩
  rw [hstored, hcovered, pure_bind, pure_bind]
  refine .guard fun hchecksum => ?_
  rw [ne_eq, not_not, hend] at hchecksum
  refine (Safe.add (by omega)).bind fun payloadEnd hpend => ?_
  refine (Safe.slice (by omega) (by omega)).bind fun payload _ => ?_
  refine (safe_deframeCaps _ (by omega) _ _ (by omega)).bind fun _ _ => ?_
  exact .pure hchecksum

end

/-- The wire format: deframing gives back what was framed, and it never panics. -/
theorem deframeMessage_correct (utf8Error : Bytes → String) :
    (∀ msg : EncapsulatedMessage, msg.payload.length ≤ maxPayloadSize.toNat →
      msg.capabilities.length < 2 ^ 32 → (∀ c ∈ msg.capabilities, c.resource.Fits) →
      (deframeMessage utf8Error (frameMessage msg)).run = some (.ok msg.normalised)) ∧
    ∀ data, (deframeMessage utf8Error data).run.isSome := by
  refine ⟨fun msg hpayload hcaps hfits => ?_, fun data => (safe_deframeMessage _ data).isSome⟩
  rw [deframeMessage_frameMessage hpayload hcaps hfits]
  rfl

instance (r : Resource) : Decidable r.Fits := by
  cases r <;> unfold Resource.Fits <;> infer_instance

/-- A message with a payload and a token. -/
def greeting : EncapsulatedMessage where
  header := ⟨#v[0, 0, 0, 0], 0, ⟨0x0008⟩, 7, 1, 0xcbf29ce484222325, 0, 0⟩
  payload := [0x68, 0x69]
  capabilities := [⟨1, 2, 3, .network "example" 443, ⟨true, true, false⟩, 0, 100, 150,
    Vector.replicate 32 0xaa⟩]

theorem deframeMessage_greeting :
    (deframeMessage (fun _ => "") (frameMessage greeting)).run = some (.ok greeting.normalised) :=
  (deframeMessage_correct fun _ => "").1 greeting (by decide) (by decide) (by decide)

end Vuma.Ipc
