import Vuma.Ipc.FrameCorrect
import Vuma.Ipc.HmacSha256

/-!
# Signed capability tokens

`grant_capability` signs a token and `verify_capability` checks the signature. The signature covers
the encoded resource, in which a name is cut off after 64 bytes; so a token can be changed unseen in
what comes after them, and in nothing else.
-/

namespace Vuma.Ipc

open Lib
open Vuma.Bd (asBytes fromUTF8_asBytes)

def MemoryPermissions.contains (p required : MemoryPermissions) : Bool :=
  (!required.read || p.read) && (!required.write || p.write) && (!required.execute || p.execute)

inductive CapabilityError where
  | invalidSignature
  | expired (now createdAt expiresAt : UInt64)
  | resourceMismatch (expected actual : Resource)
  | insufficientPermissions (required actual : MemoryPermissions)
  deriving DecidableEq

def signatureInput (token : CapabilityToken) (signingKey : Bytes) : Bytes :=
  signingKey ++ leBytes 16 token.id.toNat ++ leBytes 8 token.sourcePid.toNat ++
    leBytes 8 token.targetPid.toNat ++ leBytes 8 token.createdAt.toNat ++
    leBytes 8 token.expiresAt.toNat ++ [token.delegationDepth, flagByte token.permissions.read,
      flagByte token.permissions.write, flagByte token.permissions.execute] ++
    token.resource.encode

def computeSignature (token : CapabilityToken) (signingKey : Bytes) : Vector UInt8 32 :=
  hmacSha256 signingKey (signatureInput token signingKey)

def saturatingAdd (a b : UInt64) : UInt64 := UInt64.ofNat (min (a.toNat + b.toNat) (2 ^ 64 - 1))

def grantCapability (id : BitVec 128) (sourcePid targetPid : UInt64) (resource : Resource)
    (permissions : MemoryPermissions) (delegationDepth : UInt8) (createdAt ttlSeconds : UInt64)
    (signingKey : Bytes) : CapabilityToken :=
  let token : CapabilityToken :=
    { id, sourcePid, targetPid, resource, permissions, delegationDepth, createdAt
      expiresAt := saturatingAdd createdAt ttlSeconds
      signature := Vector.replicate 32 0 }
  { token with signature := computeSignature token signingKey }

def verifyCapability (token : CapabilityToken) (signingKey : Bytes) (now : UInt64)
    (expectedResource : Option Resource) (requiredPerms : MemoryPermissions) :
    Except CapabilityError Unit := do
  if computeSignature token signingKey ≠ token.signature then throw .invalidSignature
  if now < token.createdAt ∨ now > token.expiresAt then
    throw (.expired now token.createdAt token.expiresAt)
  if let some expected := expectedResource then
    if token.resource ≠ expected then throw (.resourceMismatch expected token.resource)
  if !token.permissions.contains requiredPerms then
    throw (.insufficientPermissions requiredPerms token.permissions)

/-! ## What the signature covers -/

/-- Resources with the same encoding: the names agree in their first `MAX_RESOURCE_STRING` bytes. -/
def Resource.SameField : Resource → Resource → Prop
  | .file s, .file s' => (asBytes s).take maxResourceString = (asBytes s').take maxResourceString
  | .network s port, .network s' port' =>
    (asBytes s).take maxResourceString = (asBytes s').take maxResourceString ∧ port = port'
  | r, r' => r = r'

theorem encodeString_take (tag : UInt8) (s : String) :
    encodeString tag s = tag :: UInt8.ofNat ((asBytes s).take maxResourceString).length ::
      (asBytes s).take maxResourceString := by
  have hcut : (asBytes s).take (min (asBytes s).length maxResourceString) =
      (asBytes s).take maxResourceString := by
    rw [min_comm, ← List.take_eq_take_min]
  simp only [encodeString, hcut, List.length_take, min_comm maxResourceString]
  rfl

theorem encodeString_inj {tag : UInt8} {s s' : String} {rest rest' : Bytes}
    (h : encodeString tag s ++ rest = encodeString tag s' ++ rest') :
    (asBytes s).take maxResourceString = (asBytes s').take maxResourceString := by
  have hshort : ∀ s, ((asBytes s).take maxResourceString).length < 256 :=
    fun s => (List.length_take_le _ _).trans_lt (by decide)
  rw [encodeString_take, encodeString_take] at h
  obtain ⟨-, hlen, h⟩ : _ ∧ _ ∧ _ := by simpa only [List.cons_append, List.cons.injEq] using h
  have hlen := congrArg UInt8.toNat hlen
  rw [UInt8.toNat_ofNat', UInt8.toNat_ofNat', Nat.mod_eq_of_lt (hshort s),
    Nat.mod_eq_of_lt (hshort s')] at hlen
  exact List.append_inj_left h hlen

theorem encodeString_congr {tag : UInt8} {s s' : String}
    (h : (asBytes s).take maxResourceString = (asBytes s').take maxResourceString) :
    encodeString tag s = encodeString tag s' := by
  rw [encodeString_take, encodeString_take, h]

theorem leBytes_inj {n v v' : Nat} (hv : v < 256 ^ n) (hv' : v' < 256 ^ n)
    (h : leBytes n v = leBytes n v') : v = v' := by
  rw [← ofLeBytes_leBytes hv, h, ofLeBytes_leBytes hv']

/-- The front of two byte strings with fields of the same length. -/
theorem leBytes_append_inj {n v v' : Nat} (hv : v < 256 ^ n) (hv' : v' < 256 ^ n) {c c' : Bytes}
    (h : leBytes n v ++ c = leBytes n v' ++ c') : v = v' ∧ c = c' := by
  obtain ⟨hle, hc⟩ := List.append_inj h (by rw [length_leBytes, length_leBytes])
  exact ⟨leBytes_inj hv hv' hle, hc⟩

theorem leBytes_uint64_inj {x y : UInt64} {c c' : Bytes}
    (h : leBytes 8 x.toNat ++ c = leBytes 8 y.toNat ++ c') : x = y ∧ c = c' := by
  obtain ⟨hv, hc⟩ := leBytes_append_inj x.toNat_lt y.toNat_lt h
  exact ⟨UInt64.toNat_inj.mp hv, hc⟩

theorem Resource.encode_network (s : String) (port : UInt16) :
    (Resource.network s port).encode = padTo networkPortOffset (encodeString 2 s) ++
      (leBytes 2 port.toNat ++ List.replicate (resourceFieldSize -
        (padTo networkPortOffset (encodeString 2 s) ++ leBytes 2 port.toNat).length) 0) :=
  List.append_assoc _ _ _

theorem Resource.encode_eq_iff (r r' : Resource) : r.encode = r'.encode ↔ r.SameField r' := by
  constructor
  · intro h
    cases r with
    | file s =>
      cases r' with
      | file s' => exact encodeString_inj h
      | _ => simp [encode, padTo, encodeString] at h
    | network s port =>
      cases r' with
      | network s' port' =>
        rw [encode_network, encode_network] at h
        obtain ⟨hname, hrest⟩ := List.append_inj h (by
          rw [length_padTo (length_encodeString 2 s), length_padTo (length_encodeString 2 s')])
        obtain ⟨hport, -⟩ := leBytes_append_inj port.toNat_lt port'.toNat_lt hrest
        exact ⟨encodeString_inj hname, UInt16.toNat_inj.mp hport⟩
      | _ => simp [encode, padTo, encodeString] at h
    | memory base size =>
      cases r' with
      | memory base' size' =>
        simp only [encode, padTo, List.append_assoc, List.cons_append, List.nil_append,
          List.cons.injEq, true_and] at h
        obtain ⟨rfl, h⟩ := leBytes_uint64_inj h
        obtain ⟨rfl, -⟩ := leBytes_uint64_inj h
        rfl
      | _ => simp [encode, padTo, encodeString] at h
    | mmio base size =>
      cases r' with
      | mmio base' size' =>
        simp only [encode, padTo, List.append_assoc, List.cons_append, List.nil_append,
          List.cons.injEq, true_and] at h
        obtain ⟨rfl, h⟩ := leBytes_uint64_inj h
        obtain ⟨rfl, -⟩ := leBytes_uint64_inj h
        rfl
      | _ => simp [encode, padTo, encodeString] at h
    | channel id =>
      cases r' with
      | channel id' =>
        simp only [encode, padTo, List.cons_append, List.nil_append, List.cons.injEq,
          true_and] at h
        obtain ⟨rfl, -⟩ := leBytes_uint64_inj h
        rfl
      | _ => simp [encode, padTo, encodeString] at h
  · intro h
    cases r with
    | file s =>
      cases r' with
      | file s' => rw [encode, encode, encodeString_congr h]
      | _ => cases h
    | network s port =>
      cases r' with
      | network s' port' =>
        obtain ⟨h, rfl⟩ := h
        rw [encode, encode, encodeString_congr h]
      | _ => cases h
    | memory | mmio | channel => cases h; rfl

/-- The tokens agree but for the resource and the signature, and the resources have the same
encoding. -/
def CapabilityToken.SameFields (t u : CapabilityToken) : Prop :=
  u = { t with resource := u.resource, signature := u.signature } ∧ t.resource.SameField u.resource

theorem CapabilityToken.SameFields.permissions {t u : CapabilityToken} (h : t.SameFields u) :
    u.permissions = t.permissions := by
  rw [h.1]

theorem flagByte_inj {b b' : Bool} (h : flagByte b = flagByte b') : b = b' := by
  rw [← flagByte_ne_zero b, h, flagByte_ne_zero]

theorem signatureInput_eq_iff (t u : CapabilityToken) (key : Bytes) :
    signatureInput t key = signatureInput u key ↔ t.SameFields u := by
  obtain ⟨id, source, target, resource, ⟨read, write, execute⟩, depth, created, expires, sig⟩ := t
  obtain ⟨id', source', target', resource', ⟨read', write', execute'⟩, depth', created', expires',
    sig'⟩ := u
  constructor
  · intro h
    simp only [signatureInput, List.append_assoc, List.append_cancel_left_eq] at h
    obtain ⟨hid, h₁⟩ := leBytes_append_inj (id.isLt.trans_eq (by norm_num))
      (id'.isLt.trans_eq (by norm_num)) h
    obtain ⟨hsource, h₂⟩ := leBytes_uint64_inj h₁
    obtain ⟨htarget, h₃⟩ := leBytes_uint64_inj h₂
    obtain ⟨hcreated, h₄⟩ := leBytes_uint64_inj h₃
    obtain ⟨hexpires, h₅⟩ := leBytes_uint64_inj h₄
    simp only [List.cons_append, List.nil_append, List.cons.injEq] at h₅
    obtain ⟨hdepth, hread, hwrite, hexecute, hres⟩ := h₅
    obtain rfl := BitVec.eq_of_toNat_eq hid
    obtain rfl := flagByte_inj hread
    obtain rfl := flagByte_inj hwrite
    obtain rfl := flagByte_inj hexecute
    subst hsource htarget hcreated hexpires hdepth
    exact ⟨rfl, (Resource.encode_eq_iff _ _).mp hres⟩
  · rintro ⟨heq, hres⟩
    cases heq
    simp only [signatureInput, (Resource.encode_eq_iff _ _).mpr hres]

/-! ## Changed tokens -/

/-- The token was made by `grant_capability`. -/
def Minted (key : Bytes) (t : CapabilityToken) : Prop :=
  ∃ id sourcePid targetPid resource permissions depth createdAt ttl,
    t = grantCapability id sourcePid targetPid resource permissions depth createdAt ttl key

theorem Minted.computeSignature_eq {key : Bytes} {t : CapabilityToken} (h : Minted key t) :
    computeSignature t key = t.signature := by
  obtain ⟨id, sourcePid, targetPid, resource, permissions, depth, createdAt, ttl, rfl⟩ := h
  rfl

theorem verifyCapability_eq_invalidSignature_iff {u : CapabilityToken} {key : Bytes} {now : UInt64}
    {expected : Option Resource} {perms : MemoryPermissions} :
    verifyCapability u key now expected perms = .error .invalidSignature ↔
      computeSignature u key ≠ u.signature := by
  constructor
  · intro h hsig
    simp only [verifyCapability, hsig, ne_eq, not_true_eq_false, if_false] at h
    revert h
    split
    · intro h
      cases h
    · cases expected with
      | none =>
        dsimp only
        split <;> intro h <;> cases h
      | some r =>
        dsimp only
        split
        · intro h
          cases h
        · split <;> intro h <;> cases h
  · intro hsig
    rw [verifyCapability, if_pos hsig]
    rfl

/-- A token that differs from a minted token whose signature it carries is rejected for its
signature, unless it differs only in what comes after the first 64 bytes of a name. Here HMAC does
not give the same value for the two messages if they differ. -/
theorem verifyCapability_tampered_iff {key : Bytes} {t u : CapabilityToken} (ht : Minted key t)
    (hsig : u.signature = t.signature)
    (hmac : hmacSha256 key (signatureInput t key) = hmacSha256 key (signatureInput u key) →
      signatureInput t key = signatureInput u key) :
    (∀ now expected perms, verifyCapability u key now expected perms = .error .invalidSignature) ↔
      ¬ t.SameFields u := by
  have hiff : computeSignature u key = u.signature ↔ t.SameFields u := by
    rw [hsig, ← ht.computeSignature_eq, ← signatureInput_eq_iff t u key]
    exact ⟨fun h => hmac h.symm, fun h => congrArg (hmacSha256 key) h.symm⟩
  simp only [verifyCapability_eq_invalidSignature_iff]
  exact ⟨fun h hs => h 0 none ⟨false, false, false⟩ (hiff.mpr hs), fun h _ _ _ hc => h (hiff.mp hc)⟩

/-- A token to read from a channel. -/
def readToken : CapabilityToken :=
  grantCapability 1 2 3 (.channel 7) ⟨true, false, false⟩ 0 100 50 [0x0b, 0x0b]

/-- The token with the permission to write. -/
def writeToken : CapabilityToken := { readToken with permissions := ⟨true, true, false⟩ }

/-- The changed token is rejected. -/
theorem verifyCapability_writeToken :
    Minted [0x0b, 0x0b] readToken ∧ ∀ now expected perms,
      verifyCapability writeToken [0x0b, 0x0b] now expected perms = .error .invalidSignature := by
  have hminted : Minted [0x0b, 0x0b] readToken := ⟨_, _, _, _, _, _, _, _, rfl⟩
  have hsig : writeToken.signature = readToken.signature := by rw [writeToken]
  have hperms : writeToken.permissions ≠ readToken.permissions := by
    rw [writeToken, readToken, grantCapability]
    decide
  have hmac : hmacSha256 [0x0b, 0x0b] (signatureInput readToken [0x0b, 0x0b]) ≠
      hmacSha256 [0x0b, 0x0b] (signatureInput writeToken [0x0b, 0x0b]) := by
    decide +kernel
  exact ⟨hminted, (verifyCapability_tampered_iff hminted hsig fun h => absurd h hmac).mpr
    fun hsame => hperms hsame.permissions⟩

/-- A token can be changed to another file whose name has the same first 64 bytes. -/
theorem verifyCapability_accepts_other_file :
    ¬ ∀ (key : Bytes) (t u : CapabilityToken), Minted key t → u.signature = t.signature → u ≠ t →
      (hmacSha256 key (signatureInput t key) = hmacSha256 key (signatureInput u key) →
        signatureInput t key = signatureInput u key) →
      ∀ now expected perms,
        verifyCapability u key now expected perms = .error .invalidSignature := by
  intro h
  obtain ⟨t, hminted, hres⟩ : ∃ t, Minted [0x0b] t ∧ t.resource =
      .file "/srv/data/0123456789/0123456789/0123456789/0123456789/0123456789/a" :=
    ⟨grantCapability 1 2 3 _ ⟨true, false, false⟩ 0 100 50 [0x0b],
      ⟨_, _, _, _, _, _, _, _, rfl⟩, rfl⟩
  obtain ⟨u, hsig, hsame, hfile⟩ : ∃ u : CapabilityToken, u.signature = t.signature ∧
      t.SameFields u ∧ u.resource =
        .file "/srv/data/0123456789/0123456789/0123456789/0123456789/0123456789/b" := by
    refine ⟨{ t with resource := .file _ }, rfl, ⟨rfl, ?_⟩, rfl⟩
    rw [hres]
    show (asBytes _).take maxResourceString = (asBytes _).take maxResourceString
    decide
  have hne : u ≠ t := by
    rintro rfl
    rw [hres] at hfile
    revert hfile
    decide
  have heq := (signatureInput_eq_iff _ _ [0x0b]).mpr hsame
  have hreject := h [0x0b] t u hminted hsig hne fun _ => heq
  exact (verifyCapability_tampered_iff hminted hsig fun _ => heq).mp hreject hsame

end Vuma.Ipc
