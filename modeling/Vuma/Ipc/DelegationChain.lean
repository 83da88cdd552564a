import Vuma.Ipc.CapabilitySet

/-!
# Chains of delegated tokens

`delegate` makes a token with no more authority than its parent. `verify_delegation_chain` looks at
the processes and the depths along a chain and not at what the tokens allow, so a chain of signed
tokens is accepted also when one of its links is not a delegation.
-/

namespace Vuma.Ipc

open Lib

/-- The links that `verify_delegation_chain` goes through. -/
def linksVerify : List CapabilityToken → Bool
  | parent :: child :: rest =>
    if child.sourcePid ≠ parent.targetPid then false
    else if child.delegationDepth ≠ parent.delegationDepth + 1 then false
    else if child.delegationDepth > maxDelegationDepth then false
    else linksVerify (child :: rest)
  | _ => true

def verifyDelegationChain (token : CapabilityToken) (chain : List CapabilityToken) : Bool :=
  match chain with
  | [] => false
  | root :: _ =>
    if chain.getLast? ≠ some token then false
    else if root.delegationDepth ≠ 0 then false
    else if root.delegationDepth > maxDelegationDepth then false
    else linksVerify chain

/-! ## Authority -/

/-- A token allows no more than another one: its permissions are among those of the other, it is
for the same resource, and it is valid within the time of the other. -/
structure CapabilityToken.Within (t u : CapabilityToken) : Prop where
  permissions : u.permissions.contains t.permissions
  resource : t.resource = u.resource
  created : u.createdAt ≤ t.createdAt
  expires : t.expiresAt ≤ u.expiresAt

namespace CapabilityToken.Within

theorem refl (t : CapabilityToken) : t.Within t :=
  ⟨by simp [MemoryPermissions.contains], rfl, UInt64.le_refl _, UInt64.le_refl _⟩

theorem trans {t u v : CapabilityToken} (h : t.Within u) (h' : u.Within v) : t.Within v where
  permissions := by
    have hu := h.permissions
    have hv := h'.permissions
    simp only [MemoryPermissions.contains, Bool.and_eq_true, Bool.or_eq_true,
      Bool.not_eq_true'] at *
    grind
  resource := h.resource.trans h'.resource
  created := UInt64.le_trans h'.created h.created
  expires := UInt64.le_trans h.expires h'.expires

end CapabilityToken.Within

/-- The chain is accepted for the token, and the signature of each token checks. -/
structure AcceptedChain (key : Bytes) (token : CapabilityToken) (chain : List CapabilityToken) :
    Prop where
  verifies : verifyDelegationChain token chain
  signed : ∀ t ∈ chain, computeSignature t key = t.signature

/-- The last token of an accepted chain allows no more than the first. -/
def NeverAmplifies (key : Bytes) (token : CapabilityToken) (chain : List CapabilityToken) : Prop :=
  AcceptedChain key token chain → ∀ root, chain.head? = some root → token.Within root

/-- The tokens that come of a token by delegation, from any set that holds their parent. -/
inductive DelegatedFrom (root : CapabilityToken) : CapabilityToken → Prop where
  | root : DelegatedFrom root root
  | delegate {parent child : CapabilityToken} {s s' : CapabilitySet} {parentId childId : TokenId}
      {pid : UInt64} {perms : MemoryPermissions} {key : Vector UInt8 32}
      (h : DelegatedFrom root parent) (hparent : s.tokens.lookup parentId = some parent)
      (hchild : s.delegate parentId pid perms key childId = .ok (child, s')) :
      DelegatedFrom root child

/-! ## Links -/

/-- What `delegate` makes is within the parent. -/
theorem CapabilitySet.within_of_delegate {s s' : CapabilitySet} {parentId childId : TokenId}
    {pid : UInt64} {perms : MemoryPermissions} {key : Vector UInt8 32}
    {parent child : CapabilityToken} (hparent : s.tokens.lookup parentId = some parent)
    (h : s.delegate parentId pid perms key childId = .ok (child, s')) : child.Within parent := by
  rw [CapabilitySet.delegate, hparent] at h
  dsimp only at h
  split_ifs at h with hdepth hread hwrite hexecute
  cases h
  refine ⟨?_, rfl, UInt64.le_refl _, UInt64.le_refl _⟩
  show parent.permissions.contains perms
  simp only [MemoryPermissions.contains, Bool.and_eq_true, Bool.or_eq_true, Bool.not_eq_true'] at *
  grind

theorem getLast?_of_verifyDelegationChain {token : CapabilityToken} {chain : List CapabilityToken}
    (h : verifyDelegationChain token chain) : chain.getLast? = some token := by
  cases chain with
  | nil => cases h
  | cons root rest =>
    rw [verifyDelegationChain] at h
    by_contra hlast
    rw [if_pos hlast] at h
    cases h

instance : IsTrans CapabilityToken fun parent child => child.Within parent :=
  ⟨fun _ _ _ h h' => h'.trans h⟩

/-- Along links that allow no more, no token allows more than an earlier one. -/
theorem pairwise_within_iff {chain : List CapabilityToken} :
    chain.Pairwise (fun earlier later => later.Within earlier) ↔
      chain.IsChain fun parent child => child.Within parent :=
  List.isChain_iff_pairwise.symm

theorem within_head_of_links {root token : CapabilityToken} {chain : List CapabilityToken}
    (hlinks : chain.IsChain fun parent child => child.Within parent)
    (hhead : chain.head? = some root) (hlast : chain.getLast? = some token) :
    token.Within root := by
  cases chain with
  | nil => cases hhead
  | cons first rest =>
    cases hhead
    have hpair := pairwise_within_iff.2 hlinks
    rcases List.mem_cons.1 (List.mem_of_getLast? hlast) with rfl | hmem
    · exact .refl _
    · exact List.rel_of_pairwise_cons hpair hmem

/-- Delegation does not amplify: an accepted chain whose links are attenuations leads to no more
than its root allows, in an accepted chain no token allows more than an earlier one exactly when
the links are attenuations, and the tokens that `delegate` makes allow no more than the token from
which they come. -/
theorem neverAmplifies_of_links (key : Bytes) :
    (∀ token chain, chain.IsChain (fun parent child => child.Within parent) →
      NeverAmplifies key token chain) ∧
    (∀ token chain, AcceptedChain key token chain →
      (chain.Pairwise (fun earlier later => later.Within earlier) ↔
        chain.IsChain fun parent child => child.Within parent)) ∧
    ∀ root token, DelegatedFrom root token → token.Within root := by
  refine ⟨?_, fun _ _ _ => pairwise_within_iff, ?_⟩
  · intro token chain hlinks haccepted root hroot
    exact within_head_of_links hlinks hroot (getLast?_of_verifyDelegationChain haccepted.verifies)
  · intro root token h
    induction h with
    | root => exact .refl root
    | delegate _ hparent hchild ih =>
      exact (CapabilitySet.within_of_delegate hparent hchild).trans ih

/-- A token to read from a channel, and what follows it in a chain. -/
def channelReader : CapabilityToken :=
  grantCapability 1 2 3 (.channel 7) ⟨true, false, false⟩ 0 100 50 [0x0b]

def channelFollower (permissions : MemoryPermissions) : CapabilityToken :=
  grantCapability 9 3 4 (.channel 7) permissions 1 100 50 [0x0b]

theorem acceptedChain_follower (permissions : MemoryPermissions) :
    AcceptedChain [0x0b] (channelFollower permissions)
      [channelReader, channelFollower permissions] where
  verifies := by
    have hroot : channelReader.delegationDepth = 0 := rfl
    have hdepth : (channelFollower permissions).delegationDepth = 1 := rfl
    have hsource : (channelFollower permissions).sourcePid = channelReader.targetPid := rfl
    simp [verifyDelegationChain, linksVerify, hroot, hdepth, hsource, maxDelegationDepth]
  signed := by
    have hroot : Minted [0x0b] channelReader := ⟨_, _, _, _, _, _, _, _, rfl⟩
    have hleaf : Minted [0x0b] (channelFollower permissions) := ⟨_, _, _, _, _, _, _, _, rfl⟩
    intro t ht
    rcases List.mem_cons.1 ht with rfl | ht
    · exact hroot.computeSignature_eq
    · rw [List.mem_singleton.1 ht]
      exact hleaf.computeSignature_eq

theorem neverAmplifies_channelFollower :
    (channelFollower ⟨true, false, false⟩).Within channelReader := by
  have hlinks : [channelReader, channelFollower ⟨true, false, false⟩].IsChain
      fun parent child => child.Within parent := by
    rw [List.isChain_pair]
    exact ⟨rfl, rfl, UInt64.le_refl _, UInt64.le_refl _⟩
  exact (neverAmplifies_of_links [0x0b]).1 _ _ hlinks (acceptedChain_follower _) channelReader rfl

/-- The second token may also write, and the chain is accepted. -/
theorem not_neverAmplifies_channelFollower :
    ¬NeverAmplifies [0x0b] (channelFollower ⟨true, true, false⟩)
      [channelReader, channelFollower ⟨true, true, false⟩] := by
  intro h
  have hwithin := h (acceptedChain_follower _) channelReader rfl
  exact Bool.false_ne_true hwithin.permissions

end Vuma.Ipc
