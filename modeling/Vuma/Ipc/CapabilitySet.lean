import Vuma.Ipc.Signature
import Vuma.Lib.HashMap

/-!
# Sets of capabilities and revocation

`CapabilitySet` of `ipc.rs`. A token does not say from which token it was delegated; revocation with
propagation takes for the children of a token the tokens whose source is its target and whose depth
is one more. `History` records next to a set what was really delegated. As long as the guess is
right, nothing is delegated from a revoked token and a token is not revoked alone while tokens
delegated from it are in force, revocation reaches every token that was delegated from the revoked
one, and no other.
-/

namespace Vuma.Ipc

open Lib

abbrev TokenId := BitVec 128

structure CapabilitySet where
  tokens : HashMap TokenId CapabilityToken
  revoked : Finset TokenId

/-- The errors of `delegate`. -/
inductive DelegateError where
  | capabilityNotFound | delegationDepthExceeded | permissionDenied
  deriving DecidableEq, Repr

def maxDelegationDepth : UInt8 := 8

namespace CapabilitySet

def grant (s : CapabilitySet) (token : CapabilityToken) : CapabilitySet :=
  { s with tokens := s.tokens.insert token.id token }

def revoke (s : CapabilitySet) (id : TokenId) : CapabilitySet :=
  { s with revoked := insert id s.revoked }

def verify (s : CapabilitySet) (token : CapabilityToken) (now : UInt64) : Bool :=
  if token.id ∈ s.revoked then false
  else if now > token.expiresAt then false
  else true

/-- `delegate`; `childId` is what `rand_u128` answers. -/
def delegate (s : CapabilitySet) (parentId : TokenId) (newTargetPid : UInt64)
    (subsetPerms : MemoryPermissions) (signingKey : Vector UInt8 32) (childId : TokenId) :
    Except DelegateError (CapabilityToken × CapabilitySet) :=
  match s.tokens.lookup parentId with
  | none => .error .capabilityNotFound
  | some parent =>
    if parent.delegationDepth ≥ maxDelegationDepth then .error .delegationDepthExceeded
    else if subsetPerms.read && !parent.permissions.read then .error .permissionDenied
    else if subsetPerms.write && !parent.permissions.write then .error .permissionDenied
    else if subsetPerms.execute && !parent.permissions.execute then .error .permissionDenied
    else
      let child : CapabilityToken :=
        { id := childId
          sourcePid := parent.targetPid
          targetPid := newTargetPid
          resource := parent.resource
          permissions := subsetPerms
          delegationDepth := parent.delegationDepth + 1
          createdAt := parent.createdAt
          expiresAt := parent.expiresAt
          signature := Vector.replicate 32 0 }
      let child := { child with signature := computeSignature child signingKey.toList }
      .ok (child, { s with tokens := s.tokens.insert child.id child })

section

variable (ord : KeyOrder TokenId)

/-- The tokens that are taken for children of `parent`. The sum `parent_depth + 1` is computed for
the tokens whose source is the target of `parent`; there is no result when it overflows. -/
def children (tokens : HashMap TokenId CapabilityToken) (parent : CapabilityToken) :
    Option (List TokenId) :=
  let sourced := (ord.order tokens.keys).filter fun k =>
    (tokens.lookup k).any fun t => t.sourcePid = parent.targetPid
  if sourced ≠ [] ∧ parent.delegationDepth = 255 then none
  else some (sourced.filter fun k =>
    (tokens.lookup k).any fun t => t.delegationDepth = parent.delegationDepth + 1)

omit ord in
theorem filter_notMem_insert (keys : List TokenId) (id : TokenId) (revoked : Finset TokenId) :
    keys.filter (· ∉ insert id revoked) = (keys.filter (· ∉ revoked)).filter (· ≠ id) := by
  rw [List.filter_filter]
  refine List.filter_congr fun k _ => ?_
  simp [Finset.mem_insert]

omit ord in
/-- There are fewer tokens to revoke. -/
theorem length_filter_notMem_insert_lt {keys : List TokenId} {id : TokenId}
    {revoked : Finset TokenId} (hmem : id ∈ keys) (hid : id ∉ revoked) :
    (keys.filter (· ∉ insert id revoked)).length < (keys.filter (· ∉ revoked)).length := by
  rw [filter_notMem_insert, List.length_filter_lt_length_iff_exists]
  exact ⟨id, List.mem_filter.mpr ⟨hmem, by simpa using hid⟩, by simp⟩

omit ord in
theorem length_filter_notMem_insert {keys : List TokenId} {id : TokenId} (hmem : id ∉ keys)
    (revoked : Finset TokenId) :
    (keys.filter (· ∉ insert id revoked)).length = (keys.filter (· ∉ revoked)).length := by
  refine congrArg List.length (List.filter_congr fun k hk => ?_)
  have hne : k ≠ id := fun he => hmem (he ▸ hk)
  simp [Finset.mem_insert, hne]

/-- The loop of `revoke_with_propagation`. The top of the worklist is the head of the list. -/
def revokeLoop (tokens : HashMap TokenId CapabilityToken) (revoked : Finset TokenId)
    (revokedList : List TokenId) : List TokenId → Option (List TokenId × Finset TokenId)
  | [] => some (revokedList, revoked)
  | current :: worklist =>
    if current ∈ revoked then revokeLoop tokens revoked revokedList worklist
    else
      match _ : tokens.lookup current with
      | none => revokeLoop tokens (insert current revoked) (revokedList ++ [current]) worklist
      | some parent =>
        match children ord tokens parent with
        | none => none
        | some cs =>
          revokeLoop tokens (insert current revoked) (revokedList ++ [current])
            (cs.reverse ++ worklist)
  termination_by worklist => ((tokens.keys.filter (· ∉ revoked)).length, worklist.length)
  decreasing_by
    · exact Prod.Lex.right _ (Nat.lt_succ_self _)
    next hnone =>
      rw [length_filter_notMem_insert (AList.lookup_eq_none.mp hnone)]
      exact Prod.Lex.right _ (Nat.lt_succ_self _)
    next hid hsome =>
      exact Prod.Lex.left _ _ (length_filter_notMem_insert_lt
        (AList.lookup_isSome.mp (by rw [hsome]; rfl)) hid)

theorem revokeLoop_of_lookup {tokens : HashMap TokenId CapabilityToken} {revoked : Finset TokenId}
    {revokedList worklist cs : List TokenId} {current : TokenId} {parent : CapabilityToken}
    (hin : current ∉ revoked) (hsome : tokens.lookup current = some parent)
    (hcs : children ord tokens parent = some cs) :
    revokeLoop ord tokens revoked revokedList (current :: worklist) =
      revokeLoop ord tokens (insert current revoked) (revokedList ++ [current])
        (cs.reverse ++ worklist) := by
  rw [revokeLoop, if_neg hin]
  split
  next hnone =>
    rw [hnone] at hsome
    cases hsome
  next parent' hsome' =>
    obtain rfl : parent = parent' := Option.some.inj (hsome.symm.trans hsome')
    rw [hcs]

def revokeWithPropagation (s : CapabilitySet) (id : TokenId) :
    Option (List TokenId × CapabilitySet) :=
  (revokeLoop ord s.tokens s.revoked [] [id]).map fun (revokedList, revoked) =>
    (revokedList, { s with revoked })

end

/-! ## What the loop revokes -/

/-- The token `c` is taken for a child of `p`. -/
def LooksLikeChild (tokens : HashMap TokenId CapabilityToken) (p c : TokenId) : Prop :=
  ∃ tp tc, tokens.lookup p = some tp ∧ tokens.lookup c = some tc ∧ tc.sourcePid = tp.targetPid ∧
    tc.delegationDepth = tp.delegationDepth + 1

/-- The search for children of `p` overflows. -/
def Overflows (tokens : HashMap TokenId CapabilityToken) (p : TokenId) : Prop :=
  ∃ tp k tk, tokens.lookup p = some tp ∧ tp.delegationDepth = 255 ∧ tokens.lookup k = some tk ∧
    tk.sourcePid = tp.targetPid

section

variable (ord : KeyOrder TokenId) {tokens : HashMap TokenId CapabilityToken}

theorem children_of_not_overflows {p : TokenId} {parent : CapabilityToken}
    (hp : tokens.lookup p = some parent) (h : ¬ Overflows tokens p) :
    ∃ cs, children ord tokens parent = some cs ∧ ∀ c, c ∈ cs ↔ LooksLikeChild tokens p c := by
  have hmem : ∀ {k t}, tokens.lookup k = some t → k ∈ ord.order tokens.keys := by
    intro k t hk
    rw [(ord.perm tokens.keys).mem_iff]
    exact AList.lookup_isSome.mp (by rw [hk]; rfl)
  unfold children
  rw [if_neg]
  · refine ⟨_, rfl, fun c => ?_⟩
    simp only [List.mem_filter, Option.any_eq_true, decide_eq_true_eq]
    constructor
    · rintro ⟨⟨-, t, ht, hsource⟩, t', ht', hdepth⟩
      obtain rfl : t = t' := Option.some.inj (ht.symm.trans ht')
      exact ⟨parent, t, hp, ht, hsource, hdepth⟩
    · rintro ⟨tp, tc, htp, htc, hsource, hdepth⟩
      obtain rfl : parent = tp := Option.some.inj (hp.symm.trans htp)
      exact ⟨⟨hmem htc, tc, htc, hsource⟩, tc, htc, hdepth⟩
  · rintro ⟨hne, hdepth⟩
    obtain ⟨k, hk⟩ := List.exists_mem_of_ne_nil _ hne
    simp only [List.mem_filter, Option.any_eq_true, decide_eq_true_eq] at hk
    obtain ⟨-, t, ht, hsource⟩ := hk
    exact h ⟨parent, k, t, hp, hdepth, ht, hsource⟩

/-- What the loop ends with: the worklist and all that is taken for delegated from it, down to
tokens that were revoked before. -/
structure Walked (tokens : HashMap TokenId CapabilityToken) (revoked : Finset TokenId)
    (worklist : List TokenId) (result : Finset TokenId) : Prop where
  subset : revoked ⊆ result
  listed : ∀ x ∈ worklist, x ∈ result
  reached : ∀ p ∈ result, p ∈ revoked ∨
    ∃ x ∈ worklist, Relation.ReflTransGen (LooksLikeChild tokens) x p
  closed : ∀ p ∈ result, p ∉ revoked → ∀ c, LooksLikeChild tokens p c → c ∈ result

/-- A token is revoked and its children are put on the worklist. -/
theorem Walked.cons {revoked result : Finset TokenId} {current : TokenId}
    {cs worklist : List TokenId}
    (hw : Walked tokens (insert current revoked) (cs ++ worklist) result)
    (hcs : ∀ c, c ∈ cs ↔ LooksLikeChild tokens current c) :
    Walked tokens revoked (current :: worklist) result where
  subset := (Finset.subset_insert _ _).trans hw.subset
  listed := by
    rintro x (_ | ⟨_, hx⟩)
    · exact hw.subset (Finset.mem_insert_self _ _)
    · exact hw.listed x (List.mem_append_right _ hx)
  reached := by
    intro p hp
    rcases hw.reached p hp with hp | ⟨x, hx, hwalk⟩
    · rcases Finset.mem_insert.mp hp with rfl | hp
      · exact .inr ⟨p, List.mem_cons_self .., .refl⟩
      · exact .inl hp
    · rcases List.mem_append.mp hx with hx | hx
      · exact .inr ⟨current, List.mem_cons_self .., hwalk.head ((hcs x).mp hx)⟩
      · exact .inr ⟨x, List.mem_cons_of_mem _ hx, hwalk⟩
  closed := by
    intro p hp hn c hc
    by_cases hcur : p = current
    · subst hcur
      exact hw.listed c (List.mem_append_left _ ((hcs c).mpr hc))
    · refine hw.closed p hp (fun hin => ?_) c hc
      rcases Finset.mem_insert.mp hin with h | h
      · exact hcur h
      · exact hn h

theorem revokeLoop_walked (revoked : Finset TokenId) (revokedList worklist : List TokenId)
    (h : ∀ x ∈ worklist, ∀ p, Relation.ReflTransGen (LooksLikeChild tokens) x p →
      ¬ Overflows tokens p) :
    ∃ ids result, revokeLoop ord tokens revoked revokedList worklist = some (ids, result) ∧
      Walked tokens revoked worklist result := by
  fun_induction revokeLoop ord tokens revoked revokedList worklist with
  | case1 revoked revokedList =>
    refine ⟨_, _, rfl, Finset.Subset.refl _, ?_, fun p hp => .inl hp, fun p hp hn => absurd hp hn⟩
    intro x hx
    cases hx
  | case2 revoked revokedList current worklist hin ih =>
    obtain ⟨ids, result, hrun, hw⟩ := ih fun x hx => h x (List.mem_cons_of_mem _ hx)
    refine ⟨ids, result, hrun, hw.subset, ?_, ?_, hw.closed⟩
    · rintro x (_ | ⟨_, hx⟩)
      · exact hw.subset hin
      · exact hw.listed x hx
    · intro p hp
      rcases hw.reached p hp with hp | ⟨x, hx, hwalk⟩
      · exact .inl hp
      · exact .inr ⟨x, List.mem_cons_of_mem _ hx, hwalk⟩
  | case3 revoked revokedList current worklist hin hnone ih =>
    obtain ⟨ids, result, hrun, hw⟩ := ih fun x hx => h x (List.mem_cons_of_mem _ hx)
    have hno : ∀ c, c ∈ [] ↔ LooksLikeChild tokens current c := by
      intro c
      constructor
      · intro hc
        cases hc
      · rintro ⟨tp, tc, htp, -⟩
        rw [hnone] at htp
        cases htp
    have hw' : Walked tokens (insert current revoked) ([] ++ worklist) result := hw
    exact ⟨ids, result, hrun, hw'.cons hno⟩
  | case4 revoked revokedList current worklist hin parent hsome hnone =>
    obtain ⟨cs, hcs, -⟩ := children_of_not_overflows ord hsome
      (h current (List.mem_cons_self ..) current .refl)
    rw [hnone] at hcs
    cases hcs
  | case5 revoked revokedList current worklist hin parent hsome cs hcs ih =>
    obtain ⟨cs', hcs', hmem⟩ := children_of_not_overflows ord hsome
      (h current (List.mem_cons_self ..) current .refl)
    obtain rfl : cs = cs' := Option.some.inj (hcs.symm.trans hcs')
    have hno : ∀ x ∈ cs.reverse ++ worklist, ∀ p,
        Relation.ReflTransGen (LooksLikeChild tokens) x p → ¬ Overflows tokens p := by
      intro x hx p hwalk
      rcases List.mem_append.mp hx with hx | hx
      · have hchild := (hmem x).mp (List.mem_reverse.mp hx)
        exact h current (List.mem_cons_self ..) p (hwalk.head hchild)
      · exact h x (List.mem_cons_of_mem _ hx) p hwalk
    obtain ⟨ids, result, hrun, hw⟩ := ih hno
    refine ⟨ids, result, hrun, hw.cons fun c => ?_⟩
    rw [List.mem_reverse]
    exact hmem c

end

end CapabilitySet

/-! ## Histories -/

/-- A call of one of the operations. -/
inductive CapOp where
  | grant (token : CapabilityToken)
  | delegate (parentId : TokenId) (newTargetPid : UInt64) (subsetPerms : MemoryPermissions)
      (signingKey : Vector UInt8 32) (childId : TokenId)
  | revoke (id : TokenId)
  | revokeWithPropagation (id : TokenId)

/-- A set with what has happened to it: which token was delegated from which, the ids of all tokens
that were made, and the ids that were revoked with propagation. -/
structure History where
  set : CapabilitySet
  delegations : List (TokenId × TokenId)
  minted : List TokenId
  propagated : List TokenId

namespace History

/-- Nothing has happened. -/
def start : History := ⟨⟨∅, ∅⟩, [], [], []⟩

/-- What a call does; there is no result when it overflows. -/
def step (ord : KeyOrder TokenId) (h : History) : CapOp → Option History
  | .grant token => some { h with set := h.set.grant token, minted := token.id :: h.minted }
  | .delegate parentId newTargetPid subsetPerms signingKey childId =>
    match h.set.delegate parentId newTargetPid subsetPerms signingKey childId with
    | .ok (child, set) => some
      { h with
        set
        delegations := (parentId, child.id) :: h.delegations
        minted := child.id :: h.minted }
    | .error _ => some h
  | .revoke id => some { h with set := h.set.revoke id }
  | .revokeWithPropagation id =>
    (h.set.revokeWithPropagation ord id).map fun (_, set) =>
      { h with set, propagated := id :: h.propagated }

/-- The call makes no token with an id that was used before. -/
def Fresh (h : History) : CapOp → Prop
  | .grant token => token.id ∉ h.minted
  | .delegate _ _ _ _ childId => childId ∉ h.minted
  | _ => True

/-- The token `c` was delegated from `p`. -/
def Delegated (h : History) (p c : TokenId) : Prop := (p, c) ∈ h.delegations

/-- The call delegates from no revoked token, revokes no token alone from which a token in force was
delegated, and takes for children of the tokens that it revokes only their children. -/
def Careful (h : History) : CapOp → Prop
  | .grant _ => True
  | .delegate parentId _ _ _ _ => parentId ∉ h.set.revoked
  | .revoke id => ∀ c, h.Delegated id c → c ∈ h.set.revoked
  | .revokeWithPropagation id => id ∈ h.set.revoked ∨
      ¬ CapabilitySet.Overflows h.set.tokens id ∧
      ∀ p, Relation.ReflTransGen h.Delegated id p → ∀ c,
        CapabilitySet.LooksLikeChild h.set.tokens p c → h.Delegated p c

/-- The histories of calls that satisfy `C`. -/
inductive Reached (ord : KeyOrder TokenId) (C : History → CapOp → Prop) : History → Prop where
  | start : Reached ord C start
  | step {h h' : History} (op : CapOp) (hr : Reached ord C h) (hC : C h op)
      (hstep : h.step ord op = some h') : Reached ord C h'

/-! ## Careful histories -/

/-- What holds along a careful history. -/
structure Inv (h : History) : Prop where
  closed : ∀ p c, h.Delegated p c → p ∈ h.set.revoked → c ∈ h.set.revoked
  child : ∀ p c, h.Delegated p c → CapabilitySet.LooksLikeChild h.set.tokens p c
  depth : ∀ p c, h.Delegated p c → ∀ t, h.set.tokens.lookup c = some t → t.delegationDepth ≠ 255
  minted : ∀ k t, h.set.tokens.lookup k = some t → k ∈ h.minted
  propagated : ∀ t ∈ h.propagated, t ∈ h.set.revoked

theorem inv_start : Inv start := by
  constructor
  · intro p c hpc
    cases hpc
  · intro p c hpc
    cases hpc
  · intro p c hpc
    cases hpc
  · intro k t hk
    cases hk
  · intro t ht
    cases ht

/-- All that is taken for delegated from a token was delegated from it. -/
theorem Careful.delegated_of_looksLikeChild {h : History} {id : TokenId}
    (hguess : ∀ p, Relation.ReflTransGen h.Delegated id p → ∀ c,
      CapabilitySet.LooksLikeChild h.set.tokens p c → h.Delegated p c) {p : TokenId}
    (hwalk : Relation.ReflTransGen (CapabilitySet.LooksLikeChild h.set.tokens) id p) :
    Relation.ReflTransGen h.Delegated id p := by
  induction hwalk with
  | refl => exact .refl
  | tail _ hlast ih => exact ih.tail (hguess _ ih _ hlast)

theorem Inv.revokeWithPropagation {h : History} (hinv : Inv h) (ord : KeyOrder TokenId)
    {id : TokenId} (hc : h.Careful (.revokeWithPropagation id)) :
    ∃ ids set, h.set.revokeWithPropagation ord id = some (ids, set) ∧ set.tokens = h.set.tokens ∧
      h.set.revoked ⊆ set.revoked ∧ id ∈ set.revoked ∧
      (∀ p ∈ set.revoked, p ∈ h.set.revoked ∨ Relation.ReflTransGen h.Delegated id p) ∧
      ∀ p c, h.Delegated p c → p ∈ set.revoked → c ∈ set.revoked := by
  rcases hc with hid | ⟨hover, hguess⟩
  · refine ⟨[], h.set, ?_, rfl, Finset.Subset.refl _, hid, fun p hp => .inl hp, hinv.closed⟩
    simp [CapabilitySet.revokeWithPropagation, CapabilitySet.revokeLoop, hid]
  have hno : ∀ x ∈ [id], ∀ p,
      Relation.ReflTransGen (CapabilitySet.LooksLikeChild h.set.tokens) x p →
        ¬ CapabilitySet.Overflows h.set.tokens p := by
    intro x hx p hwalk
    obtain rfl := List.mem_singleton.mp hx
    rcases (Careful.delegated_of_looksLikeChild hguess hwalk).cases_tail with rfl | ⟨q, -, hqp⟩
    · exact hover
    · rintro ⟨tp, -, -, htp, hdepth, -⟩
      exact hinv.depth q p hqp tp htp hdepth
  obtain ⟨ids, result, hrun, hw⟩ :=
    CapabilitySet.revokeLoop_walked ord h.set.revoked [] [id] hno
  refine ⟨ids, { h.set with revoked := result }, ?_, rfl, hw.subset,
    hw.listed id (List.mem_singleton_self _), ?_, ?_⟩
  · simp only [CapabilitySet.revokeWithPropagation, hrun, Option.map_some]
  · intro p hp
    rcases hw.reached p hp with hp | ⟨x, hx, hwalk⟩
    · exact .inl hp
    · obtain rfl := List.mem_singleton.mp hx
      exact .inr (Careful.delegated_of_looksLikeChild hguess hwalk)
  · intro p c hpc hp
    by_cases hold : p ∈ h.set.revoked
    · exact hw.subset (hinv.closed p c hpc hold)
    · exact hw.closed p hp hold c (hinv.child p c hpc)

/-- A new token does not change the others. -/
theorem lookup_insert_of_minted {h : History} (hinv : Inv h) {token : CapabilityToken}
    (hfresh : token.id ∉ h.minted) {k : TokenId} {t : CapabilityToken}
    (hk : h.set.tokens.lookup k = some t) :
    (h.set.tokens.insert token.id token).lookup k = some t := by
  rw [HashMap.lookup_insert_ite, if_neg, hk]
  rintro rfl
  exact hfresh (hinv.minted _ t hk)

theorem looksLikeChild_insert {h : History} (hinv : Inv h) {token : CapabilityToken}
    (hfresh : token.id ∉ h.minted) {p c : TokenId}
    (hpc : CapabilitySet.LooksLikeChild h.set.tokens p c) :
    CapabilitySet.LooksLikeChild (h.set.tokens.insert token.id token) p c := by
  obtain ⟨tp, tc, htp, htc, hsource⟩ := hpc
  exact ⟨tp, tc, lookup_insert_of_minted hinv hfresh htp, lookup_insert_of_minted hinv hfresh htc,
    hsource⟩

theorem minted_insert {h : History} (hinv : Inv h) (token : CapabilityToken) {k : TokenId}
    {t : CapabilityToken} (hk : (h.set.tokens.insert token.id token).lookup k = some t) :
    k ∈ token.id :: h.minted := by
  rw [HashMap.lookup_insert_ite] at hk
  split at hk
  next heq => exact heq ▸ List.mem_cons_self ..
  · exact List.mem_cons_of_mem _ (hinv.minted k t hk)

/-- The depth of a child stays as it was. -/
theorem depth_insert {h : History} (hinv : Inv h) {token : CapabilityToken}
    (hfresh : token.id ∉ h.minted) {p c : TokenId} (hpc : h.Delegated p c) {t : CapabilityToken}
    (ht : (h.set.tokens.insert token.id token).lookup c = some t) : t.delegationDepth ≠ 255 := by
  obtain ⟨-, tc, -, htc, -⟩ := hinv.child p c hpc
  rw [lookup_insert_of_minted hinv hfresh htc] at ht
  cases ht
  exact hinv.depth p c hpc _ htc

theorem Inv.grant {h : History} (hinv : Inv h) {token : CapabilityToken}
    (hfresh : token.id ∉ h.minted) :
    Inv { h with set := h.set.grant token, minted := token.id :: h.minted } where
  closed := hinv.closed
  child p c hpc := looksLikeChild_insert hinv hfresh (hinv.child p c hpc)
  depth _ _ hpc _ ht := depth_insert hinv hfresh hpc ht
  minted _ _ hk := minted_insert hinv token hk
  propagated := hinv.propagated

/-- What a successful delegation does. -/
theorem delegate_eq_ok {s s' : CapabilitySet} {parentId childId : TokenId} {pid : UInt64}
    {perms : MemoryPermissions} {key : Vector UInt8 32} {child : CapabilityToken}
    (h : s.delegate parentId pid perms key childId = .ok (child, s')) :
    ∃ parent, s.tokens.lookup parentId = some parent ∧ child.id = childId ∧
      parent.delegationDepth < 8 ∧ child.sourcePid = parent.targetPid ∧
      child.delegationDepth = parent.delegationDepth + 1 ∧
      s' = { s with tokens := s.tokens.insert childId child } := by
  unfold CapabilitySet.delegate at h
  split at h
  · cases h
  next parent hparent =>
    split_ifs at h with hdepth
    cases h
    exact ⟨parent, hparent, rfl, UInt8.not_le.mp hdepth, rfl, rfl, rfl⟩

theorem Inv.delegate {h : History} (hinv : Inv h) {parentId : TokenId}
    (hparent : parentId ∉ h.set.revoked) {parent child : CapabilityToken}
    (hfresh : child.id ∉ h.minted) (hlookup : h.set.tokens.lookup parentId = some parent)
    (hdepth : parent.delegationDepth < 8) (hsource : child.sourcePid = parent.targetPid)
    (hchild : child.delegationDepth = parent.delegationDepth + 1) :
    Inv
      { h with
        set := { h.set with tokens := h.set.tokens.insert child.id child }
        delegations := (parentId, child.id) :: h.delegations
        minted := child.id :: h.minted } where
  closed := by
    rintro p c (_ | ⟨_, hpc⟩) hp
    · exact absurd hp hparent
    · exact hinv.closed p c hpc hp
  child := by
    rintro p c (_ | ⟨_, hpc⟩)
    · exact ⟨parent, child, lookup_insert_of_minted hinv hfresh hlookup, AList.lookup_insert _,
        hsource, hchild⟩
    · exact looksLikeChild_insert hinv hfresh (hinv.child p c hpc)
  depth := by
    rintro p c (_ | ⟨_, hpc⟩) t ht
    · have heq : child = t := by simpa [AList.lookup_insert] using ht
      rw [← heq, hchild]
      intro h255
      have h255 := congrArg UInt8.toNat h255
      have hlt := UInt8.lt_iff_toNat_lt.mp hdepth
      simp only [UInt8.toNat_add, UInt8.reduceToNat] at h255 hlt
      omega
    · exact depth_insert hinv hfresh hpc ht
  minted _ _ hk := minted_insert hinv child hk
  propagated := hinv.propagated

theorem Inv.step {ord : KeyOrder TokenId} {h h' : History} {op : CapOp} (hinv : Inv h)
    (hfresh : h.Fresh op) (hcareful : h.Careful op) (hstep : h.step ord op = some h') : Inv h' := by
  cases op with
  | grant token =>
    cases hstep
    exact hinv.grant hfresh
  | delegate parentId pid perms key childId =>
    simp only [History.step] at hstep
    split at hstep
    next child set hok =>
      cases hstep
      obtain ⟨parent, hparent, rfl, hdepth, hsource, hchild, rfl⟩ := delegate_eq_ok hok
      exact hinv.delegate hcareful hfresh hparent hdepth hsource hchild
    · cases hstep
      exact hinv
  | revoke id =>
    cases hstep
    refine ⟨?_, hinv.child, hinv.depth, hinv.minted, ?_⟩
    · intro p c hpc hp
      rcases Finset.mem_insert.mp hp with rfl | hp
      · exact Finset.mem_insert_of_mem (hcareful c hpc)
      · exact Finset.mem_insert_of_mem (hinv.closed p c hpc hp)
    · intro t ht
      exact Finset.mem_insert_of_mem (hinv.propagated t ht)
  | revokeWithPropagation id =>
    obtain ⟨ids, set, hrun, htokens, hsub, hid, -, hclosed⟩ :=
      hinv.revokeWithPropagation ord hcareful
    simp only [History.step, hrun, Option.map_some] at hstep
    cases hstep
    refine ⟨hclosed, ?_, ?_, ?_, ?_⟩
    · rw [htokens]
      exact hinv.child
    · rw [htokens]
      exact hinv.depth
    · rw [htokens]
      exact hinv.minted
    · rintro t (_ | ⟨_, ht⟩)
      · exact hid
      · exact hsub (hinv.propagated t ht)

theorem Inv.of_reached {ord : KeyOrder TokenId} {h : History}
    (hr : Reached ord (fun h op => h.Fresh op ∧ h.Careful op) h) : Inv h := by
  induction hr with
  | start => exact inv_start
  | step op _ hC hstep ih => exact ih.step hC.1 hC.2 hstep

/-- Every token that was delegated from a token revoked with propagation is rejected, and revoking a
token with propagation comes back and revokes nothing but the token and what was delegated from
it. -/
def RevokesTransitively (ord : KeyOrder TokenId) (h : History) (op : CapOp) : Prop :=
  (∀ t ∈ h.propagated, ∀ token : CapabilityToken,
    Relation.TransGen h.Delegated t token.id → ∀ now, h.set.verify token now = false) ∧
  ∀ id, op = .revokeWithPropagation id → ∃ ids set,
    h.set.revokeWithPropagation ord id = some (ids, set) ∧
    ∀ k ∈ set.revoked, k ∈ h.set.revoked ∨ k = id ∨ Relation.TransGen h.Delegated id k

theorem Inv.revoked_of_transGen {h : History} (hinv : Inv h) {t c : TokenId}
    (ht : t ∈ h.set.revoked) (hdel : Relation.TransGen h.Delegated t c) : c ∈ h.set.revoked := by
  induction hdel with
  | single hpc => exact hinv.closed _ _ hpc ht
  | tail _ hpc ih => exact hinv.closed _ _ hpc ih

/-- In a history of careful calls, revocation is transitive. -/
theorem revokesTransitively_of_careful {ord : KeyOrder TokenId} {h : History}
    (hr : Reached ord (fun h op => h.Fresh op ∧ h.Careful op) h) {op : CapOp}
    (hop : h.Careful op) : RevokesTransitively ord h op := by
  have hinv := Inv.of_reached hr
  constructor
  · intro t ht token hdel now
    rw [CapabilitySet.verify, if_pos (hinv.revoked_of_transGen (hinv.propagated t ht) hdel)]
  · rintro id rfl
    obtain ⟨ids, set, hrun, -, -, -, hreached, -⟩ := hinv.revokeWithPropagation ord hop
    refine ⟨ids, set, hrun, fun k hk => ?_⟩
    rcases hreached k hk with hk | hk
    · exact .inl hk
    · rcases Relation.reflTransGen_iff_eq_or_transGen.mp hk with rfl | hk
      · exact .inr (.inl rfl)
      · exact .inr (.inr hk)

/-! ## Examples -/

/-- A token of process 20. -/
def rootToken : CapabilityToken :=
  ⟨1, 10, 20, .channel 7, ⟨true, true, false⟩, 0, 0, 100, Vector.replicate 32 0⟩

/-- The token `childId` for process `pid` that is delegated from a token of depth `depth` of the
process `source`. -/
def delegatedToken (childId : TokenId) (source pid : UInt64) (depth : UInt8) : CapabilityToken :=
  let child : CapabilityToken :=
    ⟨childId, source, pid, .channel 7, ⟨true, false, false⟩, depth, 0, 100, Vector.replicate 32 0⟩
  { child with signature := computeSignature child (Vector.replicate 32 0).toList }

/-- A token is granted and a token is delegated from it. -/
def oneDelegation : History where
  set := ⟨((∅ : HashMap TokenId CapabilityToken).insert 1 rootToken).insert 2
    (delegatedToken 2 20 30 1), ∅⟩
  delegations := [(1, 2)]
  minted := [2, 1]
  propagated := []

theorem reached_oneDelegation {C : History → CapOp → Prop}
    (hgrant : C start (.grant rootToken))
    (hdelegate : C { start with set := start.set.grant rootToken, minted := [1] }
      (.delegate 1 30 ⟨true, false, false⟩ (Vector.replicate 32 0) 2)) :
    Reached KeyOrder.id C oneDelegation :=
  .step _ (.step _ .start hgrant rfl) hdelegate rfl

theorem looksLikeChild_oneDelegation {p c : TokenId}
    (h : CapabilitySet.LooksLikeChild oneDelegation.set.tokens p c) :
    oneDelegation.Delegated p c := by
  have hlookup : ∀ {k t}, oneDelegation.set.tokens.lookup k = some t →
      (k = 2 ∧ delegatedToken 2 20 30 1 = t) ∨ (k = 1 ∧ rootToken = t) := by
    intro k t hk
    simp only [oneDelegation, HashMap.lookup_insert_ite] at hk
    split at hk
    next h2 => exact .inl ⟨h2, Option.some.inj hk⟩
    · split at hk
      next h1 => exact .inr ⟨h1, Option.some.inj hk⟩
      · cases hk
  obtain ⟨tp, tc, htp, htc, hsource, -⟩ := h
  rcases hlookup htp with ⟨rfl, rfl⟩ | ⟨rfl, rfl⟩
  · rcases hlookup htc with ⟨rfl, rfl⟩ | ⟨rfl, rfl⟩
    · exact absurd hsource (by decide)
    · exact absurd hsource (by decide)
  · rcases hlookup htc with ⟨rfl, rfl⟩ | ⟨rfl, rfl⟩
    · exact List.mem_singleton_self _
    · exact absurd hsource (by decide)

/-- The delegated token is revoked with the token it was delegated from. -/
theorem revokesTransitively_oneDelegation :
    ∃ h, Reached KeyOrder.id (fun h op => h.Fresh op ∧ h.Careful op) h ∧ 1 ∈ h.propagated ∧
      h.Delegated 1 2 ∧ RevokesTransitively KeyOrder.id h (.revoke 3) := by
  have hreached : Reached KeyOrder.id (fun h op => h.Fresh op ∧ h.Careful op) oneDelegation := by
    refine reached_oneDelegation ⟨?_, trivial⟩ ⟨?_, ?_⟩
    · exact List.not_mem_nil
    · show (2 : TokenId) ∉ [1]
      decide
    · exact Finset.notMem_empty _
  have hcareful : oneDelegation.Careful (.revokeWithPropagation 1) := by
    refine .inr ⟨?_, fun p _ c hpc => looksLikeChild_oneDelegation hpc⟩
    rintro ⟨tp, -, -, htp, hdepth, -⟩
    obtain rfl : rootToken = tp := Option.some.inj htp
    exact absurd hdepth (by decide)
  obtain ⟨ids, set, hrun, -, hrest⟩ :=
    (Inv.of_reached hreached).revokeWithPropagation KeyOrder.id hcareful
  have hstep : oneDelegation.step KeyOrder.id (.revokeWithPropagation 1) =
      some { oneDelegation with set, propagated := [1] } := by
    simp only [History.step, hrun, Option.map_some]
    rfl
  have hlast := Reached.step (.revokeWithPropagation 1) hreached ⟨trivial, hcareful⟩ hstep
  refine ⟨_, hlast, List.mem_singleton_self _, List.mem_singleton_self _,
    revokesTransitively_of_careful hlast ?_⟩
  intro c hc
  have hpair : ((3 : TokenId), c) = (1, 2) := List.mem_singleton.mp hc
  have hfst : (3 : TokenId) = 1 := congrArg Prod.fst hpair
  exact absurd hfst (by decide)

/-- A second token is delegated from the first, and the first is revoked alone. -/
def twoDelegations : History where
  set := ⟨(((∅ : HashMap TokenId CapabilityToken).insert 1 rootToken).insert 2
    (delegatedToken 2 20 30 1)).insert 3 (delegatedToken 3 30 40 2), {2}⟩
  delegations := [(2, 3), (1, 2)]
  minted := [3, 2, 1]
  propagated := []

theorem reached_twoDelegations : Reached KeyOrder.id Fresh twoDelegations := by
  have hone : Reached KeyOrder.id Fresh oneDelegation := by
    refine reached_oneDelegation List.not_mem_nil ?_
    show (2 : TokenId) ∉ [1]
    decide
  refine .step (.revoke 2) (.step (.delegate 2 40 ⟨true, false, false⟩ (Vector.replicate 32 0) 3)
    hone ?_ rfl) trivial rfl
  show (3 : TokenId) ∉ [2, 1]
  decide

/-- A token stays in force although a token it was delegated from, through one that was revoked
alone, is revoked with propagation. -/
theorem not_revokesTransitively :
    ¬ ∀ (ord : KeyOrder TokenId) (h : History), Reached ord Fresh h →
      ∀ op, RevokesTransitively ord h op := by
  intro h
  have hrun : twoDelegations.set.revokeWithPropagation KeyOrder.id 1 =
      some ([1], { twoDelegations.set with revoked := {1, 2} }) := by
    have hchildren : CapabilitySet.children KeyOrder.id twoDelegations.set.tokens rootToken =
        some [2] := rfl
    have hroot : twoDelegations.set.tokens.lookup 1 = some rootToken := rfl
    have hloop : CapabilitySet.revokeLoop KeyOrder.id twoDelegations.set.tokens {2} [] [1] =
        some ([1], {1, 2}) := by
      rw [CapabilitySet.revokeLoop_of_lookup KeyOrder.id (by decide) hroot hchildren]
      simp [CapabilitySet.revokeLoop]
    exact congrArg (Option.map _) hloop
  have hstep : twoDelegations.step KeyOrder.id (.revokeWithPropagation 1) =
      some { twoDelegations with
        set := { twoDelegations.set with revoked := {1, 2} }, propagated := [1] } := by
    simp only [History.step, hrun, Option.map_some]
    rfl
  have hlast :=
    Reached.step (C := Fresh) (.revokeWithPropagation 1) reached_twoDelegations trivial hstep
  obtain ⟨hreject, -⟩ := h KeyOrder.id _ hlast (.revoke 1)
  have hverify := hreject 1 (List.mem_singleton_self _) (delegatedToken 3 30 40 2)
    (.tail (b := 2) (.single ?_) ?_) 0
  · revert hverify
    simp [CapabilitySet.verify, delegatedToken]
  · exact List.mem_cons_of_mem _ (List.mem_singleton_self _)
  · exact List.mem_cons_self ..

/-! ## Revocation is for good -/

/-- The loop takes no revocation back and revokes all of its worklist. -/
theorem revokeLoop_revokes {ord : KeyOrder TokenId} {tokens : HashMap TokenId CapabilityToken}
    {revoked result : Finset TokenId} {revokedList worklist ids : List TokenId}
    (h : CapabilitySet.revokeLoop ord tokens revoked revokedList worklist = some (ids, result)) :
    revoked ⊆ result ∧ ∀ x ∈ worklist, x ∈ result := by
  fun_induction CapabilitySet.revokeLoop ord tokens revoked revokedList worklist with
  | case1 revoked revokedList =>
    cases h
    exact ⟨Finset.Subset.refl _, List.forall_mem_nil _⟩
  | case2 revoked revokedList current worklist hin ih =>
    obtain ⟨hsub, hlisted⟩ := ih h
    exact ⟨hsub, List.forall_mem_cons.mpr ⟨hsub hin, hlisted⟩⟩
  | case3 revoked revokedList current worklist hin hnone ih =>
    obtain ⟨hsub, hlisted⟩ := ih h
    obtain ⟨hid, hsub⟩ := Finset.insert_subset_iff.mp hsub
    exact ⟨hsub, List.forall_mem_cons.mpr ⟨hid, hlisted⟩⟩
  | case4 => cases h
  | case5 revoked revokedList current worklist hin parent hsome cs hcs ih =>
    obtain ⟨hsub, hlisted⟩ := ih h
    obtain ⟨hid, hsub⟩ := Finset.insert_subset_iff.mp hsub
    exact ⟨hsub, List.forall_mem_cons.mpr ⟨hid, (List.forall_mem_append.mp hlisted).2⟩⟩

/-- What a call does: it adds one token at most, takes no revocation back and revokes its own id. -/
theorem step_cases {ord : KeyOrder TokenId} {h h' : History} {op : CapOp}
    (hstep : h.step ord op = some h') :
    (h'.set.tokens = h.set.tokens ∨ ∃ token, h'.set.tokens = h.set.tokens.insert token.id token ∧
      (op = .grant token ∨ ∃ parent : CapabilityToken,
        parent.delegationDepth < maxDelegationDepth ∧
        token.delegationDepth = parent.delegationDepth + 1)) ∧
    h.set.revoked ⊆ h'.set.revoked ∧
    ∀ id, op = .revoke id ∨ op = .revokeWithPropagation id → id ∈ h'.set.revoked := by
  cases op with
  | grant token =>
    cases hstep
    exact ⟨.inr ⟨token, rfl, .inl rfl⟩, Finset.Subset.refl _, by simp⟩
  | delegate parentId pid perms key childId =>
    simp only [History.step] at hstep
    split at hstep
    next child set hok =>
      cases hstep
      obtain ⟨parent, -, rfl, hlt, -, hdepth, rfl⟩ := delegate_eq_ok hok
      exact ⟨.inr ⟨child, rfl, .inr ⟨parent, hlt, hdepth⟩⟩, Finset.Subset.refl _, by simp⟩
    · cases hstep
      exact ⟨.inl rfl, Finset.Subset.refl _, by simp⟩
  | revoke id =>
    cases hstep
    exact ⟨.inl rfl, Finset.subset_insert _ _, by simp [CapabilitySet.revoke]⟩
  | revokeWithPropagation id =>
    obtain ⟨⟨ids, set⟩, hrun, hset⟩ := Option.map_eq_some_iff.mp hstep
    obtain ⟨⟨ids', revoked⟩, hloop, heq⟩ := Option.map_eq_some_iff.mp hrun
    cases heq
    cases hset
    obtain ⟨hsub, hlisted⟩ := revokeLoop_revokes hloop
    exact ⟨.inl rfl, hsub, by simpa using hlisted⟩

/-- A token that was revoked is refused for good, also if it is granted again. -/
theorem verify_eq_false_of_revoked {ord : KeyOrder TokenId} {h h₁ h₂ : History} {op : CapOp}
    {token : CapabilityToken} (hop : op = .revoke token.id ∨ op = .revokeWithPropagation token.id)
    (hstep : h.step ord op = some h₁)
    (hrun : Relation.ReflTransGen (fun h h' => ∃ op, h.step ord op = some h') h₁ h₂)
    (now : UInt64) : h₂.set.verify token now = false := by
  have hmem : token.id ∈ h₂.set.revoked := by
    induction hrun with
    | refl => exact (step_cases hstep).2.2 _ hop
    | tail _ hlast ih => exact (step_cases hlast.choose_spec).2.1 ih
  rw [CapabilitySet.verify, if_pos hmem]

/-- A revoked token is granted again. -/
theorem verify_rootToken :
    ((start.set.revoke 1).grant rootToken).verify rootToken 0 = false :=
  verify_eq_false_of_revoked (.inl rfl) (show start.step .id _ = _ from rfl)
    (.single ⟨.grant rootToken, rfl⟩) 0

/-! ## Depths -/

/-- Tokens are granted with a depth that delegation can reach. -/
def Shallow : CapOp → Prop
  | .grant token => token.delegationDepth ≤ maxDelegationDepth
  | _ => True

theorem depth_le_of_shallow {ord : KeyOrder TokenId} {h : History}
    (hr : Reached ord (fun _ => Shallow) h) {k : TokenId} {t : CapabilityToken}
    (ht : h.set.tokens.lookup k = some t) : t.delegationDepth ≤ maxDelegationDepth := by
  induction hr generalizing k t with
  | start => cases ht
  | step op _ hC hstep ih =>
    rcases (step_cases hstep).1 with heq | ⟨token, heq, hnew⟩
    · exact ih (heq ▸ ht)
    · rw [heq, HashMap.lookup_insert_ite] at ht
      split at ht
      · obtain rfl := Option.some.inj ht
        rcases hnew with rfl | ⟨parent, hlt, hdepth⟩
        · exact hC
        · rw [UInt8.lt_iff_toNat_lt] at hlt
          rw [hdepth, UInt8.le_iff_toNat_le, UInt8.toNat_add]
          exact (Nat.mod_le _ _).trans hlt
      · exact ih ht

/-- If no token is granted too deep, every call returns. -/
theorem step_isSome_of_shallow {ord : KeyOrder TokenId} {h : History}
    (hr : Reached ord (fun _ => Shallow) h) (op : CapOp) : (h.step ord op).isSome := by
  have hno : ∀ p, ¬ CapabilitySet.Overflows h.set.tokens p := by
    rintro p ⟨tp, -, -, htp, hdepth, -⟩
    have hle := depth_le_of_shallow hr htp
    rw [hdepth] at hle
    exact absurd hle (by decide)
  cases op with
  | grant token => rfl
  | delegate parentId pid perms key childId =>
    rw [History.step]
    split <;> rfl
  | revoke id => rfl
  | revokeWithPropagation id =>
    obtain ⟨ids, result, hrun, -⟩ :=
      CapabilitySet.revokeLoop_walked ord h.set.revoked [] [id] fun _ _ p _ => hno p
    simp [History.step, CapabilitySet.revokeWithPropagation, hrun]

theorem step_isSome_oneDelegation :
    (oneDelegation.step KeyOrder.id (.revokeWithPropagation 1)).isSome :=
  step_isSome_of_shallow (reached_oneDelegation (C := fun _ => Shallow)
    (show (0 : UInt8) ≤ 8 by decide) trivial) _

end History

end Vuma.Ipc
