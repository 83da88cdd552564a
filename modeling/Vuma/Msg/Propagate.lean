import Vuma.Msg.Graph

/-!
# Propagation after an update

After the entities of a graph have been exchanged, the accesses that the exchange touches are
verified again. The entities are final by then; what is at stake is whether this comes to an end.
`PropagationEnds` says when it does, whatever the order in which the hash maps are gone through.
-/

namespace Vuma.Msg

open Lib Entity

/-- The outcome of an update, `DeltaResult`. -/
structure DeltaResult (ε : Type) where
  success : Bool
  warnings : List ε
  reverified : List (AccessId × VerificationStatus)
  recomputedDerivations : List DerivationId
  invalidatedRegions : List RegionId

/-- The orders of the hash sets and hash maps that an update goes through. -/
structure ApplyOrder where
  removedRegions : KeyOrder Nat
  removedDerivations : KeyOrder Nat
  removedAccesses : KeyOrder Nat
  removedSyncEdges : KeyOrder Nat
  accesses : KeyOrder Nat
  derivations : KeyOrder Nat

/-- The elements a test that may not return accepts. -/
def filterReturning (p : Nat → Option Bool) : List Nat → Option (List Nat)
  | [] => some []
  | x :: l => do
    let b ← p x
    let l' ← filterReturning p l
    return if b then x :: l' else l'

/-- Whether an access leads to a region, the test of `find_accesses_to_region`. -/
def accessResolvesToRegion (msg : MSG) (rid : RegionId) (aid : AccessId) : Option Bool :=
  match msg.accesses.get aid with
  | some access =>
    match msg.derivations.get access.target with
    | some deriv => derivationResolvesToRegion msg deriv rid
    | none => some false
  | none => some false

def findAccessesToRegion (order : ApplyOrder) (msg : MSG) (rid : RegionId) :
    Option (List AccessId) :=
  filterReturning (accessResolvesToRegion msg rid) (order.accesses.order msg.accesses.ids)

/-- The loop of `find_downstream_derivations`. -/
def downstreamAmong (msg : MSG) (sources : List DerivationId) :
    List DerivationId → List DerivationId → Option (List Derivation)
  | [], _ => some []
  | did :: rest, visited =>
    if did ∈ sources then downstreamAmong msg sources rest visited
    else
      match msg.derivations.get did with
      | none => downstreamAmong msg sources rest visited
      | some deriv => do
        let (derived, visited) ← isDerivedFromAny msg sources deriv visited
        let ds ← downstreamAmong msg sources rest visited
        return if derived then deriv :: ds else ds

def findDownstreamDerivations (order : ApplyOrder) (msg : MSG) (sources : List DerivationId) :
    Option (List Derivation) :=
  downstreamAmong msg sources (order.derivations.order msg.derivations.ids) []

/-- The derivations below removed ones, looked for only when there are removed ones. -/
def downstreamOfRemoved (order : ApplyOrder) (msg : MSG) (removed : List DerivationId) :
    Option (List Derivation) :=
  if removed.isEmpty then some [] else findDownstreamDerivations order msg removed

def findAccessesViaDerivation (order : ApplyOrder) (msg : MSG) (did : DerivationId) :
    List AccessId :=
  (order.accesses.order msg.accesses.ids).filter fun aid =>
    match msg.accesses.get aid with
    | some access => access.target = did
    | none => false

/-- Verify some accesses again. -/
def reverify (msg : MSG) (aids : List AccessId) :
    Option (List (AccessId × VerificationStatus)) :=
  aids.mapM fun aid => do return (aid, ← verifyAccess msg aid)

/-- Verify the accesses that go through some derivations again. -/
def reverifyVia (order : ApplyOrder) (msg : MSG) (derivs : List Derivation) :
    Option (List (AccessId × VerificationStatus)) := do
  return (← derivs.mapM fun d => reverify msg (findAccessesViaDerivation order msg d.id)).flatten

/-- Keep the first status of each access. -/
def retainFirst : List AccessId → List (AccessId × VerificationStatus) →
    List (AccessId × VerificationStatus)
  | _, [] => []
  | seen, (aid, status) :: l =>
    if aid ∈ seen then retainFirst seen l else (aid, status) :: retainFirst (aid :: seen) l

/-- The phases 4 and 5 of `apply_delta`. -/
def propagate {ε : Type} (order : ApplyOrder) (msg : MSG)
    (removedRegions removedDerivations : List Nat) (result : DeltaResult ε) :
    Option (DeltaResult ε) := do
  let removed := order.removedRegions.order removedRegions
  let gone ← removed.mapM fun rid => do
    return (← findAccessesToRegion order msg rid).map fun aid =>
      (aid, VerificationStatus.provenUnsafe)
  let invalidated := result.invalidatedRegions ++ removed
  let viaRegions ← invalidated.mapM fun rid => do
    reverify msg (← findAccessesToRegion order msg rid)
  let downstream ← downstreamOfRemoved order msg removedDerivations
  let viaRemoved ← reverifyVia order msg downstream
  let recomputed := result.recomputedDerivations ++ downstream.map Derivation.id
  let viaRecomputed ← recomputed.mapM fun did => do
    reverifyVia order msg (← findDownstreamDerivations order msg [did])
  return { result with
    invalidatedRegions := invalidated
    recomputedDerivations := recomputed
    reverified := retainFirst []
      (gone.flatten ++ viaRegions.flatten ++ viaRemoved ++ viaRecomputed.flatten) }

/-- The parents of a derivation come to an end. -/
inductive WalkEnds (msg : MSG) : DerivationSource → Prop where
  | region (rid : RegionId) : WalkEnds msg (.region rid)
  | missing {p : DerivationId} (h : msg.derivations.get p = none) :
      WalkEnds msg (.anotherDerivation p)
  | parent {p : DerivationId} {d : Derivation} (h : msg.derivations.get p = some d)
      (hd : WalkEnds msg d.source) : WalkEnds msg (.anotherDerivation p)

/-- A derivation has one of the given ones among its parents. -/
inductive DerivedFrom (msg : MSG) (sources : DerivationId → Prop) : Derivation → Prop where
  | direct {d : Derivation} {p : DerivationId} (h : d.source = .anotherDerivation p)
      (hp : sources p) : DerivedFrom msg sources d
  | step {d e : Derivation} {p : DerivationId} (h : d.source = .anotherDerivation p)
      (hp : msg.derivations.get p = some e) (he : DerivedFrom msg sources e) :
      DerivedFrom msg sources d

/-- A derivation of the graph below the given ones and not one of them. -/
structure Below (msg : MSG) (sources : DerivationId → Prop) (d : Derivation) : Prop where
  mem : msg.derivations.get d.id = some d
  other : ¬ sources d.id
  derived : DerivedFrom msg sources d

/-- The accesses that go through a derivation can be verified. -/
def Verifies (msg : MSG) (d : Derivation) : Prop :=
  ∀ aid a, msg.accesses.get aid = some a → a.target = d.id → (verifyAccess msg aid).isSome

/-- The propagation comes to an end when the given regions were removed or changed and the given
derivations were removed and changed. -/
structure PropagationEnds (msg : MSG) (touched : RegionId → Prop)
    (removed changed : DerivationId → Prop) : Prop where
  walks : (∃ rid, touched rid) → ∀ aid a d, msg.accesses.get aid = some a →
    msg.derivations.get a.target = some d → WalkEnds msg d.source
  regions : ∀ rid, touched rid → ∀ aid a d, msg.accesses.get aid = some a →
    msg.derivations.get a.target = some d → baseRegion msg d.source = some (some rid) →
    (verifyAccess msg aid).isSome
  below : ∀ d, Below msg removed d →
    Verifies msg d ∧ ∀ e, Below msg (· = d.id) e → Verifies msg e
  belowChanged : ∀ did, changed did → ∀ d, Below msg (· = did) d → Verifies msg d

section Walk

variable {msg : MSG} {s : DerivationSource} {d : Derivation} {rid : RegionId}

theorem WalkEnds.baseRegion_eq_some (h : WalkEnds msg s) : ∃ o, baseRegion msg s = some o := by
  induction h with
  | region rid => exact ⟨some rid, by rw [baseRegion]⟩
  | missing h => exact ⟨none, by rw [baseRegion, h]⟩
  | parent h _ ih =>
    obtain ⟨o, ho⟩ := ih
    exact ⟨o, by rw [baseRegion, h]; exact ho⟩

theorem walkEnds_of_baseRegion {o : Option RegionId} (h : baseRegion msg s = some o) :
    WalkEnds msg s := by
  refine MSG.baseRegion.partial_correctness msg (fun s _ => WalkEnds msg s) ?_ s o h
  intro walk ih s o h
  cases s with
  | region rid => exact .region rid
  | anotherDerivation p =>
    cases hp : msg.derivations.get p with
    | none => exact .missing hp
    | some d =>
      simp only [hp] at h
      exact .parent hp (ih d.source o h)

theorem walkEnds_of_resolves {b : Bool} (h : derivationResolvesToRegion msg d rid = some b) :
    WalkEnds msg d.source := by
  refine MSG.derivationResolvesToRegion.partial_correctness msg rid
    (fun d _ => WalkEnds msg d.source) ?_ d b h
  intro walk ih d b h
  cases hs : d.source with
  | region rid => exact .region rid
  | anotherDerivation p =>
    cases hp : msg.derivations.get p with
    | none => exact .missing hp
    | some e =>
      simp only [hs, hp] at h
      exact .parent hp (ih e b h)

theorem derivationResolvesToRegion_of_baseRegion (h : WalkEnds msg s) (hs : d.source = s)
    {o : Option RegionId} (ho : baseRegion msg s = some o) :
    derivationResolvesToRegion msg d rid = some (decide (o = some rid)) := by
  induction h generalizing d with
  | region rid' =>
    rw [baseRegion] at ho
    cases ho
    rw [derivationResolvesToRegion, hs]
    simp
  | missing h =>
    rw [baseRegion, h] at ho
    cases ho
    rw [derivationResolvesToRegion, hs]
    simp [h]
  | parent h _ ih =>
    rw [baseRegion, h] at ho
    rw [derivationResolvesToRegion, hs]
    simp only [h]
    exact ih rfl ho

/-- The two walks to the region of a derivation agree. -/
theorem derivationResolvesToRegion_eq (msg : MSG) (d : Derivation) (rid : RegionId) :
    derivationResolvesToRegion msg d rid =
      (baseRegion msg d.source).map fun o => decide (o = some rid) := by
  cases ho : baseRegion msg d.source with
  | some o => exact derivationResolvesToRegion_of_baseRegion (walkEnds_of_baseRegion ho) rfl ho
  | none =>
    cases hb : derivationResolvesToRegion msg d rid with
    | none => rfl
    | some b =>
      obtain ⟨o, ho'⟩ := (walkEnds_of_resolves hb).baseRegion_eq_some
      rw [ho] at ho'
      cases ho'

theorem baseRegion_isSome : (baseRegion msg s).isSome ↔ WalkEnds msg s := by
  constructor
  · intro h
    obtain ⟨o, ho⟩ := Option.isSome_iff_exists.1 h
    exact walkEnds_of_baseRegion ho
  · intro h
    obtain ⟨o, ho⟩ := h.baseRegion_eq_some
    rw [ho]
    rfl

end Walk

section Derived

variable {msg : MSG} {sources : List DerivationId} {d : Derivation}
  {visited visited' : List DerivationId}

/-- The parent after `n` others is the first of the given ones. -/
def HitsAfter (msg : MSG) (sources : List DerivationId) : Nat → Derivation → Prop
  | 0, d => ∃ p, d.source = .anotherDerivation p ∧ p ∈ sources
  | n + 1, d => ∃ p e, d.source = .anotherDerivation p ∧ p ∉ sources ∧
      msg.derivations.get p = some e ∧ HitsAfter msg sources n e

theorem HitsAfter.unique {m n : Nat} (hm : HitsAfter msg sources m d)
    (hn : HitsAfter msg sources n d) : m = n := by
  induction m generalizing n d with
  | zero =>
    obtain ⟨p, hp, hmem⟩ := hm
    cases n with
    | zero => rfl
    | succ n =>
      obtain ⟨q, e, hq, hnot, -⟩ := hn
      rw [hp] at hq
      cases hq
      exact absurd hmem hnot
  | succ m ih =>
    obtain ⟨p, e, hp, hnot, he, hm⟩ := hm
    cases n with
    | zero =>
      obtain ⟨q, hq, hmem⟩ := hn
      rw [hp] at hq
      cases hq
      exact absurd hmem hnot
    | succ n =>
      obtain ⟨q, e', hq, -, he', hn⟩ := hn
      rw [hp] at hq
      cases hq
      rw [he] at he'
      cases he'
      exact congrArg Nat.succ (ih hm hn)

theorem not_hitsAfter_nil {n : Nat} : ¬ HitsAfter msg [] n d := by
  induction n generalizing d with
  | zero =>
    rintro ⟨p, -, hmem⟩
    cases hmem
  | succ n ih =>
    rintro ⟨p, e, -, -, -, hn⟩
    exact ih hn

theorem DerivedFrom.hitsAfter (h : DerivedFrom msg (· ∈ sources) d) :
    ∃ n, HitsAfter msg sources n d := by
  induction h with
  | @direct d p h hp => exact ⟨0, p, h, hp⟩
  | @step d e p h he _ ih =>
    by_cases hp : p ∈ sources
    · exact ⟨0, p, h, hp⟩
    · obtain ⟨n, hn⟩ := ih
      exact ⟨n + 1, p, e, h, hp, he, hn⟩

/-- The search finds the given parent when nothing visited is as near to it. -/
theorem isDerivedFromAny_of_hitsAfter {n : Nat} (visited : List DerivationId)
    (h : HitsAfter msg sources n d) (hd : msg.derivations.get d.id = some d)
    (hvis : ∀ did ∈ visited, ∀ e m, msg.derivations.get did = some e →
      HitsAfter msg sources m e → n < m) :
    ∃ visited', isDerivedFromAny msg sources d visited = some (true, visited') := by
  induction n generalizing d visited with
  | zero =>
    have hnew : d.id ∉ visited := fun hmem => Nat.lt_irrefl 0 (hvis d.id hmem d 0 hd h)
    obtain ⟨p, hp, hmem⟩ := h
    exact ⟨d.id :: visited, by rw [isDerivedFromAny, if_neg hnew]; simp [hp, hmem]⟩
  | succ n ih =>
    have hnew : d.id ∉ visited := fun hmem => Nat.lt_irrefl _ (hvis d.id hmem d _ hd h)
    have hkeep := h
    obtain ⟨p, e, hp, hnot, he, hn⟩ := h
    have hid : e.id = p := Table.ident_of_get he
    obtain ⟨visited', hrun⟩ := ih (d.id :: visited) hn (hid ▸ he) (by
      intro did hdid e' m he' hm
      rcases List.mem_cons.1 hdid with rfl | hdid
      · rw [hd] at he'
        cases he'
        exact hkeep.unique hm ▸ Nat.lt_succ_self n
      · exact Nat.lt_of_succ_lt (hvis did hdid e' m he' hm))
    refine ⟨visited', ?_⟩
    rw [isDerivedFromAny, if_neg hnew]
    simp only [hp, if_neg hnot, he]
    exact hrun

/-- The search is right when it says yes. -/
theorem derivedFrom_of_isDerivedFromAny
    (h : isDerivedFromAny msg sources d visited = some (true, visited')) :
    DerivedFrom msg (· ∈ sources) d := by
  refine MSG.isDerivedFromAny.partial_correctness msg sources
    (fun d _ r => r.1 = true → DerivedFrom msg (· ∈ sources) d) ?_ d visited (true, visited') h rfl
  intro search ih d visited r h hr
  split_ifs at h with hvis
  · cases h
    cases hr
  · cases hs : d.source with
    | region rid =>
      simp only [hs] at h
      cases h
      cases hr
    | anotherDerivation p =>
      simp only [hs] at h
      split_ifs at h with hp
      · exact .direct hs hp
      · cases he : msg.derivations.get p with
        | none =>
          simp only [he] at h
          cases h
          cases hr
        | some e =>
          simp only [he] at h
          exact .step hs he (ih e _ r h hr)

theorem isDerivedFromAny_isSome (sources visited : List DerivationId)
    (hd : msg.derivations.get d.id = some d) :
    (isDerivedFromAny msg sources d visited).isSome := by
  induction hn : (msg.derivations.ids.filter (· ∉ visited)).length using Nat.strong_induction_on
    generalizing d visited with
  | _ n ih =>
    rw [isDerivedFromAny]
    split_ifs with hvis
    · rfl
    · cases hs : d.source with
      | region rid => rfl
      | anotherDerivation p =>
        simp only
        split_ifs with hp
        · rfl
        · cases he : msg.derivations.get p with
          | none => rfl
          | some e =>
            have hid : e.id = p := Table.ident_of_get he
            refine ih _ ?_ _ (hid ▸ he) rfl
            have hmem : d.id ∈ msg.derivations.ids.filter (· ∉ visited) := by
              rw [List.mem_filter, Table.mem_ids, hd]
              exact ⟨rfl, decide_eq_true hvis⟩
            have hsub : msg.derivations.ids.filter (· ∉ d.id :: visited) =
                (msg.derivations.ids.filter (· ∉ visited)).filter (· ≠ d.id) := by
              rw [List.filter_filter]
              refine List.filter_congr fun k _ => ?_
              simp [List.mem_cons, not_or]
            rw [hsub, ← hn]
            exact List.length_filter_lt_length_iff_exists.2 ⟨d.id, hmem, by simp⟩

end Derived

section Loops

variable {α β : Type} {msg : MSG} {sources : List DerivationId}

theorem mapM_isSome {f : α → Option β} {l : List α} :
    (l.mapM f).isSome ↔ ∀ x ∈ l, (f x).isSome := by
  induction l with
  | nil => simp
  | cons x l ih =>
    rw [List.mapM_cons, List.forall_mem_cons, ← ih]
    cases hx : f x with
    | none => simp
    | some y => cases hl : l.mapM f <;> simp

theorem filterReturning_isSome {p : Nat → Option Bool} {l : List Nat} :
    (filterReturning p l).isSome ↔ ∀ x ∈ l, (p x).isSome := by
  induction l with
  | nil => simp [filterReturning]
  | cons x l ih =>
    rw [filterReturning, List.forall_mem_cons, ← ih]
    cases hx : p x with
    | none => simp
    | some b => cases hl : filterReturning p l <;> simp

theorem mem_of_filterReturning {p : Nat → Option Bool} {l l' : List Nat}
    (h : filterReturning p l = some l') {x : Nat} : x ∈ l' ↔ x ∈ l ∧ p x = some true := by
  induction l generalizing l' with
  | nil =>
    cases h
    simp
  | cons y l ih =>
    rw [filterReturning] at h
    cases hy : p y with
    | none => simp [hy] at h
    | some b =>
      cases hl : filterReturning p l with
      | none => simp [hy, hl] at h
      | some r =>
        simp only [hy, hl, Option.bind_eq_bind, Option.bind_some, Option.pure_def,
          Option.some.injEq] at h
        subst h
        cases b with
        | false =>
          simp only [Bool.false_eq_true, if_false, ih hl, List.mem_cons]
          constructor
          · exact fun h => ⟨.inr h.1, h.2⟩
          · rintro ⟨rfl | hmem, hx⟩
            · rw [hy] at hx
              cases hx
            · exact ⟨hmem, hx⟩
        | true =>
          simp only [if_true, ih hl, List.mem_cons]
          constructor
          · rintro (rfl | ⟨hmem, hx⟩)
            · exact ⟨.inl rfl, hy⟩
            · exact ⟨.inr hmem, hx⟩
          · rintro ⟨rfl | hmem, hx⟩
            · exact .inl rfl
            · exact .inr ⟨hmem, hx⟩

theorem downstreamAmong_isSome (msg : MSG) (sources l visited : List DerivationId) :
    (downstreamAmong msg sources l visited).isSome := by
  induction l generalizing visited with
  | nil => rfl
  | cons did l ih =>
    rw [downstreamAmong]
    split_ifs with hmem
    · exact ih visited
    · cases hd : msg.derivations.get did with
      | none => exact ih visited
      | some d =>
        have hid : d.id = did := Table.ident_of_get hd
        obtain ⟨⟨b, visited'⟩, hrun⟩ := Option.isSome_iff_exists.1
          (isDerivedFromAny_isSome sources visited (hid.symm ▸ hd))
        obtain ⟨ds, hds⟩ := Option.isSome_iff_exists.1 (ih visited')
        simp [hrun, hds]

theorem below_of_downstreamAmong {l visited : List DerivationId} {ds : List Derivation}
    (h : downstreamAmong msg sources l visited = some ds) {d : Derivation} (hd : d ∈ ds) :
    Below msg (· ∈ sources) d := by
  induction l generalizing visited ds with
  | nil =>
    cases h
    cases hd
  | cons did l ih =>
    rw [downstreamAmong] at h
    split_ifs at h with hmem
    · exact ih h hd
    · cases he : msg.derivations.get did with
      | none =>
        simp only [he] at h
        exact ih h hd
      | some e =>
        have hid : e.id = did := Table.ident_of_get he
        obtain ⟨⟨b, visited'⟩, hrun⟩ := Option.isSome_iff_exists.1
          (isDerivedFromAny_isSome sources visited (hid.symm ▸ he))
        obtain ⟨rest, hrest⟩ := Option.isSome_iff_exists.1
          (downstreamAmong_isSome msg sources l visited')
        simp only [he, hrun, hrest, Option.bind_eq_bind, Option.bind_some, Option.pure_def,
          Option.some.injEq] at h
        subst h
        cases b with
        | false => exact ih hrest hd
        | true =>
          rcases List.mem_cons.1 hd with rfl | hd
          · exact ⟨hid.symm ▸ he, hid.symm ▸ hmem, derivedFrom_of_isDerivedFromAny hrun⟩
          · exact ih hrest hd

theorem mem_downstreamAmong (skipped : List DerivationId) {l : List DerivationId}
    {ds : List Derivation} {d : Derivation} (hd : Below msg (· ∈ sources) d)
    (hskip : ∀ did ∈ skipped, did ∈ sources)
    (h : downstreamAmong msg sources (skipped ++ d.id :: l) [] = some ds) : d ∈ ds := by
  induction skipped with
  | nil =>
    obtain ⟨n, hn⟩ := hd.derived.hitsAfter
    obtain ⟨visited', hrun⟩ := isDerivedFromAny_of_hitsAfter [] hn hd.mem
      fun _ hnil => by cases hnil
    obtain ⟨rest, hrest⟩ := Option.isSome_iff_exists.1
      (downstreamAmong_isSome msg sources l visited')
    rw [List.nil_append, downstreamAmong, if_neg hd.other] at h
    simp only [hd.mem, hrun, hrest, Option.bind_eq_bind, Option.bind_some, Option.pure_def,
      if_true, Option.some.injEq] at h
    subst h
    exact List.mem_cons_self
  | cons did skipped ih =>
    rw [List.cons_append, downstreamAmong, if_pos (hskip did List.mem_cons_self)] at h
    exact ih (fun k hk => hskip k (List.mem_cons_of_mem did hk)) h

end Loops

section Ends

variable {ε : Type} {msg : MSG} {order : ApplyOrder}

theorem mem_order_ids {V : Type} [Entity V] {t : Table V} (o : KeyOrder Nat) {k : Nat} :
    k ∈ o.order t.ids ↔ (t.get k).isSome := by
  rw [(o.perm t.ids).mem_iff, Table.mem_ids]

theorem findAccessesToRegion_isSome (order : ApplyOrder) (rid : RegionId) :
    (findAccessesToRegion order msg rid).isSome ↔ ∀ aid a d, msg.accesses.get aid = some a →
      msg.derivations.get a.target = some d → WalkEnds msg d.source := by
  rw [findAccessesToRegion, filterReturning_isSome]
  constructor
  · intro h aid a d ha hd
    have haid := h aid ((mem_order_ids _).2 (by rw [ha]; rfl))
    simp only [accessResolvesToRegion, ha, hd, derivationResolvesToRegion_eq,
      Option.isSome_map] at haid
    exact baseRegion_isSome.1 haid
  · intro h aid _
    rw [accessResolvesToRegion]
    cases ha : msg.accesses.get aid with
    | none => rfl
    | some a =>
      simp only
      cases hd : msg.derivations.get a.target with
      | none => rfl
      | some d =>
        simp only [derivationResolvesToRegion_eq, Option.isSome_map]
        exact baseRegion_isSome.2 (h aid a d ha hd)

theorem mem_of_findAccessesToRegion {rid : RegionId} {aids : List AccessId}
    (h : findAccessesToRegion order msg rid = some aids) {aid : AccessId} :
    aid ∈ aids ↔ ∃ a d, msg.accesses.get aid = some a ∧ msg.derivations.get a.target = some d ∧
      baseRegion msg d.source = some (some rid) := by
  rw [mem_of_filterReturning h, mem_order_ids]
  constructor
  · rintro ⟨-, hres⟩
    rw [accessResolvesToRegion] at hres
    cases ha : msg.accesses.get aid with
    | none => simp [ha] at hres
    | some a =>
      cases hd : msg.derivations.get a.target with
      | none => simp [ha, hd] at hres
      | some d =>
        simp only [ha, hd, derivationResolvesToRegion_eq, Option.map_eq_some_iff,
          decide_eq_true_eq] at hres
        obtain ⟨o, ho, rfl⟩ := hres
        exact ⟨a, d, rfl, hd, ho⟩
  · rintro ⟨a, d, ha, hd, ho⟩
    refine ⟨by rw [ha]; rfl, ?_⟩
    simp [accessResolvesToRegion, ha, hd, derivationResolvesToRegion_eq, ho]

theorem reverify_isSome {aids : List AccessId} :
    (reverify msg aids).isSome ↔ ∀ aid ∈ aids, (verifyAccess msg aid).isSome := by
  rw [reverify, mapM_isSome]
  refine forall₂_congr fun aid _ => ?_
  cases verifyAccess msg aid <;> simp

theorem reverifyVia_isSome (order : ApplyOrder) {ds : List Derivation} :
    (reverifyVia order msg ds).isSome ↔ ∀ d ∈ ds, Verifies msg d := by
  have hflat : (reverifyVia order msg ds).isSome ↔
      (ds.mapM fun d => reverify msg (findAccessesViaDerivation order msg d.id)).isSome := by
    rw [reverifyVia]
    cases ds.mapM fun d => reverify msg (findAccessesViaDerivation order msg d.id) <;> simp
  rw [hflat, mapM_isSome]
  refine forall₂_congr fun d _ => ?_
  rw [reverify_isSome, Verifies]
  constructor
  · intro h aid a ha htarget
    refine h aid (List.mem_filter.2 ⟨(mem_order_ids _).2 (by rw [ha]; rfl), ?_⟩)
    simp [ha, htarget]
  · intro h aid haid
    obtain ⟨hmem, htarget⟩ := List.mem_filter.1 haid
    cases ha : msg.accesses.get aid with
    | none => simp [ha] at htarget
    | some a => exact h aid a ha (by simpa [ha] using htarget)

theorem isSome_bind {α β : Type} {x : Option α} {f : α → Option β} :
    (x >>= f).isSome ↔ ∃ a, x = some a ∧ (f a).isSome := by
  cases x <;> simp

theorem propagate_isSome {removedRegions removedDerivations : List Nat} {result : DeltaResult ε} :
    (propagate order msg removedRegions removedDerivations result).isSome ↔
      (∀ rid, rid ∈ removedRegions ∨ rid ∈ result.invalidatedRegions →
        ∃ aids, findAccessesToRegion order msg rid = some aids ∧
          ∀ aid ∈ aids, (verifyAccess msg aid).isSome) ∧
      ∃ ds, downstreamOfRemoved order msg removedDerivations = some ds ∧
        (∀ d ∈ ds, Verifies msg d) ∧
        ∀ did, did ∈ result.recomputedDerivations ∨ did ∈ ds.map Derivation.id →
          ∃ es, findDownstreamDerivations order msg [did] = some es ∧
            ∀ e ∈ es, Verifies msg e := by
  have hregion : ∀ rid, (findAccessesToRegion order msg rid >>= reverify msg).isSome ↔
      ∃ aids, findAccessesToRegion order msg rid = some aids ∧
        ∀ aid ∈ aids, (verifyAccess msg aid).isSome := by
    intro rid
    simp only [isSome_bind, reverify_isSome]
  have hdown : ∀ did,
      (findDownstreamDerivations order msg [did] >>= reverifyVia order msg).isSome ↔
        ∃ es, findDownstreamDerivations order msg [did] = some es ∧ ∀ e ∈ es, Verifies msg e := by
    intro did
    simp only [isSome_bind, reverifyVia_isSome]
  have hmem : ∀ rid, rid ∈ order.removedRegions.order removedRegions ↔ rid ∈ removedRegions :=
    fun rid => (order.removedRegions.perm removedRegions).mem_iff
  simp only [← hregion, ← hdown]
  constructor
  · intro h
    obtain ⟨gone, -, h⟩ := isSome_bind.1 h
    obtain ⟨via, hvia, h⟩ := isSome_bind.1 h
    obtain ⟨ds, hds, h⟩ := isSome_bind.1 h
    obtain ⟨viaRemoved, hremoved, h⟩ := isSome_bind.1 h
    obtain ⟨viaRecomputed, hrecomputed, -⟩ := isSome_bind.1 h
    refine ⟨fun rid hrid => ?_, ds, hds, ?_, fun did hdid => ?_⟩
    · exact mapM_isSome.1 (Option.isSome_of_eq_some hvia) rid
        (List.mem_append.2 (hrid.symm.imp_right (hmem rid).2))
    · exact (reverifyVia_isSome order).1 (Option.isSome_of_eq_some hremoved)
    · exact mapM_isSome.1 (Option.isSome_of_eq_some hrecomputed) did (List.mem_append.2 hdid)
  · rintro ⟨hreg, ds, hds, hvia, hbelow⟩
    refine isSome_bind.2 ?_
    have hgone : ∀ rid ∈ order.removedRegions.order removedRegions,
        (findAccessesToRegion order msg rid >>= fun aids =>
          pure (aids.map fun aid => (aid, VerificationStatus.provenUnsafe))).isSome := by
      intro rid hrid
      obtain ⟨aids, haids, -⟩ := isSome_bind.1 (hreg rid (.inl ((hmem rid).1 hrid)))
      exact isSome_bind.2 ⟨aids, haids, rfl⟩
    obtain ⟨gone, hgone⟩ := Option.isSome_iff_exists.1 (mapM_isSome.2 hgone)
    refine ⟨gone, hgone, isSome_bind.2 ?_⟩
    have hinv : ∀ rid ∈ result.invalidatedRegions ++ order.removedRegions.order removedRegions,
        (findAccessesToRegion order msg rid >>= reverify msg).isSome :=
      fun rid hrid => hreg rid ((List.mem_append.1 hrid).symm.imp_left (hmem rid).1)
    obtain ⟨via, hvia'⟩ := Option.isSome_iff_exists.1 (mapM_isSome.2 hinv)
    refine ⟨via, hvia', isSome_bind.2 ⟨ds, hds, isSome_bind.2 ?_⟩⟩
    obtain ⟨viaRemoved, hremoved⟩ :=
      Option.isSome_iff_exists.1 ((reverifyVia_isSome order).2 hvia)
    refine ⟨viaRemoved, hremoved, isSome_bind.2 ?_⟩
    obtain ⟨viaRecomputed, hrecomputed⟩ := Option.isSome_iff_exists.1
      (mapM_isSome.2 fun did hdid => hbelow did (List.mem_append.1 hdid))
    exact ⟨viaRecomputed, hrecomputed, rfl⟩

theorem findDownstreamDerivations_eq_some (order : ApplyOrder) (msg : MSG)
    (sources : List DerivationId) :
    ∃ ds, findDownstreamDerivations order msg sources = some ds ∧
      ∀ d ∈ ds, Below msg (· ∈ sources) d := by
  obtain ⟨ds, hds⟩ := Option.isSome_iff_exists.1
    (downstreamAmong_isSome msg sources (order.derivations.order msg.derivations.ids) [])
  exact ⟨ds, hds, fun d hd => below_of_downstreamAmong hds hd⟩

theorem PropagationEnds.propagate_isSome {removedRegions removedDerivations : List Nat}
    {result : DeltaResult ε} (h : PropagationEnds msg
      (fun rid => rid ∈ removedRegions ∨ rid ∈ result.invalidatedRegions)
      (· ∈ removedDerivations) (· ∈ result.recomputedDerivations)) (order : ApplyOrder) :
    (propagate order msg removedRegions removedDerivations result).isSome := by
  refine Msg.propagate_isSome.2 ⟨fun rid hrid => ?_, ?_⟩
  · obtain ⟨aids, haids⟩ := Option.isSome_iff_exists.1
      ((findAccessesToRegion_isSome order rid).2 (h.walks ⟨rid, hrid⟩))
    refine ⟨aids, haids, fun aid haid => ?_⟩
    obtain ⟨a, d, ha, hd, hbase⟩ := (mem_of_findAccessesToRegion haids).1 haid
    exact h.regions rid hrid aid a d ha hd hbase
  · obtain ⟨ds, hds, hbelow⟩ : ∃ ds, downstreamOfRemoved order msg removedDerivations = some ds ∧
        ∀ d ∈ ds, Below msg (· ∈ removedDerivations) d := by
      rw [downstreamOfRemoved]
      split_ifs
      · exact ⟨[], rfl, fun _ hd => by cases hd⟩
      · exact findDownstreamDerivations_eq_some order msg removedDerivations
    refine ⟨ds, hds, fun d hd => (h.below d (hbelow d hd)).1, fun did hdid => ?_⟩
    obtain ⟨es, hes, hbelow'⟩ := findDownstreamDerivations_eq_some order msg [did]
    refine ⟨es, hes, fun e he => ?_⟩
    have he' : Below msg (· = did) e := by
      simpa only [List.mem_singleton] using hbelow' e he
    rcases hdid with hdid | hdid
    · exact h.belowChanged did hdid e he'
    · obtain ⟨d, hd, rfl⟩ := List.mem_map.1 hdid
      exact (h.below d (hbelow d hd)).2 e he'

theorem mem_findDownstreamDerivations {sources : List DerivationId} {d : Derivation}
    (hd : Below msg (· ∈ sources) d) (o : KeyOrder Nat) {ds : List Derivation}
    (h : findDownstreamDerivations { order with derivations := o.first d.id } msg sources =
      some ds) : d ∈ ds := by
  have hids : d.id ∈ msg.derivations.ids := Table.mem_ids.2 (Option.isSome_of_eq_some hd.mem)
  rw [findDownstreamDerivations, KeyOrder.first_order hids] at h
  exact mem_downstreamAmong [] hd (fun _ hnil => by cases hnil) h

theorem propagationEnds_of_isSome (order : ApplyOrder)
    {removedRegions removedDerivations : List Nat} {result : DeltaResult ε}
    (h : ∀ o, (propagate { order with derivations := o } msg
      removedRegions removedDerivations result).isSome) :
    PropagationEnds msg (fun rid => rid ∈ removedRegions ∨ rid ∈ result.invalidatedRegions)
      (· ∈ removedDerivations) (· ∈ result.recomputedDerivations) where
  walks := by
    rintro ⟨rid, hrid⟩
    obtain ⟨aids, haids, -⟩ := (propagate_isSome.1 (h .id)).1 rid hrid
    exact (findAccessesToRegion_isSome _ rid).1 (Option.isSome_of_eq_some haids)
  regions := by
    intro rid hrid aid a d ha hd hbase
    obtain ⟨aids, haids, hverify⟩ := (propagate_isSome.1 (h .id)).1 rid hrid
    exact hverify aid ((mem_of_findAccessesToRegion haids).2 ⟨a, d, ha, hd, hbase⟩)
  below := by
    intro d hd
    have hne : ¬ removedDerivations.isEmpty := by
      intro hempty
      rw [List.isEmpty_iff] at hempty
      subst hempty
      obtain ⟨n, hn⟩ := hd.derived.hitsAfter
      exact not_hitsAfter_nil hn
    constructor
    · obtain ⟨-, ds, hds, hverify, -⟩ := propagate_isSome.1 (h (KeyOrder.id.first d.id))
      rw [downstreamOfRemoved, if_neg hne] at hds
      exact hverify d (mem_findDownstreamDerivations hd _ hds)
    · intro e he
      -- the order that begins with the derivation and goes on with the one below it
      obtain ⟨-, ds, hds, -, hbelow⟩ :=
        propagate_isSome.1 (h ((KeyOrder.id.first e.id).first d.id))
      rw [downstreamOfRemoved, if_neg hne] at hds
      have hmem := mem_findDownstreamDerivations hd _ hds
      obtain ⟨es, hes, hverify⟩ := hbelow d.id (.inr (List.mem_map_of_mem hmem))
      refine hverify e ?_
      have hd' : d.id ∈ msg.derivations.ids := Table.mem_ids.2 (Option.isSome_of_eq_some hd.mem)
      have he' : e.id ∈ msg.derivations.ids := Table.mem_ids.2 (Option.isSome_of_eq_some he.mem)
      rw [findDownstreamDerivations, KeyOrder.first_order hd', KeyOrder.first_order he',
        List.erase_cons_tail (by simpa using he.other)] at hes
      refine mem_downstreamAmong [d.id] ?_ (fun k hk => hk) hes
      simpa only [List.mem_singleton] using he
  belowChanged := by
    intro did hdid d hd
    obtain ⟨-, ds, -, -, hbelow⟩ := propagate_isSome.1 (h (KeyOrder.id.first d.id))
    obtain ⟨es, hes, hverify⟩ := hbelow did (.inl hdid)
    refine hverify d (mem_findDownstreamDerivations ?_ _ hes)
    simpa only [List.mem_singleton] using hd

theorem propagate_warnings {removedRegions removedDerivations : List Nat}
    {result result' : DeltaResult ε}
    (h : propagate order msg removedRegions removedDerivations result = some result') :
    result'.warnings = result.warnings := by
  obtain ⟨_, -, h⟩ := Option.bind_eq_some_iff.1 h
  obtain ⟨_, -, h⟩ := Option.bind_eq_some_iff.1 h
  obtain ⟨_, -, h⟩ := Option.bind_eq_some_iff.1 h
  obtain ⟨_, -, h⟩ := Option.bind_eq_some_iff.1 h
  obtain ⟨_, -, h⟩ := Option.bind_eq_some_iff.1 h
  cases h
  rfl

end Ends

section Congr

variable {msg msg' : MSG} {s : DerivationSource} {d : Derivation}

theorem WalkEnds.congr (h : msg.SameGraph msg') (hs : WalkEnds msg s) : WalkEnds msg' s := by
  induction hs with
  | region rid => exact .region rid
  | missing hp => exact .missing (h.derivations ▸ hp)
  | parent hp _ ih => exact .parent (h.derivations ▸ hp) ih

theorem baseRegion_congr (h : msg.SameGraph msg') (s : DerivationSource) :
    baseRegion msg s = baseRegion msg' s := by
  have hends : ∀ {s}, WalkEnds msg s → baseRegion msg s = baseRegion msg' s := by
    intro s hs
    induction hs with
    | region rid => rw [baseRegion, baseRegion]
    | missing hp => rw [baseRegion, baseRegion, ← h.derivations, hp]
    | parent hp _ ih =>
      rw [baseRegion, baseRegion, ← h.derivations, hp]
      exact ih
  by_cases hs : WalkEnds msg s
  · exact hends hs
  · have hs' : ¬ WalkEnds msg' s := fun hs' => hs (hs'.congr h.symm)
    rw [← baseRegion_isSome, Option.not_isSome_iff_eq_none] at hs hs'
    rw [hs, hs']

theorem verifyAccess_congr (h : msg.SameGraph msg') (aid : AccessId) :
    verifyAccess msg aid = verifyAccess msg' aid := by
  simp only [verifyAccess, h.accesses, h.derivations, h.regions, baseRegion_congr h]

theorem DerivedFrom.congr {sources sources' : DerivationId → Prop} (h : msg.SameGraph msg')
    (hsources : ∀ k, sources k → sources' k) (hd : DerivedFrom msg sources d) :
    DerivedFrom msg' sources' d := by
  induction hd with
  | direct hs hp => exact .direct hs (hsources _ hp)
  | step hs he _ ih => exact .step hs (h.derivations ▸ he) ih

theorem Below.congr {sources sources' : DerivationId → Prop} (h : msg.SameGraph msg')
    (hsources : ∀ k, sources k ↔ sources' k) (hd : Below msg sources d) :
    Below msg' sources' d where
  mem := h.derivations ▸ hd.mem
  other := fun hmem => hd.other ((hsources _).2 hmem)
  derived := hd.derived.congr h fun k => (hsources k).1

theorem Verifies.congr (h : msg.SameGraph msg') (hd : Verifies msg d) : Verifies msg' d := by
  intro aid a ha htarget
  rw [← verifyAccess_congr h]
  exact hd aid a (h.accesses ▸ ha) htarget

theorem PropagationEnds.congr {touched touched' : RegionId → Prop}
    {removed removed' changed changed' : DerivationId → Prop} (h : msg.SameGraph msg')
    (ht : ∀ k, touched k ↔ touched' k) (hr : ∀ k, removed k ↔ removed' k)
    (hc : ∀ k, changed k ↔ changed' k) (hends : PropagationEnds msg touched removed changed) :
    PropagationEnds msg' touched' removed' changed' where
  walks := by
    rintro ⟨rid, hrid⟩ aid a d ha hd
    exact (hends.walks ⟨rid, (ht rid).2 hrid⟩ aid a d (h.accesses ▸ ha)
      (h.derivations ▸ hd)).congr h
  regions := by
    intro rid hrid aid a d ha hd hbase
    rw [← baseRegion_congr h] at hbase
    rw [← verifyAccess_congr h]
    exact hends.regions rid ((ht rid).2 hrid) aid a d (h.accesses ▸ ha) (h.derivations ▸ hd) hbase
  below := by
    intro d hd
    obtain ⟨hself, hbelow⟩ := hends.below d (hd.congr h.symm fun k => (hr k).symm)
    refine ⟨hself.congr h, fun e he => ?_⟩
    exact (hbelow e (he.congr h.symm fun k => Iff.rfl)).congr h
  belowChanged := by
    intro did hdid d hd
    exact (hends.belowChanged did ((hc did).2 hdid) d
      (hd.congr h.symm fun k => Iff.rfl)).congr h

end Congr

end Vuma.Msg
