import Vuma.Msg.Delta

/-!
# Walks along the parents of derivations

The operations take any parent for a derivation, so that derivations may come to run in a circle;
a walk along their parents then does not end. The walks end as long as no operation puts in a
derivation that is among its own parents afterwards.
-/

namespace Vuma.Msg

open Lib Entity Relation

/-! ## The walks -/

/-- The loop of `Derivation::trace`. The chain is built from its end. -/
def MSG.traceLoop (msg : MSG) (chain : List Derivation) (current : DerivationSource) :
    Option (List Derivation) :=
  match current with
  | .region _ => some chain
  | .anotherDerivation p =>
    match msg.derivations.get p with
    | some parent => msg |>.traceLoop (parent :: chain) parent.source
    | none => some chain
partial_fixpoint

export MSG (traceLoop)

/-- `Derivation::trace`, with the derivations of a graph. -/
def trace (msg : MSG) (d : Derivation) : Option (List Derivation) := traceLoop msg [d] d.source

def derivationChain (msg : MSG) (id : DerivationId) : Option (List Derivation) :=
  match msg.derivations.get id with
  | some d => trace msg d
  | none => some []

/-- How `verify_access` ends: with a status, or with the panic of the end of a region. -/
def verifyAccessOutcome (msg : MSG) (aid : AccessId) : Option (Option VerificationStatus) :=
  match msg.accesses.get aid with
  | none => some (some .unverified)
  | some access =>
    match msg.derivations.get access.target with
    | none => some (some .provenUnsafe)
    | some deriv => do
      match ← baseRegion msg deriv.source with
      | none => return some .provenUnsafe
      | some rid =>
        match msg.regions.get rid with
        | none => return some .provenUnsafe
        | some region =>
          if !region.isLive then return some .provenUnsafe
          if deriv.provenRange.1 < region.base then return some .provenUnsafe
          return region.end?.map fun e =>
            if deriv.provenRange.2 > e then .provenUnsafe else .safe

/-- All walks along the parents come to an end. -/
structure WalksTerminate (msg : MSG) : Prop where
  chain : ∀ id, (derivationChain msg id).isSome
  trace : ∀ d, (trace msg d).isSome
  baseRegion : ∀ d : Derivation, (baseRegion msg d.source).isSome
  resolves : ∀ d rid, (derivationResolvesToRegion msg d rid).isSome
  verify : ∀ aid, (verifyAccessOutcome msg aid).isSome

theorem traceLoop_isSome {msg : MSG} {s : DerivationSource} (h : WalkEnds msg s)
    (chain : List Derivation) : (traceLoop msg chain s).isSome := by
  induction h generalizing chain with
  | region rid => rw [traceLoop]; rfl
  | missing h => rw [traceLoop, h]; rfl
  | @parent p d h _ ih =>
    rw [traceLoop, h]
    exact ih (d :: chain)

/-- The walks all follow the same parents. -/
theorem walksTerminate_iff {msg : MSG} : WalksTerminate msg ↔ ∀ s, WalkEnds msg s := by
  constructor
  · intro h s
    rw [← baseRegion_isSome]
    exact h.baseRegion ⟨0, s, .direct, (0, 0)⟩
  · intro h
    have hbase : ∀ s, ∃ o, Msg.baseRegion msg s = some o := fun s => (h s).baseRegion_eq_some
    have htrace : ∀ d, (Msg.trace msg d).isSome := fun d => traceLoop_isSome (h d.source) [d]
    refine ⟨?_, htrace, fun d => baseRegion_isSome.2 (h d.source), ?_, ?_⟩
    · intro id
      rw [derivationChain]
      cases msg.derivations.get id with
      | none => rfl
      | some d => exact htrace d
    · intro d rid
      obtain ⟨o, ho⟩ := hbase d.source
      rw [derivationResolvesToRegion_eq, ho]
      rfl
    · intro aid
      unfold verifyAccessOutcome
      cases msg.accesses.get aid with
      | none => rfl
      | some access =>
        cases hd : msg.derivations.get access.target with
        | none => simp [hd]
        | some deriv =>
          obtain ⟨o, ho⟩ := hbase deriv.source
          simp only [hd, ho]
          cases o with
          | none => rfl
          | some rid =>
            cases hr : msg.regions.get rid with
            | none => simp [hr]
            | some region =>
              simp only [hr, Option.bind_eq_bind, Option.bind_some, Option.pure_def]
              split_ifs <;> rfl

/-! ## Circles -/

section Circles

variable {α : Type} {r r' : α → α → Prop} {inserted : α → Prop}

/-- A path of a relation that agrees with another one except at some elements is a path of the
other one, or it comes to one of these elements. -/
theorem transGen_of_agree (h : ∀ a b, ¬inserted a → r' a b → r a b) {a b : α}
    (hab : TransGen r' a b) :
    TransGen r a b ∨ ∃ i, inserted i ∧ ReflTransGen r' a i ∧ TransGen r' i b := by
  induction hab with
  | @single b hab =>
    by_cases ha : inserted a
    · exact .inr ⟨a, ha, .refl, .single hab⟩
    · exact .inl (.single (h a b ha hab))
  | @tail b c hab hbc ih =>
    rcases ih with hold | ⟨i, hi, hai, hib⟩
    · by_cases hb : inserted b
      · exact .inr ⟨b, hb, hab.to_reflTransGen, .single hbc⟩
      · exact .inl (hold.tail (h b c hb hbc))
    · exact .inr ⟨i, hi, hai, hib.tail hbc⟩

/-- A relation without circles gets one only through an element at which it is changed. -/
theorem exists_inserted_of_circle (h : ∀ a b, ¬inserted a → r' a b → r a b)
    (hold : ∀ a, ¬TransGen r a a) {a : α} (ha : TransGen r' a a) :
    ∃ i, inserted i ∧ TransGen r' i i := by
  obtain hr | ⟨i, hi, hai, hia⟩ := transGen_of_agree h ha
  · exact absurd hr (hold a)
  · exact ⟨i, hi, hia.trans_left hai⟩

end Circles

/-- The parent of a derivation. -/
def ParentIn (g : DerivationId → Option Derivation) (k p : DerivationId) : Prop :=
  ∃ d, g k = some d ∧ d.source = .anotherDerivation p

section Ends

variable {msg : MSG}

theorem not_circle_of_walkEnds {s : DerivationSource} (h : WalkEnds msg s) :
    ∀ k, s = .anotherDerivation k → ¬TransGen (ParentIn msg.derivations.get) k k := by
  induction h with
  | region rid => exact nofun
  | @missing p h =>
    rintro k ⟨⟩ hcircle
    obtain ⟨q, ⟨d, hd, -⟩, -⟩ := TransGen.head'_iff.1 hcircle
    rw [h] at hd
    cases hd
  | @parent p d h _ ih =>
    rintro k ⟨⟩ hcircle
    obtain ⟨q, ⟨d', hd', hq⟩, hback⟩ := TransGen.head'_iff.1 hcircle
    rw [h] at hd'
    cases hd'
    exact ih q hq (.tail' hback ⟨d, h, hq⟩)

/-- There are finitely many derivations, so a walk that does not end runs in a circle. -/
theorem walkEnds_of_not_circle (h : ∀ k, ¬TransGen (ParentIn msg.derivations.get) k k)
    (s : DerivationSource) : WalkEnds msg s := by
  let above : DerivationId → DerivationId → Prop :=
    fun p k => TransGen (ParentIn msg.derivations.get) k p
  have : IsStrictOrder DerivationId above :=
    { irrefl := h, trans := fun _ _ _ hab hbc => hbc.trans hab }
  have hwf : {k | k ∈ msg.derivations.ids}.WellFoundedOn above :=
    (List.finite_toSet msg.derivations.ids).wellFoundedOn
  have hparent : ∀ p ∈ msg.derivations.ids, WalkEnds msg (.anotherDerivation p) := by
    intro p hp
    refine hwf.induction (P := fun p => WalkEnds msg (.anotherDerivation p)) hp ?_
    intro p hp ih
    obtain ⟨d, hd⟩ := Option.isSome_iff_exists.1 (Table.mem_ids.1 hp)
    apply WalkEnds.parent hd
    cases hs : d.source with
    | region rid => exact .region rid
    | anotherDerivation q =>
      cases hq : msg.derivations.get q with
      | none => exact .missing hq
      | some e => exact ih q (Table.mem_ids.2 (by simp [hq])) (.single ⟨d, hd, hs⟩)
  cases s with
  | region rid => exact .region rid
  | anotherDerivation p =>
    cases hp : msg.derivations.get p with
    | none => exact .missing hp
    | some d => exact hparent p (Table.mem_ids.2 (by simp [hp]))

theorem walksTerminate_iff_not_circle :
    WalksTerminate msg ↔ ∀ k, ¬TransGen (ParentIn msg.derivations.get) k k := by
  rw [walksTerminate_iff]
  constructor
  · exact fun h k => not_circle_of_walkEnds (h (.anotherDerivation k)) k rfl
  · exact walkEnds_of_not_circle

end Ends

/-! ## The operations -/

def MSG.new : MSG := ⟨∅, ∅, ∅, ∅⟩

/-- The operations that change a graph. -/
inductive Op where
  | addRegion (region : Region)
  | addDerivation (derivation : Derivation)
  | addAccess (access : Access)
  | addSyncEdge (edge : SyncEdge)
  | removeRegion (id : RegionId)
  | removeDerivation (id : DerivationId)
  | removeAccess (id : AccessId)
  | removeSyncEdge (id : SyncEdgeId)
  | applyDelta (order : ApplyOrder) (delta : MSGDelta)

/-- The graph after an operation that comes back. -/
def Op.exec (msg : MSG) : Op → Option MSG
  | addRegion region => do return { msg with regions := ← msg.regions.insert region }
  | addDerivation derivation => do
    return { msg with derivations := ← msg.derivations.insert derivation }
  | addAccess access => do return { msg with accesses := ← msg.accesses.insert access }
  | addSyncEdge edge => do return { msg with syncEdges := ← msg.syncEdges.insert edge }
  | removeRegion id => some { msg with regions := msg.regions.erase id }
  | removeDerivation id => some { msg with derivations := msg.derivations.erase id }
  | removeAccess id => some { msg with accesses := msg.accesses.erase id }
  | removeSyncEdge id => some { msg with syncEdges := msg.syncEdges.erase id }
  | applyDelta order delta => (Msg.applyDelta order msg delta).map Prod.fst

/-- The graphs that the operations lead to, when all of them are allowed. -/
inductive Reachable (allowed : MSG → Op → Prop) : MSG → Prop where
  | new : Reachable allowed .new
  | exec {msg msg' : MSG} {op : Op} (h : Reachable allowed msg) (hop : allowed msg op)
      (hrun : op.exec msg = some msg') : Reachable allowed msg'

/-- The derivations that are there after a delta: what is not removed, the first that is added for
an identifier which is free, and the last that is put in the place of another one. -/
def MSGDelta.derivationsAfter (δ : MSGDelta) (g : DerivationId → Option Derivation)
    (k : DerivationId) : Option Derivation :=
  let added := (δ.derivations.kept g k).or (δ.derivations.added.find? fun d => d.id = k)
  if added.isSome then (δ.derivations.modified.reverse.find? fun d => d.id = k).or added else none

/-- The derivations that are there after an operation. -/
def Op.derivationsAfter (g : DerivationId → Option Derivation) :
    Op → DerivationId → Option Derivation
  | addDerivation d => Function.update g d.id (some d)
  | removeDerivation id => Function.update g id none
  | applyDelta _ delta => delta.derivationsAfter g
  | _ => g

/-- The derivations that an operation puts in. -/
def Op.inserted : Op → List Derivation
  | addDerivation d => [d]
  | applyDelta _ delta => delta.derivations.added ++ delta.derivations.modified
  | _ => []

/-- No derivation that an operation puts in is then among its own parents. -/
def Op.ClosesNoCircle (msg : MSG) (op : Op) : Prop :=
  ∀ d ∈ op.inserted, ¬TransGen (ParentIn (op.derivationsAfter msg.derivations.get)) d.id d.id

/-! ## What the operations do to the derivations -/

theorem get_insert {V : Type} [Entity V] {t t' : Table V} {v : V} (h : t.insert v = some t') :
    t'.get = Function.update t.get (ident v) (some v) := by
  have hbound : ident v + 1 < 2 ^ 64 := by
    by_contra hbound
    rw [Table.insert, dif_neg hbound] at h
    cases h
  obtain ⟨t₁, hins, hget⟩ := Table.insert_eq_some (t := t) hbound
  rw [h] at hins
  cases hins
  funext k
  rw [hget, Function.update_apply]

/-- Additions to a table do not replace what is there. -/
theorem get_addAll {V W : Type} [Entity V] {duplicate : Nat → W}
    {check : (Nat → Option V) → V → List W} {l : List V} {t t' : Table V} {ws : List W}
    (h : t.addAll duplicate check l = some (t', ws)) (k : Nat) :
    t'.get k = (t.get k).or (l.find? fun v => ident v = k) := by
  induction l generalizing t ws with
  | nil =>
    cases h
    simp
  | cons v l ih =>
    rw [Table.addAll] at h
    split_ifs at h with hv
    · obtain ⟨⟨t₁, ws₁⟩, hrun, heq⟩ := Option.bind_eq_some_iff.1 h
      cases heq
      rw [ih hrun, List.find?_cons]
      by_cases hk : ident v = k
      · subst hk
        obtain ⟨u, hu⟩ := Option.isSome_iff_exists.1 hv
        simp [hu]
      · simp [hk]
    · obtain ⟨t₀, hins, h⟩ := Option.bind_eq_some_iff.1 h
      obtain ⟨⟨t₁, ws₁⟩, hrun, heq⟩ := Option.bind_eq_some_iff.1 h
      cases heq
      rw [ih hrun, get_insert hins, List.find?_cons, Function.update_apply]
      by_cases hk : ident v = k
      · subst hk
        rw [Option.not_isSome_iff_eq_none] at hv
        simp [hv]
      · simp [hk, Ne.symm hk]

theorem get_derivations_applyDelta {order : ApplyOrder} {msg msg' : MSG} {δ : MSGDelta}
    {result : DeltaResult DeltaError} (h : applyDelta order msg δ = some (msg', result)) :
    msg'.derivations.get = δ.derivationsAfter msg.derivations.get := by
  obtain ⟨⟨_, _⟩, -, h⟩ := Option.bind_eq_some_iff.1 h
  obtain ⟨⟨derivations, _⟩, hadd, h⟩ := Option.bind_eq_some_iff.1 h
  obtain ⟨⟨_, _⟩, -, h⟩ := Option.bind_eq_some_iff.1 h
  obtain ⟨⟨_, _⟩, -, h⟩ := Option.bind_eq_some_iff.1 h
  obtain ⟨⟨_, _, _⟩, -, h⟩ := Option.bind_eq_some_iff.1 h
  obtain ⟨⟨derivations', _, _⟩, hmodify, h⟩ := Option.bind_eq_some_iff.1 h
  obtain ⟨⟨_, _, _⟩, -, h⟩ := Option.bind_eq_some_iff.1 h
  obtain ⟨⟨_, _, _⟩, -, h⟩ := Option.bind_eq_some_iff.1 h
  obtain ⟨_, -, h⟩ := Option.bind_eq_some_iff.1 h
  cases h
  have hkept : (msg.derivations.eraseAll (order.removedDerivations.order
      (present msg.derivations δ.derivations.removed))).get =
      δ.derivations.kept msg.derivations.get := by
    funext k
    have hmem : k ∈ order.removedDerivations.order (present msg.derivations δ.derivations.removed) ↔
        k ∈ δ.derivations.removed ∧ (msg.derivations.get k).isSome :=
      (order.removedDerivations.perm _).mem_iff.trans mem_present
    rw [Table.get_eraseAll, EntityDelta.kept]
    simp only [hmem]
    cases hk : msg.derivations.get k with
    | none => simp
    | some d => simp
  have hadded : ∀ k, derivations.get k = (δ.derivations.kept msg.derivations.get k).or
      (δ.derivations.added.find? fun d => d.id = k) := by
    intro k
    rw [get_addAll hadd, hkept]
    rfl
  obtain ⟨t, ws, hrun, hget, -⟩ :=
    Table.modifyAll_eq_some DeltaError.derivationNotFound δ.derivations.modified derivations
  rw [hmodify] at hrun
  cases hrun
  funext k
  show derivations'.get k = _
  rw [hget, MSGDelta.derivationsAfter, hadded, Table.overlay, hadded]
  rfl

/-- Each operation leaves the derivations that were said to be there after it. -/
theorem Op.get_exec {msg msg' : MSG} {op : Op} (h : op.exec msg = some msg') :
    msg'.derivations.get = op.derivationsAfter msg.derivations.get := by
  cases op with
  | addRegion entry | addAccess entry | addSyncEdge entry =>
    obtain ⟨_, -, h⟩ := Option.bind_eq_some_iff.1 h
    cases h
    rfl
  | addDerivation d =>
    obtain ⟨t, hins, h⟩ := Option.bind_eq_some_iff.1 h
    cases h
    exact get_insert hins
  | removeRegion id =>
    cases h
    rfl
  | removeDerivation id =>
    cases h
    funext k
    rw [Op.derivationsAfter, Function.update_apply]
    exact Table.get_erase msg.derivations id k
  | removeAccess id =>
    cases h
    rfl
  | removeSyncEdge id =>
    cases h
    rfl
  | applyDelta order delta =>
    obtain ⟨⟨_, _⟩, hrun, h⟩ := Option.map_eq_some_iff.1 h
    cases h
    exact get_derivations_applyDelta hrun

/-- A derivation that an operation does not put in was there before. -/
theorem Op.derivationsAfter_of_not_inserted {op : Op} {g : DerivationId → Option Derivation}
    {k : DerivationId} {d : Derivation} (h : op.derivationsAfter g k = some d)
    (hk : ¬∃ e ∈ op.inserted, e.id = k) : g k = some d := by
  cases op with
  | addDerivation e =>
    have hne : k ≠ e.id := fun heq => hk ⟨e, List.mem_singleton_self e, heq.symm⟩
    rwa [derivationsAfter, Function.update_of_ne hne] at h
  | removeDerivation id =>
    rw [derivationsAfter, Function.update_apply] at h
    split_ifs at h
    exact h
  | applyDelta order δ =>
    have hfind : ∀ l : List Derivation, (∀ e ∈ l, e ∈ (applyDelta order δ).inserted) →
        (l.find? fun e => e.id = k) = none := by
      intro l hl
      rw [List.find?_eq_none]
      intro e he hid
      exact hk ⟨e, hl e he, of_decide_eq_true hid⟩
    have hadded : (δ.derivations.added.find? fun e => e.id = k) = none :=
      hfind _ fun e he => List.mem_append_left _ he
    have hmodified : (δ.derivations.modified.reverse.find? fun e => e.id = k) = none :=
      hfind _ fun e he => List.mem_append_right _ (List.mem_reverse.1 he)
    rw [derivationsAfter, MSGDelta.derivationsAfter, hadded, hmodified] at h
    simp only [Option.or_none, Option.none_or] at h
    split_ifs at h
    rw [EntityDelta.kept] at h
    split_ifs at h
    exact h
  | _ => exact h

theorem Op.walksTerminate_iff {msg msg' : MSG} {op : Op} (hmsg : WalksTerminate msg)
    (h : op.exec msg = some msg') : WalksTerminate msg' ↔ op.ClosesNoCircle msg := by
  rw [walksTerminate_iff_not_circle] at hmsg ⊢
  rw [op.get_exec h, ClosesNoCircle]
  constructor
  · exact fun hall d _ => hall d.id
  · intro hop k hk
    have hagree : ∀ a b, (¬∃ e ∈ op.inserted, e.id = a) →
        ParentIn (op.derivationsAfter msg.derivations.get) a b →
        ParentIn msg.derivations.get a b := by
      rintro a b ha ⟨d, hd, hb⟩
      exact ⟨d, derivationsAfter_of_not_inserted hd ha, hb⟩
    obtain ⟨i, ⟨d, hd, rfl⟩, hcircle⟩ := exists_inserted_of_circle hagree hmsg hk
    exact hop d hd hcircle

theorem walksTerminate_new : WalksTerminate .new := by
  rw [walksTerminate_iff_not_circle]
  intro k hk
  obtain ⟨p, ⟨d, hd, -⟩, -⟩ := TransGen.head'_iff.1 hk
  cases hd

/-! ## Runs -/

/-- In a run whose operations close no circle all walks end in every graph, and an operation that
closes one leaves a graph in which some walk does not. -/
theorem walksTerminate_run (msg : MSG) :
    (Reachable Op.ClosesNoCircle msg → WalksTerminate msg) ∧
      ∀ op msg', WalksTerminate msg → Op.exec msg op = some msg' →
        (WalksTerminate msg' ↔ op.ClosesNoCircle msg) := by
  refine ⟨?_, fun op msg' hmsg hrun => Op.walksTerminate_iff hmsg hrun⟩
  intro h
  induction h with
  | new => exact walksTerminate_new
  | exec h hop hrun ih => exact (Op.walksTerminate_iff ih hrun).2 hop

/-- A derivation from a region. -/
def basePointer : Derivation := ⟨1, .region 1, .direct, (4096, 4608)⟩

theorem walksTerminate_basePointer :
    ∃ msg, (Op.addDerivation basePointer).exec .new = some msg ∧ WalksTerminate msg := by
  have hop : (Op.addDerivation basePointer).ClosesNoCircle .new := by
    intro d hd hcircle
    rw [List.mem_singleton.1 hd] at hcircle
    obtain ⟨p, ⟨e, he, hp⟩, -⟩ := TransGen.head'_iff.1 hcircle
    cases he
    cases hp
  exact ⟨_, rfl, (walksTerminate_run _).1 (.exec .new hop rfl)⟩

/-- A derivation from itself. -/
def selfPointer : Derivation := ⟨1, .anotherDerivation 1, .direct, (4096, 4608)⟩

theorem not_walksTerminate_selfPointer :
    ¬∀ msg, Reachable (fun _ _ => True) msg → WalksTerminate msg := by
  intro h
  have hexec : (Op.addDerivation selfPointer).exec .new = some _ := rfl
  have hwalks := walksTerminate_iff_not_circle.1 (h _ (.exec .new trivial hexec)) 1
  exact hwalks (.single ⟨selfPointer, rfl, rfl⟩)

end Vuma.Msg
