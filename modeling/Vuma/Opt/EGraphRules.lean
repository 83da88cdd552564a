import Vuma.Opt.EGraphSound

/-!
# The standard rules are sound

A rule is sound when the class it returns has the value of the node it was applied to, in every model
of the graph with the nodes that the rule has added. Every rule of `standard_rules` is sound, because
its equation holds of 64-bit words.
-/

namespace Vuma.Opt

open IR

/-! ## Words -/

theorem evalOp_eq (op : BinOpKind) (a b : Word) :
    evalOp op a b = (binOpAt 64 id op a b).getD 0 := by
  have he : extendTo none (w := 64) = id := funext fun x => BitVec.setWidth_eq x
  change (binOpAt 64 (extendTo none) op (a.setWidth 64) (b.setWidth 64)).getD 0 = _
  rw [BitVec.setWidth_eq, BitVec.setWidth_eq, he]

section

variable (a b : Word)

@[simp] theorem evalOp_add : evalOp .add a b = a + b := evalOp_eq ..

@[simp] theorem evalOp_sub : evalOp .sub a b = a - b := evalOp_eq ..

@[simp] theorem evalOp_mul : evalOp .mul a b = a * b := evalOp_eq ..

@[simp] theorem evalOp_and : evalOp .and a b = a &&& b := evalOp_eq ..

@[simp] theorem evalOp_or : evalOp .or a b = a ||| b := evalOp_eq ..

@[simp] theorem evalOp_xor : evalOp .xor a b = a ^^^ b := evalOp_eq ..

@[simp] theorem evalOp_shl_zero : evalOp .shl a 0#64 = a := by
  simp [evalOp_eq, binOpAt]

@[simp] theorem evalOp_shrL_zero : evalOp .shrL a 0#64 = a := by
  simp [evalOp_eq, binOpAt]

@[simp] theorem evalOp_shrA_zero : evalOp .shrA a 0#64 = a := by
  simp [evalOp_eq, binOpAt]

end

/-! ## Adding nodes -/

namespace EGraph

variable {ev : OpValue} {ext : Nat → Prop} {g : EGraph}

theorem mem_nodesOf {n : ENode} {id : EClassId} : n ∈ g.nodesOf id ↔ g.Mem n id := by
  rw [Mem, nodesOf]
  cases g.classes id <;> simp

theorem Models.of_classContainsLit {id : EClassId} {c : Word} {v : Nat → Word}
    (hv : Models ev v g) (hc : g.classContainsLit id c) : v id = c := by
  obtain ⟨n, hn, hlit⟩ := List.any_eq_true.1 hc
  obtain rfl := of_decide_eq_true hlit
  rw [← hv.ids id, ← hv.nodes _ _ (mem_nodesOf.1 hn)]
  rfl

theorem Inv.reach_add (hg : g.Inv) {n : ENode} (hn : ∀ k ∈ n.refs, g.Known k ∨ ext k) :
    Reach ev ext g (g.add n).2 ∧ (g.add n).1 < (g.add n).2.nextId ∧
      (g.add n).2.Mem n ((g.add n).2.find (g.add n).1) := by
  rcases g.add_cases n with ⟨id, hid, hadd⟩ | ⟨-, hadd⟩
  · rw [hadd, hg.find_find]
    obtain ⟨hlt, hmem⟩ := hg.hashcons n id hid
    exact ⟨.refl, hg.find_lt hlt, hmem⟩
  · rw [hadd, hg.find_addNew, hg.find_ge le_rfl]
    exact ⟨.addNew n .refl hn, Nat.lt_succ_self _, (hg.mem_addNew n).2 (.inr ⟨rfl, rfl⟩)⟩

/-- The graph `r.2` is made of `g`, and in its models the class `r.1` has the value `w`. The class is
not one of divisions. -/
structure Yields (ev : OpValue) (ext : Nat → Prop) (g : EGraph) (w : (Nat → Word) → Word)
    (r : EClassId × EGraph) : Prop where
  reach : Reach ev ext g r.2
  lt : r.1 < r.2.nextId
  value : ∀ v, Models ev v r.2 → v r.1 = w v
  plain : ∃ n, r.2.Mem n (r.2.find r.1) ∧ n.divides = false

variable (hg : g.Inv)
include hg

theorem Inv.yields_add {n : ENode} (hn : ∀ k ∈ n.refs, g.Known k) (hdiv : n.divides = false) :
    g.Yields ev ext (fun v => n.value ev v) (g.add n) := by
  obtain ⟨hreach, hlt, hmem⟩ := hg.reach_add fun k hk => .inl (hn k hk)
  refine ⟨hreach, hlt, fun v hv => ?_, n, hmem, hdiv⟩
  rw [hv.nodes n _ hmem, hv.ids]

/-- A node over the class of another. -/
theorem Yields.add {w : (Nat → Word) → Word} {r : EClassId × EGraph} (h : g.Yields ev ext w r)
    {n : ENode} (hn : ∀ k ∈ n.refs, k = r.1 ∨ g.Known k) (hdiv : n.divides = false) :
    g.Yields ev ext (fun v => n.value ev v) (r.2.add n) ∧
      ∀ v, Models ev v (r.2.add n).2 → Models ev v r.2 ∧ v r.1 = w v := by
  have hinv := h.reach.inv hg
  have hknown : ∀ k ∈ n.refs, r.2.Known k := by
    intro k hk
    rcases hn k hk with rfl | hk
    · exact .inl h.lt
    · exact h.reach.known hg hk
  have hr : r.2.Yields ev ext (fun v => n.value ev v) (r.2.add n) := hinv.yields_add hknown hdiv
  refine ⟨⟨h.reach.trans hr.reach, hr.lt, hr.value, hr.plain⟩, fun v hv => ?_⟩
  have hv' := hr.reach.models hinv hv
  exact ⟨hv', h.value v hv'⟩

end EGraph

/-! ## Rules -/

namespace RewriteRule

open EGraph

/-- The rule is not for divisions, and the class that it returns has the value of the node. -/
def Sound (ev : OpValue) (ext : Nat → Prop) (rule : RewriteRule) : Prop :=
  ∀ ⦃g node id n g'⦄, g.Inv → (∀ k ∈ node.refs, g.Known k) →
    rule.apply node g = some ((id, n), g') →
      node.divides = false ∧ g.Yields ev ext (fun v => node.value ev v) (id, g')

variable {ev : OpValue} {ext : Nat → Prop} {g : EGraph}

theorem replace_eq {n n' : ENode} {id : EClassId} {g' : EGraph}
    (h : replace g n = some ((id, n'), g')) : g.add n = (id, g') := by
  obtain ⟨⟨rfl, rfl⟩, rfl⟩ : (_ ∧ _) ∧ _ := by simpa [replace] using h
  rfl

/-- A replacement over known numbers, with the value of the node in every model. -/
theorem yields_of_replace (hg : g.Inv) {node n n' : ENode} {id : EClassId} {g' : EGraph}
    (hn : ∀ k ∈ n.refs, g.Known k) (hdiv : n.divides = false)
    (h : replace g n = some ((id, n'), g'))
    (hvalue : ∀ v, Models ev v g → n.value ev v = node.value ev v) :
    g.Yields ev ext (fun v => node.value ev v) (id, g') := by
  have hadd : g.Yields ev ext (fun v => n.value ev v) (g.add n) := hg.yields_add hn hdiv
  rw [replace_eq h] at hadd
  exact ⟨hadd.reach, hadd.lt, fun v hv =>
    (hadd.value v hv).trans (hvalue v (hadd.reach.models hg hv)), hadd.plain⟩

theorem sound_self {op : BinOpKind} (hdiv : isDivision op = false) (hop : ∀ x, ev op x x = 0)
    (name : String) :
    (self name op).Sound ev ext := by
  intro g node id n g' hg hk happ
  cases node with
  | lit c => cases happ
  | vreg i => cases happ
  | binOp op' x y =>
    simp only [self] at happ
    split at happ
    · next hcond =>
      obtain ⟨rfl, rfl⟩ := hcond
      refine ⟨hdiv, yields_of_replace hg (by simp [ENode.refs]) rfl happ fun v _ => ?_⟩
      exact (hop (v x)).symm
    · cases happ

theorem sound_litLeft {op : BinOpKind} (hdiv : isDivision op = false) {c : Word}
    {repl : EClassId → ENode} (hrefs : ∀ x, (repl x).refs ⊆ [x] ∧ (repl x).divides = false)
    (hop : ∀ v x, (repl x).value ev v = ev op c (v x)) (name : String) :
    (litLeft name op c repl).Sound ev ext := by
  intro g node id n g' hg hk happ
  cases node with
  | lit c => cases happ
  | vreg i => cases happ
  | binOp op' x y =>
    simp only [litLeft] at happ
    split at happ
    · next hcond =>
      obtain ⟨rfl, hlit⟩ := hcond
      refine ⟨hdiv, yields_of_replace hg (fun k hkn => ?_) (hrefs y).2 happ fun v hv => ?_⟩
      · exact hk k (List.mem_cons_of_mem _ ((hrefs y).1 hkn))
      · rw [hop, ENode.value, hv.of_classContainsLit hlit]
    · cases happ

theorem sound_litRight {ops : List BinOpKind} (hdiv : ∀ op ∈ ops, isDivision op = false) {c : Word}
    {repl : EClassId → ENode} (hrefs : ∀ x, (repl x).refs ⊆ [x] ∧ (repl x).divides = false)
    (hop : ∀ op ∈ ops, ∀ v x, (repl x).value ev v = ev op (v x) c)
    (name : String) : (litRight name ops c repl).Sound ev ext := by
  intro g node id n g' hg hk happ
  cases node with
  | lit c => cases happ
  | vreg i => cases happ
  | binOp op' x y =>
    simp only [litRight] at happ
    split at happ
    · next hcond =>
      refine ⟨hdiv op' hcond.1,
        yields_of_replace hg (fun k hkn => ?_) (hrefs x).2 happ fun v hv => ?_⟩
      · rw [List.mem_singleton.1 ((hrefs x).1 hkn)]
        exact (ENode.forall_refs_binOp.1 hk).1
      · rw [hop op' hcond.1, ENode.value, hv.of_classContainsLit hcond.2]
    · cases happ

theorem sound_comm {op : BinOpKind} (hdiv : isDivision op = false)
    (hop : ∀ x y, ev op x y = ev op y x) (name : String) : (comm name op).Sound ev ext := by
  intro g node id n g' hg hk happ
  cases node with
  | lit c => cases happ
  | vreg i => cases happ
  | binOp op' x y =>
    simp only [comm] at happ
    split at happ
    · next hcond =>
      obtain ⟨rfl, -⟩ := hcond
      refine ⟨hdiv, yields_of_replace (n := .binOp op' y x) hg ?_ hdiv happ fun v _ => hop _ _⟩
      exact ENode.forall_refs_binOp.2 (ENode.forall_refs_binOp.1 hk).symm
    · cases happ

theorem exists_of_firstNode {α : Type} {it : IterOrder} {id : EClassId} {f : ENode → Option α}
    {r : α} (h : firstNode it g id f = some r) : ∃ n, g.Mem n (g.find id) ∧ f n = some r := by
  obtain ⟨n, hn, hf⟩ := List.exists_of_findSome?_eq_some h
  exact ⟨n, mem_nodesOf.1 ((it.perm _ _ _).mem_iff.1 hn), hf⟩

theorem yields_of_two (hg : g.Inv) {node m n n' : ENode} {id : EClassId} {g' : EGraph}
    (hm : ∀ k ∈ m.refs, g.Known k) (hn : ∀ k ∈ n.refs, k = (g.add m).1 ∨ g.Known k)
    (hdiv : m.divides = false) (hdiv' : n.divides = false)
    (h : replace (g.add m).2 n = some ((id, n'), g'))
    (hvalue : ∀ v, Models ev v g → v (g.add m).1 = m.value ev v → n.value ev v = node.value ev v) :
    g.Yields ev ext (fun v => node.value ev v) (id, g') := by
  have hadd : g.Yields ev ext (fun v => m.value ev v) (g.add m) := hg.yields_add hm hdiv
  obtain ⟨hyields, hmodels⟩ := hadd.add hg hn hdiv'
  rw [replace_eq h] at hyields hmodels
  refine ⟨hyields.reach, hyields.lt, fun v hv => (hyields.value v hv).trans ?_, hyields.plain⟩
  exact hvalue v (hyields.reach.models hg hv) (hmodels v hv).2

theorem known_of_mem {op : BinOpKind} {x y : EClassId} {id : EClassId}
    (h : g.Mem (.binOp op x y) id) : g.Known x ∧ g.Known y :=
  ENode.forall_refs_binOp.1 fun _ hk => .inr ⟨_, _, h, hk⟩

theorem value_of_mem {op : BinOpKind} {x y id : EClassId} {v : Nat → Word} (hv : Models ev v g)
    (h : g.Mem (.binOp op x y) (g.find id)) : v id = ev op (v x) (v y) := by
  rw [← hv.ids id, ← hv.nodes _ _ h, ENode.value]

theorem sound_assocLeft {op : BinOpKind} (hdiv : isDivision op = false)
    (hop : ∀ x y z, ev op (ev op x y) z = ev op x (ev op y z)) (it : IterOrder)
    (name : String) : (assocLeft it name op).Sound ev ext := by
  intro g node id n g' hg hk happ
  cases node with
  | lit c => cases happ
  | vreg i => cases happ
  | binOp op' ab c =>
    simp only [assocLeft] at happ
    split at happ
    · next hop' =>
      subst hop'
      obtain ⟨n, hmem, hf⟩ := exists_of_firstNode happ
      cases n with
      | lit c => cases hf
      | vreg i => cases hf
      | binOp op'' a b =>
        simp only at hf
        split at hf
        · next hop'' =>
          subst hop''
          obtain ⟨ha, hb⟩ := known_of_mem hmem
          obtain ⟨-, hc⟩ := ENode.forall_refs_binOp.1 hk
          refine ⟨hdiv, yields_of_two hg (ENode.forall_refs_binOp.2 ⟨hb, hc⟩)
            (ENode.forall_refs_binOp.2 ⟨.inr ha, .inl rfl⟩) hdiv hdiv hf fun v hv hbc => ?_⟩
          rw [ENode.value, hbc, ENode.value, ENode.value, value_of_mem hv hmem, hop]
        · cases hf
    · cases happ

theorem sound_assocRight {op : BinOpKind} (hdiv : isDivision op = false)
    (hop : ∀ x y z, ev op (ev op x y) z = ev op x (ev op y z)) (it : IterOrder)
    (name : String) : (assocRight it name op).Sound ev ext := by
  intro g node id n g' hg hk happ
  cases node with
  | lit c => cases happ
  | vreg i => cases happ
  | binOp op' a bc =>
    simp only [assocRight] at happ
    split at happ
    · next hop' =>
      subst hop'
      obtain ⟨n, hmem, hf⟩ := exists_of_firstNode happ
      cases n with
      | lit c => cases hf
      | vreg i => cases hf
      | binOp op'' b c =>
        simp only at hf
        split at hf
        · next hop'' =>
          subst hop''
          obtain ⟨ha, -⟩ := ENode.forall_refs_binOp.1 hk
          obtain ⟨hb, hc⟩ := known_of_mem hmem
          refine ⟨hdiv, yields_of_two hg (ENode.forall_refs_binOp.2 ⟨ha, hb⟩)
            (ENode.forall_refs_binOp.2 ⟨.inl rfl, .inr hc⟩) hdiv hdiv hf fun v hv hab => ?_⟩
          rw [ENode.value, hab, ENode.value, ENode.value, value_of_mem hv hmem, hop]
        · cases hf
    · cases happ

theorem sound_distribMulAddFwd (hev : ev.Standard) (it : IterOrder) :
    (distribMulAddFwd it).Sound ev ext := by
  intro g node id n g' hg hk happ
  unfold distribMulAddFwd at happ
  simp only at happ
  split at happ
  · next a bc =>
    obtain ⟨n, hmem, hf⟩ := exists_of_firstNode happ
    split at hf
    · next b c =>
      obtain ⟨ha, -⟩ := ENode.forall_refs_binOp.1 hk
      obtain ⟨hb, hc⟩ := known_of_mem hmem
      -- The first product; the other two nodes are added to the graph that has it.
      have hab : g.Yields ev ext (fun v => (ENode.binOp .mul a b).value ev v)
          (g.add (.binOp .mul a b)) :=
        hg.yields_add (ENode.forall_refs_binOp.2 ⟨ha, hb⟩) rfl
      have hinv := hab.reach.inv hg
      have hrest : (g.add (.binOp .mul a b)).2.Yields ev ext
          (fun v => (ENode.binOp .mul a bc).value ev v) (id, g') := by
        refine yields_of_two hinv
          (ENode.forall_refs_binOp.2 ⟨hab.reach.known hg ha, hab.reach.known hg hc⟩)
          (ENode.forall_refs_binOp.2 ⟨.inr (.inl hab.lt), .inl rfl⟩) rfl rfl hf fun v hv hac => ?_
        have hvg := hab.reach.models hg hv
        rw [ENode.value, hac, hab.value v hv, ENode.value, ENode.value, ENode.value,
          value_of_mem hvg hmem]
        simp only [hev .add rfl, hev .mul rfl, evalOp_add, evalOp_mul]
        exact (BitVec.mul_add).symm
      exact ⟨rfl, hab.reach.trans hrest.reach, hrest.lt, hrest.value, hrest.plain⟩
    · cases hf
  · cases happ

theorem sound_distribMulAddBwd (hev : ev.Standard) (it : IterOrder) :
    (distribMulAddBwd it).Sound ev ext := by
  intro g node id n g' hg hk happ
  unfold distribMulAddBwd at happ
  simp only at happ
  split at happ
  · next ab ac =>
    obtain ⟨n, hmem, hf⟩ := exists_of_firstNode happ
    split at hf
    · next a₁ b =>
      obtain ⟨n, hmem', hf⟩ := exists_of_firstNode hf
      split at hf
      · next a₂ c =>
        split at hf
        · next hfind =>
          obtain ⟨ha, hb⟩ := known_of_mem hmem
          obtain ⟨-, hc⟩ := known_of_mem hmem'
          refine ⟨rfl, yields_of_two hg (ENode.forall_refs_binOp.2 ⟨hb, hc⟩)
            (ENode.forall_refs_binOp.2 ⟨.inr ha, .inl rfl⟩) rfl rfl hf fun v hv hbc => ?_⟩
          have ha₂ : v a₁ = v a₂ := by rw [← hv.ids a₁, hfind, hv.ids]
          rw [ENode.value, hbc, ENode.value, ENode.value, value_of_mem hv hmem,
            value_of_mem hv hmem', ← ha₂]
          simp only [hev .add rfl, hev .mul rfl, evalOp_add, evalOp_mul]
          exact BitVec.mul_add
        · cases hf
      · cases hf
    · cases hf
  · cases happ

theorem sound_peel {op : BinOpKind} (hdiv : isDivision op = false) {c : Word}
    (hop : ∀ x, ev op x c = x) (it : IterOrder) (name : String) :
    (peel it name op c).Sound ev ext := by
  intro g node id n g' hg hk happ
  cases node with
  | lit c => cases happ
  | vreg i => cases happ
  | binOp op' inner outer =>
    simp only [peel] at happ
    split at happ
    · next hcond =>
      obtain ⟨rfl, houter⟩ := hcond
      obtain ⟨n, hmem, hf⟩ := exists_of_firstNode happ
      cases n with
      | lit c => cases hf
      | vreg i => cases hf
      | binOp op'' x z =>
        simp only at hf
        split at hf
        · next hcond' =>
          obtain ⟨rfl, hz⟩ := hcond'
          have hx : ∀ k ∈ (ENode.vreg x).refs, g.Known k := by
            simpa [ENode.refs] using (known_of_mem hmem).1
          refine ⟨hdiv, yields_of_replace hg hx rfl hf fun v hv => ?_⟩
          rw [ENode.value, ENode.value, value_of_mem hv hmem, hv.of_classContainsLit houter,
            hv.of_classContainsLit hz, hop, hop]
        · cases hf
    · cases happ

end RewriteRule

open RewriteRule in
theorem sound_of_mem_standardRules {ev : OpValue} (hev : ev.Standard) (ext : Nat → Prop)
    (it : IterOrder) {rule : RewriteRule} (h : rule ∈ standardRules it) : rule.Sound ev ext := by
  simp only [standardRules, List.mem_cons, List.not_mem_nil, or_false] at h
  rcases h with rfl | rfl | rfl | rfl | rfl | rfl | rfl | rfl | rfl | rfl | rfl | rfl | rfl | rfl |
    rfl | rfl | rfl | rfl | rfl | rfl | rfl | rfl | rfl | rfl | rfl | rfl | rfl | rfl | rfl | rfl |
    rfl | rfl | rfl | rfl | rfl
  · exact sound_self rfl (by simp [hev .xor rfl]) _
  · exact sound_self rfl (by simp [hev .sub rfl]) _
  · exact sound_litLeft rfl (by simp [ENode.refs, ENode.divides])
      (by simp [ENode.value, hev .add rfl]) _
  · exact sound_litRight (by decide)
      (by simp [ENode.refs, ENode.divides])
      (by simp [ENode.value, hev .add rfl]) _
  · exact sound_litLeft rfl (by simp [ENode.refs, ENode.divides])
      (by simp [ENode.value, hev .mul rfl]) _
  · exact sound_litRight (by decide)
      (by simp [ENode.refs, ENode.divides])
      (by simp [ENode.value, hev .mul rfl]) _
  · exact sound_litRight (by decide)
      (by simp [ENode.refs, ENode.divides])
      (by simp [ENode.value, hev .mul rfl]) _
  · exact sound_litLeft rfl (by simp [ENode.refs, ENode.divides])
      (by simp [ENode.value, hev .mul rfl]) _
  · exact sound_litRight (by decide)
      (by simp [ENode.refs, ENode.divides, isDivision])
      (by simp [ENode.value, hev .mul rfl, hev .add rfl, BitVec.mul_two]) _
  · exact sound_litLeft rfl (by simp [ENode.refs, ENode.divides, isDivision])
      (by simp [ENode.value, hev .mul rfl, hev .add rfl, BitVec.two_mul]) _
  · exact sound_litLeft rfl (by simp [ENode.refs, ENode.divides])
      (by simp [ENode.value, hev .and rfl]) _
  · exact sound_litRight (by decide)
      (by simp [ENode.refs, ENode.divides])
      (by simp [ENode.value, hev .and rfl]) _
  · exact sound_litRight (by decide)
      (by simp [ENode.refs, ENode.divides])
      (by simp [ENode.value, hev .or rfl]) _
  · exact sound_litRight (by decide)
      (by simp [ENode.refs, ENode.divides])
      (by simp [ENode.value, hev .xor rfl]) _
  · exact sound_litRight (by decide)
      (by simp [ENode.refs, ENode.divides])
      (by simp [ENode.value, hev .shrL rfl, hev .shrA rfl]) _
  · exact sound_litRight (by decide)
      (by simp [ENode.refs, ENode.divides])
      (by simp [ENode.value, hev .shl rfl]) _
  · exact sound_comm rfl (by simp [hev .add rfl, BitVec.add_comm]) _
  · exact sound_comm rfl (by simp [hev .mul rfl, BitVec.mul_comm]) _
  · exact sound_comm rfl (by simp [hev .and rfl, BitVec.and_comm]) _
  · exact sound_comm rfl (by simp [hev .or rfl, BitVec.or_comm]) _
  · exact sound_comm rfl (by simp [hev .xor rfl, BitVec.xor_comm]) _
  · exact sound_assocLeft rfl (by simp [hev .add rfl, BitVec.add_assoc]) it _
  · exact sound_assocRight rfl (by simp [hev .add rfl, BitVec.add_assoc]) it _
  · exact sound_assocLeft rfl (by simp [hev .mul rfl, BitVec.mul_assoc]) it _
  · exact sound_assocRight rfl (by simp [hev .mul rfl, BitVec.mul_assoc]) it _
  · exact sound_assocLeft rfl (by simp [hev .and rfl, BitVec.and_assoc]) it _
  · exact sound_assocRight rfl (by simp [hev .and rfl, BitVec.and_assoc]) it _
  · exact sound_assocLeft rfl (by simp [hev .or rfl, BitVec.or_assoc]) it _
  · exact sound_assocRight rfl (by simp [hev .or rfl, BitVec.or_assoc]) it _
  · exact sound_assocLeft rfl (by simp [hev .xor rfl, BitVec.xor_assoc]) it _
  · exact sound_assocRight rfl (by simp [hev .xor rfl, BitVec.xor_assoc]) it _
  · exact sound_distribMulAddFwd hev it
  · exact sound_distribMulAddBwd hev it
  · exact sound_peel rfl (by simp [hev .add rfl]) it _
  · exact sound_peel rfl (by simp [hev .mul rfl]) it _

end Vuma.Opt
