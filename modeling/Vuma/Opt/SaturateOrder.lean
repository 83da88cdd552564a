import Vuma.Opt.EGraphLeaves

/-!
# Saturation in different orders

The associativity, distributivity and peel rules take the first node of a class that fits, in the
order in which a hash set is iterated over. As long as at most one node fits whenever one of them is
applied (`saturateOk`), graphs that differ in their leaves are saturated alike, whatever the orders.
-/

namespace Vuma.Opt

open IR

/-! ## The choices of the rules -/

/-- At most one node of the class is accepted. -/
def EGraph.alone (g : EGraph) (id : EClassId) (p : ENode → Bool) : Bool :=
  ((g.nodesOf (g.find id)).filter p).length ≤ 1

/-- The node is an operation of this kind. -/
def ENode.isOp (op : BinOpKind) : ENode → Bool
  | .binOp op' _ _ => op' = op
  | _ => false

/-- A rule for every order, and whether it has no choice at a node. -/
structure OrderedRule where
  rule : IterOrder → RewriteRule
  noChoice : ENode → EGraph → Bool

namespace OrderedRule

/-- A rule that enumerates nothing. -/
def sorted (rule : RewriteRule) : OrderedRule where
  rule _ := rule
  noChoice _ _ := true

def assocLeft (name : String) (op : BinOpKind) : OrderedRule where
  rule it := .assocLeft it name op
  noChoice node g :=
    match node with
    | .binOp op' ab _ => op' ≠ op || g.alone ab (·.isOp op)
    | _ => true

def assocRight (name : String) (op : BinOpKind) : OrderedRule where
  rule it := .assocRight it name op
  noChoice node g :=
    match node with
    | .binOp op' _ bc => op' ≠ op || g.alone bc (·.isOp op)
    | _ => true

def distribMulAddFwd : OrderedRule where
  rule it := .distribMulAddFwd it
  noChoice node g :=
    match node with
    | .binOp .mul _ bc => g.alone bc (·.isOp .add)
    | _ => true

/-- The products have the first factor in common. -/
def sharesFactor (g : EGraph) : ENode → ENode → Bool
  | .binOp .mul a₁ _, .binOp .mul a₂ _ => g.find a₁ = g.find a₂
  | _, _ => false

def distribMulAddBwd : OrderedRule where
  rule it := .distribMulAddBwd it
  noChoice node g :=
    match node with
    | .binOp .add ab ac =>
      g.alone ab (fun n => (g.nodesOf (g.find ac)).any (sharesFactor g n)) &&
        (g.nodesOf (g.find ab)).all fun n => g.alone ac (sharesFactor g n)
    | _ => true

def peel (name : String) (op : BinOpKind) (value : Word) : OrderedRule where
  rule it := .peel it name op value
  noChoice node g :=
    match node with
    | .binOp op' inner outer =>
      op' ≠ op || !g.classContainsLit outer value ||
        g.alone inner fun n =>
          match n with
          | .binOp op'' _ z => op'' = op && g.classContainsLit z value
          | _ => false
    | _ => true

end OrderedRule

open RewriteRule OrderedRule in
/-- `standard_rules` for every order. -/
def orderedRules : List OrderedRule :=
  [sorted (self "xor_self" .xor),
    sorted (self "sub_self" .sub),
    sorted (litLeft "add_zero_left" .add 0 .vreg),
    sorted (litRight "add_zero_right" [.add] 0 .vreg),
    sorted (litLeft "mul_zero_left" .mul 0 fun _ => .lit 0),
    sorted (litRight "mul_zero_right" [.mul] 0 fun _ => .lit 0),
    sorted (litRight "mul_one_right" [.mul] 1 .vreg),
    sorted (litLeft "mul_one_left" .mul 1 .vreg),
    sorted (litRight "mul_two_to_add" [.mul] 2 fun x => .binOp .add x x),
    sorted (litLeft "mul_two_left_to_add" .mul 2 fun x => .binOp .add x x),
    sorted (litLeft "and_zero_left" .and 0 fun _ => .lit 0),
    sorted (litRight "and_zero_right" [.and] 0 fun _ => .lit 0),
    sorted (litRight "or_zero_right" [.or] 0 .vreg),
    sorted (litRight "xor_zero_right" [.xor] 0 .vreg),
    sorted (litRight "shr_zero_right" [.shrL, .shrA] 0 .vreg),
    sorted (litRight "shl_zero_right" [.shl] 0 .vreg),
    sorted (comm "comm_add" .add),
    sorted (comm "comm_mul" .mul),
    sorted (comm "comm_and" .and),
    sorted (comm "comm_or" .or),
    sorted (comm "comm_xor" .xor),
    OrderedRule.assocLeft "assoc_add_left" .add,
    OrderedRule.assocRight "assoc_add_right" .add,
    OrderedRule.assocLeft "assoc_mul_left" .mul,
    OrderedRule.assocRight "assoc_mul_right" .mul,
    OrderedRule.assocLeft "assoc_and_left" .and,
    OrderedRule.assocRight "assoc_and_right" .and,
    OrderedRule.assocLeft "assoc_or_left" .or,
    OrderedRule.assocRight "assoc_or_right" .or,
    OrderedRule.assocLeft "assoc_xor_left" .xor,
    OrderedRule.assocRight "assoc_xor_right" .xor,
    OrderedRule.distribMulAddFwd,
    OrderedRule.distribMulAddBwd,
    OrderedRule.peel "peel_add_zero_zero" .add 0,
    OrderedRule.peel "peel_mul_one_one" .mul 1]

/-! ## The condition on a saturation -/

namespace EGraph

section

variable (it : IterOrder) (rules : List OrderedRule)

/-- Before a rule is applied, it has no choice, and the numbers of the classes are below those of
the leaves. -/
def applyRuleOk (node : ENode) (s : Saturation) (rule : OrderedRule) : Bool :=
  s.capHit || (decide (s.graph.nextId ≤ 1000000) && rule.noChoice node s.graph)

def visitNodeOk (classId : EClassId) (s : Saturation) (node : ENode) : Bool :=
  Lib.foldlOk (fun s rule => applyRule classId node s (rule.rule it)) (applyRuleOk node) s rules

def visitClassOk (s : Saturation) (classId : EClassId) : Bool :=
  s.capHit || Lib.foldlOk
    (fun s node => rules.foldl (fun s rule => applyRule classId node s (rule.rule it)) s)
    (visitNodeOk it rules classId) s (sortByDebug (s.graph.nodesOf (s.graph.find classId)))

def saturateRoundOk (g : EGraph) : Bool :=
  Lib.foldlOk (visitClass (rules.map (·.rule it))) (visitClassOk it rules) { graph := g } g.classIds

def saturateLoopOk : Nat → EGraph → Bool
  | 0, _ => true
  | budget + 1, g =>
    g.totalNodes > maxNodes ||
      (saturateRoundOk it rules g &&
        (let s := saturateRound (rules.map (·.rule it)) g
        let g' := if s.changed then s.graph.rebuild else s.graph
        s.capHit || saturateLoopOk budget g'))

/-- No rule has a choice when it is applied, if the gate lets the rules be applied. -/
def saturateOk (gate : List RewriteRule → Bool) (budget : Nat) (g : EGraph) : Bool :=
  !gate (rules.map (·.rule it)) || saturateLoopOk it rules budget g

end

end EGraph

/-! ## The rules -/

namespace EGraph

/-- The rule returns nothing in both graphs, or the same replacement. -/
inductive ResultEq (n : Nat) (g : EGraph) : RuleResult → RuleResult → Prop
  | none : ResultEq n g none none
  | some {r r' : EClassId × EGraph} (node : ENode) (h : AddEq n g r r') :
      ResultEq n g (some ((r.1, node), r.2)) (some ((r'.1, node), r'.2))

section

variable {n : Nat} {g g' : EGraph}

theorem ResultEq.isSome_eq {r r' : RuleResult} (h : ResultEq n g r r') : r'.isSome = r.isSome := by
  cases h <;> rfl

theorem ResultEq.findSome? {f f' : ENode → RuleResult} {l : List ENode}
    (h : ∀ node ∈ l, ResultEq n g (f node) (f' node)) :
    ResultEq n g (l.findSome? f) (l.findSome? f') := by
  induction l with
  | nil => exact .none
  | cons node l ih =>
    have hnode := h node List.mem_cons_self
    have hrest := ih fun m hm => h m (List.mem_cons_of_mem _ hm)
    rw [List.findSome?_cons, List.findSome?_cons]
    generalize f node = r at hnode ⊢
    generalize f' node = r' at hnode ⊢
    cases hnode with
    | none => exact hrest
    | some m hm => exact .some m hm

theorem eq_of_alone {id : EClassId} {p : ENode → Bool} (h : g.alone id p) {a b : ENode}
    (ha : a ∈ g.nodesOf (g.find id)) (hb : b ∈ g.nodesOf (g.find id)) (hpa : p a) (hpb : p b) :
    a = b := by
  have hlen : ((g.nodesOf (g.find id)).filter p).length ≤ 1 := of_decide_eq_true h
  have hina := List.mem_filter.2 ⟨ha, hpa⟩
  have hinb := List.mem_filter.2 ⟨hb, hpb⟩
  generalize (g.nodesOf (g.find id)).filter p = l at hlen hina hinb
  match l with
  | [] => cases hina
  | [x] => rw [List.mem_singleton.1 hina, List.mem_singleton.1 hinb]
  | _ :: _ :: _ => simp at hlen

variable (h : LeafEq n g g')
include h

/-- A search that at most one node answers finds the same in every order. -/
theorem LeafEq.firstNode {id : EClassId} {f f' : ENode → RuleResult} {p : ENode → Bool}
    (halone : g.alone id p) (hp : ∀ node, (f node).isSome → p node)
    (hleaf : ∀ m, f (.vreg m) = none ∧ f' (.vreg m) = none)
    (hf : ∀ node, g.Mem node (g.find id) → ResultEq n g (f node) (f' node)) (it it' : IterOrder) :
    ResultEq n g (RewriteRule.firstNode it g id f) (RewriteRule.firstNode it' g' id f') := by
  have hf' : ∀ node ∈ g.nodesOf (g.find id), ResultEq n g (f node) (f' node) :=
    fun node hnode => hf node (mem_nodesOf.1 hnode)
  rw [RewriteRule.firstNode, RewriteRule.firstNode, h.find_eq]
  have hperm := it.perm g (g.find id) (g.nodesOf (g.find id))
  have hperm' := it'.perm g' (g.find id) (g'.nodesOf (g.find id))
  rcases h.nodesOf_cases (g.find id) with ⟨m, m', hm, hm', -⟩ | ⟨heq, -⟩
  · rw [hm] at hperm ⊢
    rw [hm'] at hperm' ⊢
    rw [List.perm_singleton.1 hperm, List.perm_singleton.1 hperm', List.findSome?_singleton,
      List.findSome?_singleton, (hleaf m).1, (hleaf m').2]
    exact .none
  · rw [heq] at hperm' ⊢
    have huniq : ∀ a ∈ g.nodesOf (g.find id), ∀ b ∈ g.nodesOf (g.find id), (f a).isSome →
        (f b).isSome → a = b :=
      fun a ha b hb hfa hfb => eq_of_alone halone ha hb (hp a hfa) (hp b hfb)
    rw [← Lib.findSome?_of_perm hperm.symm huniq,
      ← Lib.findSome?_of_perm hperm'.symm fun a ha b hb hfa hfb =>
        huniq a ha b hb ((hf' a ha).isSome_eq ▸ hfa) ((hf' b hb).isSome_eq ▸ hfb)]
    exact .findSome? hf'

theorem LeafEq.replace {node : ENode} (hnode : ¬ node.Leaf n)
    (hops : node.OperandsIn n g.nextId) :
    ResultEq n g (RewriteRule.replace g node) (RewriteRule.replace g' node) :=
  .some node (h.add hnode hops)

omit h in
theorem AddEq.replace {r r' : EClassId × EGraph} (hr : AddEq n g r r') {node : ENode}
    (hnode : ¬ node.Leaf n) (hops : node.OperandsIn n r.2.nextId) :
    ResultEq n g (RewriteRule.replace r.2 node) (RewriteRule.replace r'.2 node) :=
  .some node (hr.add hnode hops)

end

end EGraph

namespace OrderedRule

open EGraph

/-- The rule is not for leaves, and where it has no choice it returns the same replacement in graphs
that differ in their leaves, whatever the orders. -/
structure Agrees (r : OrderedRule) : Prop where
  none_vreg : ∀ it m g, (r.rule it).apply (.vreg m) g = none
  result : ∀ ⦃n : Nat⦄ ⦃g g' : EGraph⦄ ⦃node : ENode⦄, LeafEq n g g' → g.nextId ≤ 1000000 →
    node.OperandsIn n g.nextId → r.noChoice node g → ∀ it it',
      ResultEq n g ((r.rule it).apply node g) ((r.rule it').apply node g')

theorem agrees_self (name : String) (op : BinOpKind) : (sorted (.self name op)).Agrees := by
  refine ⟨fun _ _ _ => rfl, ?_⟩
  intro n g g' node h _ _ _ it it'
  cases node with
  | lit c => exact .none
  | vreg i => exact .none
  | binOp op' x y =>
    simp only [sorted, RewriteRule.self]
    split
    · exact h.replace ENode.not_leaf_lit trivial
    · exact .none

/-- What a replacement over one class must be. -/
def Fits (repl : EClassId → ENode) : Prop :=
  ∀ n x hi, n ≤ x → x < hi → hi ≤ 1000000 → ¬ (repl x).Leaf n ∧ (repl x).OperandsIn n hi

theorem fits_lit (c : Word) : Fits fun _ => .lit c :=
  fun _ _ _ _ _ _ => ⟨ENode.not_leaf_lit, trivial⟩

theorem fits_vreg : Fits .vreg :=
  fun _ _ _ hn hlt hle => ⟨ENode.not_leaf_vreg hn (hlt.trans_le hle), trivial⟩

theorem fits_double : Fits fun x => .binOp .add x x :=
  fun _ _ _ hn hlt _ => ⟨ENode.not_leaf_binOp, ⟨hn, hlt⟩, hn, hlt⟩

theorem agrees_litLeft {repl : EClassId → ENode} (hrepl : Fits repl) (name : String)
    (op : BinOpKind) (value : Word) : (sorted (.litLeft name op value repl)).Agrees := by
  refine ⟨fun _ _ _ => rfl, ?_⟩
  intro n g g' node h hsmall hops _ it it'
  cases node with
  | lit c => exact .none
  | vreg i => exact .none
  | binOp op' x y =>
    obtain ⟨-, hy, hy'⟩ := hops
    obtain ⟨hleaf, hin⟩ := hrepl n y g.nextId hy hy' hsmall
    simp only [sorted, RewriteRule.litLeft, h.classContainsLit_eq]
    split
    · exact h.replace hleaf hin
    · exact .none

theorem agrees_litRight {repl : EClassId → ENode} (hrepl : Fits repl) (name : String)
    (ops : List BinOpKind) (value : Word) : (sorted (.litRight name ops value repl)).Agrees := by
  refine ⟨fun _ _ _ => rfl, ?_⟩
  intro n g g' node h hsmall hops _ it it'
  cases node with
  | lit c => exact .none
  | vreg i => exact .none
  | binOp op' x y =>
    obtain ⟨⟨hx, hx'⟩, -⟩ := hops
    obtain ⟨hleaf, hin⟩ := hrepl n x g.nextId hx hx' hsmall
    simp only [sorted, RewriteRule.litRight, h.classContainsLit_eq]
    split
    · exact h.replace hleaf hin
    · exact .none

theorem agrees_comm (name : String) (op : BinOpKind) : (sorted (.comm name op)).Agrees := by
  refine ⟨fun _ _ _ => rfl, ?_⟩
  intro n g g' node h _ hops _ it it'
  cases node with
  | lit c => exact .none
  | vreg i => exact .none
  | binOp op' x y =>
    simp only [sorted, RewriteRule.comm, h.classContainsAnyLit_eq]
    split
    · exact h.replace ENode.not_leaf_binOp ⟨hops.2, hops.1⟩
    · exact .none

theorem agrees_assocLeft (name : String) (op : BinOpKind) : (assocLeft name op).Agrees := by
  refine ⟨fun _ _ _ => rfl, ?_⟩
  intro n g g' node h _ hops halone it it'
  cases node with
  | lit c => exact .none
  | vreg i => exact .none
  | binOp op' ab c =>
    simp only [assocLeft, RewriteRule.assocLeft] at halone ⊢
    split
    · next hop =>
      have halone : g.alone ab (·.isOp op) := by simpa [hop] using halone
      refine h.firstNode halone ?_ (fun _ => ⟨rfl, rfl⟩) ?_ it it'
      · intro m hm
        cases m with
        | lit c => cases hm
        | vreg i => cases hm
        | binOp op'' a b =>
          by_cases hop' : op'' = op
          · simp [ENode.isOp, hop']
          · simp [hop'] at hm
      · intro m hm
        cases m with
        | lit c => exact .none
        | vreg i => exact .none
        | binOp op'' a b =>
          obtain ⟨ha, hb⟩ := h.operands _ _ hm
          dsimp only
          split
          · have hbc : AddEq n g (g.add (.binOp op b c)) (g'.add (.binOp op b c)) :=
              h.add ENode.not_leaf_binOp ⟨hb, hops.2⟩
            rw [hbc.id_eq]
            exact hbc.replace ENode.not_leaf_binOp
              ⟨⟨ha.1, ha.2.trans_le hbc.le⟩, hbc.bounds⟩
          · exact .none
    · exact .none

theorem agrees_assocRight (name : String) (op : BinOpKind) : (assocRight name op).Agrees := by
  refine ⟨fun _ _ _ => rfl, ?_⟩
  intro n g g' node h _ hops halone it it'
  cases node with
  | lit c => exact .none
  | vreg i => exact .none
  | binOp op' a bc =>
    simp only [assocRight, RewriteRule.assocRight] at halone ⊢
    split
    · next hop =>
      have halone : g.alone bc (·.isOp op) := by simpa [hop] using halone
      refine h.firstNode halone ?_ (fun _ => ⟨rfl, rfl⟩) ?_ it it'
      · intro m hm
        cases m with
        | lit c => cases hm
        | vreg i => cases hm
        | binOp op'' b c =>
          by_cases hop' : op'' = op
          · simp [ENode.isOp, hop']
          · simp [hop'] at hm
      · intro m hm
        cases m with
        | lit c => exact .none
        | vreg i => exact .none
        | binOp op'' b c =>
          obtain ⟨hb, hc⟩ := h.operands _ _ hm
          dsimp only
          split
          · have hab : AddEq n g (g.add (.binOp op a b)) (g'.add (.binOp op a b)) :=
              h.add ENode.not_leaf_binOp ⟨hops.1, hb⟩
            rw [hab.id_eq]
            exact hab.replace ENode.not_leaf_binOp
              ⟨hab.bounds, hc.1, hc.2.trans_le hab.le⟩
          · exact .none
    · exact .none

theorem agrees_distribMulAddFwd : distribMulAddFwd.Agrees := by
  refine ⟨fun _ _ _ => rfl, ?_⟩
  intro n g g' node h _ hops halone it it'
  simp only [distribMulAddFwd, RewriteRule.distribMulAddFwd] at halone ⊢
  split
  · next a bc =>
    refine h.firstNode halone ?_ (fun _ => ⟨rfl, rfl⟩) ?_ it it'
    · intro m hm
      split at hm
      · rfl
      · cases hm
    · intro m hm
      split
      · next b c =>
        obtain ⟨hb, hc⟩ := h.operands _ _ hm
        have hab : AddEq n g (g.add (.binOp .mul a b)) (g'.add (.binOp .mul a b)) :=
          h.add ENode.not_leaf_binOp ⟨hops.1, hb⟩
        have hac : AddEq n g ((g.add (.binOp .mul a b)).2.add (.binOp .mul a c))
            ((g'.add (.binOp .mul a b)).2.add (.binOp .mul a c)) :=
          hab.add ENode.not_leaf_binOp
            ⟨⟨hops.1.1, hops.1.2.trans_le hab.le⟩, hc.1, hc.2.trans_le hab.le⟩
        rw [hac.id_eq, hab.id_eq]
        refine hac.replace ENode.not_leaf_binOp ⟨⟨hab.bounds.1, ?_⟩, hac.bounds⟩
        exact hab.bounds.2.trans_le (hab.graph.add ENode.not_leaf_binOp
          ⟨⟨hops.1.1, hops.1.2.trans_le hab.le⟩, hc.1, hc.2.trans_le hab.le⟩).le
      · exact .none
  · exact .none

theorem agrees_distribMulAddBwd : distribMulAddBwd.Agrees := by
  refine ⟨fun _ _ _ => rfl, ?_⟩
  intro n g g' node h _ hops halone it it'
  simp only [distribMulAddBwd, RewriteRule.distribMulAddBwd] at halone ⊢
  split
  · next ab ac =>
    simp only [Bool.and_eq_true, List.all_eq_true] at halone
    obtain ⟨hfirst, hsecond⟩ := halone
    refine h.firstNode hfirst ?_ (fun _ => ⟨rfl, rfl⟩) ?_ it it'
    · intro m hm
      split at hm
      · next a₁ b =>
        obtain ⟨r, hr⟩ := Option.isSome_iff_exists.1 hm
        obtain ⟨m', hm', hf⟩ := RewriteRule.exists_of_firstNode hr
        refine List.any_eq_true.2 ⟨m', mem_nodesOf.2 hm', ?_⟩
        split at hf
        · split at hf
          · next hfind => exact decide_eq_true hfind
          · cases hf
        · cases hf
      · cases hm
    · intro m hm
      split
      · next a₁ b =>
        obtain ⟨ha, hb⟩ := h.operands _ _ hm
        refine h.firstNode (hsecond _ (mem_nodesOf.2 hm)) ?_ (fun _ => ⟨rfl, rfl⟩) ?_ it it'
        · intro m' hm'
          split at hm'
          · split at hm'
            · next hfind => exact decide_eq_true hfind
            · cases hm'
          · cases hm'
        · intro m' hm'
          split
          · next a₂ c =>
            obtain ⟨-, hc⟩ := h.operands _ _ hm'
            rw [h.find_eq, h.find_eq]
            split
            · have hbc : AddEq n g (g.add (.binOp .add b c)) (g'.add (.binOp .add b c)) :=
                h.add ENode.not_leaf_binOp ⟨hb, hc⟩
              rw [hbc.id_eq]
              exact hbc.replace ENode.not_leaf_binOp
                ⟨⟨ha.1, ha.2.trans_le hbc.le⟩, hbc.bounds⟩
            · exact .none
          · exact .none
      · exact .none
  · exact .none

theorem agrees_peel (name : String) (op : BinOpKind) (value : Word) :
    (peel name op value).Agrees := by
  refine ⟨fun _ _ _ => rfl, ?_⟩
  intro n g g' node h hsmall _ halone it it'
  cases node with
  | lit c => exact .none
  | vreg i => exact .none
  | binOp op' inner outer =>
    simp only [peel, RewriteRule.peel, h.classContainsLit_eq] at halone ⊢
    split
    · next hcond =>
      obtain ⟨hop, houter⟩ := hcond
      simp only [hop, houter, ne_eq, not_true_eq_false, decide_false, Bool.not_true,
        Bool.or_false, Bool.false_or] at halone
      refine h.firstNode halone ?_ (fun _ => ⟨rfl, rfl⟩) ?_ it it'
      · intro m hm
        cases m with
        | lit c => cases hm
        | vreg i => cases hm
        | binOp op'' x z =>
          by_cases hcond' : op'' = op ∧ g.classContainsLit z value
          · simp [hcond']
          · simp [hcond'] at hm
      · intro m hm
        cases m with
        | lit c => exact .none
        | vreg i => exact .none
        | binOp op'' x z =>
          obtain ⟨hx, -⟩ := h.operands _ _ hm
          dsimp only
          split
          · exact h.replace (ENode.not_leaf_vreg hx.1 (hx.2.trans_le hsmall)) trivial
          · exact .none
    · exact .none

end OrderedRule

open OrderedRule in
theorem agrees_of_mem_orderedRules {r : OrderedRule} (h : r ∈ orderedRules) : r.Agrees := by
  simp only [orderedRules, List.mem_cons, List.not_mem_nil, or_false] at h
  rcases h with rfl | rfl | rfl | rfl | rfl | rfl | rfl | rfl | rfl | rfl | rfl | rfl | rfl | rfl |
    rfl | rfl | rfl | rfl | rfl | rfl | rfl | rfl | rfl | rfl | rfl | rfl | rfl | rfl | rfl | rfl |
    rfl | rfl | rfl | rfl | rfl
  · exact agrees_self ..
  · exact agrees_self ..
  · exact agrees_litLeft fits_vreg ..
  · exact agrees_litRight fits_vreg ..
  · exact agrees_litLeft (fits_lit 0) ..
  · exact agrees_litRight (fits_lit 0) ..
  · exact agrees_litRight fits_vreg ..
  · exact agrees_litLeft fits_vreg ..
  · exact agrees_litRight fits_double ..
  · exact agrees_litLeft fits_double ..
  · exact agrees_litLeft (fits_lit 0) ..
  · exact agrees_litRight (fits_lit 0) ..
  · exact agrees_litRight fits_vreg ..
  · exact agrees_litRight fits_vreg ..
  · exact agrees_litRight fits_vreg ..
  · exact agrees_litRight fits_vreg ..
  · exact agrees_comm ..
  · exact agrees_comm ..
  · exact agrees_comm ..
  · exact agrees_comm ..
  · exact agrees_comm ..
  · exact agrees_assocLeft ..
  · exact agrees_assocRight ..
  · exact agrees_assocLeft ..
  · exact agrees_assocRight ..
  · exact agrees_assocLeft ..
  · exact agrees_assocRight ..
  · exact agrees_assocLeft ..
  · exact agrees_assocRight ..
  · exact agrees_assocLeft ..
  · exact agrees_assocRight ..
  · exact agrees_distribMulAddFwd
  · exact agrees_distribMulAddBwd
  · exact agrees_peel ..
  · exact agrees_peel ..

/-! ## Saturating both graphs -/

namespace EGraph

/-- The variables of two rounds that began with the graph `g` and one like it. -/
structure SatEq (n : Nat) (g : EGraph) (s s' : Saturation) : Prop where
  graph : LeafEq n s.graph s'.graph
  changed : s'.changed = s.changed
  capHit : s'.capHit = s.capHit
  le : g.nextId ≤ s.graph.nextId
  keeps : ∀ id, Own n g id → Own n s.graph id

theorem SatEq.refl {n : Nat} {g g' : EGraph} (h : LeafEq n g g') :
    SatEq n g { graph := g } { graph := g' } :=
  ⟨h, rfl, rfl, le_rfl, fun _ hid => hid⟩

section

variable {n : Nat} {g : EGraph} {s s' : Saturation} (it it' : IterOrder)

theorem SatEq.applyRule (hs : SatEq n g s s') {rule : OrderedRule} (hrule : rule.Agrees)
    {classId : EClassId} (hid : classId < g.nextId) (hown : Own n g classId) {node : ENode}
    (hops : node.OperandsIn n g.nextId) (hok : applyRuleOk node s rule) :
    SatEq n g (EGraph.applyRule classId node s (rule.rule it))
      (EGraph.applyRule classId node s' (rule.rule it')) := by
  unfold EGraph.applyRule
  rw [hs.capHit]
  split
  · exact hs
  · next hcap =>
    simp only [applyRuleOk, hcap, Bool.false_or, Bool.and_eq_true, decide_eq_true_eq] at hok
    have hresult := hrule.result hs.graph hok.1 (hops.mono hs.le) hok.2 it it'
    generalize (rule.rule it).apply node s.graph = r at hresult
    generalize (rule.rule it').apply node s'.graph = r' at hresult
    cases hresult with
    | none => exact hs
    | @some r r' m hadd =>
      have hgraph := hadd.graph
      have hle := hs.le.trans hadd.le
      have hkeeps : ∀ id, Own n g id → Own n r.2 id :=
        fun id hid => hadd.keeps id (hs.keeps id hid)
      simp only [hgraph.find_eq, hadd.id_eq]
      split
      · have ha : r.2.find classId < r.2.nextId := hgraph.inv.find_lt (hid.trans_le hle)
        have hb : r.2.find r.1 < r.2.nextId := hgraph.inv.find_lt hadd.bounds.2
        have howna : Own n r.2 (r.2.find classId) := by
          rw [Own, hgraph.inv.find_find]
          exact hkeeps _ hown
        have hownb : Own n r.2 (r.2.find r.1) := by
          rw [Own, hgraph.inv.find_find]
          exact hadd.own
        have hmerge := hgraph.mergeNoRebuild ha hb howna hownb
        refine ⟨hmerge, rfl, by simp only [hmerge.totalNodes_eq], ?_, fun id hid => ?_⟩
        · rw [nextId_mergeNoRebuild]
          exact hle
        · exact (hkeeps id hid).mergeNoRebuild hgraph.inv hb
      · exact ⟨hgraph, hs.changed, rfl, hle, hkeeps⟩

variable {rules : List OrderedRule} (hrules : ∀ r ∈ rules, r.Agrees)
include hrules

theorem SatEq.visitNode (hs : SatEq n g s s') {classId : EClassId} (hid : classId < g.nextId)
    (hown : Own n g classId) {node : ENode} (hops : node.OperandsIn n g.nextId)
    (hok : visitNodeOk it rules classId s node) :
    SatEq n g (rules.foldl (fun s rule => EGraph.applyRule classId node s (rule.rule it)) s)
      (rules.foldl (fun s rule => EGraph.applyRule classId node s (rule.rule it')) s') :=
  Lib.foldl_rel_of_foldlOk (fun _ _ r hr ht htok =>
    ht.applyRule it it' (hrules r hr) hid hown hops htok) hs hok

/-- No rule applies to a leaf. -/
theorem foldl_applyRule_vreg (classId : EClassId) (m : Nat) (s : Saturation) :
    rules.foldl (fun s rule => applyRule classId (.vreg m) s (rule.rule it)) s = s := by
  refine List.foldlRecOn (motive := fun t : Saturation => t = s) rules _ rfl fun t ht r hr => ?_
  rw [ht, applyRule, (hrules r hr).none_vreg]
  split <;> rfl

theorem SatEq.visitClass (hs : SatEq n g s s') {classId : EClassId} (hid : classId < g.nextId)
    (hok : visitClassOk it rules s classId) :
    SatEq n g (EGraph.visitClass (rules.map (·.rule it)) s classId)
      (EGraph.visitClass (rules.map (·.rule it')) s' classId) := by
  unfold EGraph.visitClass
  rw [hs.capHit]
  split
  · exact hs
  · next hcap =>
    simp only [visitClassOk, hcap, Bool.false_or] at hok
    simp only [hs.graph.find_eq, List.foldl_map]
    rcases hs.graph.nodesOf_cases (s.graph.find classId) with ⟨m, m', hm, hm', -⟩ | ⟨heq, hnodes⟩
    · simp only [hm, hm', sortByDebug, List.insertionSort_cons, List.insertionSort_nil,
        List.orderedInsert_nil, List.foldl_cons, List.foldl_nil, foldl_applyRule_vreg it hrules,
        foldl_applyRule_vreg it' hrules]
      exact hs
    · rw [heq]
      have hvisit : ∀ t t', ∀ node ∈ sortByDebug (s.graph.nodesOf (s.graph.find classId)),
          SatEq n s.graph t t' → visitNodeOk it rules classId t node →
            SatEq n s.graph
              (rules.foldl (fun s rule => EGraph.applyRule classId node s (rule.rule it)) t)
              (rules.foldl (fun s rule => EGraph.applyRule classId node s (rule.rule it')) t') := by
        intro t t' node hnode ht htok
        have hin := (List.mem_insertionSort _).1 hnode
        have hmem := mem_nodesOf.1 hin
        exact ht.visitNode it it' hrules (hid.trans_le hs.le) ⟨node, hmem, hnodes node hin⟩
          (hs.graph.operands _ _ hmem) htok
      have hrest := Lib.foldl_rel_of_foldlOk hvisit
        (⟨hs.graph, hs.changed, hs.capHit, le_rfl, fun _ hid => hid⟩ : SatEq n s.graph s s') hok
      exact ⟨hrest.graph, hrest.changed, hrest.capHit, hs.le.trans hrest.le,
        fun id hid => hrest.keeps id (hs.keeps id hid)⟩

theorem LeafEq.saturateRound {g' : EGraph} (h : LeafEq n g g') (hok : saturateRoundOk it rules g) :
    SatEq n g (EGraph.saturateRound (rules.map (·.rule it)) g)
      (EGraph.saturateRound (rules.map (·.rule it')) g') := by
  unfold EGraph.saturateRound
  rw [h.classIds_eq]
  refine Lib.foldl_rel_of_foldlOk (fun s s' id hid hs hsok => ?_) (.refl h) hok
  exact hs.visitClass it it' hrules (List.mem_range.1 (List.mem_of_mem_filter hid)) hsok

end

section

variable {n : Nat} {g g' : EGraph} (h : LeafEq n g g')
include h

theorem LeafEq.saturateLoop {rules : List OrderedRule} (hrules : ∀ r ∈ rules, r.Agrees)
    (it it' : IterOrder) {budget : Nat} (hok : saturateLoopOk it rules budget g) :
    LeafEq n (saturateLoop (rules.map (·.rule it)) budget g)
      (saturateLoop (rules.map (·.rule it')) budget g') := by
  induction budget generalizing g g' with
  | zero => exact h
  | succ budget ih =>
    unfold EGraph.saturateLoop
    rw [h.totalNodes_eq]
    split
    · exact h
    · next hfull =>
      simp only [saturateLoopOk, hfull, decide_false, Bool.false_or, Bool.and_eq_true] at hok
      obtain ⟨hround, hrest⟩ := hok
      have hs := h.saturateRound it it' hrules hround
      have hgraph : LeafEq n
          (if (EGraph.saturateRound (rules.map (·.rule it)) g).changed then
            (EGraph.saturateRound (rules.map (·.rule it)) g).graph.rebuild
          else (EGraph.saturateRound (rules.map (·.rule it)) g).graph)
          (if (EGraph.saturateRound (rules.map (·.rule it')) g').changed then
            (EGraph.saturateRound (rules.map (·.rule it')) g').graph.rebuild
          else (EGraph.saturateRound (rules.map (·.rule it')) g').graph) := by
        rw [hs.changed]
        split
        · exact hs.graph.rebuild
        · exact hs.graph
      simp only [hs.capHit]
      split
      · exact hgraph
      · next hcap =>
        simp only [hcap, Bool.false_or] at hrest
        exact ih hgraph hrest

theorem LeafEq.saturate {rules : List OrderedRule} (hrules : ∀ r ∈ rules, r.Agrees)
    {it it' : IterOrder} {gate gate' : List RewriteRule → Bool}
    (hgate : gate' (rules.map (·.rule it')) = gate (rules.map (·.rule it))) {budget : Nat}
    (hok : saturateOk it rules gate budget g) :
    LeafEq n (g.saturate gate (rules.map (·.rule it)) budget)
      (g'.saturate gate' (rules.map (·.rule it')) budget) := by
  unfold EGraph.saturate
  rw [hgate]
  split
  · next hpass =>
    simp only [saturateOk, hpass, Bool.not_true, Bool.false_or] at hok
    exact h.saturateLoop hrules it it' hok
  · exact h

end

end EGraph

end Vuma.Opt
