import Vuma.Opt.FunctionMerge
import Vuma.Lib.UnionFind

/-!
# E-graphs

`EGraph` of `egraph.rs` for literals, registers and binary operations: adding nodes, merging and
rebuilding classes, the standard rewrite rules, saturation and extraction.

The number in a `VReg` node plays two parts. Nodes that are added from outside use it for a register;
the rules use it for a class that the node stands for.

A hash map is a function to `Option`, and a hash set is a list without repetitions. Where the code
iterates over a hash set without sorting, the order is taken from an `IterOrder`.
-/

namespace Vuma.Opt

open IR

abbrev EClassId := Nat

/-- `ENode`, without the operations on states. -/
inductive ENode where
  | lit (value : Word)
  | vreg (id : Nat)
  | binOp (op : BinOpKind) (lhs rhs : EClassId)
  deriving DecidableEq, Repr

/-- The `{:?}` of a node. -/
def ENode.debug : ENode → String
  | .lit value => "Lit(" ++ toString value.toInt ++ ")"
  | .vreg id => "VReg(" ++ toString id ++ ")"
  | .binOp op lhs rhs =>
    "BinOp(" ++ debugBinOp op ++ ", " ++ toString lhs ++ ", " ++ toString rhs ++ ")"

/-- Nodes in the order of their `{:?}`. -/
def sortByDebug (nodes : List ENode) : List ENode :=
  nodes.insertionSort fun a b => a.debug ≤ b.debug

/-- `EGraph`, without the provenance. A class without an entry in `parents` is its own parent. -/
structure EGraph where
  hashcons : ENode → Option EClassId := fun _ => none
  classes : EClassId → Option (List ENode) := fun _ => none
  parents : EClassId → EClassId := id
  nextId : EClassId := 0

/-- The order in which a hash set is iterated over. -/
structure IterOrder where
  order : EGraph → EClassId → List ENode → List ENode
  perm : ∀ g id nodes, (order g id nodes).Perm nodes

namespace EGraph

/-- The loop of `find`. -/
def findFrom (parents : EClassId → EClassId) : Nat → EClassId → EClassId
  | 0, id => id
  | fuel + 1, id => if parents id = id then id else findFrom parents fuel (parents id)

/-- `find`. A path has fewer steps than there are ids. -/
def find (g : EGraph) (id : EClassId) : EClassId := findFrom g.parents g.nextId id

def add (g : EGraph) (node : ENode) : EClassId × EGraph :=
  match g.hashcons node with
  | some id => (g.find id, g)
  | none =>
    (g.nextId,
      { hashcons := Function.update g.hashcons node (some g.nextId)
        classes := Function.update g.classes g.nextId (some [node])
        parents := Function.update g.parents g.nextId g.nextId
        nextId := g.nextId + 1 })

/-- The nodes of a class, none if it has no entry. -/
def nodesOf (g : EGraph) (id : EClassId) : List ENode := (g.classes id).getD []

def mergeNoRebuild (g : EGraph) (a b : EClassId) : EGraph :=
  let ra := g.find a
  let rb := g.find b
  if ra = rb then g
  else
    let parents := Function.update g.parents rb ra
    match g.classes rb with
    | none => { g with parents := parents }
    | some nodes =>
      { g with
        parents := parents
        classes := Function.update (Function.update g.classes rb none) ra
          (some (nodes.foldl (fun s n => if n ∈ s then s else s ++ [n]) (g.nodesOf ra)))
        hashcons := fun n => if n ∈ nodes then some ra else g.hashcons n }

def canonicalize (g : EGraph) : ENode → ENode
  | .binOp op a b => .binOp op (g.find a) (g.find b)
  | n => n

/-- The keys of `classes`, sorted. -/
def classIds (g : EGraph) : List EClassId :=
  (List.range g.nextId).filter fun id => (g.classes id).isSome

/-- The keys of `classes` that are canonical. -/
def canonicalIds (g : EGraph) : List EClassId := g.classIds.filter fun id => g.find id = id

/-- The canonical form of every node, with its class. -/
def canonicalNodes (g : EGraph) : List (ENode × EClassId) :=
  g.canonicalIds.flatMap fun id => (g.nodesOf id).map fun n => (g.canonicalize n, id)

/-- Merge the classes of a group, one after the other, into that of the first. -/
def mergeGroup (s : EGraph × Bool) (group : List EClassId) : EGraph × Bool :=
  match group with
  | [] => s
  | first :: others =>
    others.foldl
      (fun s other =>
        if s.1.find first ≠ s.1.find other then
          (s.1.mergeNoRebuild (s.1.find first) (s.1.find other), true)
        else s) s

def rebuildOnce (g : EGraph) : EGraph × Bool :=
  let pairs := g.canonicalNodes
  let groups := (sortByDebug (pairs.map (·.1)).dedup).map fun n =>
    (pairs.filter fun p => p.1 = n).map (·.2)
  groups.foldl mergeGroup (g, false)

/-- The loop of `rebuild`. -/
def rebuildLoop : Nat → EGraph → EGraph
  | 0, g => g
  | n + 1, g =>
    let (g', merged) := g.rebuildOnce
    if merged then rebuildLoop n g' else g'

def rebuild (g : EGraph) : EGraph := rebuildLoop 16 g

def merge (g : EGraph) (a b : EClassId) : EGraph := (g.mergeNoRebuild a b).rebuild

def classContainsLit (g : EGraph) (id : EClassId) (value : Word) : Bool :=
  (g.nodesOf (g.find id)).any (· = .lit value)

def classContainsAnyLit (g : EGraph) (id : EClassId) : Bool :=
  (g.nodesOf (g.find id)).any fun n =>
    match n with
    | .lit _ => true
    | _ => false

end EGraph

/-! ## Rules -/

/-- What a rule returns: the class of the replacement, the replacement, and the graph with the nodes
that it has added. -/
abbrev RuleResult := Option ((EClassId × ENode) × EGraph)

structure RewriteRule where
  name : String
  verified : Bool := true
  apply : ENode → EGraph → RuleResult

namespace RewriteRule

open EGraph

/-- Add the replacement. -/
def replace (g : EGraph) (replacement : ENode) : RuleResult :=
  some (((g.add replacement).1, replacement), (g.add replacement).2)

/-- `x op x → 0`. -/
def self (name : String) (op : BinOpKind) : RewriteRule where
  name := name
  apply node g :=
    match node with
    | .binOp op' x y => if op' = op ∧ x = y then replace g (.lit 0) else none
    | _ => none

/-- `value op x → repl x`. -/
def litLeft (name : String) (op : BinOpKind) (value : Word) (repl : EClassId → ENode) :
    RewriteRule where
  name := name
  apply node g :=
    match node with
    | .binOp op' lhs rhs =>
      if op' = op ∧ g.classContainsLit lhs value then replace g (repl rhs) else none
    | _ => none

/-- `x op value → repl x`. -/
def litRight (name : String) (ops : List BinOpKind) (value : Word) (repl : EClassId → ENode) :
    RewriteRule where
  name := name
  apply node g :=
    match node with
    | .binOp op' lhs rhs =>
      if op' ∈ ops ∧ g.classContainsLit rhs value then replace g (repl lhs) else none
    | _ => none

/-- `a op b → b op a`, unless one of them is a literal. -/
def comm (name : String) (op : BinOpKind) : RewriteRule where
  name := name
  apply node g :=
    match node with
    | .binOp op' a b =>
      if op' = op ∧ a ≠ b ∧ ¬ g.classContainsAnyLit a ∧ ¬ g.classContainsAnyLit b then
        replace g (.binOp op b a)
      else none
    | _ => none

/-- The first node of a class, in iteration order, that the function accepts. -/
def firstNode {α : Type} (it : IterOrder) (g : EGraph) (id : EClassId) (f : ENode → Option α) :
    Option α :=
  (it.order g (g.find id) (g.nodesOf (g.find id))).findSome? f

/-- `(a op b) op c → a op (b op c)`. -/
def assocLeft (it : IterOrder) (name : String) (op : BinOpKind) : RewriteRule where
  name := name
  apply node g :=
    match node with
    | .binOp op' ab c =>
      if op' = op then
        firstNode it g ab fun n =>
          match n with
          | .binOp op'' a b =>
            if op'' = op then
              let (bc, g) := g.add (.binOp op b c)
              replace g (.binOp op a bc)
            else none
          | _ => none
      else none
    | _ => none

/-- `a op (b op c) → (a op b) op c`. -/
def assocRight (it : IterOrder) (name : String) (op : BinOpKind) : RewriteRule where
  name := name
  apply node g :=
    match node with
    | .binOp op' a bc =>
      if op' = op then
        firstNode it g bc fun n =>
          match n with
          | .binOp op'' b c =>
            if op'' = op then
              let (ab, g) := g.add (.binOp op a b)
              replace g (.binOp op ab c)
            else none
          | _ => none
      else none
    | _ => none

/-- `a * (b + c) → a * b + a * c`. -/
def distribMulAddFwd (it : IterOrder) : RewriteRule where
  name := "distrib_mul_add_fwd"
  apply node g :=
    match node with
    | .binOp .mul a bc =>
      firstNode it g bc fun n =>
        match n with
        | .binOp .add b c =>
          let (ab, g) := g.add (.binOp .mul a b)
          let (ac, g) := g.add (.binOp .mul a c)
          replace g (.binOp .add ab ac)
        | _ => none
    | _ => none

/-- `a * b + a * c → a * (b + c)`. -/
def distribMulAddBwd (it : IterOrder) : RewriteRule where
  name := "distrib_mul_add_bwd"
  apply node g :=
    match node with
    | .binOp .add ab ac =>
      firstNode it g ab fun n =>
        match n with
        | .binOp .mul a₁ b =>
          firstNode it g ac fun n' =>
            match n' with
            | .binOp .mul a₂ c =>
              if g.find a₁ = g.find a₂ then
                let (bc, g) := g.add (.binOp .add b c)
                replace g (.binOp .mul a₁ bc)
              else none
            | _ => none
        | _ => none
    | _ => none

/-- `(x op value) op value → x`. -/
def peel (it : IterOrder) (name : String) (op : BinOpKind) (value : Word) : RewriteRule where
  name := name
  apply node g :=
    match node with
    | .binOp op' inner outer =>
      if op' = op ∧ g.classContainsLit outer value then
        firstNode it g inner fun n =>
          match n with
          | .binOp op'' x z =>
            if op'' = op ∧ g.classContainsLit z value then replace g (.vreg x) else none
          | _ => none
      else none
    | _ => none

end RewriteRule

open RewriteRule in
/-- `standard_rules`, without the rules for operations on states. -/
def standardRules (it : IterOrder) : List RewriteRule :=
  [self "xor_self" .xor,
    self "sub_self" .sub,
    litLeft "add_zero_left" .add 0 .vreg,
    litRight "add_zero_right" [.add] 0 .vreg,
    litLeft "mul_zero_left" .mul 0 fun _ => .lit 0,
    litRight "mul_zero_right" [.mul] 0 fun _ => .lit 0,
    litRight "mul_one_right" [.mul] 1 .vreg,
    litLeft "mul_one_left" .mul 1 .vreg,
    litRight "mul_two_to_add" [.mul] 2 fun x => .binOp .add x x,
    litLeft "mul_two_left_to_add" .mul 2 fun x => .binOp .add x x,
    litLeft "and_zero_left" .and 0 fun _ => .lit 0,
    litRight "and_zero_right" [.and] 0 fun _ => .lit 0,
    litRight "or_zero_right" [.or] 0 .vreg,
    litRight "xor_zero_right" [.xor] 0 .vreg,
    litRight "shr_zero_right" [.shrL, .shrA] 0 .vreg,
    litRight "shl_zero_right" [.shl] 0 .vreg,
    comm "comm_add" .add,
    comm "comm_mul" .mul,
    comm "comm_and" .and,
    comm "comm_or" .or,
    comm "comm_xor" .xor,
    assocLeft it "assoc_add_left" .add,
    assocRight it "assoc_add_right" .add,
    assocLeft it "assoc_mul_left" .mul,
    assocRight it "assoc_mul_right" .mul,
    assocLeft it "assoc_and_left" .and,
    assocRight it "assoc_and_right" .and,
    assocLeft it "assoc_or_left" .or,
    assocRight it "assoc_or_right" .or,
    assocLeft it "assoc_xor_left" .xor,
    assocRight it "assoc_xor_right" .xor,
    distribMulAddFwd it,
    distribMulAddBwd it,
    peel it "peel_add_zero_zero" .add 0,
    peel it "peel_mul_one_one" .mul 1]

/-! ## Saturation -/

/-- The variables of a round of saturation. -/
structure Saturation where
  graph : EGraph
  changed : Bool := false
  capHit : Bool := false

namespace EGraph

/-- `MAX_EGRAPH_NODES`. -/
def maxNodes : Nat := 10000

def totalNodes (g : EGraph) : Nat := (g.classIds.map fun id => (g.nodesOf id).length).sum

/-- One rule on one node of a class. -/
def applyRule (classId : EClassId) (node : ENode) (s : Saturation) (rule : RewriteRule) :
    Saturation :=
  if s.capHit then s
  else
    match rule.apply node s.graph with
    | none => s
    | some ((replId, _), g) =>
      let oldId := g.find classId
      let replCanon := g.find replId
      if replCanon ≠ oldId then
        let g := g.mergeNoRebuild oldId replCanon
        { graph := g, changed := true, capHit := g.totalNodes > maxNodes }
      else { s with graph := g }

/-- All rules on all nodes of a class. -/
def visitClass (rules : List RewriteRule) (s : Saturation) (classId : EClassId) : Saturation :=
  if s.capHit then s
  else
    (sortByDebug (s.graph.nodesOf (s.graph.find classId))).foldl
      (fun s node => rules.foldl (applyRule classId node) s) s

/-- One round. -/
def saturateRound (rules : List RewriteRule) (g : EGraph) : Saturation :=
  g.classIds.foldl (visitClass rules) { graph := g }

/-- The rounds of `saturate_with_proof`. -/
def saturateLoop (rules : List RewriteRule) : Nat → EGraph → EGraph
  | 0, g => g
  | budget + 1, g =>
    if g.totalNodes > maxNodes then g
    else
      let s := saturateRound rules g
      let g' := if s.changed then s.graph.rebuild else s.graph
      if s.capHit then g' else saturateLoop rules budget g'

/-- `saturate`. Nothing happens when the gate `verify_rules_with_counterexample` rejects a rule. -/
def saturate (gate : List RewriteRule → Bool) (rules : List RewriteRule) (budget : Nat)
    (g : EGraph) : EGraph :=
  if gate rules then saturateLoop rules budget g else g

/-! ## Extraction -/

/-- `usize::saturating_add`. -/
def satAddUsize (a b : Nat) : Nat := min (a + b) (2 ^ 64 - 1)

/-- `best_cost` and `best_node`. -/
structure Best where
  cost : EClassId → Option Nat := fun _ => none
  node : EClassId → Option ENode := fun _ => none

/-- The best cost of a class, `usize::MAX / 2` when it is not known. -/
def Best.costOf (best : Best) (g : EGraph) (id : EClassId) : Nat :=
  (best.cost (g.find id)).getD ((2 ^ 64 - 1) / 2)

/-- The cost of a node with its children. -/
def totalCost (g : EGraph) (costFn : ENode → Nat) (best : Best) (n : ENode) : Nat :=
  let childCost :=
    match n with
    | .binOp _ a b => satAddUsize (best.costOf g a) (best.costOf g b)
    | _ => 0
  satAddUsize (costFn n) childCost

/-- Nodes by cost, and by `{:?}` when the cost is the same. -/
def sortByCost (costFn : ENode → Nat) (nodes : List ENode) : List ENode :=
  nodes.insertionSort fun a b =>
    costFn a < costFn b ∨ costFn a = costFn b ∧ a.debug ≤ b.debug

/-- The first node of least total cost. -/
def localBest (g : EGraph) (costFn : ENode → Nat) (best : Best) (nodes : List ENode) :
    Option (Nat × ENode) :=
  nodes.foldl
    (fun acc n =>
      let total := g.totalCost costFn best n
      match acc with
      | none => some (total, n)
      | some (bestTotal, _) => if total < bestTotal then some (total, n) else acc) none

/-- One class of a round. -/
def extractClass (g : EGraph) (costFn : ENode → Nat) (s : Best × Bool) (id : EClassId) :
    Best × Bool :=
  match g.localBest costFn s.1 (sortByCost costFn (g.nodesOf id)) with
  | some (c, n) =>
    if s.1.cost id ≠ some c then
      (⟨Function.update s.1.cost id (some c), Function.update s.1.node id (some n)⟩, true)
    else s
  | none => s

/-- The rounds of `extract`. -/
def extractLoop (g : EGraph) (costFn : ENode → Nat) : Nat → Best → Best
  | 0, best => best
  | n + 1, best =>
    let (best', changed) := g.canonicalIds.foldl (g.extractClass costFn) (best, false)
    if changed then extractLoop g costFn n best' else best'

def extract (g : EGraph) (id : EClassId) (costFn : ENode → Nat) : ENode :=
  ((g.extractLoop costFn 64 {}).node (g.find id)).getD (.lit 0)

end EGraph

end Vuma.Opt
