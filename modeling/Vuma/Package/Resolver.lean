import Vuma.Lib.HashMap

/-!
# Package resolution

The dependency resolver of `resolver.rs` with the version lookup of `registry.rs`. The packages are
walked depth first from the root, by name; then the graph that the walk has recorded is sorted.
-/

namespace Vuma.Package

open Lib

/-- `Dependency`, without the source of the package, which is not read. -/
structure Dependency where
  name : String
  version : String
  deriving DecidableEq, Repr

/-- `PackageManifest`, as far as the resolver reads it. -/
structure PackageManifest where
  name : String
  version : String
  dependencies : List Dependency
  deriving DecidableEq, Repr

/-- `PackageError`; an error of reading the index is kept as its text. -/
inductive PackageError where
  | dependencyNotFound (name version : String)
  | circularDependency (packages : String)
  | index (text : String)
  deriving DecidableEq, Repr

/-- What a registry holds: the index, or why it cannot be read, and the manifests that can be
read. -/
structure PackageRegistry where
  index : Except String (HashMap String (List String))
  getManifest : String → String → Option PackageManifest

/-- A version matches the text of a requirement. -/
def matchesPrefix (req v : String) : Bool :=
  v.startsWith (if req.endsWith "." then req else req ++ ".") || v == req

namespace PackageRegistry

def findVersion (reg : PackageRegistry) (name req : String) : Except PackageError String :=
  match reg.index with
  | .error text => .error (.index text)
  | .ok index =>
    let versions := (index.lookup name).getD []
    if versions.isEmpty then .error (.dependencyNotFound name req)
    else if versions.contains req then .ok req
    else
      let matching := versions.filter (matchesPrefix req)
      match (matching.mergeSort (· ≤ ·)).getLast? with
      | none => .error (.dependencyNotFound name req)
      | some v => .ok v

end PackageRegistry

structure ResolvedPackage where
  name : String
  version : String
  manifest : Option PackageManifest
  deriving DecidableEq, Repr

structure ResolveContext where
  graph : HashMap String (List String)
  resolved : HashMap String ResolvedPackage
  visiting : Finset String
  visited : Finset String

/-- The loop over the dependencies of a package. -/
def resolveDeps (reg : PackageRegistry)
    (recurse : String → List Dependency → ResolveContext →
      Option (Except PackageError ResolveContext)) :
    List Dependency → ResolveContext → Option (Except PackageError ResolveContext)
  | [], ctx => some (.ok ctx)
  | dep :: deps, ctx =>
    match reg.findVersion dep.name dep.version with
    | .error e => some (.error e)
    | .ok version =>
      let manifest := reg.getManifest dep.name version
      let ctx := { ctx with
        resolved := ctx.resolved.insert dep.name ⟨dep.name, version, manifest⟩ }
      let result :=
        match manifest with
        | some manifest => recurse dep.name manifest.dependencies ctx
        | none => some (.ok ctx)
      match result with
      | some (.ok ctx) => resolveDeps reg recurse deps ctx
      | failed => failed

/-- `resolve_recursive`, to a depth. -/
def resolveRecursive (reg : PackageRegistry) : Nat → String → List Dependency → ResolveContext →
    Option (Except PackageError ResolveContext)
  | 0, _, _, _ => none
  | depth + 1, name, deps, ctx =>
    if name ∈ ctx.visited then some (.ok ctx)
    else if name ∈ ctx.visiting then some (.error (.circularDependency name))
    else
      match resolveDeps reg (resolveRecursive reg depth) deps
        { ctx with visiting := insert name ctx.visiting } with
      | some (.ok ctx) => some (.ok { ctx with
          graph := ctx.graph.insert name (deps.map Dependency.name)
          visiting := ctx.visiting.erase name
          visited := insert name ctx.visited })
      | failed => failed

/-! ## Sorting -/

/-- The in-degrees that the sort starts with. -/
def inDegrees (graph : HashMap String (List String)) : HashMap String Nat :=
  let degrees := graph.keys.foldl (fun (degrees : HashMap String Nat) node =>
    if (degrees.lookup node).isSome then degrees else degrees.insert node 0) ∅
  graph.entries.foldl (fun degrees entry =>
    entry.2.foldl (fun (degrees : HashMap String Nat) dep =>
      degrees.insert dep ((degrees.lookup dep).getD 0 + 1)) degrees) degrees

/-- One dependency of a node that is taken from the queue. -/
def lowerDegree (s : HashMap String Nat × List String) (dep : String) :
    HashMap String Nat × List String :=
  match s.1.lookup dep with
  | some degree =>
    (s.1.insert dep (degree - 1), if degree - 1 = 0 then s.2 ++ [dep] else s.2)
  | none => s

/-- The loop of the sort, for a number of nodes. -/
def sortLoop (graph : HashMap String (List String)) : Nat → HashMap String Nat × List String →
    List String → List String
  | _, (_, []), sorted => sorted
  | 0, _, sorted => sorted
  | nodes + 1, (degrees, node :: queue), sorted =>
    sortLoop graph nodes (((graph.lookup node).getD []).foldl lowerDegree (degrees, queue))
      (sorted ++ [node])

def topologicalSort (it : KeyOrder String) (graph : HashMap String (List String)) :
    Except PackageError (List String) :=
  let degrees := inDegrees graph
  let queue := (it.order degrees.keys).filter fun node => degrees.lookup node = some 0
  let sorted := (sortLoop graph degrees.keys.length (degrees, queue) []).reverse
  if sorted.length ≠ graph.keys.length then
    .error (.circularDependency
      (" -> ".intercalate ((it.order graph.keys).filter fun k => !sorted.contains k)))
  else .ok sorted

structure ResolveResult where
  packages : List ResolvedPackage
  graph : HashMap String (List String)

/-- The packages of the sorted names, each of which is removed from the map. -/
def removePackages : List String → HashMap String ResolvedPackage → List ResolvedPackage
  | [], _ => []
  | name :: names, resolved =>
    match resolved.lookup name with
    | some package => package :: removePackages names (resolved.erase name)
    | none => removePackages names resolved

/-- `DependencyResolver::resolve`, to a depth. -/
def resolve (it : KeyOrder String) (reg : PackageRegistry) (depth : Nat) (root : PackageManifest) :
    Option (Except PackageError ResolveResult) :=
  match resolveRecursive reg depth root.name root.dependencies ⟨∅, ∅, ∅, ∅⟩ with
  | none => none
  | some (.error e) => some (.error e)
  | some (.ok ctx) =>
    match topologicalSort it ctx.graph with
    | .error e => some (.error e)
    | .ok sorted => some (.ok ⟨removePackages sorted ctx.resolved, ctx.graph⟩)

end Vuma.Package
