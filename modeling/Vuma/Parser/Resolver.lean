import Vuma.Lib.HashMap

/-!
# Module resolution

`ModuleResolver`: a file is parsed, the files it imports are resolved before it, and their items are
merged into it. The files and the paths of the operating system are a parameter. The imported items
are collected in a hash map; the order in which it is gone through depends on the file that is
merged. Imports may run in a circle under ever new spellings of one path: the resolver then does not
come back, which is the value `none`.
-/

namespace Vuma.Parser

open Lib

/-- `Item`. A body stands for what the resolver does not look at. -/
inductive Item (α : Type) where
  | fnDef (name : String) (body : α)
  | structDef (name : String) (body : α)
  | enumDef (name : String) (body : α)
  | regionDef (name : String) (body : α)
  | importDef (path : String) (symbols : List String)
  | exportDef (name : String)
  | const (name : String) (body : α)
  | static (name : String) (body : α)
  | moduleDef (name : String) (body : α)
  | traitDef (name : String) (body : α)
  | implBlock (body : α)
  | externBlock (body : α)
  | layoutDef (name : String) (body : α)
  | transformDef (name : String) (body : α)
  | stmt (body : α)
  deriving DecidableEq, Repr

structure Program (α : Type) where
  items : List (Item α)
  span : Nat × Nat
  deriving DecidableEq, Repr

structure Import where
  path : String
  symbols : List String
  deriving DecidableEq, Repr

/-- Why a file could not be read or parsed. -/
inductive ReadError where
  | notFound
  | other (message : String)
  | parse (error : String)
  deriving DecidableEq, Repr

/-- `ResolveError`, without the variant `NameConflict`, which nothing builds. -/
inductive ResolveError (P : Type) where
  | fileNotFound (path : P)
  | circularImport (path : P) (cycle : List P)
  | symbolNotFound (symbol path : String) (available : List String)
  | parse (path : Option P) (error : String)
  | io (path : P) (message : String)
  deriving DecidableEq, Repr

/-- The files and their paths. -/
structure Files (P α : Type) where
  read : P → Except ReadError (Program α)
  canonicalize : P → P
  ofString : String → P
  isAbsolute : P → Bool
  join : P → P → P
  parent : P → Option P
  currentDir : P

variable {P α : Type}

def itemName : Item α → Option String
  | .fnDef name _ | .structDef name _ | .enumDef name _ | .regionDef name _ | .const name _
  | .static name _ | .moduleDef name _ | .traitDef name _ | .layoutDef name _
  | .transformDef name _ => some name
  | .implBlock _ | .importDef _ _ | .exportDef _ | .stmt _ | .externBlock _ => none

def Item.isImport : Item α → Bool
  | .importDef _ _ => true
  | _ => false

def Item.isExport : Item α → Bool
  | .exportDef _ => true
  | _ => false

/-- The imports of a program. -/
def Program.imports (program : Program α) : List Import :=
  program.items.filterMap fun item =>
    match item with
    | .importDef path symbols => some ⟨path, symbols⟩
    | _ => none

def resolveImportPath (files : Files P α) (importPath : String) (baseDir : P) : P :=
  let path := files.ofString importPath
  if files.isAbsolute path then path else files.join baseDir path

def collectExportableNames (program : Program α) : List String :=
  program.items.filterMap fun item =>
    if item.isImport || item.isExport then none else itemName item

/-- The error of a file that could not be read or parsed. -/
def ReadError.at (path : P) : ReadError → ResolveError P
  | .notFound => .fileNotFound path
  | .other message => .io path message
  | .parse error => .parse (some path) error

/-- `ModuleResolver`, with the errors that are passed along. -/
structure Resolver (P α : Type) where
  cache : HashMap P (Program α)
  inProgress : List P
  errors : List (ResolveError P)

def Resolver.new : Resolver P α := ⟨∅, [], []⟩

/-- The imported items by their names, with the import each of them came by. -/
abbrev Imported (α : Type) := HashMap String (String × Item α)

/-- Add an item of an imported file to the imported items; the first of a name stays. -/
def addImported (source : String) (imported : Imported α) (item : Item α) : Imported α :=
  if item.isImport || item.isExport then imported
  else
    match itemName item with
    | none => imported
    | some name =>
      if (imported.lookup name).isSome then imported else imported.insert name (source, item)

/-- The errors of the symbols that an import asks for and the imported file does not have. -/
def symbolErrors (i : Import) (available : List String) : List (ResolveError P) :=
  (i.symbols.filter (· ∉ available)).map fun symbol => .symbolNotFound symbol i.path available

/-- Add an imported item to the merged program unless the name is there. -/
def pushMerged (imported : Imported α) (merged : List (Item α)) (name : String) :
    List (Item α) :=
  match imported.lookup name with
  | none => merged
  | some (_, item) =>
    match itemName item with
    | none => merged ++ [item]
    | some name =>
      if merged.any fun existing => itemName existing = some name then merged
      else merged ++ [item]

/-- The merged program, the last part of `merge_imports`. -/
def mergedProgram (order : KeyOrder String) (program : Program α) (imported : Imported α) :
    Program α :=
  { program with
    items := (order.order imported.keys).foldl (pushMerged imported)
      (program.items.filter fun item => !item.isImport) }

section Resolve

variable [DecidableEq P] (files : Files P α) (order : P → KeyOrder String)

mutual

def Files.resolveRecursive (files : Files P α) (order : P → KeyOrder String) (st : Resolver P α)
    (path : P) :
    Option (Resolver P α × Option (Program α)) :=
  match st.cache.lookup path with
  | some cached => some (st, some cached)
  | none =>
    if path ∈ st.inProgress then
      some ({ st with errors := st.errors ++ [.circularImport path (st.inProgress ++ [path])] },
        none)
    else
      match files.read path with
      | .error e => some ({ st with errors := st.errors ++ [e.at path] }, none)
      | .ok program => do
        let st := { st with inProgress := path :: st.inProgress }
        let baseDir := (files.parent path).getD (files.ofString ".")
        let (st, merged) ← files |>.mergeImports order st path program baseDir
        return ({ st with inProgress := st.inProgress.erase path
                          cache := st.cache.insert path merged }, some merged)
partial_fixpoint

/-- `merge_imports`, of the file that is known by the given path. -/
def Files.mergeImports (files : Files P α) (order : P → KeyOrder String) (st : Resolver P α)
    (path : P) (program : Program α) (baseDir : P) :
    Option (Resolver P α × Program α) :=
  if program.imports.isEmpty then some (st, program)
  else do
    let (st, imported) ← files |>.importAll order st program.imports baseDir ∅
    return (st, mergedProgram (order path) program imported)
partial_fixpoint

/-- The loop of `merge_imports` over the imports. -/
def Files.importAll (files : Files P α) (order : P → KeyOrder String) (st : Resolver P α)
    (imports : List Import) (baseDir : P) (imported : Imported α) :
    Option (Resolver P α × Imported α) :=
  match imports with
  | [] => some (st, imported)
  | i :: rest => do
    let (st, resolved) ← files |>.resolveRecursive order st (resolveImportPath files i.path baseDir)
    match resolved with
    | none => files |>.importAll order st rest baseDir imported
    | some program =>
      let st := { st with
        errors := st.errors ++ symbolErrors i (collectExportableNames program) }
      files |>.importAll order st rest baseDir (program.items.foldl (addImported i.path) imported)
partial_fixpoint

end

export Files (resolveRecursive mergeImports importAll)

def resolveFile (st : Resolver P α) (path : P) :
    Option (Resolver P α × Except (List (ResolveError P)) (Program α)) := do
  let (st, program) ← resolveRecursive files order { st with errors := [] }
    (files.canonicalize path)
  match program with
  | some p => return (st, if st.errors.isEmpty then .ok p else .error st.errors)
  | none => return (st, .error st.errors)

/-- `resolve_source`, after the source is parsed. -/
def resolveSource (st : Resolver P α) (source : Except String (Program α))
    (basePath : Option P) :
    Option (Resolver P α × Except (List (ResolveError P)) (Program α)) :=
  match source with
  | .error e => some (st, .error [.parse basePath e])
  | .ok program =>
    if !program.items.any Item.isImport then some (st, .ok program)
    else do
      let baseDir := (basePath.bind files.parent).getD files.currentDir
      let canonical := basePath.getD (files.ofString "<source>")
      let (st, merged) ← mergeImports files order
        { st with inProgress := canonical :: st.inProgress, errors := [] } canonical program baseDir
      return ({ st with inProgress := st.inProgress.erase canonical },
        if st.errors.isEmpty then .ok merged else .error st.errors)

end Resolve

end Vuma.Parser
