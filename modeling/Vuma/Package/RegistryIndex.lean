import Vuma.Package.FindVersion
import Vuma.Package.TomlWrite
import Vuma.Lib.Fuel

/-!
# The registry index

`RegistryIndex` of `registry.rs`, written as TOML and read back.
-/

namespace Vuma.Package

open Lib Toml

/-- The versions of each package. -/
structure RegistryIndex where
  packages : HashMap String (List String)

/-- The errors of `PackageError` that come of writing and reading an index. -/
inductive IndexError where
  | manifestParse (e : ParseError)
  | other (text : String)

namespace Toml.Value

def asStr : Value → Option String
  | .string s => some s
  | _ => none

def asArray : Value → Option (List Value)
  | .array items => some items
  | _ => none

def asTable : Value → Option Entries
  | .table entries => some entries
  | _ => none

def get (key : String) : Value → Option Value
  | .table entries => entries.lookup key
  | _ => none

end Toml.Value

namespace RegistryIndex

/-- The packages in the order of their names; `it` is the order in which the map is gone through. -/
def sorted (it : KeyOrder String) (index : RegistryIndex) : List (String × List String) :=
  ((it.order index.packages.keys).mergeSort (· ≤ ·)).map fun name =>
    (name, (index.packages.lookup name).getD [])

/-- A table from names to arrays of versions, in which more packages are put. -/
def insertPackages (table : Entries) (packages : List (String × List String)) : Entries :=
  packages.foldl (fun table p => insertEntry p.1 (.array (p.2.map .string)) table) table

def toToml (it : KeyOrder String) (index : RegistryIndex) : Except IndexError String :=
  let packagesTable := insertPackages [] (index.sorted it)
  let root := insertEntry "packages" (.table packagesTable) []
  (toStringPretty (.table root)).mapError fun e => .other ("toml serialize error: " ++ e.message)

def insertVersions (packages : HashMap String (List String)) (p : String × Value) :
    HashMap String (List String) :=
  match p.2.asArray with
  | some arr => packages.insert p.1 (arr.filterMap Value.asStr)
  | none => packages

def ofValue (root : Value) : RegistryIndex :=
  match (root.get "packages").bind Value.asTable with
  | some table => ⟨table.foldl insertVersions ∅⟩
  | none => ⟨∅⟩

/-- `from_toml`, with a number of rounds for every loop of the parser. -/
def fromToml (n : Nat) (tomlStr : String) : Option (Except IndexError RegistryIndex) :=
  (parse n tomlStr).map fun r => (r.mapError .manifestParse).map ofValue

/-! ## Writing -/

theorem serializePair_array (k : String) (ss : List String) :
    serializePair k (.array (ss.map .string)) =
      formatKey k ++ " = [".toList ++ formatStrings ss ++ "]\n".toList := by
  have hall : (ss.map Value.string).all Value.isString = true := by simp [Value.isString]
  have hitems : (ss.map Value.string).map formatItem = ss.map formatString := by
    simp [formatItem]
  rw [serializePair, if_pos hall, hitems, formatStrings]

/-- The order of the keys of a table that is put together in their order. -/
theorem insertEntry_append {V : Type} {entries : List (String × V)} {k : String} (v : V)
    (h : ∀ p ∈ entries, p.1 < k) : insertEntry k v entries = entries ++ [(k, v)] := by
  induction entries with
  | nil => rfl
  | cons p entries ih =>
    rw [List.forall_mem_cons] at h
    have hne : k ≠ p.1 := by
      rintro rfl
      exact String.lt_irrefl _ h.1
    have hnot : ¬ k < p.1 := fun hlt => String.lt_irrefl _ (String.lt_trans h.1 hlt)
    rw [insertEntry, if_neg hne, if_neg hnot, ih h.2]
    rfl

theorem insertPackages_eq {table : Entries} {packages : List (String × List String)}
    (h : (table.map Prod.fst ++ packages.map Prod.fst).Pairwise (· < ·)) :
    insertPackages table packages =
      table ++ packages.map fun p => (p.1, Value.array (p.2.map .string)) := by
  induction packages generalizing table with
  | nil => exact (List.append_nil table).symm
  | cons p packages ih =>
    have hlt : ∀ q ∈ table, q.1 < p.1 := by
      intro q hq
      apply (List.pairwise_append.mp h).2.2 q.1 (List.mem_map_of_mem hq)
      exact List.mem_cons_self ..
    rw [List.map_cons, List.append_cons] at h
    rw [insertPackages, List.foldl_cons, insertEntry_append _ hlt, ← insertPackages, ih]
    · simp
    · simpa using h

theorem sorted_pairwise (it : KeyOrder String) (index : RegistryIndex) :
    ((index.sorted it).map Prod.fst).Pairwise (· < ·) := by
  set names := (it.order index.packages.keys).mergeSort (· ≤ ·) with hdef
  have hnames : (index.sorted it).map Prod.fst = names := by
    rw [sorted, List.map_map]
    exact List.map_id names
  have hnodup : names.Nodup :=
    (((List.mergeSort_perm _ _).trans (it.perm _)).nodup_iff).mpr index.packages.nodupKeys
  rw [hnames]
  apply (pairwise_mergeSort _).imp₂ ?_ hnodup
  intro u w hle hne
  apply String.not_le.mp
  intro hge
  exact hne (String.le_antisymm hle hge)

/-! ## Reading back -/

/-- The rounds that are enough for a package. -/
def packageRounds (p : String × List String) : Nat := p.1.toList.length + arrayRounds p.2 + 3

def formatPackage (p : String × List String) : List Char :=
  serializePair p.1 (.array (p.2.map .string))

/-- The root of a document of an index, with the packages that have been read. -/
def rootOf (table : Entries) : Entries := [("packages", .table table)]

/-- The packages that are left. -/
theorem returns_documentLoop {n : Nat} (packages : List (String × List String)) (table : Entries)
    (line : Nat) (h : (packages.map packageRounds).sum + 1 ≤ n) :
    ∃ s', Run.Returns (documentLoop toml n (rootOf table) ["packages"])
      ⟨'\n' :: packages.flatMap formatPackage, line⟩
      (rootOf (insertPackages table packages)) s' := by
  induction packages generalizing n table line with
  | nil =>
    obtain ⟨n, rfl⟩ := Nat.exists_eq_add_of_le' (Nat.le_trans (Nat.le_add_left 1 _) h)
    exact ⟨⟨[], line + 1⟩, rfl⟩
  | cons p packages ih =>
    obtain ⟨n, rfl⟩ := Nat.exists_eq_add_of_le' (Nat.le_trans (Nat.le_add_left 1 _) h)
    rw [List.map_cons, List.sum_cons, packageRounds] at h
    obtain ⟨s', hrest⟩ := @ih n (insertEntry p.1 (.array (p.2.map .string)) table) (line + 1)
      (by omega)
    refine ⟨s', ?_⟩
    rw [List.flatMap_cons, formatPackage, serializePair_array, documentLoop]
    set text := packages.flatMap formatPackage
    have htext : formatKey p.1 ++ " = [".toList ++ formatStrings p.2 ++ "]\n".toList ++ text =
        formatKey p.1 ++ " = ".toList ++ '[' :: (formatStrings p.2 ++ ']' :: '\n' :: text) := by
      simp
    rw [htext]
    obtain ⟨c, cs, hkey, hc⟩ := formatKey_eq_cons p.1
    obtain ⟨hblank, hnewline, hcomment, hbracket⟩ := not_blank hc
    -- a round starts at the end of the line before, and skips it
    have hskip : Run.Returns skipWsAndComments
        ⟨'\n' :: (formatKey p.1 ++ " = ".toList ++
          '[' :: (formatStrings p.2 ++ ']' :: '\n' :: text)), line⟩ ()
        ⟨formatKey p.1 ++ " = ".toList ++ '[' :: (formatStrings p.2 ++ ']' :: '\n' :: text),
          line + 1⟩ := by
      rw [hkey]
      exact returns_skipWs hblank hnewline hcomment
    have hvalue : Run.Returns (parseValue toml n)
        ⟨' ' :: '[' :: (formatStrings p.2 ++ ']' :: '\n' :: text), line + 1⟩
        (.array (p.2.map .string)) ⟨'\n' :: text, line + 1⟩ := by
      simpa using returns_parseStrings p.2 (by omega)
    apply Run.returns_bind hskip
    have hbody : formatKey p.1 ++ " = ".toList ++
        '[' :: (formatStrings p.2 ++ ']' :: '\n' :: text) =
        c :: (cs ++ " = ".toList ++ '[' :: (formatStrings p.2 ++ ']' :: '\n' :: text)) := by
      rw [hkey]
      rfl
    rw [hbody]
    apply Run.returns_bind returns_isEof
    rw [if_neg Bool.false_ne_true]
    apply Run.returns_bind returns_peek
    rw [if_neg hbracket, ← hbody]
    apply Run.returns_bind (returns_parseKeyPath p.1 (by omega))
    apply Run.returns_bind (returns_skipInlineWs (by decide))
    apply Run.returns_bind returns_peek
    rw [if_neg (by decide)]
    apply Run.returns_bind (returns_advance (by decide))
    apply Run.returns_bind hvalue
    have hend : Run.Returns skipToEndOfLine ⟨'\n' :: text, line + 1⟩ ()
        ⟨'\n' :: text, line + 1⟩ := rfl
    apply Run.returns_bind hend
    apply Run.returns_bind (Run.returns_get _)
    exact hrest

theorem serializeItems_strings (out : List Char) (path : List String) (ss : List String) :
    serializeItems out path (ss.map .string) = out := by
  induction ss with
  | nil => rw [List.map_nil, serializeItems]
  | cons s ss ih => rw [List.map_cons, serializeItems, ih]; nofun

/-- The second pass has nothing to write of packages. -/
theorem serializeSections_packages (out : List Char) (path : List String)
    (packages : List (String × List String)) :
    serializeSections out path (packages.map fun p => (p.1, Value.array (p.2.map .string))) =
      out := by
  induction packages with
  | nil => rw [List.map_nil, serializeSections]
  | cons p packages ih =>
    rw [List.map_cons, serializeSections, serializeSection, serializeItems_strings, ih]

theorem toToml_eq (it : KeyOrder String) (index : RegistryIndex) :
    index.toToml it = .ok (String.ofList
      ("[packages]\n".toList ++ (index.sorted it).flatMap formatPackage)) := by
  have htable : insertPackages [] (index.sorted it) =
      (index.sorted it).map fun p => (p.1, Value.array (p.2.map .string)) := by
    rw [insertPackages_eq (by simpa using sorted_pairwise it index)]
    rfl
  have hpairs : serializePairs (insertPackages [] (index.sorted it)) =
      (index.sorted it).flatMap formatPackage := by
    rw [htable, serializePairs, List.flatMap_map]
    rfl
  have htext : serializeTableContents [] (rootOf (insertPackages [] (index.sorted it))) [] =
      "[packages]\n".toList ++ (index.sorted it).flatMap formatPackage := by
    rw [serializeTableContents, rootOf, serializeSections, serializeSections, serializeSection,
      hpairs, htable, serializeSections_packages]
    rfl
  rw [← htext]
  rfl

theorem returns_parseHeader (text : List Char) (n : Nat) :
    Run.Returns (parseHeader (n + 1)) ⟨"packages".toList ++ ']' :: '\n' :: text, 1⟩
      (["packages"], false) ⟨'\n' :: text, 1⟩ := by
  set start : Cursor := ⟨"packages".toList ++ ']' :: '\n' :: text, 1⟩ with hstart
  have hpeek : Run.Returns peek start 'p' start := rfl
  have hskip : Run.Returns skipInlineWs start () start := returns_skipInlineWs (by decide)
  have hskip' : Run.Returns skipInlineWs ⟨']' :: '\n' :: text, 1⟩ () ⟨']' :: '\n' :: text, 1⟩ :=
    returns_skipInlineWs (by decide)
  have hbare : Run.Returns parseBareKey start "packages" ⟨']' :: '\n' :: text, 1⟩ := by
    have hall : "packages".toList.all isBareChar = true := by rfl
    have h : Run.Returns parseBareKey start (String.ofList "packages".toList)
        ⟨']' :: '\n' :: text, 1⟩ := returns_parseBareKey (List.all_eq_true.mp hall) (by decide)
    rwa [String.ofList_toList] at h
  have hkey : Run.Returns (parseSingleKey n) start "packages" ⟨']' :: '\n' :: text, 1⟩ :=
    Run.returns_bind hpeek hbare
  have hpath : Run.Returns (parseKeyPath (n + 1)) start ["packages"] ⟨']' :: '\n' :: text, 1⟩ := by
    apply Run.returns_bind hskip
    apply Run.returns_bind hkey
    apply Run.returns_bind hskip'
    rfl
  apply Run.returns_bind hpeek
  apply Run.returns_bind hskip
  apply Run.returns_bind hpath
  apply Run.returns_bind hskip'
  rfl

theorem documentLoop_header (text : List Char) (n : Nat) :
    documentLoop toml (n + 2) [] [] ⟨"[packages]\n".toList ++ text, 1⟩ =
      documentLoop toml (n + 1) (rootOf []) ["packages"] ⟨'\n' :: text, 1⟩ := by
  have htext : "[packages]\n".toList ++ text =
      '[' :: ("packages".toList ++ ']' :: '\n' :: text) := rfl
  have hend : Run.Returns skipToEndOfLine ⟨'\n' :: text, 1⟩ () ⟨'\n' :: text, 1⟩ := rfl
  have hensure : ensureTable [] ["packages"] 1 = .ok (rootOf []) := rfl
  rw [htext, documentLoop,
    Run.bind_of_returns (returns_skipWs (by decide) (by decide) (by decide)),
    Run.bind_of_returns returns_isEof, if_neg Bool.false_ne_true,
    Run.bind_of_returns returns_peek, if_pos rfl,
    Run.bind_of_returns (returns_advance (by decide)),
    Run.bind_of_returns (returns_parseHeader text n)]
  apply (Run.bind_of_returns hend _).trans
  apply (Run.bind_of_returns (Run.returns_get _) _).trans
  have hbuilder : toml.ensureTable [] ["packages"] 1 = .ok (rootOf []) := hensure
  rw [if_neg Bool.false_ne_true, hbuilder]
  rfl

/-- What is read of a text that was written. -/
theorem parse_toToml (it : KeyOrder String) (index : RegistryIndex) :
    Finishes (fun n => parse n (String.ofList
      ("[packages]\n".toList ++ (index.sorted it).flatMap formatPackage)))
        (.ok (.table (rootOf (insertPackages [] (index.sorted it))))) := by
  refine ⟨((index.sorted it).map packageRounds).sum + 3, fun n hn => ?_⟩
  obtain ⟨n, rfl⟩ := Nat.exists_eq_add_of_le' (show 2 ≤ n by omega)
  obtain ⟨s', hloop⟩ := returns_documentLoop (index.sorted it) [] 1 (show _ ≤ n + 1 by omega)
  show parse (n + 2) _ = _
  rw [parse, readText, String.toList_ofList]
  have hrun : documentLoop toml (n + 2) [] []
      ⟨"[packages]\n".toList ++ (index.sorted it).flatMap formatPackage, 1⟩ =
      some (.ok (rootOf (insertPackages [] (index.sorted it))), s') :=
    (documentLoop_header _ n).trans hloop
  have hroot : toml.root = [] := rfl
  rw [hroot, hrun]
  rfl

theorem lookup_foldl_insertVersions (names : List String) (versions : String → List String)
    (packages : HashMap String (List String)) (name : String) :
    ((names.map fun k => (k, Value.array ((versions k).map .string))).foldl insertVersions
      packages).lookup name =
        if name ∈ names then some (versions name) else packages.lookup name := by
  induction names generalizing packages with
  | nil => simp
  | cons k names ih =>
    have hversions : ((versions k).map Value.string).filterMap Value.asStr = versions k := by
      rw [List.filterMap_map]
      exact List.filterMap_some
    have hinsert : insertVersions packages (k, .array ((versions k).map .string)) =
        packages.insert k (versions k) := by
      rw [insertVersions]
      exact congrArg (packages.insert k) hversions
    rw [List.map_cons, List.foldl_cons, ih, hinsert, HashMap.lookup_insert_ite]
    by_cases hmem : name ∈ names
    · simp [hmem]
    · by_cases heq : name = k <;> simp [hmem, heq]

/-- An index is the same, as a map, after it was written and read back. -/
theorem fromToml_toToml (it : KeyOrder String) (index : RegistryIndex) :
    ∃ text index', index.toToml it = .ok text ∧ Finishes (fromToml · text) (.ok index') ∧
      ∀ name, index'.packages.lookup name = index.packages.lookup name := by
  obtain ⟨n, hn⟩ := parse_toToml it index
  refine ⟨_, ofValue (.table (rootOf (insertPackages [] (index.sorted it)))), toToml_eq it index,
    ⟨n, fun m hm => ?_⟩, fun name => ?_⟩
  · have hparse := hn m hm
    dsimp only at hparse
    show fromToml m _ = _
    rw [fromToml, hparse]
    rfl
  · have htable : insertPackages [] (index.sorted it) =
        ((it.order index.packages.keys).mergeSort (· ≤ ·)).map fun name =>
          (name, Value.array (((index.packages.lookup name).getD []).map .string)) := by
      rw [insertPackages_eq (by simpa using sorted_pairwise it index), sorted, List.map_map]
      rfl
    have hvalue : ofValue (.table (rootOf (insertPackages [] (index.sorted it)))) =
        ⟨(insertPackages [] (index.sorted it)).foldl insertVersions ∅⟩ := rfl
    rw [hvalue, htable, lookup_foldl_insertVersions]
    have hmem : name ∈ (it.order index.packages.keys).mergeSort (· ≤ ·) ↔
        (index.packages.lookup name).isSome := by
      rw [List.mem_mergeSort, (it.perm _).mem_iff, HashMap.mem_keys_iff]
    cases hlookup : index.packages.lookup name with
    | none =>
      rw [hlookup] at hmem
      rw [if_neg (by simp [hmem]), AList.lookup_empty]
    | some versions =>
      rw [hlookup] at hmem
      rw [if_pos (hmem.mpr rfl), Option.getD_some]

end RegistryIndex

end Vuma.Package
