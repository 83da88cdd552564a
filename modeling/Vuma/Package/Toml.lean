import Vuma.Lib.Run

/-!
# TOML

`toml_lite.rs`: the values of a document, and its parser. What the parser makes of what it reads is
a parameter: values, as in the source, or anything else that can be put together in the same way.
The loops of the parser are given a number of rounds, and do not come back when there are too few.
-/

namespace Vuma.Package.Toml

open Lib

/-- `Value`. A table is a `BTreeMap`, sorted by its keys. -/
inductive Value where
  | string (s : String)
  | array (items : List Value)
  | table (entries : List (String × Value))

abbrev Entries := List (String × Value)

/-- `BTreeMap::insert`. -/
def insertEntry {V : Type} (k : String) (v : V) : List (String × V) → List (String × V)
  | [] => [(k, v)]
  | (k', v') :: entries =>
    if k = k' then (k, v) :: entries
    else if k < k' then (k, v) :: (k', v') :: entries
    else (k', v') :: insertEntry k v entries

/-- What is said of an error; `found` says that something was expected where a character was
found. -/
inductive Message where
  | text (message : String)
  | found (expected : String) (c : Char)
  | invalidEscape (c : Char)
  | invalidHexDigit (c : Char)
  | notTable (key : String)
  | notArray (key : String)
  deriving DecidableEq, Repr

structure ParseError where
  line : Nat
  message : Message
  deriving DecidableEq, Repr

/-! ## Reading characters -/

/-- The characters that are left, and the line they start in. -/
structure Cursor where
  rest : List Char
  line : Nat
  deriving DecidableEq, Repr

abbrev Parse (α : Type) := Run ParseError Cursor α

/-- What `peek` sees at the end. -/
def nul : Char := Char.ofNat 0

def isEof : Parse Bool := do return (← get).rest.isEmpty

def peek : Parse Char := do return (← get).rest.headD nul

def Cursor.advance (s : Cursor) : Cursor :=
  match s.rest with
  | [] => s
  | c :: rest => ⟨rest, if c = '\n' then s.line + 1 else s.line⟩

def advance : Parse Unit := modify Cursor.advance

/-- The loop of a function that is out of rounds. -/
def outOfRounds {α : Type} : Parse α := fun _ => none

def err {α : Type} (message : Message) : Parse α := do throw ⟨(← get).line, message⟩

def ofExcept {α : Type} (e : Except ParseError α) : Parse α :=
  match e with
  | .ok a => pure a
  | .error e => throw e

def isInlineWs (c : Char) : Bool := c = ' ' || c = '\t' || c = '\r'

def skipInlineWs : Parse Unit := modify fun s => { s with rest := s.rest.dropWhile isInlineWs }

/-- The loop of `skip_ws_and_comments`, outside of a comment or inside. -/
def skipWs (comment : Bool) : List Char → Nat → Cursor
  | [], line => ⟨[], line⟩
  | c :: rest, line =>
    if c = '\n' then skipWs false rest (line + 1)
    else if comment || isInlineWs c then skipWs comment rest line
    else if c = '#' then skipWs true rest line
    else ⟨c :: rest, line⟩

def skipWsAndComments : Parse Unit := modify fun s => skipWs false s.rest s.line

def skipToEndOfLine : Parse Unit := do
  skipInlineWs
  if (← peek) = '#' then
    modify fun s => { s with rest := s.rest.dropWhile (· ≠ '\n') }

/-! ## Strings and keys -/

def hexDigit? (c : Char) : Option Nat :=
  if c.isDigit then some (c.toNat - '0'.toNat)
  else if 'a' ≤ c ∧ c ≤ 'f' then some (c.toNat - 'a'.toNat + 10)
  else if 'A' ≤ c ∧ c ≤ 'F' then some (c.toNat - 'A'.toNat + 10)
  else none

/-- `read_hex`, from the digits that have been read. -/
def readHex : Nat → Nat → Parse Nat
  | 0, code => pure code
  | n + 1, code => do
    let c ← peek
    match hexDigit? c with
    | some d => do
      advance
      readHex n (code * 16 + d)
    | none => err (.invalidHexDigit c)

def fromU32 (code : Nat) : Option Char :=
  if h : code.isValidChar then some (Char.ofNatAux code h) else none

/-- The escapes of one letter. -/
def unescape (c : Char) : Option Char :=
  match c with
  | '"' => some '"'
  | '\\' => some '\\'
  | 'n' => some '\n'
  | 't' => some '\t'
  | 'r' => some '\r'
  | 'b' => some (Char.ofNat 8)
  | 'f' => some (Char.ofNat 12)
  | '0' => some nul
  | _ => none

/-- What comes after a backslash. -/
def parseEscape : Parse Char := do
  let esc ← peek
  match unescape esc with
  | some c => do
    advance
    return c
  | none =>
    if esc = 'u' ∨ esc = 'U' then do
      advance
      let code ← readHex (if esc = 'u' then 4 else 8) 0
      match fromU32 code with
      | some c => return c
      | none => err (.text "invalid unicode codepoint")
    else err (.invalidEscape esc)

/-- The loop of `parse_basic_string`. -/
def basicStringLoop : Nat → String → Parse String
  | 0, _ => outOfRounds
  | n + 1, s => do
    if ← isEof then
      err (.text "unterminated basic string")
    else do
      let c ← peek
      if c = '"' then do
        advance
        return s
      else if c = '\\' then do
        advance
        let c ← parseEscape
        basicStringLoop n (s.push c)
      else if c = '\n' then err (.text "unterminated basic string (newline)")
      else do
        advance
        basicStringLoop n (s.push c)

def parseBasicString (n : Nat) : Parse String := do
  advance
  basicStringLoop n ""

/-- The loop of `parse_literal_string`. -/
def literalStringLoop : Nat → String → Parse String
  | 0, _ => outOfRounds
  | n + 1, s => do
    if ← isEof then
      err (.text "unterminated literal string")
    else do
      let c ← peek
      if c = '\'' then do
        advance
        return s
      else if c = '\n' then err (.text "unterminated literal string (newline)")
      else do
        advance
        literalStringLoop n (s.push c)

def parseLiteralString (n : Nat) : Parse String := do
  advance
  literalStringLoop n ""

def isBareChar (c : Char) : Bool := c.isAlphanum || c = '_' || c = '-'

def parseBareKey : Parse String := modifyGet fun s =>
  (String.ofList (s.rest.takeWhile isBareChar), { s with rest := s.rest.dropWhile isBareChar })

def parseSingleKey (n : Nat) : Parse String := do
  let c ← peek
  if c = '"' then parseBasicString n
  else if c = '\'' then parseLiteralString n
  else if isBareChar c then parseBareKey
  else err (.found "key" c)

/-- The loop of `parse_key_path`. -/
def keyPathLoop : Nat → List String → Parse (List String)
  | 0, _ => outOfRounds
  | n + 1, path => do
    skipInlineWs
    let key ← parseSingleKey n
    skipInlineWs
    if (← peek) = '.' then do
      advance
      keyPathLoop n (path ++ [key])
    else return path ++ [key]

def parseKeyPath (n : Nat) : Parse (List String) := keyPathLoop n []

/-! ## Values and documents -/

/-- What the parser makes of what it reads: values `V`, inline tables `T` and documents `D`. -/
structure Builder (V T D : Type) where
  string : String → V
  array : List V → V
  emptyTable : T
  insertIntoTable : T → List String → V → Nat → Except ParseError T
  table : T → V
  root : D
  pushArrayTable : D → List String → Nat → Except ParseError D
  ensureTable : D → List String → Nat → Except ParseError D
  insertValue : D → List String → List String → V → Nat → Except ParseError D

section

variable {V T D : Type} (b : Builder V T D)

mutual

def parseValue : Nat → Parse V
  | 0 => outOfRounds
  | n + 1 => do
    skipInlineWs
    let c ← peek
    if c = '"' then do
      let s ← parseBasicString n
      return b.string s
    else if c = '\'' then do
      let s ← parseLiteralString n
      return b.string s
    else if c = '[' then do
      advance
      let items ← arrayLoop n []
      return b.array items
    else if c = '\x7b' then do
      advance
      let table ← inlineTableLoop n b.emptyTable
      return b.table table
    else err (.found "value" c)

/-- The loop of `parse_array`. -/
def arrayLoop : Nat → List V → Parse (List V)
  | 0, _ => outOfRounds
  | n + 1, items => do
    skipWsAndComments
    if ← isEof then err (.text "unterminated array")
    else if (← peek) = ']' then do
      advance
      return items
    else do
      let value ← parseValue n
      skipWsAndComments
      let c ← peek
      if c = ',' then do
        advance
        arrayLoop n (items ++ [value])
      else if c = ']' then do
        advance
        return items ++ [value]
      else err (.found "',' or ']' in array" c)

/-- The loop of `parse_inline_table`. -/
def inlineTableLoop : Nat → T → Parse T
  | 0, _ => outOfRounds
  | n + 1, table => do
    skipInlineWs
    if ← isEof then err (.text "unterminated inline table")
    else if (← peek) = '\x7d' then do
      advance
      return table
    else do
      let keyPath ← parseKeyPath n
      skipInlineWs
      if (← peek) ≠ '=' then err (.text "expected '=' in inline table")
      else do
        advance
        let value ← parseValue n
        let table ← ofExcept (b.insertIntoTable table keyPath value (← get).line)
        skipInlineWs
        let c ← peek
        if c = ',' then do
          advance
          inlineTableLoop n table
        else if c = '\x7d' then do
          advance
          return table
        else err (.found "',' or '\x7d' in inline table" c)

end

/-- A section header, after its first bracket: its path, and whether it opens a table of an
array. -/
def parseHeader (n : Nat) : Parse (List String × Bool) := do
  let isArray := (← peek) = '['
  if isArray then
    advance
  skipInlineWs
  let path ← parseKeyPath n
  skipInlineWs
  if (← peek) ≠ ']' then err (.text "expected ']' to close section header")
  else do
    advance
    if isArray then do
      if (← peek) ≠ ']' then err (.text "expected ']]' to close array-of-tables header")
      else do
        advance
        return (path, true)
    else return (path, false)

/-- The loop of `parse_document`. -/
def documentLoop : Nat → D → List String → Parse D
  | 0, _, _ => outOfRounds
  | n + 1, root, currentPath => do
    skipWsAndComments
    if ← isEof then return root
    else do
      let c ← peek
      if c = '[' then do
        advance
        let (path, isArray) ← parseHeader n
        skipToEndOfLine
        let line := (← get).line
        let root ← ofExcept
          (if isArray then b.pushArrayTable root path line else b.ensureTable root path line)
        documentLoop n root path
      else do
        let keyPath ← parseKeyPath n
        skipInlineWs
        let c ← peek
        if c ≠ '=' then err (.found "'=' after key" c)
        else do
          advance
          let value ← parseValue b n
          skipToEndOfLine
          let root ← ofExcept (b.insertValue root currentPath keyPath value (← get).line)
          documentLoop n root currentPath

/-- What a text is read as, with `n` rounds for every loop. -/
def readText (n : Nat) (input : String) : Option (Except ParseError D) :=
  (documentLoop b n b.root [] ⟨input.toList, 1⟩).map Prod.fst

end

/-! ## Tables -/

/-- `navigate_mut`, followed by a change of the table at the end of the path. -/
def navigateMut (line : Nat) (change : Entries → Except ParseError Entries) :
    List String → Entries → Except ParseError Entries
  | [], table => change table
  | key :: path, table =>
    match (table.lookup key).getD (.table []) with
    | .table inner => do
      let inner ← navigateMut line change path inner
      return insertEntry key (.table inner) table
    | .array items =>
      match items.getLast? with
      | some (.table inner) => do
        let inner ← navigateMut line change path inner
        return insertEntry key (.array (items.dropLast ++ [.table inner])) table
      | _ => .error ⟨line, .notTable key⟩
    | .string _ => .error ⟨line, .notTable key⟩

def ensureTable (root : Entries) (path : List String) (line : Nat) : Except ParseError Entries :=
  navigateMut line .ok path root

def pushArrayTable (root : Entries) (path : List String) (line : Nat) :
    Except ParseError Entries :=
  match path.getLast? with
  | none => .error ⟨line, .text "empty array-of-tables path"⟩
  | some last =>
    navigateMut line (fun parent =>
      match (parent.lookup last).getD (.array []) with
      | .array items => .ok (insertEntry last (.array (items ++ [.table []])) parent)
      | _ => .error ⟨line, .notArray last⟩) path.dropLast root

def insertIntoTable (table : Entries) (keyPath : List String) (value : Value) (line : Nat) :
    Except ParseError Entries :=
  match keyPath with
  | [] => .error ⟨line, .text "empty key"⟩
  | [key] => .ok (insertEntry key value table)
  | first :: second :: rest =>
    match (table.lookup first).getD (.table []) with
    | .table inner => do
      let inner ← insertIntoTable inner (second :: rest) value line
      return insertEntry first (.table inner) table
    | _ => .error ⟨line, .notTable first⟩

def insertValue (root : Entries) (currentPath keyPath : List String) (value : Value)
    (line : Nat) : Except ParseError Entries :=
  navigateMut line (fun parent => insertIntoTable parent keyPath value line) currentPath root

/-- What the source makes of a document. -/
def toml : Builder Value Entries Entries where
  string := .string
  array := .array
  emptyTable := []
  insertIntoTable := insertIntoTable
  table := .table
  root := []
  pushArrayTable := pushArrayTable
  ensureTable := ensureTable
  insertValue := insertValue

def parse (n : Nat) (input : String) : Option (Except ParseError Value) :=
  (readText toml n input).map fun root => root.map Value.table

end Vuma.Package.Toml
