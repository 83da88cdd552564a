import Vuma.Package.Toml

/-!
# Writing TOML

The serializer of `toml_lite.rs`, and that the parser reads the strings and keys that it writes. A
text is written as the list of its characters.
-/

namespace Vuma.Package.Toml

open Lib

/-! ## Strings and keys -/

/-- The letter of the escapes that have one. -/
def escapeLetter (c : Char) : Option Char :=
  match c with
  | '"' => some '"'
  | '\\' => some '\\'
  | '\n' => some 'n'
  | '\t' => some 't'
  | '\r' => some 'r'
  | '\x08' => some 'b'
  | '\x0c' => some 'f'
  | _ => none

def upperHexDigit (d : Nat) : Char := (Nat.digitChar d).toUpper

/-- A number of at most four digits as `{:04X}`. -/
def hex4 (code : Nat) : List Char :=
  [code / 4096 % 16, code / 256 % 16, code / 16 % 16, code % 16].map upperHexDigit

/-- What a character of a string is written as. -/
def escape (c : Char) : List Char :=
  match escapeLetter c with
  | some letter => ['\\', letter]
  | none => if c.toNat < 0x20 then '\\' :: 'u' :: hex4 c.toNat else [c]

def formatString (s : String) : List Char := '"' :: (s.toList.flatMap escape ++ ['"'])

def formatKey (k : String) : List Char :=
  if k.toList ≠ [] ∧ k.toList.all isBareChar then k.toList else formatString k

/-! ## Tables -/

def Value.isString : Value → Bool
  | .string _ => true
  | _ => false

/-- An element of an array of strings. -/
def formatItem : Value → List Char
  | .string s => formatString s
  | _ => []

/-- What the first pass over a table writes of a pair. -/
def serializePair (k : String) : Value → List Char
  | .string s => formatKey k ++ " = ".toList ++ formatString s ++ ['\n']
  | .array items =>
    if items.all Value.isString then
      formatKey k ++ " = [".toList ++ List.intercalate ", ".toList (items.map formatItem) ++
        "]\n".toList
    else []
  | .table _ => []

def serializePairs (table : Entries) : List Char := table.flatMap fun p => serializePair p.1 p.2

/-- The header of a section, after an empty line if it is not the first. -/
def serializeHeader (out : List Char) (opening : String) (path : List String)
    (closing : String) : List Char :=
  (if out.isEmpty then out else out ++ ['\n']) ++ opening.toList ++ (".".intercalate path).toList ++
    closing.toList

mutual

/-- The second pass of `serialize_table_contents`, over what is left of the table. -/
def serializeSections (out : List Char) (path : List String) : Entries → List Char
  | [] => out
  | (k, v) :: table => serializeSections (serializeSection out (path ++ [k]) v) path table

def serializeSection (out : List Char) (newPath : List String) : Value → List Char
  | .string _ => out
  | .table inner =>
    serializeSections (serializeHeader out "[" newPath "]\n" ++ serializePairs inner) newPath inner
  | .array items => serializeItems out newPath items

/-- The tables of an array of tables. -/
def serializeItems (out : List Char) (newPath : List String) : List Value → List Char
  | [] => out
  | .table inner :: items =>
    serializeItems (serializeSections
      (serializeHeader out "[[" newPath "]]\n" ++ serializePairs inner) newPath inner) newPath items
  | _ :: items => serializeItems out newPath items

end

/-- `serialize_table_contents`, which never fails. -/
def serializeTableContents (out : List Char) (table : Entries) (path : List String) : List Char :=
  serializeSections (out ++ serializePairs table) path table

structure SerializeError where
  message : String
  deriving DecidableEq, Repr

def toStringPretty : Value → Except SerializeError String
  | .table t => .ok (String.ofList (serializeTableContents [] t []))
  | _ => .error ⟨"top-level value must be a table"⟩

/-! ## Reading back characters -/

variable {c : Char} {rest : List Char} {line n : Nat}

theorem advance_cons (h : c ≠ '\n') : Cursor.advance ⟨c :: rest, line⟩ = ⟨rest, line⟩ := by
  rw [Cursor.advance]
  simp only [if_neg h]

theorem returns_advance (h : c ≠ '\n') : Run.Returns advance ⟨c :: rest, line⟩ () ⟨rest, line⟩ := by
  change some (_, Cursor.advance _) = _
  rw [advance_cons h]

theorem returns_peek : Run.Returns peek ⟨c :: rest, line⟩ c ⟨c :: rest, line⟩ := rfl

theorem returns_isEof : Run.Returns isEof ⟨c :: rest, line⟩ false ⟨c :: rest, line⟩ := rfl

theorem returns_skipInlineWs (h : isInlineWs c = false) :
    Run.Returns skipInlineWs ⟨c :: rest, line⟩ () ⟨c :: rest, line⟩ := by
  have hdrop : (c :: rest).dropWhile isInlineWs = c :: rest :=
    List.dropWhile_cons_of_neg (by simp [h])
  change some (_, (⟨(c :: rest).dropWhile isInlineWs, line⟩ : Cursor)) = _
  rw [hdrop]

theorem hexDigit?_upperHexDigit {d : Nat} (h : d < 16) : hexDigit? (upperHexDigit d) = some d := by
  revert d
  decide

theorem upperHexDigit_ne {d : Nat} (h : d < 16) : upperHexDigit d ≠ '\n' := by
  revert d
  decide

/-- Reading one digit of a number. -/
theorem readHex_succ {d code : Nat} (h : d < 16) :
    readHex (n + 1) code ⟨upperHexDigit d :: rest, line⟩ =
      readHex n (code * 16 + d) ⟨rest, line⟩ := by
  rw [readHex, Run.bind_of_returns returns_peek, hexDigit?_upperHexDigit h]
  exact Run.bind_of_returns (returns_advance (upperHexDigit_ne h)) _

theorem returns_readHex {code : Nat} (h : code < 16 ^ 4) :
    Run.Returns (readHex 4 0) ⟨hex4 code ++ rest, line⟩ code ⟨rest, line⟩ := by
  change readHex 4 0 ⟨upperHexDigit _ :: upperHexDigit _ :: upperHexDigit _ :: upperHexDigit _ ::
    rest, line⟩ = _
  have hlt : ∀ k, k % 16 < 16 := fun k => Nat.mod_lt _ (by decide)
  rw [readHex_succ (hlt _), readHex_succ (hlt _), readHex_succ (hlt _), readHex_succ (hlt _)]
  have hcode : (((0 * 16 + code / 4096 % 16) * 16 + code / 256 % 16) * 16 + code / 16 % 16) * 16 +
      code % 16 = code := by
    omega
  rw [hcode]
  rfl

theorem fromU32_toNat (c : Char) : fromU32 c.toNat = some c := by
  have h : c.toNat.isValidChar := c.valid
  rw [fromU32, dif_pos h]
  rfl

theorem unescape_escapeLetter {letter : Char} (h : escapeLetter c = some letter) :
    unescape letter = some c ∧ letter ≠ '\n' := by
  rw [escapeLetter.eq_def] at h
  split at h <;> cases h <;> decide

theorem returns_parseEscape_letter {letter : Char} (h : escapeLetter c = some letter) :
    Run.Returns parseEscape ⟨letter :: rest, line⟩ c ⟨rest, line⟩ := by
  obtain ⟨hunescape, hne⟩ := unescape_escapeLetter h
  apply Run.returns_bind returns_peek
  rw [hunescape]
  exact Run.returns_bind (returns_advance hne) rfl

theorem returns_parseEscape_hex (h : c.toNat < 0x20) :
    Run.Returns parseEscape ⟨'u' :: (hex4 c.toNat ++ rest), line⟩ c ⟨rest, line⟩ := by
  apply Run.returns_bind returns_peek
  apply Run.returns_bind (returns_advance (by decide))
  apply Run.returns_bind (returns_readHex (by omega))
  rw [fromU32_toNat]
  rfl

theorem ne_of_escapeLetter (h : escapeLetter c = none) : c ≠ '"' ∧ c ≠ '\\' ∧ c ≠ '\n' := by
  refine ⟨?_, ?_, ?_⟩ <;> rintro rfl <;> cases h

theorem basicStringLoop_escape (s : String) :
    basicStringLoop (n + 1) s ⟨escape c ++ rest, line⟩ =
      basicStringLoop n (s.push c) ⟨rest, line⟩ := by
  have hescape : ∀ {text : List Char}, Run.Returns parseEscape ⟨text, line⟩ c ⟨rest, line⟩ →
      basicStringLoop (n + 1) s ⟨'\\' :: text, line⟩ =
        basicStringLoop n (s.push c) ⟨rest, line⟩ := by
    intro text h
    rw [basicStringLoop, Run.bind_of_returns returns_isEof, if_neg Bool.false_ne_true,
      Run.bind_of_returns returns_peek, if_neg (by decide), if_pos rfl,
      Run.bind_of_returns (returns_advance (by decide)), Run.bind_of_returns h]
  rw [escape]
  cases hletter : escapeLetter c with
  | some letter => exact hescape (returns_parseEscape_letter hletter)
  | none =>
    dsimp only
    split
    · next hlt => exact hescape (returns_parseEscape_hex hlt)
    · obtain ⟨hquote, hbackslash, hnewline⟩ := ne_of_escapeLetter hletter
      rw [List.singleton_append, basicStringLoop, Run.bind_of_returns returns_isEof,
        if_neg Bool.false_ne_true, Run.bind_of_returns returns_peek, if_neg hquote,
        if_neg hbackslash, if_neg hnewline, Run.bind_of_returns (returns_advance hnewline)]

theorem returns_basicStringLoop (cs : List Char) (s : String) (h : cs.length < n) :
    Run.Returns (basicStringLoop n s) ⟨cs.flatMap escape ++ '"' :: rest, line⟩
      (String.ofList (s.toList ++ cs)) ⟨rest, line⟩ := by
  induction cs generalizing n s with
  | nil =>
    obtain ⟨n, rfl⟩ := Nat.exists_eq_add_of_le' h
    apply Run.returns_bind returns_isEof
    apply Run.returns_bind returns_peek
    apply Run.returns_bind (returns_advance (by decide))
    rw [List.append_nil, String.ofList_toList]
    exact Run.returns_pure _ _
  | cons c cs ih =>
    obtain ⟨n, rfl⟩ := Nat.exists_eq_add_of_le' (Nat.one_le_of_lt h)
    have hrest := ih (s.push c) (Nat.lt_of_succ_lt_succ h)
    rw [String.toList_push, List.append_assoc] at hrest
    rw [Run.Returns, List.flatMap_cons, List.append_assoc, basicStringLoop_escape]
    exact hrest

/-- A string is read as it was before it was written. -/
theorem returns_parseBasicString (s : String) (h : s.toList.length < n) :
    Run.Returns (parseBasicString n) ⟨formatString s ++ rest, line⟩ s ⟨rest, line⟩ := by
  apply Run.returns_bind (returns_advance (by decide))
  have hloop : Run.Returns (basicStringLoop n "") ⟨s.toList.flatMap escape ++ '"' :: rest, line⟩
      (String.ofList ("".toList ++ s.toList)) ⟨rest, line⟩ := returns_basicStringLoop s.toList "" h
  simpa using hloop

/-! ## Reading back keys -/

theorem formatKey_eq_cons (k : String) :
    ∃ c cs, formatKey k = c :: cs ∧ (c = '"' ∨ isBareChar c = true) := by
  rw [formatKey]
  split
  · next h =>
    obtain ⟨c, cs, hk⟩ := List.exists_cons_of_ne_nil h.1
    have hall := h.2
    rw [hk, List.all_cons, Bool.and_eq_true] at hall
    exact ⟨c, cs, hk, .inr hall.1⟩
  · exact ⟨_, _, rfl, .inl rfl⟩

/-- What a key starts with is read by no other part of the parser. -/
theorem not_blank {c : Char} (h : c = '"' ∨ isBareChar c = true) :
    isInlineWs c = false ∧ c ≠ '\n' ∧ c ≠ '#' ∧ c ≠ '[' := by
  have hne : ∀ d, d ≠ '"' → isBareChar d = false → c ≠ d := by
    rintro d hquote hbare rfl
    rcases h with rfl | h
    · exact hquote rfl
    · rw [hbare] at h
      cases h
  refine ⟨?_, hne _ (by decide) (by decide), hne _ (by decide) (by decide),
    hne _ (by decide) (by decide)⟩
  have hspace := hne ' ' (by decide) (by decide)
  have htab := hne '\t' (by decide) (by decide)
  have hreturn := hne '\r' (by decide) (by decide)
  simp [isInlineWs, hspace, htab, hreturn]

theorem returns_parseBareKey {ds : List Char} (hall : ∀ d ∈ ds, isBareChar d = true)
    (hc : isBareChar c = false) :
    Run.Returns parseBareKey ⟨ds ++ c :: rest, line⟩ (String.ofList ds) ⟨c :: rest, line⟩ := by
  have htake : (ds ++ c :: rest).takeWhile isBareChar = ds := by
    rw [List.takeWhile_append_of_pos hall, List.takeWhile_cons_of_neg (by simp [hc]),
      List.append_nil]
  have hdrop : (ds ++ c :: rest).dropWhile isBareChar = c :: rest := by
    rw [List.dropWhile_append_of_pos hall, List.dropWhile_cons_of_neg (by simp [hc])]
  change some (Except.ok (String.ofList ((ds ++ c :: rest).takeWhile isBareChar)),
    (⟨(ds ++ c :: rest).dropWhile isBareChar, line⟩ : Cursor)) = _
  rw [htake, hdrop]

/-- A key is read as it was before it was written. -/
theorem returns_parseSingleKey (k : String) (hc : isBareChar c = false)
    (h : k.toList.length < n) :
    Run.Returns (parseSingleKey n) ⟨formatKey k ++ c :: rest, line⟩ k ⟨c :: rest, line⟩ := by
  rw [formatKey]
  split
  · next hbare =>
    obtain ⟨d, ds, hk⟩ := List.exists_cons_of_ne_nil hbare.1
    have hall := List.all_eq_true.mp hbare.2
    have hd := hall d (by simp [hk])
    have hquote : d ≠ '"' := by
      rintro rfl
      cases hd
    have hquote' : d ≠ '\'' := by
      rintro rfl
      cases hd
    have hpeek : Run.Returns peek ⟨k.toList ++ c :: rest, line⟩ d
        ⟨k.toList ++ c :: rest, line⟩ := by
      rw [hk]
      rfl
    apply Run.returns_bind hpeek
    rw [if_neg hquote, if_neg hquote', if_pos hd]
    have hkey : Run.Returns parseBareKey ⟨k.toList ++ c :: rest, line⟩ (String.ofList k.toList)
        ⟨c :: rest, line⟩ := returns_parseBareKey hall hc
    rw [String.ofList_toList] at hkey
    exact hkey
  · have hpeek : Run.Returns peek ⟨formatString k ++ c :: rest, line⟩ '"'
        ⟨formatString k ++ c :: rest, line⟩ := rfl
    apply Run.returns_bind hpeek
    exact returns_parseBasicString k h

theorem returns_parseKeyPath (k : String) (h : k.toList.length + 1 < n) :
    Run.Returns (parseKeyPath n) ⟨formatKey k ++ " = ".toList ++ rest, line⟩ [k]
      ⟨'=' :: ' ' :: rest, line⟩ := by
  obtain ⟨n, rfl⟩ := Nat.exists_eq_add_of_le' (Nat.one_le_of_lt h)
  obtain ⟨c, cs, hk, hc⟩ := formatKey_eq_cons k
  have hskip : Run.Returns skipInlineWs ⟨formatKey k ++ " = ".toList ++ rest, line⟩ ()
      ⟨formatKey k ++ " = ".toList ++ rest, line⟩ := by
    rw [hk]
    exact returns_skipInlineWs (not_blank hc).1
  have hkey : Run.Returns (parseSingleKey n) ⟨formatKey k ++ " = ".toList ++ rest, line⟩ k
      ⟨' ' :: '=' :: ' ' :: rest, line⟩ := by
    rw [List.append_assoc]
    exact returns_parseSingleKey k (by decide) (by omega)
  apply Run.returns_bind hskip
  apply Run.returns_bind hkey
  rfl

/-! ## Reading back arrays of strings -/

theorem returns_parseString (s : String) (h : s.toList.length + 1 < n) :
    Run.Returns (parseValue toml n) ⟨formatString s ++ rest, line⟩ (.string s) ⟨rest, line⟩ := by
  obtain ⟨n, rfl⟩ := Nat.exists_eq_add_of_le' (Nat.one_le_of_lt h)
  rw [parseValue]
  have hskip : Run.Returns skipInlineWs ⟨formatString s ++ rest, line⟩ ()
      ⟨formatString s ++ rest, line⟩ := returns_skipInlineWs (by decide)
  apply Run.returns_bind hskip
  apply Run.returns_bind returns_peek
  rw [if_pos rfl]
  exact Run.returns_bind (returns_parseBasicString s (by omega)) rfl

/-- The rounds that are enough for an array of strings. -/
def arrayRounds (ss : List String) : Nat := (ss.map fun s => s.toList.length + 2).sum + 1

def formatStrings (ss : List String) : List Char :=
  List.intercalate ", ".toList (ss.map formatString)

theorem formatStrings_cons (s s' : String) (ss : List String) :
    formatStrings (s :: s' :: ss) = formatString s ++ ',' :: ' ' :: formatStrings (s' :: ss) := by
  simp [formatStrings, List.intercalate]

theorem returns_skipWs (h : isInlineWs c = false) (hnewline : c ≠ '\n') (hcomment : c ≠ '#') :
    Run.Returns skipWsAndComments ⟨c :: rest, line⟩ () ⟨c :: rest, line⟩ := by
  have hskip : skipWs false (c :: rest) line = ⟨c :: rest, line⟩ := by
    simp [skipWs, h, hnewline, hcomment]
  change some (_, skipWs false (c :: rest) line) = _
  rw [hskip]

/-- The elements that are left, after the ones that have been read. -/
theorem returns_arrayLoop (ss : List String) (items : List Value) (h : arrayRounds ss ≤ n) :
    Run.Returns (arrayLoop toml n items) ⟨formatStrings ss ++ ']' :: rest, line⟩
      (items ++ ss.map .string) ⟨rest, line⟩ := by
  induction ss generalizing items n with
  | nil =>
    obtain ⟨n, rfl⟩ := Nat.exists_eq_add_of_le' (Nat.le_trans (Nat.le_add_left 1 _) h)
    rw [arrayLoop, List.map_nil, List.append_nil]
    rfl
  | cons s ss ih =>
    obtain ⟨n, rfl⟩ := Nat.exists_eq_add_of_le' (Nat.le_trans (Nat.le_add_left 1 _) h)
    rw [arrayRounds, List.map_cons, List.sum_cons] at h
    have hstart : ∀ {text : List Char} {a : List Value} {s' : Cursor},
        Run.Returns (do
          let value ← parseValue toml n
          skipWsAndComments
          let c ← peek
          if c = ',' then do
            advance
            arrayLoop toml n (items ++ [value])
          else if c = ']' then do
            advance
            return items ++ [value]
          else err (.found "',' or ']' in array" c)) ⟨formatString s ++ text, line⟩ a s' →
        Run.Returns (arrayLoop toml (n + 1) items) ⟨formatString s ++ text, line⟩ a s' := by
      intro text a s' hrest
      rw [arrayLoop]
      apply Run.returns_bind (returns_skipWs (by decide) (by decide) (by decide))
      apply Run.returns_bind returns_isEof
      rw [if_neg Bool.false_ne_true]
      apply Run.returns_bind returns_peek
      rw [if_neg (by decide)]
      exact hrest
    cases ss with
    | nil =>
      have htext : formatStrings [s] = formatString s := by simp [formatStrings, List.intercalate]
      rw [htext]
      apply hstart
      apply Run.returns_bind (returns_parseString s (by omega))
      rfl
    | cons s' ss =>
      rw [formatStrings_cons, List.append_assoc]
      apply hstart
      apply Run.returns_bind (returns_parseString s (by omega))
      apply Run.returns_bind (returns_skipWs (by decide) (by decide) (by decide))
      apply Run.returns_bind returns_peek
      rw [if_pos rfl]
      apply Run.returns_bind (returns_advance (by decide))
      have hrest := ih (items ++ [.string s]) (n := n) (by rw [arrayRounds]; omega)
      rw [List.append_assoc] at hrest
      obtain ⟨n, rfl⟩ := Nat.exists_eq_add_of_le' (show 1 ≤ n by omega)
      rw [arrayLoop] at hrest ⊢
      exact hrest

theorem returns_parseStrings (ss : List String) (h : arrayRounds ss < n) :
    Run.Returns (parseValue toml n) ⟨" [".toList ++ formatStrings ss ++ "]".toList ++ rest, line⟩
      (.array (ss.map .string)) ⟨rest, line⟩ := by
  obtain ⟨n, rfl⟩ := Nat.exists_eq_add_of_le' (Nat.one_le_of_lt h)
  have hloop : Run.Returns (arrayLoop toml n []) ⟨formatStrings ss ++ ']' :: rest, line⟩
      (ss.map .string) ⟨rest, line⟩ := returns_arrayLoop ss [] (by omega)
  rw [parseValue, List.append_assoc, List.append_assoc]
  have hskip : Run.Returns skipInlineWs
      ⟨" [".toList ++ (formatStrings ss ++ ("]".toList ++ rest)), line⟩ ()
      ⟨'[' :: (formatStrings ss ++ ']' :: rest), line⟩ := rfl
  apply Run.returns_bind hskip
  apply Run.returns_bind returns_peek
  rw [if_neg (by decide), if_neg (by decide), if_pos rfl]
  apply Run.returns_bind (returns_advance (by decide))
  exact Run.returns_bind hloop rfl

end Vuma.Package.Toml
