import Vuma.Parser.Lexer

/-!
# Text with a space between its tokens is lexed back

`Spelled` are the tokens that expressions are printed with. A spelled token before a space, or at
the end, is lexed back to itself (`lexAdvance_spelled`).
-/

namespace Vuma.Parser

/-- A name that is not a keyword. -/
def isIdent (name : String) : Bool :=
  match name.toList with
  | [] => false
  | c :: chars =>
    (c == '_' || c.isAlpha) && chars.all isIdentChar && name != "_" && keywordKind name == none

/-- The operators and brackets of expressions. -/
def symbols : List Token :=
  [⟨.orOr, "||"⟩, ⟨.andAnd, "&&"⟩, ⟨.eqEq, "=="⟩, ⟨.ne, "!="⟩, ⟨.lt, "<"⟩, ⟨.le, "<="⟩, ⟨.gt, ">"⟩,
    ⟨.ge, ">="⟩, ⟨.pipe, "|"⟩, ⟨.caret, "^"⟩, ⟨.ampersand, "&"⟩, ⟨.shl, "<<"⟩, ⟨.shr, ">>"⟩,
    ⟨.plus, "+"⟩, ⟨.minus, "-"⟩, ⟨.star, "*"⟩, ⟨.slash, "/"⟩, ⟨.percent, "%"⟩, ⟨.bang, "!"⟩,
    ⟨.tilde, "~"⟩, ⟨.lParen, "("⟩, ⟨.rParen, ")"⟩, ⟨.lBracket, "["⟩, ⟨.rBracket, "]"⟩,
    ⟨.comma, ","⟩]

/-- The tokens that expressions are printed with. -/
inductive Spelled : Token → Prop
  | ident (name : String) (h : isIdent name) : Spelled ⟨.ident, name⟩
  | number (n : Nat) : Spelled ⟨.number, n.repr⟩
  | symbol (t : Token) (h : t ∈ symbols) : Spelled t

/-- A token may end before this text. -/
def Ends (rest : List Char) : Prop := rest = [] ∨ ∃ rest', rest = ' ' :: rest'

variable {rest : List Char}

theorem Ends.dropWhile {p : Char → Bool} (h : Ends rest) (hp : p ' ' = false) :
    rest.dropWhile p = rest := by
  rcases h with rfl | ⟨rest', rfl⟩
  · rfl
  · rw [List.dropWhile_cons_of_neg (by simp [hp])]

theorem Ends.takeWhile {p : Char → Bool} (h : Ends rest) (hp : p ' ' = false) :
    rest.takeWhile p = [] := by
  rcases h with rfl | ⟨rest', rfl⟩
  · rfl
  · rw [List.takeWhile_cons_of_neg (by simp [hp])]

theorem dropWhile_append_ends {p : Char → Bool} {chars : List Char} (h : Ends rest)
    (hall : ∀ c ∈ chars, p c) (hp : p ' ' = false) : (chars ++ rest).dropWhile p = rest := by
  rw [List.dropWhile_append_of_pos hall, h.dropWhile hp]

theorem takeWhile_append_ends {p : Char → Bool} {chars : List Char} (h : Ends rest)
    (hall : ∀ c ∈ chars, p c) (hp : p ' ' = false) : (chars ++ rest).takeWhile p = chars := by
  rw [List.takeWhile_append_of_pos hall, h.takeWhile hp, List.append_nil]

theorem makeToken_append (chars rest : List Char) (kind : TokenKind) :
    makeToken (chars ++ rest) (kind, rest) = ⟨⟨kind, String.ofList chars⟩, rest, []⟩ := by
  have hlength : (chars ++ rest).length - rest.length = chars.length := by simp
  rw [makeToken, hlength, List.take_left]

section Identifiers

theorem lexSingle_of_isIdentChar {c : Char} (h : isIdentChar c) : lexSingle c = none := by
  unfold lexSingle
  split <;> first | rfl | exact absurd h (by decide)

theorem lexOperator_of_isIdentChar {c : Char} (h : isIdentChar c) : lexOperator c = none := by
  unfold lexOperator
  split <;> first | rfl | exact absurd h (by decide)

theorem not_isWhitespace_of_isIdentChar {c : Char} (h : isIdentChar c) :
    isWhitespace c = false := by
  have hrange : (48 ≤ c.toNat ∧ c.toNat ≤ 57) ∨ (65 ≤ c.toNat ∧ c.toNat ≤ 90) ∨
      (97 ≤ c.toNat ∧ c.toNat ≤ 122) ∨ c.toNat = 95 := by
    simp only [isIdentChar, Char.isAlphanum, Char.isAlpha, Char.isUpper, Char.isLower,
      Char.isDigit, Bool.or_eq_true, Bool.and_eq_true, decide_eq_true_eq, beq_iff_eq, ge_iff_le,
      UInt32.le_iff_toNat_le] at h
    rcases h with ((⟨h₁, h₂⟩ | ⟨h₁, h₂⟩) | ⟨h₁, h₂⟩) | rfl
    · exact .inr (.inl ⟨h₁, h₂⟩)
    · exact .inr (.inr (.inl ⟨h₁, h₂⟩))
    · exact .inl ⟨h₁, h₂⟩
    · exact .inr (.inr (.inr rfl))
  simp only [isWhitespace, Bool.or_eq_false_iff, Bool.and_eq_false_iff, decide_eq_false_iff_not,
    beq_eq_false_iff_ne]
  omega

theorem isDigit_of_isAlpha {c : Char} (h : c.isAlpha) : c.isDigit = false := by
  simp only [Char.isAlpha, Char.isUpper, Char.isLower, Bool.or_eq_true, Bool.and_eq_true,
    decide_eq_true_eq, ge_iff_le, UInt32.le_iff_toNat_le] at h
  simp only [Char.isDigit, Bool.and_eq_false_iff, decide_eq_false_iff_not, ge_iff_le,
    UInt32.le_iff_toNat_le]
  change (65 ≤ c.val.toNat ∧ c.val.toNat ≤ 90) ∨ (97 ≤ c.val.toNat ∧ c.val.toNat ≤ 122) at h
  change ¬ 48 ≤ c.val.toNat ∨ ¬ c.val.toNat ≤ 57
  omega

theorem head?_append_ne {chars : List Char} (hall : ∀ c ∈ chars, isIdentChar c) (h : Ends rest)
    {d : Char} (hd : isIdentChar d = false) (hspace : d ≠ ' ') :
    ((chars ++ rest).head? == some d) = false := by
  rw [beq_eq_false_iff_ne]
  intro heq
  cases chars with
  | nil =>
    rcases h with rfl | ⟨rest', rfl⟩
    · cases heq
    · exact hspace (Option.some.inj heq).symm
  | cons c chars =>
    have hc : isIdentChar c := hall c List.mem_cons_self
    rw [Option.some.inj heq, hd] at hc
    cases hc

theorem not_startsQuoted (c : Char) {chars : List Char} (hc : isIdentChar c)
    (hall : ∀ c ∈ chars, isIdentChar c) (h : Ends rest) :
    startsQuoted c (chars ++ rest) = false := by
  have hquote := head?_append_ne hall h (d := '\x22') (by decide) (by decide)
  have hhash := head?_append_ne hall h (d := '#') (by decide) (by decide)
  have hne : ∀ d, isIdentChar d = false → (c == d) = false := by
    intro d hd
    rw [beq_eq_false_iff_ne]
    rintro rfl
    rw [hc] at hd
    cases hd
  simp only [startsQuoted, hquote, hhash, hne '\x22' (by decide), hne '\x27' (by decide),
    Bool.or_false, Bool.and_false]

theorem lexIdent_append {c : Char} {chars : List Char} (hall : ∀ c ∈ chars, isIdentChar c)
    (h : Ends rest) (hname : String.ofList (c :: chars) ≠ "_") :
    lexIdent (c :: (chars ++ rest)) =
      ((keywordKind (String.ofList (c :: chars))).getD .ident, rest) := by
  have hspace : isIdentChar ' ' = false := by decide
  have hdrop : (chars ++ rest).dropWhile isIdentChar = rest := dropWhile_append_ends h hall hspace
  have htake : (chars ++ rest).takeWhile isIdentChar = chars :=
    takeWhile_append_ends h hall hspace
  simp only [lexIdent, hdrop, htake, if_neg hname]
  rcases h with rfl | ⟨rest', rfl⟩ <;> rfl

/-- How an identifier is made up. -/
theorem isIdent_start {name : String} (hname : isIdent name) :
    ∃ c chars, name.toList = c :: chars ∧ (c = '_' ∨ c.isAlpha) ∧
      (∀ c ∈ chars, isIdentChar c) ∧ name ≠ "_" ∧ keywordKind name = none := by
  unfold isIdent at hname
  cases hlist : name.toList with
  | nil => simp [hlist] at hname
  | cons c chars =>
    simp only [hlist, Bool.and_eq_true, Bool.or_eq_true, beq_iff_eq, bne_iff_ne,
      List.all_eq_true] at hname
    obtain ⟨⟨⟨hfirst, hall⟩, hunderscore⟩, hkeyword⟩ := hname
    exact ⟨c, chars, rfl, hfirst, hall, hunderscore, hkeyword⟩

theorem isIdentChar_of_first {c : Char} (h : c = '_' ∨ c.isAlpha) : isIdentChar c := by
  rcases h with rfl | halpha
  · rfl
  · simp [isIdentChar, Char.isAlphanum, halpha]

theorem lexToken_ident (lexQuoted : List Char → Lexed) {name : String} (hname : isIdent name)
    (h : Ends rest) : lexToken lexQuoted (name.toList ++ rest) = ⟨⟨.ident, name⟩, rest, []⟩ := by
  obtain ⟨c, chars, hlist, hfirst, hall, hunderscore, hkeyword⟩ := isIdent_start hname
  have hofList : String.ofList (c :: chars) = name := by rw [← hlist, String.ofList_toList]
  have hc : isIdentChar c := isIdentChar_of_first hfirst
  have hdigit : c.isDigit = false := by
    rcases hfirst with rfl | halpha
    · rfl
    · exact isDigit_of_isAlpha halpha
  have hstart : (c == '_' || c.isAlpha) = true := by simpa using hfirst
  have hlex : lexIdent (c :: (chars ++ rest)) = (.ident, rest) := by
    rw [lexIdent_append hall h (hofList ▸ hunderscore), hofList, hkeyword]
    rfl
  rw [hlist, List.cons_append, lexToken, lexSingle_of_isIdentChar hc,
    lexOperator_of_isIdentChar hc]
  simp only [hdigit, not_startsQuoted c hc hall h, hstart, hlex, if_true, Bool.false_eq_true,
    if_false]
  rw [← List.cons_append, makeToken_append, hofList]

end Identifiers

section Numbers

theorem checkFloatOrInt_ends (h : Ends rest) : checkFloatOrInt rest = (.number, rest) := by
  rcases h with rfl | ⟨rest', rfl⟩ <;> rfl

theorem lexNumber_plain {chars : List Char}
    (h : ∀ second rest, chars = '0' :: second :: rest →
      second ∉ ['x', 'X', 'b', 'B', 'o', 'O', 'e', 'E', '.']) :
    lexNumber chars = makeToken chars (checkFloatOrInt (consumeDecimalDigits chars)) := by
  unfold lexNumber
  split
  · rename_i second rest
    have hsecond := h second rest rfl
    simp only [List.mem_cons, List.not_mem_nil, or_false, not_or] at hsecond
    simp [hsecond]
    rfl
  · rfl

theorem lexNumber_append {digits : List Char} (hne : digits ≠ [])
    (hall : ∀ c ∈ digits, c.isDigit) (h : Ends rest) :
    lexNumber (digits ++ rest) = ⟨⟨.number, String.ofList digits⟩, rest, []⟩ := by
  have hdecimal : ∀ c ∈ digits, isDecimal c := fun c hc => by simp [isDecimal, hall c hc]
  have hconsume : consumeDecimalDigits (digits ++ rest) = rest :=
    dropWhile_append_ends h hdecimal (by decide)
  rw [lexNumber_plain, hconsume, checkFloatOrInt_ends h, makeToken_append]
  intro second rest' heq hmem
  have hsecond : second.isDigit ∨ second = ' ' := by
    cases digits with
    | nil => exact absurd rfl hne
    | cons d ds =>
      cases ds with
      | nil =>
        rcases h with rfl | ⟨rest'', rfl⟩
        · cases heq
        · cases heq
          exact .inr rfl
      | cons e es =>
        cases heq
        exact .inl (hall _ (by simp))
  rcases hsecond with hdigit | rfl
  · fin_cases hmem <;> exact absurd hdigit (by decide)
  · simp at hmem

theorem repr_start (n : Nat) : ∃ d ds, n.repr.toList = d :: ds ∧ ∀ c ∈ d :: ds, c.isDigit := by
  have hlist : n.repr.toList = Nat.toDigits 10 n := String.toList_ofList
  have hall : ∀ c ∈ Nat.toDigits 10 n, c.isDigit := fun c hc =>
    Nat.isDigit_of_mem_toDigits (by decide) (by decide) hc
  rw [hlist]
  cases hdigits : Nat.toDigits 10 n with
  | nil => exact absurd hdigits Nat.toDigits_ne_nil
  | cons d ds => exact ⟨d, ds, rfl, hdigits ▸ hall⟩

theorem isIdentChar_of_isDigit {d : Char} (h : d.isDigit) : isIdentChar d := by
  simp [isIdentChar, Char.isAlphanum, h]

theorem lexToken_number (lexQuoted : List Char → Lexed) (n : Nat) (h : Ends rest) :
    lexToken lexQuoted (n.repr.toList ++ rest) = ⟨⟨.number, n.repr⟩, rest, []⟩ := by
  obtain ⟨d, ds, hlist, hall⟩ := repr_start n
  have hofList : String.ofList (d :: ds) = n.repr := by rw [← hlist, String.ofList_toList]
  have hd : d.isDigit := hall d List.mem_cons_self
  have hident : isIdentChar d := isIdentChar_of_isDigit hd
  rw [hlist, List.cons_append, lexToken, lexSingle_of_isIdentChar hident,
    lexOperator_of_isIdentChar hident]
  simp only [hd, if_true]
  rw [← List.cons_append, lexNumber_append (List.cons_ne_nil d ds) hall h, hofList]

end Numbers

section Symbols

theorem lexToken_symbol (lexQuoted : List Char → Lexed) {t : Token} (ht : t ∈ symbols)
    (h : Ends rest) : lexToken lexQuoted (t.lexeme.toList ++ rest) = ⟨t, rest, []⟩ := by
  have hlex : lexToken lexQuoted (t.lexeme.toList ++ rest) =
      makeToken (t.lexeme.toList ++ rest) (t.kind, rest) := by
    unfold symbols at ht
    rcases h with rfl | ⟨rest', rfl⟩ <;> fin_cases ht <;> rfl
  rw [hlex, makeToken_append, String.ofList_toList]

end Symbols

section Advance

variable (lexQuoted : List Char → Lexed)

theorem lexAdvance_space (chars : List Char) :
    lexAdvance lexQuoted (' ' :: chars) = lexAdvance lexQuoted chars := by
  have hskip : skipWhitespace (' ' :: chars) = skipWhitespace chars := rfl
  rw [lexAdvance, lexAdvance, hskip]

/-- Where no space and no comment starts, a token does. -/
theorem lexAdvance_eq_lexToken {c : Char} {chars : List Char} (hspace : isWhitespace c = false)
    (hcomment : c = '/' → Ends chars) :
    lexAdvance lexQuoted (c :: chars) = lexToken lexQuoted (c :: chars) := by
  have hskip : skipWhitespace (c :: chars) = c :: chars := by
    rw [skipWhitespace, List.dropWhile_cons_of_neg (by simp [hspace])]
  have hends : ∀ d rest, c :: chars = '/' :: d :: rest → d = ' ' := by
    intro d rest heq
    obtain ⟨hc, rfl⟩ := List.cons.inj heq
    rcases hcomment hc with hnil | ⟨rest', heq⟩
    · cases hnil
    · exact (List.cons.inj heq).1
  rw [lexAdvance, hskip]
  split
  · rename_i heq
    exact absurd (hends _ _ heq) (by decide)
  · rename_i heq
    exact absurd (hends _ _ heq) (by decide)
  · rename_i heq
    exact absurd (hends _ _ heq) (by decide)
  · rename_i heq
    exact absurd (hends _ _ heq) (by decide)
  · rfl

theorem lexToken_spelled {t : Token} (ht : Spelled t) (h : Ends rest) :
    lexToken lexQuoted (t.lexeme.toList ++ rest) = ⟨t, rest, []⟩ := by
  cases ht with
  | ident name hname => exact lexToken_ident lexQuoted hname h
  | number n => exact lexToken_number lexQuoted n h
  | symbol t ht => exact lexToken_symbol lexQuoted ht h

theorem Spelled.start {t : Token} (ht : Spelled t) : ∃ c chars, t.lexeme.toList = c :: chars ∧
    isWhitespace c = false ∧ (c = '/' → chars = []) := by
  have hident : ∀ {c : Char}, isIdentChar c → isWhitespace c = false ∧ c ≠ '/' := by
    intro c hc
    refine ⟨not_isWhitespace_of_isIdentChar hc, ?_⟩
    rintro rfl
    exact absurd hc (by decide)
  cases ht with
  | ident name hname =>
    obtain ⟨c, chars, hlist, hfirst, -⟩ := isIdent_start hname
    obtain ⟨hspace, hslash⟩ := hident (isIdentChar_of_first hfirst)
    exact ⟨c, chars, hlist, hspace, fun heq => absurd heq hslash⟩
  | number n =>
    obtain ⟨d, ds, hlist, hall⟩ := repr_start n
    obtain ⟨hspace, hslash⟩ := hident (isIdentChar_of_isDigit (hall d List.mem_cons_self))
    exact ⟨d, ds, hlist, hspace, fun heq => absurd heq hslash⟩
  | symbol t ht =>
    unfold symbols at ht
    fin_cases ht <;> exact ⟨_, _, rfl, by decide, by decide⟩

theorem lexAdvance_spelled {t : Token} (ht : Spelled t) (h : Ends rest) :
    lexAdvance lexQuoted (t.lexeme.toList ++ rest) = ⟨t, rest, []⟩ := by
  obtain ⟨c, chars, hlist, hspace, hslash⟩ := ht.start
  rw [← lexToken_spelled lexQuoted ht h, hlist, List.cons_append]
  refine lexAdvance_eq_lexToken lexQuoted hspace fun hc => ?_
  rw [hslash hc]
  exact h

theorem lexAdvance_nil : lexAdvance lexQuoted [] = ⟨⟨.eof, ""⟩, [], []⟩ := by
  rw [lexAdvance]
  rfl

end Advance

section Text

/-- A token that expressions are printed with. -/
abbrev SpelledToken := { t : Token // Spelled t }

/-- The text of tokens with a space between them. -/
def spell (tokens : List SpelledToken) : String := " ".intercalate (tokens.map (·.val.lexeme))

/-- The text of tokens with a space before each of them. -/
def spaced : List SpelledToken → List Char
  | [] => []
  | t :: ts => ' ' :: (t.val.lexeme.toList ++ spaced ts)

/-- The token at which a parser stands before these. -/
def headToken : List SpelledToken → Token
  | [] => ⟨.eof, ""⟩
  | t :: _ => t.val

theorem ends_spaced (ts : List SpelledToken) : Ends (spaced ts) := by
  cases ts with
  | nil => exact .inl rfl
  | cons t ts => exact .inr ⟨_, rfl⟩

theorem toList_spell (t : SpelledToken) (ts : List SpelledToken) :
    (spell (t :: ts)).toList = t.val.lexeme.toList ++ spaced ts := by
  induction ts generalizing t with
  | nil => simp [spell, spaced]
  | cons u ts ih =>
    have hcons : spell (t :: u :: ts) = t.val.lexeme ++ " " ++ spell (u :: ts) := by
      simp [spell, String.intercalate_cons_cons]
    rw [hcons, String.toList_append, String.toList_append, ih]
    simp [spaced]

variable (lexQuoted : List Char → Lexed)

theorem lexAdvance_spaced (ts : List SpelledToken) :
    lexAdvance lexQuoted (spaced ts) = ⟨headToken ts, spaced ts.tail, []⟩ := by
  cases ts with
  | nil => exact lexAdvance_nil lexQuoted
  | cons t ts =>
    rw [spaced, lexAdvance_space]
    exact lexAdvance_spelled lexQuoted t.property (ends_spaced ts)

theorem nextToken_spaced (ts : List SpelledToken) (errors : List LexError) :
    Lexer.nextToken lexQuoted ⟨spaced ts, none, errors⟩ =
      (headToken ts, ⟨spaced ts.tail, none, errors⟩) := by
  simp [Lexer.nextToken, Lexer.advance, lexAdvance_spaced]

/-- The first token of a spelled text. -/
theorem nextToken_spell (ts : List SpelledToken) :
    (Lexer.new (spell ts)).nextToken lexQuoted = (headToken ts, ⟨spaced ts.tail, none, []⟩) := by
  cases ts with
  | nil =>
    simp [Lexer.new, Lexer.nextToken, Lexer.advance, spell, lexAdvance_nil, headToken, spaced]
  | cons t ts =>
    have hlex := lexAdvance_spelled lexQuoted t.property (ends_spaced ts)
    simp [Lexer.new, Lexer.nextToken, Lexer.advance, toList_spell, hlex, headToken]

end Text

end Vuma.Parser
