import Vuma.Parser.Token

/-!
# The lexer

`Lexer`: the next token of the source text. White space and comments are skipped, doc comments are
tokens. The literals in quotes, whose text is decoded, are a parameter.
-/

namespace Vuma.Parser

/-- The errors that the lexer records. -/
inductive LexError where
  | unexpectedCharacter (c : Char)
  | unterminatedComment
  | emptyDigits (radix : String)
  | quoted (message : String)
  deriving DecidableEq, Repr

/-- A token, the text that is left, and the errors on the way. -/
structure Lexed where
  token : Token
  rest : List Char
  errors : List LexError
  deriving DecidableEq, Repr

/-- `make_token`: the text of a token is what was consumed for it. -/
def makeToken (chars : List Char) (r : TokenKind × List Char) : Lexed :=
  ⟨⟨r.1, String.ofList (chars.take (chars.length - r.2.length))⟩, r.2, []⟩

section Spaces

def isWhitespace (c : Char) : Bool :=
  let n := c.toNat
  (9 ≤ n && n ≤ 13) || n == 0x20 || n == 0x85 || n == 0xA0 || n == 0x1680 ||
    (0x2000 ≤ n && n ≤ 0x200A) || n == 0x2028 || n == 0x2029 || n == 0x202F || n == 0x205F ||
    n == 0x3000

def skipWhitespace (chars : List Char) : List Char := chars.dropWhile isWhitespace

def consumeToEol (chars : List Char) : List Char := chars.dropWhile fun c => c != '\n'

/-- `skip_block_comment`, inside as many comments as the number says. -/
def skipBlockComment : Nat → List Char → List Char × List LexError
  | 0, chars => (chars, [])
  | _ + 1, [] => ([], [.unterminatedComment])
  | depth + 1, '/' :: '*' :: chars => skipBlockComment (depth + 2) chars
  | depth + 1, '*' :: '/' :: chars => skipBlockComment depth chars
  | depth + 1, _ :: chars => skipBlockComment (depth + 1) chars

end Spaces

section Operators

/-- An operator that is another one when `=` comes next. -/
def lexAssign (kind assignKind : TokenKind) : List Char → TokenKind × List Char
  | '=' :: rest => (assignKind, rest)
  | rest => (kind, rest)

/-- `lex_plus`, after the first character like all of these. -/
def lexPlus : List Char → TokenKind × List Char := lexAssign .plus .plusEq

def lexStar : List Char → TokenKind × List Char := lexAssign .star .starEq

def lexPercent : List Char → TokenKind × List Char := lexAssign .percent .percentEq

def lexSlash : List Char → TokenKind × List Char := lexAssign .slash .slashEq

def lexCaret : List Char → TokenKind × List Char := lexAssign .caret .caretEq

def lexBang : List Char → TokenKind × List Char := lexAssign .bang .ne

def lexMinus : List Char → TokenKind × List Char
  | '>' :: rest => (.arrow, rest)
  | '=' :: rest => (.minusEq, rest)
  | rest => (.minus, rest)

def lexEq : List Char → TokenKind × List Char
  | '=' :: rest => (.eqEq, rest)
  | '>' :: rest => (.fatArrow, rest)
  | rest => (.assign, rest)

def lexLt : List Char → TokenKind × List Char
  | '=' :: rest => (.le, rest)
  | '<' :: '=' :: rest => (.shlEq, rest)
  | '<' :: rest => (.shl, rest)
  | rest => (.lt, rest)

def lexGt : List Char → TokenKind × List Char
  | '=' :: rest => (.ge, rest)
  | '>' :: '=' :: rest => (.shrEq, rest)
  | '>' :: rest => (.shr, rest)
  | rest => (.gt, rest)

def lexAmpersand : List Char → TokenKind × List Char
  | '&' :: rest => (.andAnd, rest)
  | '=' :: rest => (.ampEq, rest)
  | rest => (.ampersand, rest)

def lexPipe : List Char → TokenKind × List Char
  | '|' :: rest => (.orOr, rest)
  | '=' :: rest => (.pipeEq, rest)
  | rest => (.pipe, rest)

def lexColon : List Char → TokenKind × List Char
  | ':' :: rest => (.pathSep, rest)
  | rest => (.colon, rest)

def lexDot : List Char → TokenKind × List Char
  | '.' :: '.' :: rest => (.ellipsis, rest)
  | '.' :: '=' :: rest => (.dotDotEq, rest)
  | '.' :: rest => (.dotDot, rest)
  | rest => (.dot, rest)

end Operators

section Numbers

def isDecimal (c : Char) : Bool := c.isDigit || c == '_'

def isHexDigit (c : Char) : Bool :=
  c.isDigit || ('a' ≤ c && c ≤ 'f') || ('A' ≤ c && c ≤ 'F')

def isHex (c : Char) : Bool := isHexDigit c || c == '_'

def isBinary (c : Char) : Bool := c == '0' || c == '1' || c == '_'

def isOctal (c : Char) : Bool := ('0' ≤ c && c ≤ '7') || c == '_'

def consumeDecimalDigits (chars : List Char) : List Char := chars.dropWhile isDecimal

def lexExponent : List Char → List Char
  | 'e' :: '+' :: rest | 'e' :: '-' :: rest | 'E' :: '+' :: rest | 'E' :: '-' :: rest
  | 'e' :: rest | 'E' :: rest => consumeDecimalDigits rest
  | rest => rest

def checkFloatOrInt : List Char → TokenKind × List Char
  | '.' :: c :: rest =>
    if c.isDigit then (.float, lexExponent (consumeDecimalDigits (c :: rest)))
    else (.number, '.' :: c :: rest)
  | 'e' :: rest => (.float, lexExponent ('e' :: rest))
  | 'E' :: rest => (.float, lexExponent ('E' :: rest))
  | rest => (.number, rest)

/-- `lex_hex_digits`, `lex_binary_digits` and `lex_octal_digits`, after the prefix. -/
def lexDigits (isDigit : Char → Bool) (kind : TokenKind) (radix : String) (chars rest : List Char) :
    Lexed :=
  let rest' := rest.dropWhile isDigit
  if rest'.length = rest.length then
    { makeToken chars (.error, rest') with errors := [.emptyDigits radix] }
  else makeToken chars (kind, rest')

def lexNumber (chars : List Char) : Lexed :=
  match chars with
  | '0' :: second :: rest =>
    let third := rest.head?
    if second == 'x' || second == 'X' then
      if third.any isHex then lexDigits isHex .address "0x" chars rest
      else makeToken chars (.number, second :: rest)
    else if second == 'b' || second == 'B' then
      if third.any isBinary then lexDigits isBinary .number "0b" chars rest
      else makeToken chars (checkFloatOrInt (consumeDecimalDigits (second :: rest)))
    else if second == 'o' || second == 'O' then
      if third.any isOctal then lexDigits isOctal .number "0o" chars rest
      else makeToken chars (checkFloatOrInt (consumeDecimalDigits (second :: rest)))
    else if second == 'e' || second == 'E' then
      makeToken chars (.float, lexExponent (second :: rest))
    else if second == '.' then
      if third.any Char.isDigit then
        makeToken chars (.float, lexExponent (consumeDecimalDigits rest))
      else makeToken chars (.number, second :: rest)
    else makeToken chars (checkFloatOrInt (consumeDecimalDigits (second :: rest)))
  | _ => makeToken chars (checkFloatOrInt (consumeDecimalDigits chars))

end Numbers

section Identifiers

def isIdentChar (c : Char) : Bool := c.isAlphanum || c == '_'

/-- The names of macros of other languages, `check_llm_construct` on a name without `!`. -/
def isLlmConstruct (name : String) : Bool :=
  name ∈ ["println", "print", "eprintln", "eprint", "printf", "fmt", "dbg"]

def lexIdent : List Char → TokenKind × List Char
  | [] => (.eof, [])
  | c :: chars =>
    let rest := chars.dropWhile isIdentChar
    let text := String.ofList (c :: chars.takeWhile isIdentChar)
    if text = "_" then (.underscore, rest)
    else
      match rest with
      | '!' :: rest' =>
        if isLlmConstruct text then (.macroIdent, rest')
        else ((keywordKind text).getD .ident, rest)
      | _ => ((keywordKind text).getD .ident, rest)

end Identifiers

section Advance

/-- The token of one character. -/
def lexSingle : Char → Option TokenKind
  | '(' => some .lParen
  | ')' => some .rParen
  | '\x7b' => some .lBrace
  | '\x7d' => some .rBrace
  | '[' => some .lBracket
  | ']' => some .rBracket
  | '~' => some .tilde
  | '@' => some .ampersat
  | '#' => some .hash
  | '$' => some .dollar
  | '?' => some .question
  | ';' => some .semicolon
  | ',' => some .comma
  | _ => none

/-- The operators with more than one character. -/
def lexOperator : Char → Option (List Char → TokenKind × List Char)
  | '+' => some lexPlus
  | '*' => some lexStar
  | '/' => some lexSlash
  | '%' => some lexPercent
  | '^' => some lexCaret
  | '-' => some lexMinus
  | '!' => some lexBang
  | '=' => some lexEq
  | '<' => some lexLt
  | '>' => some lexGt
  | '&' => some lexAmpersand
  | '|' => some lexPipe
  | ':' => some lexColon
  | '.' => some lexDot
  | _ => none

/-- A literal in quotes starts here: a string, a character, or the prefix of a byte string, a raw
string or a format string. -/
def startsQuoted (c : Char) (rest : List Char) : Bool :=
  c == '\x22' || c == '\x27' ||
    (c == 'b' && rest.head? == some '\x22') ||
    (c == 'r' && (rest.head? == some '\x22' || rest.head? == some '#')) ||
    (c == 'f' && rest.head? == some '\x22')

variable (lexQuoted : List Char → Lexed)

def lexToken : List Char → Lexed
  | [] => ⟨⟨.eof, ""⟩, [], []⟩
  | c :: rest =>
    match lexSingle c, lexOperator c with
    | some kind, _ => makeToken (c :: rest) (kind, rest)
    | none, some lex => makeToken (c :: rest) (lex rest)
    | none, none =>
      if c.isDigit then lexNumber (c :: rest)
      else if startsQuoted c rest then lexQuoted (c :: rest)
      else if c == '_' || c.isAlpha then makeToken (c :: rest) (lexIdent (c :: rest))
      else { makeToken (c :: rest) (.error, rest) with errors := [.unexpectedCharacter c] }

theorem length_skipBlockComment_le (depth : Nat) (chars : List Char) :
    (skipBlockComment depth chars).1.length ≤ chars.length := by
  fun_induction skipBlockComment depth chars with
  | case1 | case2 => simp
  | case3 _ _ ih | case4 _ _ ih => simp only [List.length_cons]; omega
  | case5 _ _ _ _ _ ih => simp only [List.length_cons]; omega

theorem length_skipWhitespace_le (chars : List Char) :
    (skipWhitespace chars).length ≤ chars.length := (List.dropWhile_sublist _).length_le

theorem length_consumeToEol_le (chars : List Char) :
    (consumeToEol chars).length ≤ chars.length := (List.dropWhile_sublist _).length_le

/-- The core of `Lexer::advance`: white space and comments are skipped until a token starts. -/
def lexAdvance (chars : List Char) : Lexed :=
  match h : skipWhitespace chars with
  | '/' :: '/' :: '/' :: rest =>
    makeToken ('/' :: '/' :: '/' :: rest) (.docComment, consumeToEol rest)
  | '/' :: '/' :: '!' :: rest =>
    makeToken ('/' :: '/' :: '!' :: rest) (.moduleDoc, consumeToEol rest)
  | '/' :: '/' :: rest => lexAdvance (consumeToEol rest)
  | '/' :: '*' :: rest =>
    let skipped := skipBlockComment 1 rest
    let next := lexAdvance skipped.1
    { next with errors := skipped.2 ++ next.errors }
  | rest => lexToken lexQuoted rest
termination_by chars.length
decreasing_by
  · have hskip := length_skipWhitespace_le chars
    have heol := length_consumeToEol_le rest
    rw [h] at hskip
    simp only [List.length_cons] at hskip
    omega
  · have hskip := length_skipWhitespace_le chars
    have hblock := length_skipBlockComment_le 1 rest
    rw [h] at hskip
    simp only [List.length_cons] at hskip
    omega

end Advance

/-- `Lexer`, without the places of its tokens. -/
structure Lexer where
  chars : List Char
  peeked : Option Token
  errors : List LexError
  deriving DecidableEq, Repr

namespace Lexer

def new (source : String) : Lexer := ⟨source.toList, none, []⟩

variable (lexQuoted : List Char → Lexed)

def advance (lexer : Lexer) : Token × Lexer :=
  let lexed := lexAdvance lexQuoted lexer.chars
  (lexed.token, { lexer with chars := lexed.rest, errors := lexer.errors ++ lexed.errors })

def nextToken (lexer : Lexer) : Token × Lexer :=
  match lexer.peeked with
  | some token => (token, { lexer with peeked := none })
  | none => lexer.advance lexQuoted

def peek (lexer : Lexer) : Token × Lexer :=
  match lexer.peeked with
  | some token => (token, lexer)
  | none =>
    let (token, lexer) := lexer.advance lexQuoted
    (token, { lexer with peeked := some token })

end Lexer

end Vuma.Parser
