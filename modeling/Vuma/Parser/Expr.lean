import Vuma.Lib.Run
import Vuma.Parser.Lexer

/-!
# Expressions

The expression parser by precedence climbing: `parse_expr`, the prefix operators, the postfix
operators and the primary expressions. Types and the literals in quotes are a parameter, and so are
the primary expressions with a block, a pattern or a closure in them and the literals that are
decoded from the text of their token. A parser that does not come back has the value `none`.
-/

namespace Vuma.Parser

open Lib

inductive BinOp where
  | add | sub | mul | div | mod | bitAnd | bitOr | bitXor | shl | shr | eq | ne | lt | le | gt | ge
  | and | or
  deriving DecidableEq, Repr

inductive UnOp where
  | neg | not | bitNot
  deriving DecidableEq, Repr

/-- `Lit`. The integer of a literal is kept by its bits. -/
inductive Lit where
  | int (value : BitVec 64)
  | string (value : String)
  | bool (value : Bool)
  deriving DecidableEq, Repr

/-- `Expr`. A form stands for the expressions that are parsed by the parameter. -/
inductive Expr (Ty Form : Type) where
  | var (name : String)
  | lit (value : Lit)
  | null
  | binOp (op : BinOp) (lhs rhs : Expr Ty Form)
  | unOp (op : UnOp) (expr : Expr Ty Form)
  | deref (expr : Expr Ty Form)
  | addressOf (expr : Expr Ty Form)
  | range (start finish : Expr Ty Form)
  | call (callee : Expr Ty Form) (args : List (Expr Ty Form))
  | stateInit (layoutName : String)
  | arenaNew (capacity : Expr Ty Form)
  | arenaAlloc (arena : Expr Ty Form) (layoutName : String)
  | arenaGrow (arena minCapacity : Expr Ty Form)
  | arenaFree (arena : Expr Ty Form)
  | await (expr : Expr Ty Form)
  | fieldAccess (expr : Expr Ty Form) (field : String)
  | index (expr index : Expr Ty Form)
  | structInit (name : String) (fields : List (String × Expr Ty Form))
  | cast (expr : Expr Ty Form) (targetType : Ty)
  | namespaceAccess (expr : Expr Ty Form) (name : String)
  | tryExpr (expr : Expr Ty Form)
  | ctSelect (cond trueVal falseVal : Expr Ty Form)
  | ctEq (lhs rhs : Expr Ty Form)
  | syscall (nr : BitVec 32) (args : List (Expr Ty Form))
  | allocate (size : Expr Ty Form)
  | sizeof (ty : Ty)
  | alignof (ty : Ty)
  | derive (ptr region : Expr Ty Form)
  | spawn (expr : Expr Ty Form)
  | atomicLoad (addr : Expr Ty Form)
  | atomicStore (addr value : Expr Ty Form)
  | atomicCas (addr expected desired : Expr Ty Form)
  | form (form : Form)

/-- `ParseError`, by what it says. -/
inductive ParseError where
  | nestingDepth (maxDepth : Nat)
  | pointerSyntax (kind : String)
  | expected (kind found : TokenKind)
  | expectedName (found : TokenKind)
  | expectedExpression (found : TokenKind)
  | invalidInteger (lexeme : String)
  | syscallNumber (lexeme : String)
  | syscallNumberNotLiteral
  | emptySpawn
  | other (message : String)
  deriving DecidableEq, Repr

/-- `Parser`, as far as expressions need it. -/
structure ParserState where
  lexer : Lexer
  current : Token
  errors : List ParseError
  pushback : List Token
  exprDepth : Nat
  maxDepth : Nat
  noStructLiteral : Bool
  externFnNames : List String
  deriving DecidableEq, Repr

def maxExprDepth : Nat := 1024

/-- A step of the parser. -/
abbrev Parse (α : Type) := Run ParseError ParserState α

/-- What expressions are made of besides expressions. -/
structure Outside (Ty Form : Type) where
  lexQuoted : List Char → Lexed
  parseType : Parse Ty
  parseForm : Parse Form

/-- A number may have the sign `+`. -/
def dropPlus : List Char → List Char
  | '+' :: digits => digits
  | digits => digits

/-- `str::parse` of an unsigned number. -/
def parseUnsigned (w : Nat) (s : String) : Option (BitVec w) :=
  let digits := dropPlus s.toList
  if digits ≠ [] ∧ digits.all Char.isDigit ∧ Nat.ofDigitChars 10 digits 0 < 2 ^ w then
    some (BitVec.ofNat w (Nat.ofDigitChars 10 digits 0))
  else none

namespace ParserState

variable (lexQuoted : List Char → Lexed)

def new (source : String) : ParserState :=
  let (current, lexer) := (Lexer.new source).nextToken lexQuoted
  { lexer
    current
    errors := []
    pushback := []
    exprDepth := 0
    maxDepth := maxExprDepth
    noStructLiteral := false
    externFnNames := [] }

def withMaxDepth (source : String) (maxDepth : Nat) : ParserState :=
  { new lexQuoted source with maxDepth }

def advance (parser : ParserState) : Token × ParserState :=
  match parser.pushback with
  | token :: pushback => (parser.current, { parser with current := token, pushback })
  | [] =>
    let (token, lexer) := parser.lexer.nextToken lexQuoted
    (parser.current, { parser with current := token, lexer })

def pushBackCurrent (saved : Token) (parser : ParserState) : ParserState :=
  { parser with current := saved, pushback := parser.current :: parser.pushback }

end ParserState

def isNameKeyword : TokenKind → Bool
  | .region | .ptr | .alloc | .free | .cast | .read | .write | .safe | .unsafeKw | .bd | .repd
  | .capd | .reld | .selfKw | .super | .lock | .unlock | .channel | .send | .recv | .await | .useKw
  | .modKw | .typeKw | .mutKw | .refKw | .whereKw | .implKw | .traitKw | .staticKw | .constKw
  | .loopKw | .optionKw | .someKw | .noneKw | .resultKw | .okKw | .errKw | .derive | .crateKw
  | .async => true
  | _ => false

/-- The keywords that are variables in an expression. -/
def isVarKeyword : TokenKind → Bool
  | .region | .ptr | .alloc | .cast | .read | .write | .safe | .unsafeKw | .bd | .repd | .capd
  | .reld | .selfKw | .super | .lock | .unlock | .channel | .send | .recv | .await | .useKw | .modKw
  | .free | .typeKw | .mutKw | .refKw | .whereKw | .implKw | .traitKw | .staticKw | .constKw
  | .optionKw | .resultKw => true
  | _ => false

/-- The binary operators and their precedence in `parse_expr_with_precedence_inner`. -/
def binOpOf : TokenKind → Option (BinOp × Nat)
  | .orOr => some (.or, 0)
  | .andAnd => some (.and, 1)
  | .eqEq => some (.eq, 2)
  | .ne => some (.ne, 2)
  | .lt => some (.lt, 3)
  | .le => some (.le, 3)
  | .gt => some (.gt, 3)
  | .ge => some (.ge, 3)
  | .pipe => some (.bitOr, 4)
  | .caret => some (.bitXor, 5)
  | .ampersand => some (.bitAnd, 6)
  | .shl => some (.shl, 7)
  | .shr => some (.shr, 7)
  | .plus => some (.add, 8)
  | .minus => some (.sub, 8)
  | .star => some (.mul, 9)
  | .slash => some (.div, 9)
  | .percent => some (.mod, 9)
  | _ => none

variable {Ty Form : Type}

/-- The calls that are expressions of their own: `state_new`. -/
def interceptStateNew : Expr Ty Form → Expr Ty Form
  | .call (.var name) [.var layoutName] =>
    if name = "state_new" then .stateInit layoutName else .call (.var name) [.var layoutName]
  | expr => expr

/-- The calls that are expressions of their own: the arenas. -/
def interceptArena : Expr Ty Form → Expr Ty Form
  | .call (.var "arena_new") [capacity] => .arenaNew capacity
  | .call (.var "arena_alloc") [arena, .var layoutName] => .arenaAlloc arena layoutName
  | .call (.var "arena_grow") [arena, minCapacity] => .arenaGrow arena minCapacity
  | .call (.var "arena_free") [arena] => .arenaFree arena
  | expr => expr

section Steps

variable (out : Outside Ty Form)

def advance : Parse Token := modifyGet (ParserState.advance out.lexQuoted)

/-- The kind of the current token. -/
def currentKind : Parse TokenKind := do
  return (← get).current.kind

/-- `at`. -/
def atKind (kind : TokenKind) : Parse Bool := do
  return (← get).current.kind == kind

def peekNext : Parse Token :=
  modifyGet fun parser =>
    let (token, lexer) := parser.lexer.peek out.lexQuoted
    (token, { parser with lexer })

def expect (kind : TokenKind) : Parse Token := do
  let found ← currentKind
  if found = kind then advance out else throw (.expected kind found)

def expectName : Parse String := do
  let current := (← get).current
  if current.kind = .ident ∨ isNameKeyword current.kind then
    let _ ← advance out
    return current.lexeme
  else throw (.expectedName current.kind)

def expectGtClosingGeneric : Parse Unit := do
  match ← currentKind with
  | .gt => let _ ← advance out
  | .shr =>
    let _ ← advance out
    modify fun parser => parser.pushBackCurrent ⟨.gt, ">"⟩
  | found => throw (.expected .gt found)

def checkPointerSyntax (kind : String) : Parse Unit := throw (.pointerSyntax kind)

/-- The first token inside of the braces starts a field of a struct literal. -/
def isStructLiteral : Parse Bool := do
  let kind ← currentKind
  if kind = .rBrace then return true
  else if kind = .ident ∨ isNameKeyword kind then
    let after ← peekNext out
    return after.kind = .colon ∨ after.kind = .comma ∨ after.kind = .rBrace
  else return false

/-- A variable by the name of the current token. -/
def parseVar : Parse (Expr Ty Form) := do
  let token ← advance out
  return .var token.lexeme

/-- An integer literal. -/
def parseNumber : Parse (Expr Ty Form) := do
  let token ← advance out
  match parseUnsigned 64 token.lexeme with
  | some value => return .lit (.int value)
  | none => throw (.invalidInteger token.lexeme)

/-- The number of a system call. -/
def parseSyscallNumber : Parse (BitVec 32) := do
  if ← atKind .number then
    let token ← advance out
    match parseUnsigned 32 token.lexeme with
    | some nr => return nr
    | none => throw (.syscallNumber token.lexeme)
  else throw .syscallNumberNotLiteral

namespace Outside

mutual

def parseExprWithPrecedence (out : Outside Ty Form) (minPrec : Nat) : Parse (Expr Ty Form) := do
  let parser ← get
  if parser.exprDepth + 1 > parser.maxDepth then throw (.nestingDepth parser.maxDepth)
  let result ← (fun parser => do
    let (result, parser') ← out |>.parseExprWithPrecedenceInner minPrec
      { parser with exprDepth := parser.exprDepth + 1 }
    return (.ok result, { parser' with exprDepth := parser'.exprDepth - 1 }) :
      Parse (Except ParseError (Expr Ty Form)))
  match result with
  | .ok expr => return expr
  | .error e => throw e
partial_fixpoint

def parseExprWithPrecedenceInner (out : Outside Ty Form) (minPrec : Nat) :
    Parse (Expr Ty Form) := do
  let left ← out |>.parseUnary
  out |>.parseBinary minPrec left
partial_fixpoint

/-- The loop of `parse_expr_with_precedence_inner`. -/
def parseBinary (out : Outside Ty Form) (minPrec : Nat) (left : Expr Ty Form) :
    Parse (Expr Ty Form) := do
  let kind ← currentKind
  if kind = .dotDot ∧ minPrec = 0 then
    let _ ← advance out
    -- `with_no_struct_literal`: the flag is put back also after an error
    let before := (← get).noStructLiteral
    let result ← (fun parser => do
      let (result, parser') ← out |>.parseExprWithPrecedence 1 { parser with noStructLiteral := true }
      return (.ok result, { parser' with noStructLiteral := before }) :
        Parse (Except ParseError (Expr Ty Form)))
    match result with
    | .ok finish => out |>.parseBinary minPrec (.range left finish)
    | .error e => throw e
  else
    match binOpOf kind with
    | none => return left
    | some (op, prec) =>
      if prec < minPrec then return left
      else
        let _ ← advance out
        let right ← out |>.parseExprWithPrecedence (prec + 1)
        out |>.parseBinary minPrec (.binOp op left right)
partial_fixpoint

def parseUnary (out : Outside Ty Form) : Parse (Expr Ty Form) := do
  match ← currentKind with
  | .minus =>
    let _ ← advance out
    let expr ← out |>.parseUnary
    return .unOp .neg expr
  | .bang =>
    let _ ← advance out
    let expr ← out |>.parseUnary
    return .unOp .not expr
  | .tilde =>
    let _ ← advance out
    let expr ← out |>.parseUnary
    return .unOp .bitNot expr
  | .star =>
    checkPointerSyntax "*ptr (deref)"
    let _ ← advance out
    let expr ← out |>.parseUnary
    return .deref expr
  | .ampersand =>
    checkPointerSyntax "&x (address-of)"
    let _ ← advance out
    let expr ← out |>.parseUnary
    return .addressOf expr
  | .ampersat =>
    checkPointerSyntax "@x (address-of)"
    let _ ← advance out
    let expr ← out |>.parseUnary
    return .addressOf expr
  | _ => out |>.parsePostfix
partial_fixpoint

def parsePostfix (out : Outside Ty Form) : Parse (Expr Ty Form) := do
  let expr ← out |>.parsePrimary
  match expr with
  | .var name =>
    if name = "channel_open" ∧ (← atKind .lt) then
      let _ ← advance out
      let _ ← out.parseType
      expectGtClosingGeneric out
    out |>.parsePostfixLoop (.var name)
  | expr => out |>.parsePostfixLoop expr
partial_fixpoint

/-- The loop of `parse_postfix`. -/
def parsePostfixLoop (out : Outside Ty Form) (expr : Expr Ty Form) : Parse (Expr Ty Form) := do
  match ← currentKind with
  | .lParen =>
    let _ ← advance out
    let args ← out |>.parseArgs
    let _ ← expect out .rParen
    out |>.parsePostfixLoop (interceptArena (interceptStateNew (.call expr args)))
  | .dot =>
    let _ ← advance out
    if ← atKind .await then
      let _ ← advance out
      out |>.parsePostfixLoop (.await expr)
    else
      let field ← expectName out
      out |>.parsePostfixLoop (.fieldAccess expr field)
  | .lBracket =>
    let _ ← advance out
    let index ← out |>.parseExprWithPrecedence 0
    let _ ← expect out .rBracket
    out |>.parsePostfixLoop (.index expr index)
  | .lBrace =>
    if (← get).noStructLiteral then return expr
    else
      match expr with
      | .var name =>
        let lBrace ← advance out
        if ← isStructLiteral out then
          let fields ← out |>.parseFields
          let _ ← expect out .rBrace
          out |>.parsePostfixLoop (.structInit name fields)
        else
          modify (ParserState.pushBackCurrent lBrace)
          return expr
      | _ => return expr
  | .as =>
    let _ ← advance out
    let targetType ← out.parseType
    out |>.parsePostfixLoop (.cast expr targetType)
  | .pathSep =>
    let _ ← advance out
    let name ← expectName out
    out |>.parsePostfixLoop (.namespaceAccess expr name)
  | .question =>
    let _ ← advance out
    out |>.parsePostfixLoop (.tryExpr expr)
  | _ => return expr
partial_fixpoint

/-- The arguments of a call, up to the parenthesis. -/
def parseArgs (out : Outside Ty Form) : Parse (List (Expr Ty Form)) := do
  if ← atKind .rParen then return []
  else
    let arg ← out |>.parseExprWithPrecedence 0
    let args ← out |>.parseMoreArgs
    return arg :: args
partial_fixpoint

/-- The arguments that follow a comma. -/
def parseMoreArgs (out : Outside Ty Form) : Parse (List (Expr Ty Form)) := do
  if ← atKind .comma then
    let _ ← advance out
    let arg ← out |>.parseExprWithPrecedence 0
    let args ← out |>.parseMoreArgs
    return arg :: args
  else return []
partial_fixpoint

/-- The fields of a struct literal, up to the brace. -/
def parseFields (out : Outside Ty Form) : Parse (List (String × Expr Ty Form)) := do
  if ← atKind .rBrace then return []
  else
    let field ← out |>.parseField
    let fields ← out |>.parseMoreFields
    return field :: fields
partial_fixpoint

/-- The fields that follow a comma. -/
def parseMoreFields (out : Outside Ty Form) : Parse (List (String × Expr Ty Form)) := do
  if ← atKind .comma then
    let _ ← advance out
    if ← atKind .rBrace then return []
    else
      let field ← out |>.parseField
      let fields ← out |>.parseMoreFields
      return field :: fields
  else return []
partial_fixpoint

/-- A field of a struct literal; without a value it is the variable of its name. -/
def parseField (out : Outside Ty Form) : Parse (String × Expr Ty Form) := do
  let name ← expectName out
  if ← atKind .colon then
    let _ ← advance out
    let value ← out |>.parseExprWithPrecedence 0
    return (name, value)
  else return (name, .var name)
partial_fixpoint

/-- The further parts of a tuple. They are not kept, and neither are the errors in them. -/
def parseTupleRest (out : Outside Ty Form) : Parse Unit := do
  if ← atKind .comma then
    let _ ← advance out
    if ← atKind .rParen then out |>.parseTupleRest
    else
      (fun parser => do
        let (_, parser') ← out |>.parseExprWithPrecedence 0 parser
        return (.ok (), parser') : Parse Unit)
      out |>.parseTupleRest
  else return ()
partial_fixpoint

/-- The arguments of `spawn` that follow a comma; the last comma may have none. -/
def parseSpawnArgs (out : Outside Ty Form) : Parse (List (Expr Ty Form)) := do
  if ← atKind .comma then
    let _ ← advance out
    if ← atKind .rParen then return []
    else
      let arg ← out |>.parseExprWithPrecedence 0
      let args ← out |>.parseSpawnArgs
      return arg :: args
  else return []
partial_fixpoint

def parsePrimary (out : Outside Ty Form) : Parse (Expr Ty Form) := do
  let kind ← currentKind
  match kind with
  | .ident => parseVar out
  | .noneKw =>
    let _ ← advance out
    return .var "None"
  | .someKw | .okKw | .errKw =>
    let token ← advance out
    if ← atKind .lParen then
      if token.lexeme ∈ (← get).externFnNames then return .var token.lexeme
      else
        let _ ← advance out
        if ← atKind .rParen then
          let _ ← advance out
          return .call (.var token.lexeme) []
        else
          let expr ← out |>.parseExprWithPrecedence 0
          let _ ← expect out .rParen
          return .structInit token.lexeme [("0", expr)]
    else return .var token.lexeme
  | .ctSelect =>
    let _ ← advance out
    let _ ← expect out .lParen
    let cond ← out |>.parseExprWithPrecedence 0
    let _ ← expect out .comma
    let trueVal ← out |>.parseExprWithPrecedence 0
    let _ ← expect out .comma
    let falseVal ← out |>.parseExprWithPrecedence 0
    let _ ← expect out .rParen
    return .ctSelect cond trueVal falseVal
  | .ctEq =>
    let _ ← advance out
    let _ ← expect out .lParen
    let lhs ← out |>.parseExprWithPrecedence 0
    let _ ← expect out .comma
    let rhs ← out |>.parseExprWithPrecedence 0
    let _ ← expect out .rParen
    return .ctEq lhs rhs
  | .syscall =>
    let _ ← advance out
    let _ ← expect out .lParen
    let nr ← parseSyscallNumber out
    let args ← out |>.parseMoreArgs
    let _ ← expect out .rParen
    return .syscall nr args
  | .number => parseNumber out
  | .string =>
    let token ← advance out
    return .lit (.string token.lexeme)
  | .trueKw =>
    let _ ← advance out
    return .lit (.bool true)
  | .falseKw =>
    let _ ← advance out
    return .lit (.bool false)
  | .null =>
    let _ ← advance out
    return .null
  | .lParen =>
    let _ ← advance out
    let expr ← out |>.parseExprWithPrecedence 0
    out |>.parseTupleRest
    let _ ← expect out .rParen
    return expr
  | .allocate =>
    checkPointerSyntax "allocate"
    let _ ← advance out
    let _ ← expect out .lParen
    let size ← out |>.parseExprWithPrecedence 0
    let _ ← expect out .rParen
    return .allocate size
  | .sizeof =>
    let _ ← advance out
    let _ ← expect out .lParen
    let ty ← out.parseType
    let _ ← expect out .rParen
    return .sizeof ty
  | .alignof =>
    let _ ← advance out
    let _ ← expect out .lParen
    let ty ← out.parseType
    let _ ← expect out .rParen
    return .alignof ty
  | .derive =>
    let _ ← advance out
    let _ ← expect out .lParen
    let ptr ← out |>.parseExprWithPrecedence 0
    let _ ← expect out .comma
    let region ← out |>.parseExprWithPrecedence 0
    let _ ← expect out .rParen
    return .derive ptr region
  | .spawn =>
    let _ ← advance out
    if ← atKind .lParen then
      let _ ← advance out
      if ← atKind .rParen then
        let _ ← advance out
        throw .emptySpawn
      else
        let callee ← out |>.parseExprWithPrecedence 0
        let args ← out |>.parseSpawnArgs
        let _ ← expect out .rParen
        return .spawn (.call callee args)
    else
      let expr ← out |>.parseExprWithPrecedence 0
      return .spawn expr
  | .atomicLoad =>
    let _ ← advance out
    let _ ← expect out .lParen
    let addr ← out |>.parseExprWithPrecedence 0
    let _ ← expect out .rParen
    return .atomicLoad addr
  | .atomicStore =>
    let _ ← advance out
    let _ ← expect out .lParen
    let addr ← out |>.parseExprWithPrecedence 0
    let _ ← expect out .comma
    let value ← out |>.parseExprWithPrecedence 0
    let _ ← expect out .rParen
    return .atomicStore addr value
  | .atomicCas =>
    let _ ← advance out
    let _ ← expect out .lParen
    let addr ← out |>.parseExprWithPrecedence 0
    let _ ← expect out .comma
    let expected ← out |>.parseExprWithPrecedence 0
    let _ ← expect out .comma
    let desired ← out |>.parseExprWithPrecedence 0
    let _ ← expect out .rParen
    return .atomicCas addr expected desired
  | .float | .address | .byteStr | .async | .matchKw | .formatStr | .pipe | .orOr | .ifKw
  | .prove =>
    let form ← out.parseForm
    return .form form
  | _ =>
    if isVarKeyword kind then parseVar out
    else throw (.expectedExpression kind)
partial_fixpoint

end

end Outside

open Outside

def parseExpr : Parse (Expr Ty Form) := parseExprWithPrecedence out 0

end Steps

end Vuma.Parser
