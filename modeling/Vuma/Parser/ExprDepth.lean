import Vuma.Lib.Procedures
import Vuma.Parser.Expr

/-!
# The calls of the expression parser

Every function of the parser that `parse_expr` reaches, as a procedure: expressions, blocks and
statements. A loop is a procedure that calls itself. A tree is kept as far as the parser looks at it
again. Types, patterns, attributes and the literals that are decoded from their text have no
expression in them and are a parameter. An expression in a format string is parsed by a parser of
its own, with a limit of its own, which runs on the stack of the parser of the string.
-/

namespace Vuma.Parser.Calls

open Lib

/-- The patterns of a match: `MatchPattern::Enum`, which may bind a variable, or another one. -/
inductive MatchPattern where
  | enum (name : String) (binds : Bool)
  | other
  deriving DecidableEq, Repr

structure MatchArm where
  pattern : MatchPattern
  guard : Bool
  deriving DecidableEq, Repr

/-- What the parser looks at of a tree. -/
inductive Node where
  | var (name : String)
  | deref
  | fieldAccess
  | index
  | call (callee : Node)
  | arms (arms : List MatchArm)
  | ifStmt (hasElse : Bool)
  | elseBlock (isSome : Bool)
  | other
  deriving Repr

/-- The functions of the parser, apart from the two that change a field for the time of a call. -/
inductive Fn where
  | exprInner (minPrec : Nat) | binaryLoop (minPrec : Nat) (left : Node) | unary | postFix
  | postfixLoop (expr : Node) | moreArgs | moreFields | primary | tupleRest | spawnArgs
  | matchArms (stmt : Bool) (arms : List MatchArm) | armStatements | ifExpr | proveBlock
  | requirements | closureOrOr | closureParams | block | statements | recover
  | skipParens (depth : Nat) | stmt | letStmt | typeAscriptionDecl | assignOrExprStmt | freeStmt
  | allocateStmt | ifStmt | elseClause | whileStmt | forStmt | loopStmt | unsafeBlock | matchStmt
  | returnStmt | breakStmt | continueStmt | syncStmt | bdDirective

/-- The functions of the parser. What is parsed by `with_no_struct_literal` is an expression; an
expression in a format string is parsed from its own source. -/
inductive Proc where
  | exprWithPrecedence (minPrec : Nat)
  | withNoStructLiteral (minPrec : Nat)
  | formatExpr (source : String)
  | fn (f : Fn)

/-- Who calls the functions of an expression; the others are called from anywhere. -/
def mayCall (f : Fn) : Proc → Bool
  | .fn (.exprInner _) => false
  | .fn .unary => match f with | .exprInner _ | .unary => true | _ => false
  | .fn .postFix => match f with | .unary => true | _ => false
  | .fn .primary => match f with | .postFix => true | _ => false
  | .fn .ifExpr => match f with | .primary | .ifExpr => true | _ => false
  | .formatExpr _ => match f with | .primary => true | _ => false
  | _ => true

/-- The fields `expr_depth`, `max_depth` and `no_struct_literal` are the same. -/
structure Keeps (p p' : ParserState) : Prop where
  exprDepth : p'.exprDepth = p.exprDepth
  maxDepth : p'.maxDepth = p.maxDepth
  noStructLiteral : p'.noStructLiteral = p.noStructLiteral

/-- A function without an expression in it. -/
structure Reader (α : Type) where
  read : ParserState → Except ParseError α × ParserState
  keeps : ∀ p, Keeps p (read p).2

/-- What the parser reads without an expression in it. -/
structure Readers where
  lexQuoted : List Char → Lexed
  parseType : Reader Unit
  parseMatchPattern : Reader MatchPattern
  parseOuterAttributes : Reader Unit
  parseLiteral : Reader Unit

abbrev Parsing (f : Fn) (α : Type) := Within Keeps (mayCall f) ParseError Node α

section Steps

variable {f : Fn} {α : Type} (r : Readers)

def read (p : Reader α) : Parsing f α :=
  ⟨.act (fun s => (p.read s).2) fun s => .done (p.read s).1, fun s => ⟨p.keeps s, trivial⟩⟩

def fail (e : ParseError) : Parsing f α := ⟨.done (.error e), trivial⟩

def panic : Parsing f α := ⟨.panic, trivial⟩

def getState : Parsing f ParserState := ⟨.act id (.done ∘ .ok), fun _ => ⟨⟨rfl, rfl, rfl⟩, trivial⟩⟩

/-- A call whose error is handed on by `?`. -/
def call (g : Proc) (h : mayCall f g = true := by rfl) : Parsing f Node :=
  ⟨.call g .done, h, fun _ => trivial⟩

/-- A call whose tree is not looked at. -/
def run (g : Proc) (h : mayCall f g = true := by rfl) : Parsing f Unit := do
  let _ ← call g h

/-- The tree is not looked at. -/
def other (p : Parsing f Unit) : Parsing f Node := do
  p
  return .other

/-- A call whose error is looked at. -/
def attempt (g : Proc) (h : mayCall f g = true := by rfl) : Parsing f (Except ParseError Node) :=
  ⟨.call g fun result => .done (.ok result), h, fun _ => trivial⟩

theorem keeps_advance (p : ParserState) : Keeps p (p.advance r.lexQuoted).2 := by
  unfold ParserState.advance
  split <;> exact ⟨rfl, rfl, rfl⟩

/-- `advance`. The token that it gives back is `current` before. -/
def advance : Parsing f Unit :=
  read ⟨fun p => (.ok (), (p.advance r.lexQuoted).2), keeps_advance r⟩

def peekNext : Parsing f Token :=
  read ⟨fun p => (.ok (p.lexer.peek r.lexQuoted).1,
    { p with lexer := (p.lexer.peek r.lexQuoted).2 }), fun _ => ⟨rfl, rfl, rfl⟩⟩

def pushBackCurrent (saved : Token) : Parsing f Unit :=
  read ⟨fun p => (.ok (), p.pushBackCurrent saved), fun _ => ⟨rfl, rfl, rfl⟩⟩

/-- An assignment to `current`. -/
def setCurrent (saved : Token) : Parsing f Unit :=
  read ⟨fun p => (.ok (), { p with current := saved }), fun _ => ⟨rfl, rfl, rfl⟩⟩

/-- `errors.push`. -/
def pushError (e : ParseError) : Parsing f Unit :=
  read ⟨fun p => (.ok (), { p with errors := p.errors ++ [e] }), fun _ => ⟨rfl, rfl, rfl⟩⟩

def current : Parsing f Token := do return (← getState).current

def currentKind : Parsing f TokenKind := do return (← getState).current.kind

/-- `at`. -/
def atKind (kind : TokenKind) : Parsing f Bool := do return (← currentKind) == kind

/-- The kind of the current token is one of these. -/
def atAny (kinds : List TokenKind) : Parsing f Bool := do return kinds.contains (← currentKind)

def expect (kind : TokenKind) : Parsing f Unit := do
  let found ← currentKind
  if found = kind then advance r else fail (.expected kind found)

def expectName : Parsing f Unit := do
  let found ← currentKind
  if found = .ident ∨ isNameKeyword found then advance r else fail (.expectedName found)

def expectGtClosingGeneric : Parsing f Unit := do
  match ← currentKind with
  | .gt => advance r
  | .shr =>
    advance r
    pushBackCurrent ⟨.gt, ">"⟩
  | found => fail (.expected .gt found)

def checkPointerSyntax (kind : String) : Parsing f Unit := fail (.pointerSyntax kind)

/-- The first token inside of the braces starts a field of a struct literal. -/
def isStructLiteral : Parsing f Bool := do
  let kind ← currentKind
  if kind = .rBrace then return true
  else if kind = .ident ∨ isNameKeyword kind then
    return [TokenKind.colon, .comma, .rBrace].contains (← peekNext r).kind
  else return false

/-- The number of a system call. -/
def parseSyscallNumber : Parsing f Unit := do
  if ← atKind .number then
    let token ← current
    advance r
    if (parseUnsigned 32 token.lexeme).isNone then fail (.syscallNumber token.lexeme)
  else fail .syscallNumberNotLiteral

/-- The token is consumed if it is of the kind. -/
def skip (kind : TokenKind) : Parsing f Unit := do
  if ← atKind kind then advance r

/-- `parse_expr`, for an expression that is not looked at. -/
def parseExpr : Parsing f Unit := run (.exprWithPrecedence 0)

/-- A variable by the name of the current token. -/
def parseVar : Parsing f Node := do
  let token ← current
  advance r
  return .var token.lexeme

/-- As many expressions as the number says, with a comma between two of them, in parentheses. -/
def parseParens (n : Nat) : Parsing f Unit := do
  expect r .lParen
  parseList n
  expect r .rParen
where
  parseList : Nat → Parsing f Unit
    | 0 => pure ()
    | 1 => parseExpr
    | n + 1 => do
      parseExpr
      expect r .comma
      parseList n

/-- A field of a struct literal, which may have a value. -/
def parseField : Parsing f Unit := do
  expectName r
  if ← atKind .colon then
    advance r
    parseExpr

end Steps

section Expressions

variable (r : Readers)

/-- `parse_expr_with_precedence`. The counter is a `u32`. -/
def parseExprWithPrecedence (minPrec : Nat) : Code Proc ParseError Node ParserState Node :=
  let sub (p : ParserState) := { p with exprDepth := (p.exprDepth + (2 ^ 32 - 1)) % 2 ^ 32 }
  .act (fun p => { p with exprDepth := (p.exprDepth + 1) % 2 ^ 32 }) fun before =>
    if (before.exprDepth + 1) % 2 ^ 32 > before.maxDepth then
      .act sub fun _ => .done (.error (.nestingDepth before.maxDepth))
    else .call (.fn (.exprInner minPrec)) fun result => .act sub fun _ => .done result

/-- `with_no_struct_literal`. -/
def parseWithNoStructLiteral (minPrec : Nat) : Code Proc ParseError Node ParserState Node :=
  .act (fun p => { p with noStructLiteral := true }) fun before =>
    .call (.exprWithPrecedence minPrec) fun result =>
      .act (fun p => { p with noStructLiteral := before.noStructLiteral }) fun _ => .done result

/-- `Parser::new(source).parse_expr()`. The parser of the string is not changed. -/
def parseFormatExpr (source : String) : Code Proc ParseError Node ParserState Node :=
  .act (fun _ => ParserState.new r.lexQuoted source) fun before =>
    .call (.exprWithPrecedence 0) fun result => .act (fun _ => before) fun _ => .done result

/-- `parse_expr_with_precedence_inner`. -/
def parseExprInner (minPrec : Nat) : Parsing (.exprInner minPrec) Node := do
  let left ← call (.fn .unary)
  call (.fn (.binaryLoop minPrec left))

/-- The loop of `parse_expr_with_precedence_inner`. -/
def parseBinaryLoop (minPrec : Nat) (left : Node) : Parsing (.binaryLoop minPrec left) Node := do
  let kind ← currentKind
  if kind = .dotDot ∧ minPrec = 0 then
    advance r
    run (.withNoStructLiteral 1)
    call (.fn (.binaryLoop minPrec .other))
  else
    match binOpOf kind with
    | none => return left
    | some (_, prec) =>
      if prec < minPrec then return left
      else
        advance r
        run (.exprWithPrecedence (prec + 1))
        call (.fn (.binaryLoop minPrec .other))

def parseUnary : Parsing .unary Node := do
  match ← currentKind with
  | .minus | .bang | .tilde =>
    advance r
    run (.fn .unary)
    return .other
  | .star =>
    checkPointerSyntax "*ptr (deref)"
    advance r
    run (.fn .unary)
    return .deref
  | .ampersand =>
    checkPointerSyntax "&x (address-of)"
    advance r
    run (.fn .unary)
    return .other
  | .ampersat =>
    checkPointerSyntax "@x (address-of)"
    advance r
    run (.fn .unary)
    return .other
  | _ => call (.fn .postFix)

def parsePostfix : Parsing .postFix Node := do
  let expr ← call (.fn .primary)
  if let .var "channel_open" := expr then
    if ← atKind .lt then
      advance r
      read r.parseType
      expectGtClosingGeneric r
  call (.fn (.postfixLoop expr))

/-- The loop of `parse_postfix`. -/
def parsePostfixLoop (expr : Node) : Parsing (.postfixLoop expr) Node := do
  match ← currentKind with
  | .lParen =>
    advance r
    if !(← atKind .rParen) then
      parseExpr
      run (.fn .moreArgs)
    expect r .rParen
    call (.fn (.postfixLoop (.call expr)))
  | .dot =>
    advance r
    if ← atKind .await then
      advance r
      call (.fn (.postfixLoop .other))
    else
      expectName r
      call (.fn (.postfixLoop .fieldAccess))
  | .lBracket =>
    advance r
    parseExpr
    expect r .rBracket
    call (.fn (.postfixLoop .index))
  | .lBrace =>
    if (← getState).noStructLiteral then return expr
    else
      match expr with
      | .var _ =>
        let lBrace ← current
        advance r
        if ← isStructLiteral r then
          if !(← atKind .rBrace) then
            parseField r
            run (.fn .moreFields)
          expect r .rBrace
          call (.fn (.postfixLoop .other))
        else
          pushBackCurrent lBrace
          return expr
      | _ => return expr
  | .as =>
    advance r
    read r.parseType
    call (.fn (.postfixLoop .other))
  | .pathSep =>
    advance r
    expectName r
    call (.fn (.postfixLoop .other))
  | .question =>
    advance r
    call (.fn (.postfixLoop .other))
  | _ => return expr

/-- The arguments that follow a comma. -/
def parseMoreArgs : Parsing .moreArgs Unit := do
  if ← atKind .comma then
    advance r
    parseExpr
    run (.fn .moreArgs)

/-- The fields that follow a comma. -/
def parseMoreFields : Parsing .moreFields Unit := do
  if ← atKind .comma then
    advance r
    if !(← atKind .rBrace) then
      parseField r
      run (.fn .moreFields)

/-- The further parts of a tuple. An error in them is not looked at. -/
def parseTupleRest : Parsing .tupleRest Unit := do
  if ← atKind .comma then
    advance r
    if !(← atKind .rParen) then
      let _ ← attempt (.exprWithPrecedence 0)
    run (.fn .tupleRest)

/-- The arguments of `spawn` that follow a comma; the last comma may have none. -/
def parseSpawnArgs : Parsing .spawnArgs Unit := do
  if ← atKind .comma then
    advance r
    if !(← atKind .rParen) then
      parseExpr
      run (.fn .spawnArgs)

/-- The sources of the expressions in a format string. Outside of an expression `depth` is 0; inside
it is the number of open braces, and `buf` is what has been read. -/
def formatSources : List Char → Nat → List Char → List String
  | [], _, _ => []
  | ch :: content, 0, buf => formatSources content (if ch = '{' then 1 else 0) buf
  | ch :: content, depth + 1, buf =>
    if ch = '{' then formatSources content (depth + 2) (buf ++ [ch])
    else if ch = '}' then
      if depth = 0 then
        match (skipWhitespace buf).rdropWhile isWhitespace with
        | [] => formatSources content 0 []
        | source => String.ofList source :: formatSources content 0 []
      else formatSources content depth (buf ++ [ch])
    else formatSources content (depth + 1) (buf ++ [ch])

/-- The text between the delimiters of a format string. The slice panics if there is only the first
one. -/
def formatContent (lexeme : List Char) : Option (List Char) :=
  if ['f', '"'] <+: lexeme ∧ lexeme.getLast? = some '"' then
    if lexeme.length < 3 then none else some (lexeme.drop 2).dropLast
  else some lexeme

/-- `parse_format_string_parts`. An error in an expression is not looked at. -/
def parseFormatStringParts (lexeme : String) : Parsing .primary Unit :=
  match formatContent lexeme.toList with
  | none => panic
  | some content => parseParts (formatSources content 0 [])
where
  parseParts : List String → Parsing .primary Unit
    | [] => pure ()
    | source :: sources => do
      let _ ← attempt (.formatExpr source)
      parseParts sources

/-- The forms of `parse_primary` whose tree is not looked at again. -/
def parseForm (kind : TokenKind) : Parsing .primary Unit := do
  match kind with
  | .ctSelect | .atomicCas =>
    advance r
    parseParens r 3
  | .ctEq | .derive | .atomicStore =>
    advance r
    parseParens r 2
  | .atomicLoad =>
    advance r
    parseParens r 1
  | .allocate =>
    checkPointerSyntax "allocate"
    advance r
    parseParens r 1
  | .syscall =>
    advance r
    expect r .lParen
    parseSyscallNumber r
    run (.fn .moreArgs)
    expect r .rParen
  | .number =>
    let lexeme := (← current).lexeme
    advance r
    if (parseUnsigned 64 lexeme).isNone then fail (.invalidInteger lexeme)
  | .float | .address | .byteStr => read r.parseLiteral
  | .string | .trueKw | .falseKw | .null => advance r
  | .formatStr =>
    let lexeme := (← current).lexeme
    advance r
    parseFormatStringParts lexeme
  | .sizeof | .alignof =>
    advance r
    expect r .lParen
    read r.parseType
    expect r .rParen
  | .async =>
    advance r
    run (.fn .block)
  | .spawn =>
    advance r
    if ← atKind .lParen then
      advance r
      if ← atKind .rParen then
        advance r
        fail .emptySpawn
      else
        parseExpr
        run (.fn .spawnArgs)
        expect r .rParen
    else parseExpr
  | .matchKw =>
    advance r
    parseExpr
    expect r .lBrace
    run (.fn (.matchArms false []))
    expect r .rBrace
  | .pipe | .orOr => run (.fn .closureOrOr)
  | .ifKw => run (.fn .ifExpr)
  | .prove => run (.fn .proveBlock)
  | _ => fail (.expectedExpression kind)

def parsePrimary : Parsing .primary Node := do
  let kind ← currentKind
  match kind with
  | .noneKw =>
    advance r
    return .var "None"
  | .someKw | .okKw | .errKw =>
    let name := (← current).lexeme
    advance r
    if ← atKind .lParen then
      if name ∈ (← getState).externFnNames then return .var name
      else
        advance r
        if ← atKind .rParen then
          advance r
          return .call (.var name)
        else
          parseExpr
          expect r .rParen
          return .other
    else return .var name
  | .lParen =>
    advance r
    let expr ← call (.exprWithPrecedence 0)
    run (.fn .tupleRest)
    expect r .rParen
    return expr
  | _ => if kind = .ident ∨ isVarKeyword kind then parseVar r else other (parseForm r kind)

/-- The arms of a match, `arms` those before. In a statement the body of an arm may be a block. -/
def parseMatchArms (stmt : Bool) (arms : List MatchArm) : Parsing (.matchArms stmt arms) Node := do
  if ← atAny [.rBrace, .eof] then return .arms arms
  else
    let pattern ← read r.parseMatchPattern
    let guard ← atKind .ifKw
    if guard then
      advance r
      parseExpr
    expect r .fatArrow
    if stmt && (← atKind .lBrace) then
      advance r
      run (.fn .armStatements)
      expect r .rBrace
    else
      parseExpr
    skip r .comma
    call (.fn (.matchArms stmt (arms ++ [⟨pattern, guard⟩])))

def parseIfExpr : Parsing .ifExpr Unit := do
  expect r .ifKw
  run (.withNoStructLiteral 0)
  run (.fn .block)
  expect r .elseKw
  if ← atKind .ifKw then
    run (.fn .ifExpr)
  else
    run (.fn .block)

def parseProveBlock : Parsing .proveBlock Unit := do
  expect r .prove
  expect r .lBrace
  run (.fn .requirements)
  run (.withNoStructLiteral 0)
  expect r .rBrace

/-- The clauses at the start of a `prove` block. -/
def parseRequirements : Parsing .requirements Unit := do
  if ← atKind .require then
    advance r
    parseExpr
    expect r .semicolon
    run (.fn .requirements)

def parseClosureOrOr : Parsing .closureOrOr Unit := do
  if ← atKind .orOr then
    advance r
  else
    expect r .pipe
    run (.fn .closureParams)
    expect r .pipe
  if ← atKind .lBrace then
    run (.fn .block)
  else
    parseExpr

/-- The parameters of a closure. -/
def parseClosureParams : Parsing .closureParams Unit := do
  if !(← atAny [.pipe, .eof]) then
    expectName r
    if ← atKind .colon then
      advance r
      read r.parseType
    if ← atKind .comma then
      advance r
      run (.fn .closureParams)

end Expressions

section Statements

variable (r : Readers)

def parseBlock : Parsing .block Unit := do
  expect r .lBrace
  run (.fn .statements)
  if ← atKind .eof then
    pushError (.expected .rBrace .eof)
  else
    expect r .rBrace

/-- The statements of a block, up to the brace. An error in one is recorded. -/
def parseStatements : Parsing .statements Unit := do
  if !(← atAny [.rBrace, .eof]) then
    match ← attempt (.fn .stmt) with
    | .ok _ => pure ()
    | .error e =>
      pushError e
      run (.fn .recover)
    run (.fn .statements)

def recoverToStatementBoundary : Parsing .recover Unit := do
  if ← atAny [.semicolon, .rBrace, .eof] then skip r .semicolon
  else
    advance r
    run (.fn .recover)

/-- The loop of `skip_balanced_parens`, `depth` parentheses deep. -/
def skipBalancedParens (depth : Nat) : Parsing (.skipParens depth) Unit := do
  match ← currentKind with
  | .eof => return
  | .lParen =>
    advance r
    run (.fn (.skipParens (depth + 1)))
  | .rParen =>
    if depth = 0 then return
    else
      advance r
      if depth = 1 then return else run (.fn (.skipParens (depth - 1)))
  | _ =>
    advance r
    run (.fn (.skipParens depth))

/-- Attributes start here. -/
def atAttributes {f : Fn} : Parsing f Bool := do
  if ← atKind .hash then return (← peekNext r).kind == .lBracket else return false

def parseStmt : Parsing .stmt Unit := do
  if ← atAttributes r then
    read r.parseOuterAttributes
    if ← atKind .letKw then run (.fn .letStmt) else run (.fn .stmt)
  else
    match ← currentKind with
    | .letKw => run (.fn .letStmt)
    | .mutKw =>
      pushError (.other "llm_mistake: mut")
      advance r
      run (.fn .stmt)
    | .macroIdent =>
      let token ← current
      advance r
      pushError (.other ("llm_mistake: " ++ token.lexeme))
      if ← atKind .lParen then
        run (.fn (.skipParens 0))
      skip r .semicolon
      return
    | .ifKw => run (.fn .ifStmt)
    | .whileKw => run (.fn .whileStmt)
    | .forKw => run (.fn .forStmt)
    | .matchKw => run (.fn .matchStmt)
    | .returnKw => run (.fn .returnStmt)
    | .sync => run (.fn .syncStmt)
    | .free => run (.fn .freeStmt)
    | .allocate => run (.fn .allocateStmt)
    | .bd | .repd | .capd | .reld =>
      match (← peekNext r).kind with
      | .lParen => run (.fn .bdDirective)
      | .colon => run (.fn .typeAscriptionDecl)
      | _ => run (.fn .assignOrExprStmt)
    | .breakKw => run (.fn .breakStmt)
    | .continueKw => run (.fn .continueStmt)
    | .loopKw => run (.fn .loopStmt)
    | .unsafeKw => run (.fn .unsafeBlock)
    | .ident =>
      if (← peekNext r).kind = .colon then run (.fn .typeAscriptionDecl)
      else run (.fn .assignOrExprStmt)
    | _ => run (.fn .assignOrExprStmt)

def parseLetStmt : Parsing .letStmt Unit := do
  expect r .letKw
  expectName r
  if ← atKind .colon then
    advance r
    read r.parseType
  if ← atKind .assign then
    advance r
    parseExpr
  expect r .semicolon

def parseTypeAscriptionDecl : Parsing .typeAscriptionDecl Unit := do
  expectName r
  expect r .colon
  read r.parseType
  expect r .assign
  parseExpr
  expect r .semicolon

def isCompoundAssign (kind : TokenKind) : Bool :=
  kind ∈ [.plusEq, .minusEq, .starEq, .slashEq, .percentEq, .ampEq, .pipeEq, .caretEq, .shlEq,
    .shrEq]

def exprToAssignTarget {f : Fn} : Node → Parsing f Unit
  | .var _ | .deref | .fieldAccess | .index => return
  | _ => fail (.other "invalid assignment target")

def parseAssignOrExprStmt : Parsing .assignOrExprStmt Unit := do
  if ← atKind .ifKw then run (.fn .ifStmt)
  else
    let expr ← call (.exprWithPrecedence 0)
    let kind ← currentKind
    if isCompoundAssign kind then
      advance r
      parseExpr
      expect r .semicolon
      exprToAssignTarget expr
    else if kind = .assign then
      advance r
      if ← atKind .ifKw then
        run (.fn .ifStmt)
      else
        parseExpr
      expect r .semicolon
      exprToAssignTarget expr
    else
      if !(← atAny [.rBrace, .rParen, .eof]) then
        expect r .semicolon
      return

/-- `parse_free_stmt` and `parse_allocate_stmt`: the keyword and an expression in parentheses. -/
def parsePointerStmt {f : Fn} (kind : TokenKind) (text : String) : Parsing f Unit := do
  checkPointerSyntax text
  expect r kind
  let _ ← parseParens r 1
  expect r .semicolon

def parseIfStmt : Parsing .ifStmt Node := do
  expect r .ifKw
  run (.withNoStructLiteral 0)
  run (.fn .block)
  match ← call (.fn .elseClause) with
  | .elseBlock isSome => return .ifStmt isSome
  | _ => return .ifStmt false

/-- `parse_else_clause`. An `else` behind a block that is only an `if` belongs to that one. -/
def parseElseClause : Parsing .elseClause Node := do
  if !(← atKind .elseKw) then return .elseBlock false
  else
    advance r
    if ← atKind .ifKw then
      run (.fn .ifStmt)
    else if ← atKind .lBrace then
      let lBrace ← current
      advance r
      if ← atKind .ifKw then
        let inner ← call (.fn .ifStmt)
        if ← atKind .rBrace then
          expect r .rBrace
          if let .ifStmt false := inner then
            run (.fn .elseClause)
        else
          run (.fn .statements)
          if ← atKind .eof then
            pushError (.expected .rBrace .eof)
          else
            expect r .rBrace
      else
        pushBackCurrent lBrace
        run (.fn .block)
    else
      run (.fn .block)
    return .elseBlock true

def parseWhileStmt : Parsing .whileStmt Unit := do
  expect r .whileKw
  run (.withNoStructLiteral 0)
  run (.fn .block)

def parseForStmt : Parsing .forStmt Unit := do
  expect r .forKw
  if ← atKind .lParen then
    pushError (.other "c_style_for_loop")
    run (.fn .recover)
  else
    expectName r
    let token ← current
    if token.kind = .ident ∧ token.lexeme = "in" then
      advance r
      parseExpr
      run (.fn .block)
    else fail (.other "expected 'in'")

def parseLoopStmt : Parsing .loopStmt Unit := do
  advance r
  run (.fn .block)

def parseUnsafeBlock : Parsing .unsafeBlock Unit := do
  expect r .unsafeKw
  run (.fn .block)

def validateMatchChannelRecvOkErr (subject : Node) (arms : List MatchArm) : Bool :=
  match subject with
  | .call (.var "channel_recv") =>
    arms.length == 2 && arms.all (fun arm => !arm.guard &&
      (arm.pattern == .enum "Ok" true || arm.pattern == .enum "Err" true)) &&
      arms.any (fun arm => arm.pattern == .enum "Ok" true) &&
      arms.any (fun arm => arm.pattern == .enum "Err" true)
  | _ => true

def parseMatchStmt : Parsing .matchStmt Unit := do
  expect r .matchKw
  let subject ← call (.exprWithPrecedence 0)
  expect r .lBrace
  let arms ← call (.fn (.matchArms true []))
  expect r .rBrace
  match arms with
  | .arms arms =>
    if validateMatchChannelRecvOkErr subject arms then return
    else fail (.other "match channel_recv")
  | _ => return

/-- The statements in an arm. What is no statement is read again as an expression. -/
def parseArmStatements : Parsing .armStatements Unit := do
  if !(← atAny [.rBrace, .eof]) then
    let saved ← current
    match ← attempt (.fn .stmt) with
    | .ok _ =>
      skip r .semicolon
      run (.fn .armStatements)
    | .error _ =>
      setCurrent saved
      parseExpr

/-- `return` and `break` may have a value. -/
def parseValueStmt {f : Fn} : Parsing f Unit := do
  if !(← atKind .semicolon) then
    parseExpr
  expect r .semicolon

def parseReturnStmt : Parsing .returnStmt Unit := do
  expect r .returnKw
  parseValueStmt r

def parseBreakStmt : Parsing .breakStmt Unit := do
  advance r
  parseValueStmt r

def parseContinueStmt : Parsing .continueStmt Unit := do
  advance r
  expect r .semicolon

def parseSyncStmt : Parsing .syncStmt Unit := do
  expect r .sync
  run (.fn .block)

def parseBdDirective : Parsing .bdDirective Unit := do
  advance r
  expect r .lParen
  expectName r
  if ← atKind .comma then
    advance r
    parseExpr
  expect r .rParen
  expect r .semicolon

end Statements

/-- The code of the functions. -/
def fnCode (r : Readers) : (f : Fn) → Parsing f Node
  | .exprInner minPrec => parseExprInner minPrec
  | .binaryLoop minPrec left => parseBinaryLoop r minPrec left
  | .unary => parseUnary r
  | .postFix => parsePostfix r
  | .postfixLoop expr => parsePostfixLoop r expr
  | .moreArgs => other (parseMoreArgs r)
  | .moreFields => other (parseMoreFields r)
  | .primary => parsePrimary r
  | .tupleRest => other (parseTupleRest r)
  | .spawnArgs => other (parseSpawnArgs r)
  | .matchArms stmt arms => parseMatchArms r stmt arms
  | .armStatements => other (parseArmStatements r)
  | .ifExpr => other (parseIfExpr r)
  | .proveBlock => other (parseProveBlock r)
  | .requirements => other (parseRequirements r)
  | .closureOrOr => other (parseClosureOrOr r)
  | .closureParams => other (parseClosureParams r)
  | .block => other (parseBlock r)
  | .statements => other (parseStatements)
  | .recover => other (recoverToStatementBoundary r)
  | .skipParens depth => other (skipBalancedParens r depth)
  | .stmt => other (parseStmt r)
  | .letStmt => other (parseLetStmt r)
  | .typeAscriptionDecl => other (parseTypeAscriptionDecl r)
  | .assignOrExprStmt => other (parseAssignOrExprStmt r)
  | .freeStmt => other (parsePointerStmt r .free "free")
  | .allocateStmt => other (parsePointerStmt r .allocate "allocate")
  | .ifStmt => parseIfStmt r
  | .elseClause => parseElseClause r
  | .whileStmt => other (parseWhileStmt r)
  | .forStmt => other (parseForStmt r)
  | .loopStmt => other (parseLoopStmt r)
  | .unsafeBlock => other (parseUnsafeBlock r)
  | .matchStmt => other (parseMatchStmt r)
  | .returnStmt => other (parseReturnStmt r)
  | .breakStmt => other (parseBreakStmt r)
  | .continueStmt => other (parseContinueStmt r)
  | .syncStmt => other (parseSyncStmt r)
  | .bdDirective => other (parseBdDirective r)

def procCode (r : Readers) : Proc → Code Proc ParseError Node ParserState Node
  | .exprWithPrecedence minPrec => parseExprWithPrecedence minPrec
  | .withNoStructLiteral minPrec => parseWithNoStructLiteral minPrec
  | .formatExpr source => parseFormatExpr r source
  | .fn f => (fnCode r f).code

end Vuma.Parser.Calls
