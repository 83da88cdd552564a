import Vuma.Parser.Tree

/-!
# Operator expressions parse back to themselves

The parser stands before the printed tokens of an expression and what follows them
(`ParserState.before`). `Reads` says what the precedence climbing makes of the expression: it comes
to the operators that follow with the expression as what it has read so far. The proof is by
induction on the expression; an operator that follows has a lower level than what may still be
read to the right (`Follow`).
-/

namespace Vuma.Parser

open Lib Run Outside

variable {Ty Form : Type} (out : Outside Ty Form)

/-- A parser like this one that stands before these tokens. -/
def ParserState.before (p : ParserState) (ts : List SpelledToken) : ParserState :=
  { p with lexer := ⟨spaced ts.tail, none, []⟩, current := headToken ts, errors := [],
           pushback := [] }

/-- The parser in an expression that is one deeper. -/
def ParserState.deeper (p : ParserState) : ParserState := { p with exprDepth := p.exprDepth + 1 }

section Tokens

variable (p : ParserState) (t : SpelledToken) (ts : List SpelledToken)

theorem advance_before (lexQuoted : List Char → Lexed) :
    (p.before (t :: ts)).advance lexQuoted = (t.val, p.before ts) := by
  simp [ParserState.advance, ParserState.before, nextToken_spaced, headToken]

theorem returns_advance : Returns (advance out) (p.before (t :: ts)) t.val (p.before ts) := by
  have hmodify := returns_modifyGet (ε := ParseError) (p.before (t :: ts))
    (ParserState.advance out.lexQuoted)
  rw [advance_before] at hmodify
  exact hmodify

theorem returns_currentKind :
    Returns currentKind (p.before ts) (headToken ts).kind (p.before ts) := rfl

theorem returns_atKind (kind : TokenKind) :
    Returns (atKind kind) (p.before ts) ((headToken ts).kind == kind) (p.before ts) := rfl

theorem returns_expect :
    Returns (expect out t.val.kind) (p.before (t :: ts)) t.val (p.before ts) := by
  refine returns_bind (returns_currentKind p (t :: ts)) ?_
  rw [headToken, if_pos rfl]
  exact returns_advance out p t ts

end Tokens

section Postfix

/-- No postfix operator. -/
def endsOperand : TokenKind → Bool
  | .lParen | .dot | .lBracket | .lBrace | .as | .pathSep | .question => false
  | _ => true

variable (p : ParserState) {ts : List SpelledToken}

theorem returns_postfixLoop (e : Expr Ty Form) (h : endsOperand (headToken ts).kind) :
    Returns (parsePostfixLoop out e) (p.before ts) e (p.before ts) := by
  rw [Outside.parsePostfixLoop.eq_def]
  refine returns_bind (returns_currentKind p ts) ?_
  generalize (headToken ts).kind = kind at h
  cases kind <;> first | exact returns_pure _ _ | exact absurd h (by decide)

/-- An atom that is read as a primary expression and has no postfix operator. -/
theorem returns_parsePostfix {ts' : List SpelledToken} {e : Expr Ty Form}
    (hprimary : Returns (parsePrimary out) (p.before ts') e (p.before ts))
    (hname : e ≠ .var "channel_open") :
    parsePostfix out (p.before ts') = parsePostfixLoop out e (p.before ts) := by
  rw [parsePostfix, bind_of_returns hprimary]
  cases e with
  | var name =>
    have hne : name ≠ "channel_open" := fun heq => hname (heq ▸ rfl)
    refine (bind_of_returns (returns_atKind p ts .lt) _).trans ?_
    simp only [hne, false_and, if_false]
  | _ => rfl

end Postfix

section Precedence

/-- No operator that may be read to the right of a level. -/
def Follow (level : Nat) (kind : TokenKind) : Prop :=
  endsOperand kind ∧ kind ≠ .dotDot ∧ ∀ op prec, binOpOf kind = some (op, prec) → prec < level

theorem Follow.mono {n m : Nat} {kind : TokenKind} (h : Follow n kind) (hnm : n ≤ m) :
    Follow m kind :=
  ⟨h.1, h.2.1, fun op prec hop => Nat.lt_of_lt_of_le (h.2.2 op prec hop) hnm⟩

/-- What closes an argument or an index. -/
theorem Follow.of_closer {kind : TokenKind} (n : Nat)
    (h : kind = .rParen ∨ kind = .comma ∨ kind = .rBracket ∨ kind = .eof) : Follow n kind := by
  rcases h with rfl | rfl | rfl | rfl <;>
    exact ⟨rfl, by decide, fun op prec hop => by simp [binOpOf] at hop⟩

theorem binOpOf_token (op : BinOp) : binOpOf op.token.val.kind = some (op, op.precedence) := by
  cases op <;> rfl

theorem follow_token (op : BinOp) : Follow (op.precedence + 1) op.token.val.kind := by
  refine ⟨by cases op <;> rfl, by cases op <;> decide, ?_⟩
  intro op' prec hop
  rw [binOpOf_token] at hop
  cases hop
  exact Nat.lt_succ_self _

variable (p : ParserState) {ts rest : List SpelledToken}

theorem returns_parseBinary {m : Nat} (e : Expr Ty Form) (h : Follow m (headToken ts).kind) :
    Returns (parseBinary out m e) (p.before ts) e (p.before ts) := by
  obtain ⟨-, hdots, hlevel⟩ := h
  rw [parseBinary]
  refine returns_bind (returns_currentKind p ts) ?_
  rw [if_neg fun hand => hdots hand.1]
  cases hop : binOpOf (headToken ts).kind with
  | none => exact returns_pure _ _
  | some operator =>
    obtain ⟨op, prec⟩ := operator
    simp only [if_pos (hlevel op prec hop)]
    exact returns_pure _ _

/-- The loop reads an operator and its right operand. -/
theorem parseBinary_token {m : Nat} {op : BinOp} (l : Expr Ty Form) {r : Expr Ty Form}
    (hm : m ≤ op.precedence)
    (hright : Returns (parseExprWithPrecedence out (op.precedence + 1)) (p.before ts) r
      (p.before rest)) :
    parseBinary out m l (p.before (op.token :: ts)) =
      parseBinary out m (.binOp op l r) (p.before rest) := by
  have hdots := (follow_token op).2.1
  rw [parseBinary, bind_of_returns (returns_currentKind p (op.token :: ts)), headToken,
    if_neg fun hand => hdots hand.1, binOpOf_token]
  simp only [if_neg (Nat.not_lt.mpr hm)]
  rw [bind_of_returns (returns_advance out p op.token ts), bind_of_returns hright]

/-- The depth is counted up for an expression and down again after it. -/
theorem returns_precedence {m : Nat} {e : Expr Ty Form} (hdepth : p.exprDepth + 1 ≤ p.maxDepth)
    (h : Returns (parseExprWithPrecedenceInner out m) (p.deeper.before ts) e
      (p.deeper.before rest)) :
    Returns (parseExprWithPrecedence out m) (p.before ts) e (p.before rest) := by
  rw [parseExprWithPrecedence]
  refine returns_bind (returns_get _) ?_
  have hle : ¬ (p.before ts).exprDepth + 1 > (p.before ts).maxDepth := Nat.not_lt.mpr hdepth
  rw [if_neg hle]
  exact returns_bind (returns_try ParserState.deeper
    (fun p => { p with exprDepth := p.exprDepth - 1 }) h) (returns_pure _ _)

end Precedence

section Atoms

theorem parseUnsigned_repr (n : BitVec 64) : parseUnsigned 64 n.toNat.repr = some n := by
  obtain ⟨d, ds, hlist, hall⟩ := repr_start n.toNat
  have hplus : d ≠ '+' := by
    rintro rfl
    exact absurd (hall '+' List.mem_cons_self) (by decide)
  have hvalue : Nat.ofDigitChars 10 (d :: ds) 0 = n.toNat := by
    rw [← hlist]
    exact (congrArg (Nat.ofDigitChars 10 · 0) String.toList_ofList).trans
      Nat.ofDigitChars_ten_toDigits
  have hdigits : dropPlus n.toNat.repr.toList = d :: ds := by
    rw [hlist]
    unfold dropPlus
    split
    · rename_i heq
      exact absurd (List.cons.inj heq).1 hplus
    · rfl
  simp only [parseUnsigned, hdigits, hvalue]
  rw [if_pos ⟨List.cons_ne_nil d ds, List.all_eq_true.mpr hall, n.isLt⟩, BitVec.ofNat_toNat,
    BitVec.setWidth_eq]

variable (p : ParserState) (rest : List SpelledToken)

theorem returns_parsePrimary_token (x : Ident) :
    Returns (parsePrimary out) (p.before (x.token :: rest)) (.var x.name) (p.before rest) := by
  rw [parsePrimary]
  exact returns_bind (returns_currentKind p _)
    (returns_bind (returns_advance out p x.token rest) (returns_pure _ _))

theorem returns_parsePrimary_numberToken (n : BitVec 64) :
    Returns (parsePrimary out) (p.before (numberToken n :: rest)) (.lit (.int n))
      (p.before rest) := by
  rw [parsePrimary]
  refine returns_bind (returns_currentKind p _)
    (returns_bind (returns_advance out p (numberToken n) rest) ?_)
  rw [show (numberToken n).val.lexeme = n.toNat.repr from rfl, parseUnsigned_repr]
  exact returns_pure _ _

end Atoms

section Reads

/-- How the parser reads the printed tokens of an expression. -/
structure Reads (e : Tree) : Prop where
  unary (p : ParserState) (rest : List SpelledToken) (hlevel : e.level = tightest)
    (hrest : endsOperand (headToken rest).kind)
    (hdepth : p.exprDepth + e.nesting ≤ p.maxDepth + 1) :
    Returns (parseUnary out) (p.before (e.print ++ rest)) e.toExpr (p.before rest)
  inner (p : ParserState) (rest : List SpelledToken) {m : Nat} (hm : m ≤ e.level)
    (hrest : Follow (e.level + 1) (headToken rest).kind)
    (hdepth : p.exprDepth + e.nesting ≤ p.maxDepth + 1) :
    parseExprWithPrecedenceInner out m (p.before (e.print ++ rest)) =
      parseBinary out m e.toExpr (p.before rest)

theorem parseInner_of_unary {p : ParserState} {ts rest : List SpelledToken} {e : Expr Ty Form}
    (h : Returns (parseUnary out) (p.before ts) e (p.before rest)) (m : Nat) :
    parseExprWithPrecedenceInner out m (p.before ts) = parseBinary out m e (p.before rest) := by
  rw [parseExprWithPrecedenceInner, bind_of_returns h]

/-- What is no binary operator is read by `parse_unary`. -/
theorem Reads.of_unary {e : Tree}
    (h : ∀ (p : ParserState) (rest : List SpelledToken), endsOperand (headToken rest).kind →
      p.exprDepth + e.nesting ≤ p.maxDepth + 1 →
      Returns (parseUnary out) (p.before (e.print ++ rest)) e.toExpr (p.before rest)) :
    Reads out e where
  unary p rest _ hrest hdepth := h p rest hrest hdepth
  inner p rest m _ hrest hdepth := parseInner_of_unary out (h p rest hrest.1 hdepth) m

variable {out} {e : Tree} (hr : Reads out e) (p : ParserState) (rest : List SpelledToken)

include hr

theorem Reads.expr {m : Nat} (hm : m ≤ e.level) (hrest : Follow m (headToken rest).kind)
    (hdepth : p.exprDepth + e.nesting ≤ p.maxDepth) :
    Returns (parseExprWithPrecedence out m) (p.before (e.print ++ rest)) e.toExpr
      (p.before rest) := by
  have hpos := e.nesting_pos
  refine returns_precedence out p (by omega) ?_
  have hnext : Follow (e.level + 1) (headToken rest).kind := hrest.mono (by omega)
  have hdeeper : p.deeper.exprDepth + e.nesting ≤ p.deeper.maxDepth + 1 := by
    simp only [ParserState.deeper]
    omega
  exact (hr.inner p.deeper rest hm hnext hdeeper).trans
    (returns_parseBinary out p.deeper e.toExpr hrest)

theorem Reads.paren (hrest : endsOperand (headToken rest).kind)
    (hdepth : p.exprDepth + (e.nesting + 1) ≤ p.maxDepth + 1) :
    Returns (parseUnary out) (p.before (lParen :: e.print ++ [rParen] ++ rest)) e.toExpr
      (p.before rest) := by
  have hclose : Follow 0 (headToken (rParen :: rest)).kind := .of_closer 0 (.inl rfl)
  have hexpr := hr.expr p (rParen :: rest) (Nat.zero_le _) hclose (by omega)
  have hprimary : Returns (parsePrimary out) (p.before (lParen :: e.print ++ [rParen] ++ rest))
      e.toExpr (p.before rest) := by
    rw [List.append_assoc, List.cons_append, List.singleton_append, parsePrimary]
    refine returns_bind (returns_currentKind p _) ?_
    refine returns_bind (returns_advance out p lParen _) (returns_bind hexpr ?_)
    have hrest : Returns (parseTupleRest out) (p.before (rParen :: rest)) ()
        (p.before (rParen :: rest)) := by
      rw [parseTupleRest]
      exact returns_bind (returns_atKind p _ .comma) (returns_pure _ _)
    exact returns_bind hrest (returns_bind (returns_expect out p rParen rest) (returns_pure _ _))
  rw [parseUnary]
  refine returns_bind (returns_currentKind p _) ?_
  have hname : (e.toExpr : Expr Ty Form) ≠ .var "channel_open" := e.toExpr_ne_channelOpen
  exact (returns_parsePostfix out p hprimary hname).trans (returns_postfixLoop out p _ hrest)

/-- An operand at a level is read with all of it that binds at least as tight. -/
theorem Reads.operand {level m : Nat} (hm : m ≤ level)
    (hrest : Follow (level + 1) (headToken rest).kind)
    (hdepth : p.exprDepth + nestingAt level e.level e.nesting ≤ p.maxDepth + 1) :
    parseExprWithPrecedenceInner out m (p.before (parenthesize level e.level e.print ++ rest)) =
      parseBinary out m e.toExpr (p.before rest) := by
  by_cases hlevel : e.level < level
  · rw [nestingAt, if_pos hlevel] at hdepth
    rw [parenthesize, if_pos hlevel]
    exact parseInner_of_unary out (hr.paren p rest hrest.1 hdepth) m
  · rw [nestingAt, if_neg hlevel] at hdepth
    rw [parenthesize, if_neg hlevel]
    exact hr.inner p rest (by omega) (hrest.mono (by omega)) hdepth

theorem Reads.right {level : Nat} (hrest : Follow level (headToken rest).kind)
    (hdepth : p.exprDepth + nestingAt level e.level e.nesting ≤ p.maxDepth) :
    Returns (parseExprWithPrecedence out level)
      (p.before (parenthesize level e.level e.print ++ rest)) e.toExpr (p.before rest) := by
  have hpos : 0 < nestingAt level e.level e.nesting := by
    have := e.nesting_pos
    unfold nestingAt
    split <;> omega
  refine returns_precedence out p (by omega) ?_
  have hdeeper : p.deeper.exprDepth + nestingAt level e.level e.nesting ≤
      p.deeper.maxDepth + 1 := by
    simp only [ParserState.deeper]
    omega
  exact (hr.operand p.deeper rest (Nat.le_refl _) (hrest.mono (Nat.le_succ _)) hdeeper).trans
    (returns_parseBinary out p.deeper e.toExpr hrest)

theorem Reads.prefixed (hrest : endsOperand (headToken rest).kind)
    (hdepth : p.exprDepth + nestingAt tightest e.level e.nesting ≤ p.maxDepth + 1) :
    Returns (parseUnary out) (p.before (parenthesize tightest e.level e.print ++ rest)) e.toExpr
      (p.before rest) := by
  by_cases hlevel : e.level < tightest
  · rw [nestingAt, if_pos hlevel] at hdepth
    rw [parenthesize, if_pos hlevel]
    exact hr.paren p rest hrest hdepth
  · rw [nestingAt, if_neg hlevel] at hdepth
    rw [parenthesize, if_neg hlevel]
    exact hr.unary p rest (Nat.le_antisymm e.level_le (Nat.not_lt.mp hlevel)) hrest hdepth

end Reads

section Args

variable {out} (p : ParserState) (rest : List SpelledToken)

theorem follow_printMoreArgs (args : List Tree) :
    Follow 0 (headToken (printMoreArgs args ++ rParen :: rest)).kind := by
  cases args with
  | nil => exact .of_closer 0 (.inl rfl)
  | cons arg args => exact .of_closer 0 (.inr (.inl rfl))

/-- No expression starts with a closing parenthesis. -/
theorem print_ne_rParen (e : Tree) (rest : List SpelledToken) :
    (headToken (e.print ++ rest)).kind ≠ .rParen := by
  induction e using Tree.induction generalizing rest with
  | var x => exact fun heq => nomatch heq
  | num n => exact fun heq => nomatch heq
  | unOp op e ih => cases op <;> exact fun heq => nomatch heq
  | binOp op l r ihl ihr =>
    rw [Tree.print, List.append_assoc, parenthesize]
    split
    · exact fun heq => nomatch heq
    · exact ihl _
  | call f args ih => exact fun heq => nomatch heq
  | index a i ih => exact fun heq => nomatch heq

theorem returns_parseMoreArgs {args : List Tree} (hargs : ∀ arg ∈ args, Reads out arg)
    (hdepth : p.exprDepth + nestingArgs args ≤ p.maxDepth) :
    Returns (parseMoreArgs out) (p.before (printMoreArgs args ++ rParen :: rest)) (toExprs args)
      (p.before (rParen :: rest)) := by
  induction args with
  | nil =>
    rw [parseMoreArgs]
    exact returns_bind (returns_atKind p _ .comma) (returns_pure _ _)
  | cons arg args ih =>
    obtain ⟨harg, hargs⟩ := List.forall_mem_cons.mp hargs
    have hnext := follow_printMoreArgs rest args
    rw [nestingArgs] at hdepth
    rw [printMoreArgs, parseMoreArgs]
    change Returns _ (p.before (comma :: ((arg.print ++ printMoreArgs args) ++ rParen :: rest))) _ _
    rw [List.append_assoc]
    refine returns_bind (returns_atKind p _ .comma) ?_
    refine returns_bind (returns_advance out p comma _) ?_
    refine returns_bind (harg.expr p _ (Nat.zero_le _) hnext (by omega)) ?_
    exact returns_bind (ih hargs (by omega)) (returns_pure _ _)

theorem returns_parseArgs {args : List Tree} (hargs : ∀ arg ∈ args, Reads out arg)
    (hdepth : p.exprDepth + nestingArgs args ≤ p.maxDepth) :
    Returns (parseArgs out) (p.before (printArgs args ++ rParen :: rest)) (toExprs args)
      (p.before (rParen :: rest)) := by
  rw [parseArgs]
  cases args with
  | nil => exact returns_bind (returns_atKind p _ .rParen) (returns_pure _ _)
  | cons arg args =>
    obtain ⟨harg, hargs⟩ := List.forall_mem_cons.mp hargs
    have hnext := follow_printMoreArgs rest args
    rw [nestingArgs] at hdepth
    rw [printArgs, List.append_assoc]
    refine returns_bind (returns_atKind p _ .rParen) ?_
    rw [if_neg (by simpa using print_ne_rParen arg _)]
    refine returns_bind (harg.expr p _ (Nat.zero_le _) hnext (by omega)) ?_
    exact returns_bind (returns_parseMoreArgs p rest hargs (by omega)) (returns_pure _ _)

end Args

section Trees

variable (p : ParserState)

theorem parseUnary_token (x : Ident) (ts : List SpelledToken) :
    parseUnary out (p.before (x.token :: ts)) =
      parsePostfixLoop out (.var x.name) (p.before ts) := by
  have hname : (.var x.name : Expr Ty Form) ≠ .var "channel_open" :=
    (Tree.var x).toExpr_ne_channelOpen
  rw [parseUnary, bind_of_returns (returns_currentKind p _)]
  exact returns_parsePostfix out p (returns_parsePrimary_token out p ts x) hname

theorem intercept_call (f : Ident) (args : List (Expr Ty Form)) :
    interceptArena (interceptStateNew (.call (.var f.name) args)) = .call (.var f.name) args := by
  have hne : ∀ name ∈ builtins, f.name ≠ name := fun name hmem heq => f.not_builtin (heq ▸ hmem)
  have hstate : interceptStateNew (.call (.var f.name) args) = .call (.var f.name) args := by
    unfold interceptStateNew
    split
    · rename_i heq
      obtain ⟨hname, hargs⟩ := Expr.call.inj heq
      have hvar := Expr.var.inj hname
      rw [if_neg (hvar ▸ hne "state_new" (by decide)), hvar, hargs]
    · rfl
  rw [hstate]
  unfold interceptArena
  split
  case h_5 => rfl
  all_goals
    rename_i heq
    exact absurd (Expr.var.inj (Expr.call.inj heq).1) (hne _ (by decide))

theorem reads_call (f : Ident) {args : List Tree} (hargs : ∀ arg ∈ args, Reads out arg) :
    Reads out (.call f args) := by
  refine .of_unary out fun p rest hrest hdepth => ?_
  have htokens : (Tree.call f args).print ++ rest =
      f.token :: lParen :: (printArgs args ++ rParen :: rest) := by simp [Tree.print]
  rw [Tree.nesting] at hdepth
  rw [htokens]
  refine (parseUnary_token out p f _).trans ?_
  rw [Outside.parsePostfixLoop.eq_def]
  refine returns_bind (returns_currentKind p _) (returns_bind (returns_advance out p lParen _) ?_)
  refine returns_bind (returns_parseArgs p rest hargs (by omega)) ?_
  refine returns_bind (returns_expect out p rParen rest) ?_
  rw [intercept_call, Tree.toExpr]
  exact returns_postfixLoop out p _ hrest

theorem reads_index (a : Ident) {i : Tree} (hi : Reads out i) : Reads out (.index a i) := by
  refine .of_unary out fun p rest hrest hdepth => ?_
  have htokens : (Tree.index a i).print ++ rest =
      a.token :: lBracket :: (i.print ++ rBracket :: rest) := by simp [Tree.print]
  have hclose : Follow 0 (headToken (rBracket :: rest)).kind :=
    .of_closer 0 (.inr (.inr (.inl rfl)))
  rw [Tree.nesting] at hdepth
  rw [htokens]
  refine (parseUnary_token out p a _).trans ?_
  rw [Outside.parsePostfixLoop.eq_def]
  refine returns_bind (returns_currentKind p _)
    (returns_bind (returns_advance out p lBracket _) ?_)
  refine returns_bind (hi.expr p _ (Nat.zero_le _) hclose (by omega)) ?_
  refine returns_bind (returns_expect out p rBracket rest) ?_
  exact returns_postfixLoop out p _ hrest

theorem reads_unOp (op : UnOp) {e : Tree} (he : Reads out e) : Reads out (.unOp op e) := by
  refine .of_unary out fun p rest hrest hdepth => ?_
  have hoperand := he.prefixed p rest hrest hdepth
  rw [Tree.print, List.cons_append, parseUnary]
  refine returns_bind (returns_currentKind p _) ?_
  cases op with
  | neg =>
    exact returns_bind (returns_advance out p UnOp.neg.token _)
      (returns_bind hoperand (returns_pure _ _))
  | not =>
    exact returns_bind (returns_advance out p UnOp.not.token _)
      (returns_bind hoperand (returns_pure _ _))
  | bitNot =>
    exact returns_bind (returns_advance out p UnOp.bitNot.token _)
      (returns_bind hoperand (returns_pure _ _))

theorem reads_binOp (op : BinOp) {l r : Tree} (hl : Reads out l) (hr : Reads out r) :
    Reads out (.binOp op l r) where
  unary p rest hlevel := absurd hlevel op.precedence_lt.ne
  inner p rest m hm hrest hdepth := by
    rw [Tree.nesting] at hdepth
    rw [Tree.print, List.append_assoc, List.cons_append]
    have hlevel : (Tree.binOp op l r).level = op.precedence := rfl
    rw [hlevel] at hm hrest
    have hright := hr.right p rest hrest (by omega)
    have hoperator : Follow (op.precedence + 1) (headToken (op.token ::
        (parenthesize (op.precedence + 1) r.level r.print ++ rest))).kind := follow_token op
    exact (hl.operand p _ hm hoperator (by omega)).trans
      (parseBinary_token out p l.toExpr hm hright)

theorem reads (e : Tree) : Reads out e := by
  induction e using Tree.induction with
  | var x =>
    refine .of_unary out fun p rest hrest _ => ?_
    exact (parseUnary_token out p x rest).trans (returns_postfixLoop out p _ hrest)
  | num n =>
    refine .of_unary out fun p rest hrest _ => ?_
    have hname : (.lit (.int n) : Expr Ty Form) ≠ .var "channel_open" := fun heq => nomatch heq
    rw [Tree.print, List.singleton_append, parseUnary]
    refine returns_bind (returns_currentKind p _) ?_
    exact (returns_parsePostfix out p (returns_parsePrimary_numberToken out p rest n) hname).trans
      (returns_postfixLoop out p _ hrest)
  | unOp op e ih => exact reads_unOp out op ih
  | binOp op l r ihl ihr => exact reads_binOp out op ihl ihr
  | call f args ih => exact reads_call out f ih
  | index a i ih => exact reads_index out a ih

end Trees

section Text

theorem withMaxDepth_text (lexQuoted : List Char → Lexed) (e : Tree) (maxDepth : Nat) :
    ParserState.withMaxDepth lexQuoted e.text maxDepth =
      (ParserState.withMaxDepth lexQuoted e.text maxDepth).before e.print := by
  simp [ParserState.withMaxDepth, ParserState.new, Tree.text, nextToken_spell, ParserState.before]

/-- The text of an operator expression is parsed to the expression, to its end and without an
error, where the expression is not nested deeper than the parser allows. -/
theorem parseExpr_text (e : Tree) (maxDepth : Nat) (h : e.nesting ≤ maxDepth) :
    ∃ parser, parseExpr out (ParserState.withMaxDepth out.lexQuoted e.text maxDepth) =
        some (.ok e.toExpr, parser) ∧
      parser.current.kind = .eof ∧ parser.pushback = [] ∧ parser.lexer = ⟨[], none, []⟩ ∧
      parser.errors = [] := by
  have hparse : Returns (parseExpr out) _ _ _ :=
    (reads out e).expr (ParserState.withMaxDepth out.lexQuoted e.text maxDepth) []
      (Nat.zero_le _) (.of_closer 0 (.inr (.inr (.inr rfl)))) (by
        simpa [ParserState.withMaxDepth, ParserState.new] using h)
  rw [List.append_nil, ← withMaxDepth_text] at hparse
  exact ⟨_, hparse, rfl, rfl, rfl, rfl⟩

/-- A parser without the parts that are outside of operator expressions. -/
def noOutside : Outside Empty Empty where
  lexQuoted chars := makeToken chars (.error, [])
  parseType := throw (.other "type")
  parseForm := throw (.other "form")

/-- `a - f ( b , - c ) * ( a - b )`. -/
def exampleTree : Tree :=
  let a : Ident := ⟨"a", by decide, by decide⟩
  let b : Ident := ⟨"b", by decide, by decide⟩
  let f : Ident := ⟨"f", by decide, by decide⟩
  .binOp .sub (.var a) (.binOp .mul (.call f [.var b, .unOp .neg (.num 7)])
    (.binOp .sub (.var a) (.var b)))

theorem parseExpr_text_example : ∃ parser,
    parseExpr noOutside (ParserState.withMaxDepth noOutside.lexQuoted
      "a - f ( b , - 7 ) * ( a - b )" 5) = some (.ok exampleTree.toExpr, parser) ∧
      parser.current.kind = .eof ∧ parser.pushback = [] ∧ parser.lexer = ⟨[], none, []⟩ ∧
      parser.errors = [] :=
  parseExpr_text noOutside exampleTree 5 (by decide)

end Text

end Vuma.Parser
