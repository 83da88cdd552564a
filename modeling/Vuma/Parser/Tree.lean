import Vuma.Parser.Expr
import Vuma.Parser.LexerCorrect

/-!
# Operator expressions and their text

`Tree`: the expressions with the binary operators, the prefix operators, calls and index
expressions. They are printed with the parentheses that the documented levels of precedence and the
grouping to the left ask for, and with no others.
-/

namespace Vuma.Parser

/-- The names that a call takes to mean something else. -/
def builtins : List String :=
  ["channel_open", "state_new", "arena_new", "arena_alloc", "arena_grow", "arena_free"]

/-- The name of a variable or of a function. -/
structure Ident where
  name : String
  isIdent : isIdent name
  not_builtin : name ∉ builtins

/-- An operator expression. -/
inductive Tree where
  | var (x : Ident)
  | num (n : BitVec 64)
  | unOp (op : UnOp) (e : Tree)
  | binOp (op : BinOp) (l r : Tree)
  | call (f : Ident) (args : List Tree)
  | index (a : Ident) (i : Tree)

/-- The documented levels of precedence, a higher one binds tighter. -/
def BinOp.precedence : BinOp → Nat
  | .or => 0
  | .and => 1
  | .eq | .ne => 2
  | .lt | .le | .gt | .ge => 3
  | .bitOr => 4
  | .bitXor => 5
  | .bitAnd => 6
  | .shl | .shr => 7
  | .add | .sub => 8
  | .mul | .div | .mod => 9

/-- The level of what binds tighter than every binary operator. -/
def tightest : Nat := 10

/-- The level at which an expression is read without parentheses. -/
def Tree.level : Tree → Nat
  | .binOp op _ _ => op.precedence
  | _ => tightest

section Print

/-- An operator or a bracket. -/
def symbol (t : Token) (h : t ∈ symbols := by decide) : SpelledToken := ⟨t, .symbol t h⟩

def Ident.token (x : Ident) : SpelledToken := ⟨⟨.ident, x.name⟩, .ident x.name x.isIdent⟩

def numberToken (n : BitVec 64) : SpelledToken := ⟨⟨.number, n.toNat.repr⟩, .number n.toNat⟩

def UnOp.token : UnOp → SpelledToken
  | .neg => symbol ⟨.minus, "-"⟩
  | .not => symbol ⟨.bang, "!"⟩
  | .bitNot => symbol ⟨.tilde, "~"⟩

def BinOp.token : BinOp → SpelledToken
  | .add => symbol ⟨.plus, "+"⟩
  | .sub => symbol ⟨.minus, "-"⟩
  | .mul => symbol ⟨.star, "*"⟩
  | .div => symbol ⟨.slash, "/"⟩
  | .mod => symbol ⟨.percent, "%"⟩
  | .bitAnd => symbol ⟨.ampersand, "&"⟩
  | .bitOr => symbol ⟨.pipe, "|"⟩
  | .bitXor => symbol ⟨.caret, "^"⟩
  | .shl => symbol ⟨.shl, "<<"⟩
  | .shr => symbol ⟨.shr, ">>"⟩
  | .eq => symbol ⟨.eqEq, "=="⟩
  | .ne => symbol ⟨.ne, "!="⟩
  | .lt => symbol ⟨.lt, "<"⟩
  | .le => symbol ⟨.le, "<="⟩
  | .gt => symbol ⟨.gt, ">"⟩
  | .ge => symbol ⟨.ge, ">="⟩
  | .and => symbol ⟨.andAnd, "&&"⟩
  | .or => symbol ⟨.orOr, "||"⟩

def lParen : SpelledToken := symbol ⟨.lParen, "("⟩

def rParen : SpelledToken := symbol ⟨.rParen, ")"⟩

def lBracket : SpelledToken := symbol ⟨.lBracket, "["⟩

def rBracket : SpelledToken := symbol ⟨.rBracket, "]"⟩

def comma : SpelledToken := symbol ⟨.comma, ","⟩

/-- What is printed at a level: it stands in parentheses where its own level is lower. -/
def parenthesize (level own : Nat) (tokens : List SpelledToken) : List SpelledToken :=
  if own < level then lParen :: tokens ++ [rParen] else tokens

mutual

/-- The tokens of an expression. The right operand of an operator is printed at the next level,
since operators of one level group to the left. -/
def Tree.print : Tree → List SpelledToken
  | .var x => [x.token]
  | .num n => [numberToken n]
  | .unOp op e => op.token :: parenthesize tightest e.level e.print
  | .binOp op l r =>
    parenthesize op.precedence l.level l.print ++
      op.token :: parenthesize (op.precedence + 1) r.level r.print
  | .call f args => f.token :: lParen :: printArgs args ++ [rParen]
  | .index a i => a.token :: lBracket :: i.print ++ [rBracket]

def printArgs : List Tree → List SpelledToken
  | [] => []
  | arg :: args => arg.print ++ printMoreArgs args

def printMoreArgs : List Tree → List SpelledToken
  | [] => []
  | arg :: args => comma :: arg.print ++ printMoreArgs args

end

/-- The text of an expression. -/
def Tree.text (e : Tree) : String := spell e.print

end Print

section Nesting

/-- How deep an expression is nested at a level: parentheses make it one deeper. -/
def nestingAt (level own nesting : Nat) : Nat := if own < level then nesting + 1 else nesting

mutual

/-- How many expressions are open at once. Parentheses, the right operand of an operator, an
argument and an index open one. -/
def Tree.nesting : Tree → Nat
  | .var _ | .num _ => 1
  | .unOp _ e => nestingAt tightest e.level e.nesting
  | .binOp op l r =>
    max (nestingAt op.precedence l.level l.nesting)
      (nestingAt (op.precedence + 1) r.level r.nesting + 1)
  | .call _ args => nestingArgs args + 1
  | .index _ i => i.nesting + 1

def nestingArgs : List Tree → Nat
  | [] => 0
  | arg :: args => max arg.nesting (nestingArgs args)

end

end Nesting

section Expr

variable {Ty Form : Type}

mutual

/-- The expression that a tree stands for. -/
def Tree.toExpr : Tree → Expr Ty Form
  | .var x => .var x.name
  | .num n => .lit (.int n)
  | .unOp op e => .unOp op e.toExpr
  | .binOp op l r => .binOp op l.toExpr r.toExpr
  | .call f args => .call (.var f.name) (toExprs args)
  | .index a i => .index (.var a.name) i.toExpr

def toExprs : List Tree → List (Expr Ty Form)
  | [] => []
  | arg :: args => arg.toExpr :: toExprs args

end

end Expr

/-- Induction on operator expressions, with the arguments of a call all at once. -/
@[elab_as_elim]
theorem Tree.induction {motive : Tree → Prop} (var : ∀ x, motive (.var x))
    (num : ∀ n, motive (.num n)) (unOp : ∀ op e, motive e → motive (.unOp op e))
    (binOp : ∀ op l r, motive l → motive r → motive (.binOp op l r))
    (call : ∀ f args, (∀ arg ∈ args, motive arg) → motive (.call f args))
    (index : ∀ a i, motive i → motive (.index a i)) (e : Tree) : motive e :=
  @Tree.rec motive (fun args => ∀ arg ∈ args, motive arg) var num unOp binOp call index
    (fun _ h => nomatch h) (fun _ _ hhead htail => List.forall_mem_cons.mpr ⟨hhead, htail⟩) e

theorem BinOp.precedence_lt (op : BinOp) : op.precedence < tightest := by
  cases op <;> decide

theorem Tree.level_le (e : Tree) : e.level ≤ tightest := by
  cases e with
  | binOp op l r => exact op.precedence_lt.le
  | _ => exact Nat.le_refl _

theorem nesting_le_nestingAt (level own nesting : Nat) : nesting ≤ nestingAt level own nesting := by
  unfold nestingAt
  split <;> omega

theorem Tree.nesting_pos (e : Tree) : 0 < e.nesting := by
  induction e using Tree.induction with
  | var x => exact Nat.one_pos
  | num n => exact Nat.one_pos
  | unOp op e ih => exact ih.trans_le (nesting_le_nestingAt _ _ _)
  | binOp op l r ihl ihr =>
    exact (ihl.trans_le (nesting_le_nestingAt _ _ _)).trans_le (le_max_left _ _)
  | call f args ih => exact Nat.succ_pos _
  | index a i ih => exact Nat.succ_pos _

theorem Tree.toExpr_ne_channelOpen {Ty Form : Type} (e : Tree) :
    (e.toExpr : Expr Ty Form) ≠ .var "channel_open" := by
  intro heq
  cases e with
  | var x =>
    have hname : x.name = "channel_open" := Expr.var.inj heq
    exact x.not_builtin (hname ▸ by decide)
  | _ => cases heq

end Vuma.Parser
