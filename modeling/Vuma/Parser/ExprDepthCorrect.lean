import Vuma.Parser.ExprCorrect
import Vuma.Parser.ExprDepth

/-!
# The depth limit and the calls under way

`expr_depth` counts the calls of `parse_expr_with_precedence` under way, and it and
`no_struct_literal` are put back by every call. Between two such calls there is one call of
`parse_unary` and at most one of `parse_if_expr`, apart from those that `parse_unary` makes of
itself for a prefix operator and `parse_if_expr` for an `else if`, which nothing counts. The parser
of an expression in a format string starts to count anew.
-/

namespace Vuma.Parser.Calls

open Lib

abbrev Machine := Lib.Machine Proc ParseError Node ParserState

/-- The functions whose calls the limit is about. -/
def counted : Proc → Bool
  | .exprWithPrecedence _ | .fn .unary | .fn .ifExpr => true
  | _ => false

/-- A call for a prefix operator behind another one, for an `else if`, or for an expression in a
format string. -/
def repeats : Proc → Proc → Bool
  | .fn .unary, .fn .unary | .fn .ifExpr, .fn .ifExpr => true
  | .formatExpr _, .exprWithPrecedence _ => true
  | _, _ => false

/-- The calls under way that are for a prefix operator behind another one, for an `else if` or for an
expression in a format string. -/
def repetitions : List Proc → Nat
  | callee :: caller :: rest => (repeats caller callee).toNat + repetitions (caller :: rest)
  | _ => 0

/-- The state at the next step calls for a further one of these. -/
def Repeating (m : Machine) : Prop := ∃ g next, m.code = .call g next ∧ repeats m.proc g = true

def isFormat : Proc → Bool
  | .formatExpr _ => true
  | _ => false

/-- The limit of the parser that runs: in a format string it is not the one of the source text. -/
def limitIn (maxDepth : Nat) (waiting : List Proc) : Nat :=
  if waiting.any isFormat then maxExprDepth else maxDepth

/-- In a state of a run, with the constant `C`: the calls under way are bounded, a call that is done
has put the fields back, and one that was too deep ends with the error. -/
structure Bounded (C maxDepth : Nat) (m : Machine) : Prop where
  active : m.active.countP counted ≤ C * (maxDepth + 1)
  restored : ∀ result, m.code = .done result → m.state.exprDepth = m.entry.exprDepth ∧
    m.state.noStructLiteral = m.entry.noStructLiteral
  limit : ∀ result minPrec, m.code = .done result → m.proc = .exprWithPrecedence minPrec →
    limitIn maxDepth (m.waiting.map (·.proc)) ≤ m.entry.exprDepth →
      result = .error (.nestingDepth (limitIn maxDepth (m.waiting.map (·.proc))))

section Runs

variable (r : Readers)

/-- The run of `parse_expr` on a source text comes to this state. -/
def Reaches (source : String) (maxDepth : Nat) (m : Machine) : Prop :=
  Machine.Reaches (procCode r) (.start (procCode r) (.exprWithPrecedence 0)
    (ParserState.withMaxDepth r.lexQuoted source maxDepth)) m

def DepthBounds (C : Nat) (source : String) (maxDepth : Nat) : Prop :=
  ∀ m, Reaches r source maxDepth m → Bounded C maxDepth m

/-- A further prefix operator, `else if` or expression in a format string is only parsed when fewer
than this are under way. -/
def RepeatsWithin (k : Nat) (source : String) (maxDepth : Nat) : Prop :=
  ∀ m, Reaches r source maxDepth m → Repeating m → repetitions m.active < k * (maxDepth + 1)

end Runs

section Specs

def isExpr : Proc → Bool
  | .exprWithPrecedence _ => true
  | _ => false

def canCall : Proc → Proc → Bool
  | .exprWithPrecedence _, g => match g with | .fn (.exprInner _) => true | _ => false
  | .withNoStructLiteral _, g | .formatExpr _, g => isExpr g
  | .fn f, g => mayCall f g

/-- The depth and the limit at a call, for those of the call that it is made from. -/
def Counts (f : Proc) (e p : ParserState) : Prop :=
  if isFormat f then p.exprDepth = 0 ∧ p.maxDepth = maxExprDepth
  else p.exprDepth = e.exprDepth + (isExpr f).toNat ∧ p.maxDepth = e.maxDepth

/-- What the functions of the parser keep. -/
def specs : Specs Proc ParseError Node ParserState where
  pre _ e := e.maxDepth < 2 ^ 32 - 1 ∧ e.exprDepth ≤ e.maxDepth
  post f e result p := Keeps e p ∧
    (isExpr f = true → e.maxDepth ≤ e.exprDepth → result = .error (.nestingDepth e.maxDepth))
  link f e g p := canCall f g = true ∧ Counts f e p

theorem Keeps.trans {p p' p'' : ParserState} (h : Keeps p p') (h' : Keeps p' p'') : Keeps p p'' :=
  ⟨h'.exprDepth.trans h.exprDepth, h'.maxDepth.trans h.maxDepth,
    h'.noStructLiteral.trans h.noStructLiteral⟩

theorem body_exprWithPrecedence (minPrec : Nat) {e : ParserState}
    (he : e.maxDepth < 2 ^ 32 - 1 ∧ e.exprDepth ≤ e.maxDepth) :
    specs.Body (.exprWithPrecedence minPrec) e (parseExprWithPrecedence minPrec) e := by
  obtain ⟨hmax, hle⟩ := he
  have hadd : (e.exprDepth + 1) % 2 ^ 32 = e.exprDepth + 1 := Nat.mod_eq_of_lt (by omega)
  have hsub : (e.exprDepth + 1 + (2 ^ 32 - 1)) % 2 ^ 32 = e.exprDepth := by omega
  rw [parseExprWithPrecedence, Specs.Body, Code.Meets, hadd]
  split
  · exact ⟨⟨hsub, rfl, rfl⟩, fun _ _ => rfl⟩
  next hlt =>
    refine ⟨⟨⟨hmax, by dsimp only; omega⟩, rfl, rfl, rfl⟩, fun result p hp => ?_⟩
    obtain ⟨⟨hdepth, hmax, hflag⟩, -⟩ := hp
    refine ⟨⟨?_, hmax, hflag⟩, fun _ hge => absurd hge (by omega)⟩
    show (p.exprDepth + (2 ^ 32 - 1)) % 2 ^ 32 = e.exprDepth
    rw [hdepth]
    exact hsub

theorem body_withNoStructLiteral (minPrec : Nat) {e : ParserState}
    (he : e.maxDepth < 2 ^ 32 - 1 ∧ e.exprDepth ≤ e.maxDepth) :
    specs.Body (.withNoStructLiteral minPrec) e (parseWithNoStructLiteral minPrec) e := by
  refine ⟨⟨he, rfl, rfl, rfl⟩, fun result p hp => ?_⟩
  exact ⟨⟨hp.1.exprDepth, hp.1.maxDepth, rfl⟩, fun h => nomatch h⟩

/-- The parser of the expression starts at the depth 0. -/
theorem body_formatExpr (r : Readers) (source : String) (e : ParserState) :
    specs.Body (.formatExpr source) e (parseFormatExpr r source) e := by
  refine ⟨⟨⟨?_, Nat.zero_le _⟩, rfl, rfl, rfl⟩, fun result p _ => ?_⟩
  · show maxExprDepth < _
    decide
  · exact ⟨⟨rfl, rfl, rfl⟩, fun h => nomatch h⟩

theorem body_procCode (r : Readers) (f : Proc) (e : ParserState) (he : specs.pre f e) :
    specs.Body f e (procCode r f) e := by
  cases f with
  | exprWithPrecedence minPrec => exact body_exprWithPrecedence minPrec he
  | withNoStructLiteral minPrec => exact body_withNoStructLiteral minPrec he
  | formatExpr source => exact body_formatExpr r source e
  | fn f =>
    -- the code keeps the fields and calls only what it may
    refine (fnCode r f).staysIn.meets (I := Keeps e) ?_ ?_ ?_ ?_ ?_
    · exact fun _ _ h h' => h.trans h'
    · intro g p hg hp
      refine ⟨⟨?_, ?_⟩, hg, hp.exprDepth, hp.maxDepth⟩
      · rw [hp.maxDepth]
        exact he.1
      · rw [hp.maxDepth, hp.exprDepth]
        exact he.2
    · exact fun _ _ _ _ h h' => h.trans h'.1
    · exact fun _ _ hp => ⟨hp, fun h => nomatch h⟩
    · exact ⟨rfl, rfl, rfl⟩

end Specs

section Stack

/-- The counted calls that may still come on top of a call before the next one of
`parse_expr_with_precedence`. -/
def pending : Proc → Nat
  | .exprWithPrecedence _ | .fn (.exprInner _) => 2
  | .fn .unary | .fn .postFix | .fn .primary => 1
  | _ => 0

theorem counted_le_of_canCall {f g : Proc} (h : canCall f g = true) :
    (counted g).toNat + pending g ≤
      pending f + 3 * (isExpr g).toNat + (repeats f g).toNat := by
  cases g with
  | exprWithPrecedence => simp [counted, pending, isExpr]; omega
  | withNoStructLiteral | formatExpr => exact Nat.zero_le _
  | fn g =>
    cases f with
    | exprWithPrecedence => cases g <;> simp_all [canCall, counted, pending, isExpr, repeats]
    | withNoStructLiteral | formatExpr => cases h
    | fn f =>
      cases g
      case exprInner => cases h
      case unary | postFix | primary | ifExpr =>
        cases f <;> simp_all [canCall, mayCall, counted, pending, repeats]
      all_goals exact Nat.zero_le _

variable {f : Proc} {e : ParserState}
  {waiting : List (Waiting Proc ParseError Node ParserState)}

theorem countP_cons_toNat {α : Type} (p : α → Bool) (a : α) (l : List α) :
    (a :: l).countP p = l.countP p + (p a).toNat := by
  rw [List.countP_cons]
  cases p a <;> rfl

/-- Each parser has at most as many calls of `parse_expr_with_precedence` under way as its limit
says: that of the source text, and those of the expressions in format strings. -/
theorem countP_isExpr_le {root : Proc} {start : ParserState} (hzero : start.exprDepth = 0)
    (h : specs.Stack root start f e waiting) :
    (waiting.map (·.proc)).countP isExpr + e.maxDepth ≤ e.exprDepth + start.maxDepth +
      maxExprDepth * repetitions (f :: waiting.map (·.proc)) := by
  induction waiting generalizing f e with
  | nil =>
    obtain ⟨-, -, rfl⟩ := h
    simp [repetitions]
  | cons w waiting ih =>
    obtain ⟨-, ⟨hcall, hcounts⟩, -, hrest⟩ := h
    have hle := ih hrest
    rw [List.map_cons, countP_cons_toNat, repetitions, Nat.mul_add]
    rw [Counts] at hcounts
    split_ifs at hcounts with hformat
    · -- the parser of the string is within its own limit
      have hdepth := hrest.pre.2
      have hrepeats : repeats w.proc f = true := by
        cases hw : w.proc <;> rw [hw] at hformat hcall <;> try cases hformat
        cases f <;> first | rfl | cases hcall
      have hexpr : isExpr w.proc = false := by
        cases hw : w.proc <;> rw [hw] at hformat <;> first | rfl | cases hformat
      rw [hcounts.1, hcounts.2, hrepeats, hexpr, Bool.toNat_true, Bool.toNat_false]
      omega
    · rw [hcounts.1, hcounts.2]
      omega

theorem maxDepth_eq_limitIn {root : Proc} {start : ParserState}
    (h : specs.Stack root start f e waiting) :
    e.maxDepth = limitIn start.maxDepth (waiting.map (·.proc)) := by
  induction waiting generalizing f e with
  | nil =>
    obtain ⟨-, -, rfl⟩ := h
    rfl
  | cons w waiting ih =>
    obtain ⟨-, ⟨-, hcounts⟩, -, hrest⟩ := h
    rw [Counts] at hcounts
    split_ifs at hcounts with hformat
    · simp [limitIn, hcounts.2, hformat]
    · rw [hcounts.2, ih hrest]
      simp [limitIn, hformat]

theorem countP_counted_le {start : ParserState}
    (h : specs.Stack (.exprWithPrecedence 0) start f e waiting) :
    (f :: waiting.map (·.proc)).countP counted + pending f ≤
      3 * (f :: waiting.map (·.proc)).countP isExpr + repetitions (f :: waiting.map (·.proc)) := by
  induction waiting generalizing f e with
  | nil =>
    obtain ⟨-, rfl, -⟩ := h
    decide
  | cons w waiting ih =>
    obtain ⟨-, ⟨hcall, -⟩, -, hrest⟩ := h
    have hle := ih hrest
    have hlink := counted_le_of_canCall hcall
    rw [List.map_cons, countP_cons_toNat, countP_cons_toNat isExpr, repetitions]
    omega

theorem repetitions_le (l : List Proc) : repetitions l ≤ l.countP counted := by
  induction l with
  | nil => exact Nat.le_refl 0
  | cons f l ih =>
    cases l with
    | nil => exact Nat.zero_le _
    | cons g l =>
      have hrepeats : (repeats g f).toNat ≤ (counted f).toNat := by
        unfold repeats
        split <;> first | exact Nat.le_refl 1 | exact Nat.zero_le _
      rw [repetitions, countP_cons_toNat]
      omega

end Stack

section Main

variable (r : Readers) {source : String} {maxDepth : Nat} {m m' : Machine}

theorem Reaches.holds (h : Reaches r source maxDepth m) (hmax : maxDepth < 2 ^ 32 - 1) :
    specs.Holds (.exprWithPrecedence 0)
      (ParserState.withMaxDepth r.lexQuoted source maxDepth) m :=
  Specs.holds_of_reaches (body_procCode r) ⟨hmax, Nat.zero_le _⟩ h

theorem Reaches.active_le (h : Reaches r source maxDepth m) (hmax : maxDepth < 2 ^ 32 - 1) :
    m.active.countP counted ≤
      3 * (maxDepth + 1) + (3 * maxExprDepth + 1) * repetitions m.active := by
  have hstack := (h.holds r hmax).stack
  have hcounted := countP_counted_le hstack
  have hexpr := countP_isExpr_le rfl hstack
  have hdepth : m.entry.exprDepth ≤ m.entry.maxDepth := hstack.pre.2
  have hcons : m.active.countP isExpr ≤ (m.waiting.map (·.proc)).countP isExpr + 1 := by
    rw [Machine.active, countP_cons_toNat]
    have hone := Bool.toNat_le (isExpr m.proc)
    omega
  rw [← Machine.active] at hcounted hexpr
  have hstart : (ParserState.withMaxDepth r.lexQuoted source maxDepth).maxDepth = maxDepth := rfl
  rw [hstart] at hexpr
  rw [Nat.add_mul, Nat.mul_assoc]
  omega

theorem repetitions_step (h : m.step (procCode r) = some m') :
    repetitions m'.active ≤ repetitions m.active ∨
      Repeating m ∧ repetitions m'.active = repetitions m.active + 1 := by
  obtain ⟨f, e, code, waiting, p⟩ := m
  cases code with
  | done result =>
    cases waiting with
    | nil => cases h
    | cons w waiting =>
      cases h
      exact Or.inl (Nat.le_add_left _ _)
  | panic => cases h
  | act change next =>
    cases h
    exact Or.inl (Nat.le_refl _)
  | call g next =>
    cases h
    cases hg : repeats f g with
    | false =>
      refine Or.inl ?_
      simp [Machine.active, repetitions, hg]
    | true =>
      refine Or.inr ⟨⟨g, next, rfl, hg⟩, ?_⟩
      simp [Machine.active, repetitions, hg]
      omega

theorem RepeatsWithin.repetitions_le {k : Nat} (hk : RepeatsWithin r k source maxDepth)
    (h : Reaches r source maxDepth m) : repetitions m.active ≤ k * (maxDepth + 1) := by
  induction h with
  | refl => exact Nat.zero_le _
  | tail hreach hstep ih =>
    rcases repetitions_step r hstep with hle | ⟨hrepeats, heq⟩
    · exact hle.trans ih
    · have hlt := hk _ hreach hrepeats
      omega

/-- For a set of source texts and limits, the limit bounds the calls under way by a constant multiple
iff some constant multiple bounds the repetitions under way where another one is parsed. -/
theorem depthBounds_iff (inputs : Set (String × Nat)) (hmax : ∀ i ∈ inputs, i.2 < 2 ^ 32 - 1) :
    (∃ C, ∀ i ∈ inputs, DepthBounds r C i.1 i.2) ↔ ∃ k, ∀ i ∈ inputs, RepeatsWithin r k i.1 i.2 := by
  constructor
  · rintro ⟨C, hC⟩
    refine ⟨C + 1, fun i hi m hm _ => ?_⟩
    have hactive := (hC i hi m hm).active
    have hle := Calls.repetitions_le m.active
    rw [Nat.add_mul]
    omega
  · rintro ⟨k, hk⟩
    refine ⟨(3 * maxExprDepth + 1) * k + 3, fun i hi m hm => ?_⟩
    have hholds := hm.holds r (hmax i hi)
    refine ⟨?_, fun result hr => ?_, fun result minPrec hr hproc hdeep => ?_⟩
    · have hactive := hm.active_le r (hmax i hi)
      have hle := Nat.mul_le_mul_left (3 * maxExprDepth + 1) ((hk i hi).repetitions_le r hm)
      rw [Nat.add_mul, Nat.mul_assoc]
      omega
    · obtain ⟨⟨hdepth, -, hflag⟩, -⟩ := hholds.post hr
      exact ⟨hdepth, hflag⟩
    · have hlimit := maxDepth_eq_limitIn hholds.stack
      have hstart : (ParserState.withMaxDepth r.lexQuoted i.1 i.2).maxDepth = i.2 := rfl
      rw [hstart] at hlimit
      rw [← hlimit] at hdeep ⊢
      exact (hholds.post hr).2 (by rw [hproc]; rfl) hdeep

def failing {α : Type} (text : String) : Reader α :=
  ⟨fun p => (.error (.other text), p), fun _ => ⟨rfl, rfl, rfl⟩⟩

/-- A parser that reads nothing outside of expressions. -/
def noReaders : Readers :=
  ⟨noOutside.lexQuoted, failing "type", failing "pattern", failing "attribute", failing "literal"⟩

theorem depthBounds_minus :
    (∃ C, ∀ i ∈ ({("- x", 1)} : Set (String × Nat)), DepthBounds noReaders C i.1 i.2) ↔
      ∃ k, ∀ i ∈ ({("- x", 1)} : Set (String × Nat)), RepeatsWithin noReaders k i.1 i.2 :=
  depthBounds_iff noReaders {("- x", 1)} (by simp)

/-- The token `-`. -/
def minus : SpelledToken := ⟨⟨.minus, "-"⟩, .symbol _ (by decide)⟩

/-- `parse_unary` calls itself for a `-`. -/
theorem exists_step_minus (p e : ParserState) (ts : List SpelledToken)
    (waiting : List (Waiting Proc ParseError Node ParserState)) :
    ∃ next, Machine.Reaches (procCode r)
      ⟨.fn .unary, e, procCode r (.fn .unary), waiting, p.before (minus :: ts)⟩
      ⟨.fn .unary, p.before ts, procCode r (.fn .unary), ⟨.fn .unary, e, next⟩ :: waiting,
        p.before ts⟩ := by
  have hadvance : ((p.before (minus :: ts)).advance r.lexQuoted).2 = p.before ts :=
    congrArg Prod.snd (advance_before p minus ts r.lexQuoted)
  rw [← hadvance]
  exact ⟨_, .tail (.tail (.single rfl) rfl) rfl⟩

/-- Before so many of the operators there come to be that many calls. -/
theorem exists_reaches_minus (p e : ParserState) (n : Nat)
    (waiting : List (Waiting Proc ParseError Node ParserState)) :
    ∃ m, Machine.Reaches (procCode r) ⟨.fn .unary, e, procCode r (.fn .unary), waiting,
        p.before (List.replicate n minus)⟩ m ∧
      m.active.countP counted = n + 1 + (waiting.map (·.proc)).countP counted := by
  induction n generalizing e waiting with
  | zero =>
    refine ⟨_, .refl, ?_⟩
    rw [Machine.active, countP_cons_toNat, Nat.add_comm]
    rfl
  | succ n ih =>
    obtain ⟨next, hstep⟩ := exists_step_minus r p e (List.replicate n minus) waiting
    obtain ⟨m, hm, hcount⟩ :=
      ih (p.before (List.replicate n minus)) (⟨.fn .unary, e, next⟩ :: waiting)
    refine ⟨m, hstep.trans hm, ?_⟩
    rw [hcount, List.map_cons, countP_cons_toNat]
    show n + 1 + (_ + 1) = _
    omega

/-- No constant bounds the calls for a row of `-`, at the limit 1. -/
theorem not_depthBounds : ¬ ∃ C, ∀ source maxDepth, maxDepth < 2 ^ 32 →
    DepthBounds noReaders C source maxDepth := by
  rintro ⟨C, h⟩
  let ts := List.replicate (2 * C) minus
  let p := ParserState.withMaxDepth noReaders.lexQuoted (spell ts) 1
  have hp : p = p.before ts := by
    simp [p, ParserState.withMaxDepth, ParserState.new, nextToken_spell, ParserState.before]
  let inner : ParserState := { p with exprDepth := 1 }
  obtain ⟨next, next', hstart⟩ : ∃ next next', Reaches noReaders (spell ts) 1
      ⟨.fn .unary, inner, procCode noReaders (.fn .unary), [⟨.fn (.exprInner 0), inner, next⟩,
        ⟨.exprWithPrecedence 0, p, next'⟩], inner⟩ :=
    ⟨_, _, .tail (.tail (.single rfl) rfl) rfl⟩
  obtain ⟨m, hm, hcount⟩ := exists_reaches_minus noReaders inner inner (2 * C)
    [⟨.fn (.exprInner 0), inner, next⟩, ⟨.exprWithPrecedence 0, p, next'⟩]
  have hinner : inner.before ts = inner := by
    rw [show inner.before ts = { p.before ts with exprDepth := 1 } from rfl, ← hp]
  rw [hinner] at hm
  have hbound := (h (spell ts) 1 (by decide) m (hstart.trans hm)).active
  have hrest : 0 < ([Proc.fn (.exprInner 0), .exprWithPrecedence 0]).countP counted := by decide
  rw [hcount] at hbound
  simp only [List.map_cons, List.map_nil] at hbound
  omega

end Main

end Vuma.Parser.Calls
