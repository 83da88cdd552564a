import Vuma.Package.Toml

/-!
# Documents

What a text says, as it is written: section headers and pairs, with the pairs of the inline tables.
When the parser makes a value of a text, the value is what comes of carrying out the document.
-/

namespace Vuma.Package.Toml

open Lib

/-- A value as it is written. -/
inductive Expr where
  | string (s : String)
  | array (items : List Expr)
  | inline (pairs : List (List String × Expr))

/-- A header, or a pair with the path of the section that it is in. -/
inductive Stmt where
  | table (path : List String)
  | arrayTable (path : List String)
  | pair (currentPath keyPath : List String) (e : Expr)

/-- The parser that takes down what is written. -/
def written : Builder Expr (List (List String × Expr)) (List Stmt) where
  string := .string
  array := .array
  emptyTable := []
  insertIntoTable pairs keyPath e _ := .ok (pairs ++ [(keyPath, e)])
  table := .inline
  root := []
  pushArrayTable doc path _ := .ok (doc ++ [.arrayTable path])
  ensureTable doc path _ := .ok (doc ++ [.table path])
  insertValue doc currentPath keyPath e _ := .ok (doc ++ [.pair currentPath keyPath e])

/-! ## What a document comes to -/

mutual

def eval : Expr → Option Value
  | .string s => some (.string s)
  | .array items => (evalAll items).map .array
  | .inline pairs => (evalPairs pairs []).map .table

def evalAll : List Expr → Option (List Value)
  | [] => some []
  | e :: es => do return (← eval e) :: (← evalAll es)

def evalPairs : List (List String × Expr) → Entries → Option Entries
  | [], table => some table
  | (keyPath, e) :: pairs, table => do
    let value ← eval e
    let table ← (insertIntoTable table keyPath value 0).toOption
    evalPairs pairs table

end

def exec (root : Entries) : Stmt → Option Entries
  | .table path => (ensureTable root path 0).toOption
  | .arrayTable path => (pushArrayTable root path 0).toOption
  | .pair currentPath keyPath e => do
    (insertValue root currentPath keyPath (← eval e) 0).toOption

def execAll (doc : List Stmt) (root : Entries) : Option Entries := doc.foldlM exec root

/-! ## The line does not matter -/

theorem toOption_navigateMut {line : Nat} {change change' : Entries → Except ParseError Entries}
    (h : ∀ t, (change t).toOption = (change' t).toOption) (path : List String) (table : Entries) :
    (navigateMut line change path table).toOption =
      (navigateMut 0 change' path table).toOption := by
  induction path generalizing table with
  | nil => exact h table
  | cons key path ih =>
    have hinner : ∀ (f : Entries → Entries) (inner : Entries),
        (navigateMut line change path inner >>= fun t => pure (f t)).toOption =
          (navigateMut 0 change' path inner >>= fun t => pure (f t)).toOption := by
      intro f inner
      have hsame := ih inner
      cases h₁ : navigateMut line change path inner <;>
        cases h₂ : navigateMut 0 change' path inner <;> rw [h₁, h₂] at hsame <;> cases hsame <;> rfl
    rw [navigateMut, navigateMut]
    cases (table.lookup key).getD (.table []) with
    | string s => rfl
    | table inner => exact hinner _ inner
    | array items =>
      dsimp only
      split
      · exact hinner _ _
      · rfl

theorem toOption_insertIntoTable (line : Nat) (table : Entries) (keyPath : List String)
    (value : Value) : (insertIntoTable table keyPath value line).toOption =
      (insertIntoTable table keyPath value 0).toOption := by
  induction keyPath generalizing table with
  | nil => rfl
  | cons first rest ih =>
    cases rest with
    | nil => rfl
    | cons second rest =>
      rw [insertIntoTable, insertIntoTable]
      cases (table.lookup first).getD (.table []) with
      | string s => rfl
      | array items => rfl
      | table inner =>
        have hsame := ih inner
        dsimp only
        cases h₁ : insertIntoTable inner (second :: rest) value line <;>
          cases h₂ : insertIntoTable inner (second :: rest) value 0 <;> rw [h₁, h₂] at hsame <;>
          cases hsame <;> rfl

theorem toOption_pushArrayTable (line : Nat) (root : Entries) (path : List String) :
    (pushArrayTable root path line).toOption = (pushArrayTable root path 0).toOption := by
  rw [pushArrayTable, pushArrayTable]
  cases path.getLast? with
  | none => rfl
  | some last =>
    apply toOption_navigateMut
    intro parent
    cases (parent.lookup last).getD (.array []) <;> rfl

theorem toOption_ensureTable (line : Nat) (root : Entries) (path : List String) :
    (ensureTable root path line).toOption = (ensureTable root path 0).toOption :=
  toOption_navigateMut (fun _ => rfl) path root

theorem toOption_insertValue (line : Nat) (root : Entries) (currentPath keyPath : List String)
    (value : Value) : (insertValue root currentPath keyPath value line).toOption =
      (insertValue root currentPath keyPath value 0).toOption :=
  toOption_navigateMut (fun t => toOption_insertIntoTable line t keyPath value) currentPath root

/-! ## Two parsers side by side -/

section Sim

variable {α β γ δ : Type}

/-- Where the one comes back, the other does, in the same place and with a related result. -/
def Sim (R : α → β → Prop) (p : Parse α) (q : Parse β) : Prop :=
  ∀ s a s', Run.Returns p s a s' → ∃ b, Run.Returns q s b s' ∧ R a b

variable {R : α → β → Prop} {S : γ → δ → Prop}

theorem Sim.same (p : Parse α) : Sim Eq p p := fun _ a _ h => ⟨a, h, rfl⟩

theorem Sim.pure {a : α} {b : β} (h : R a b) : Sim R (pure a) (pure b) := by
  intro s a' s' hp
  cases hp
  exact ⟨b, rfl, h⟩

theorem Sim.bind {p : Parse α} {q : Parse β} {f : α → Parse γ} {g : β → Parse δ}
    (hp : Sim R p q) (hf : ∀ a b, R a b → Sim S (f a) (g b)) : Sim S (p >>= f) (q >>= g) := by
  intro s c s'' h
  obtain ⟨a, s', ha, hc⟩ := Run.returns_bind_iff.mp h
  obtain ⟨b, hb, hab⟩ := hp s a s' ha
  obtain ⟨d, hd, hcd⟩ := hf a b hab s' c s'' hc
  exact ⟨d, Run.returns_bind hb hd, hcd⟩

/-- The same step on both sides. -/
theorem Sim.step {p : Parse α} {f : α → Parse γ} {g : α → Parse δ} (hf : ∀ a, Sim S (f a) (g a)) :
    Sim S (p >>= f) (p >>= g) :=
  (Sim.same p).bind fun a _ h => h ▸ hf a

theorem Sim.ite {c : Prop} [Decidable c] {p p' : Parse α} {q q' : Parse β}
    (h : Sim R p q) (h' : Sim R p' q') : Sim R (if c then p else p') (if c then q else q') := by
  split
  · exact h
  · exact h'

theorem Sim.err (message : Message) (q : Parse β) : Sim R (err message) q := by
  intro s a s' h
  cases h

theorem sim_ofExcept {e : Except ParseError α} {b : β} (h : ∀ a, e = .ok a → R a b) :
    Sim R (ofExcept e) (pure b) := by
  cases e with
  | ok a => exact .pure (h a rfl)
  | error e =>
    intro s a s' hp
    cases hp

end Sim

/-! ## The parser carries out the document -/

theorem eval_array {items : List Expr} {vs : List Value} (h : evalAll items = some vs) :
    eval (.array items) = some (.array vs) := by
  rw [eval, h]
  rfl

theorem eval_inline {pairs : List (List String × Expr)} {t : Entries}
    (h : evalPairs pairs [] = some t) : eval (.inline pairs) = some (.table t) := by
  rw [eval, h]
  rfl

theorem evalAll_append {items : List Expr} {e : Expr} {vs : List Value} {v : Value}
    (hs : evalAll items = some vs) (h : eval e = some v) :
    evalAll (items ++ [e]) = some (vs ++ [v]) := by
  induction items generalizing vs with
  | nil =>
    cases hs
    simp [evalAll, h]
  | cons e' items ih =>
    rw [evalAll] at hs
    cases hv : eval e' with
    | none => simp [hv] at hs
    | some v' =>
      cases hvs : evalAll items with
      | none => simp [hv, hvs] at hs
      | some vs' =>
        simp [hv, hvs] at hs
        subst hs
        simp [evalAll, hv, ih hvs]

theorem evalPairs_append (pairs : List (List String × Expr)) (keyPath : List String) (e : Expr)
    (table : Entries) : evalPairs (pairs ++ [(keyPath, e)]) table =
      (evalPairs pairs table).bind fun t => (eval e).bind fun v =>
        (insertIntoTable t keyPath v 0).toOption := by
  induction pairs generalizing table with
  | nil =>
    rw [List.nil_append, evalPairs, evalPairs]
    simp [evalPairs]
  | cons p pairs ih =>
    rw [List.cons_append, evalPairs, evalPairs]
    cases hv : eval p.2 with
    | none => rfl
    | some v =>
      cases ht : (insertIntoTable table p.1 v 0).toOption with
      | none => simp [ht]
      | some t =>
        simp [ht]
        exact ih t

theorem toOption_of_ok {α : Type} {e : Except ParseError α} {a : α} (h : e = .ok a) :
    e.toOption = some a := by
  rw [h]
  rfl

theorem sim_parseValue (n : Nat) :
    Sim (fun v e => eval e = some v) (parseValue toml n) (parseValue written n) ∧
    (∀ vs es, evalAll es = some vs →
      Sim (fun vs es => evalAll es = some vs) (arrayLoop toml n vs) (arrayLoop written n es)) ∧
    ∀ t ps, evalPairs ps [] = some t →
      Sim (fun t ps => evalPairs ps [] = some t) (inlineTableLoop toml n t)
        (inlineTableLoop written n ps) := by
  induction n with
  | zero => exact ⟨nofun, fun _ _ _ => nofun, fun _ _ _ => nofun⟩
  | succ n ih =>
    obtain ⟨hvalue, harray, hinline⟩ := ih
    refine ⟨?_, fun vs es hes => ?_, fun t ps hps => ?_⟩
    · rw [parseValue, parseValue]
      refine Sim.step fun _ => Sim.step fun c => ?_
      refine Sim.ite (.step fun s => .pure rfl) ?_
      refine Sim.ite (.step fun s => .pure rfl) ?_
      refine Sim.ite ?_ ?_
      · exact .step fun _ => (harray [] [] rfl).bind fun vs es h => .pure (eval_array h)
      refine Sim.ite ?_ ?_
      · exact .step fun _ => (hinline [] [] rfl).bind fun t ps h => .pure (eval_inline h)
      · exact .err _ _
    · rw [arrayLoop, arrayLoop]
      refine Sim.step fun _ => Sim.step fun eof => ?_
      refine Sim.ite (.err _ _) ?_
      refine Sim.step fun c => Sim.ite (.step fun _ => .pure hes) ?_
      refine hvalue.bind fun v e h => Sim.step fun _ => Sim.step fun c => ?_
      have happend := evalAll_append hes h
      refine Sim.ite (.step fun _ => harray _ _ happend) ?_
      exact Sim.ite (.step fun _ => .pure happend) (.err _ _)
    · rw [inlineTableLoop, inlineTableLoop]
      refine Sim.step fun _ => Sim.step fun eof => ?_
      refine Sim.ite (.err _ _) ?_
      refine Sim.step fun c => Sim.ite (.step fun _ => .pure hps) ?_
      refine Sim.step fun keyPath => Sim.step fun _ => Sim.step fun c => ?_
      refine Sim.ite (.err _ _) ?_
      refine Sim.step fun _ => hvalue.bind fun v e h => Sim.step fun s => ?_
      refine Sim.bind (R := fun t ps => evalPairs ps [] = some t) ?_ ?_
      · refine sim_ofExcept fun t' ht' => ?_
        rw [evalPairs_append, hps, Option.bind_some, h, Option.bind_some,
          ← toOption_insertIntoTable s.line]
        exact toOption_of_ok ht'
      · intro t' ps' hps'
        refine Sim.step fun _ => Sim.step fun c => ?_
        refine Sim.ite (.step fun _ => hinline _ _ hps') ?_
        exact Sim.ite (.step fun _ => .pure hps') (.err _ _)

theorem sim_documentLoop {n : Nat} {root : Entries} {doc : List Stmt} {currentPath : List String}
    (h : execAll doc [] = some root) :
    Sim (fun root doc => execAll doc [] = some root) (documentLoop toml n root currentPath)
      (documentLoop written n doc currentPath) := by
  induction n generalizing root doc currentPath with
  | zero => exact nofun
  | succ n ih =>
    have happend : ∀ {stmt root'}, exec root stmt = some root' →
        execAll (doc ++ [stmt]) [] = some root' := by
      intro stmt root' hexec
      rw [execAll, List.foldlM_append, ← execAll, h]
      simpa using hexec
    rw [documentLoop, documentLoop]
    refine Sim.step fun _ => Sim.step fun eof => ?_
    refine Sim.ite (.pure h) ?_
    refine Sim.step fun c => Sim.ite ?_ ?_
    · refine Sim.step fun _ => Sim.step fun header => Sim.step fun _ => Sim.step fun s => ?_
      refine Sim.bind (R := fun root doc => execAll doc [] = some root) ?_ ?_
      · obtain ⟨path, isArray⟩ := header
        cases isArray with
        | false =>
          refine sim_ofExcept fun root' hroot => happend ?_
          exact (toOption_ensureTable _ _ _).symm.trans (toOption_of_ok hroot)
        | true =>
          refine sim_ofExcept fun root' hroot => happend ?_
          exact (toOption_pushArrayTable _ _ _).symm.trans (toOption_of_ok hroot)
      · exact fun _ _ h' => ih h'
    · refine Sim.step fun keyPath => Sim.step fun _ => Sim.step fun c => ?_
      refine Sim.ite (.err _ _) ?_
      refine Sim.step fun _ => (sim_parseValue n).1.bind fun v e hv => Sim.step fun _ => ?_
      refine Sim.step fun s => Sim.bind (R := fun root doc => execAll doc [] = some root) ?_ ?_
      · refine sim_ofExcept fun root' hroot => happend ?_
        rw [exec, hv]
        exact (toOption_insertValue _ _ _ _ _).symm.trans (toOption_of_ok hroot)
      · exact fun _ _ h' => ih h'

theorem exists_document {n : Nat} {input : String} {root : Value}
    (h : parse n input = some (.ok root)) :
    ∃ doc entries, readText written n input = some (.ok doc) ∧ execAll doc [] = some entries ∧
      root = .table entries := by
  obtain ⟨e, he, hroot⟩ := Option.map_eq_some_iff.mp h
  obtain ⟨⟨r, s⟩, hrun, rfl⟩ := Option.map_eq_some_iff.mp he
  cases r with
  | error e => cases hroot
  | ok entries =>
    cases hroot
    have hempty : execAll [] [] = some [] := rfl
    obtain ⟨doc, hdoc, hexec⟩ := sim_documentLoop hempty _ _ _ hrun
    refine ⟨doc, entries, ?_, hexec, rfl⟩
    exact Option.map_eq_some_iff.mpr ⟨_, hdoc, rfl⟩

end Vuma.Package.Toml
