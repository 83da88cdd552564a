import Mathlib

/-!
# Procedures that call one another

The code of a procedure is a tree of steps on the state and of calls; what a call comes back with, a
value or an error, goes to the code that waits for it, and a panic ends the run. A machine runs the
code with the stack of the calls under way. `Specs` says what holds when a procedure is called, what
it comes back with, and what is between a call and the one that it is made from. When the code of
every procedure meets the specifications, they hold all along a run.
-/

namespace Vuma.Lib

/-- Code over the procedures `π`, which come back with a `ρ`, and the state `σ`. -/
inductive Code (π ε ρ σ α : Type) where
  | done (result : Except ε α)
  | panic
  | act (change : σ → σ) (next : σ → Code π ε ρ σ α)
  | call (f : π) (next : Except ε ρ → Code π ε ρ σ α)

namespace Code

variable {π ε ρ σ α β : Type}

/-- An error ends the code. -/
def bind : Code π ε ρ σ α → (α → Code π ε ρ σ β) → Code π ε ρ σ β
  | done (.ok a), k => k a
  | done (.error e), _ => done (.error e)
  | panic, _ => panic
  | act change next, k => act change fun s => (next s).bind k
  | call f next, k => call f fun r => (next r).bind k

/-- The code changes the state only as `keep` says, and calls only procedures that it may call. -/
def StaysIn (keep : σ → σ → Prop) (may : π → Bool) : Code π ε ρ σ α → Prop
  | done _ | panic => True
  | act change next => ∀ s, keep s (change s) ∧ (next s).StaysIn keep may
  | call f next => may f = true ∧ ∀ r, (next r).StaysIn keep may

/-- From the state on every call is one that `pre` allows, and the code ends as `last` says, as long
as the calls come back as `post` says. -/
def Meets (pre : π → σ → Prop) (post : π → σ → Except ε ρ → σ → Prop)
    (last : Except ε α → σ → Prop) : Code π ε ρ σ α → σ → Prop
  | done r, s => last r s
  | panic, _ => True
  | act change next, s => (next s).Meets pre post last (change s)
  | call f next, s => pre f s ∧ ∀ r s', post f s r s' → (next r).Meets pre post last s'

theorem StaysIn.bind {keep : σ → σ → Prop} {may : π → Bool} {c : Code π ε ρ σ α}
    {k : α → Code π ε ρ σ β} (hc : c.StaysIn keep may) (hk : ∀ a, (k a).StaysIn keep may) :
    (c.bind k).StaysIn keep may := by
  induction c with
  | done r =>
    cases r with
    | ok a => exact hk a
    | error e => trivial
  | panic => trivial
  | act change next ih => exact fun s => ⟨(hc s).1, ih s (hc s).2⟩
  | call f next ih => exact ⟨hc.1, fun r => ih r (hc.2 r)⟩

/-- What the changes and the calls keep holds at every call and at the end. -/
theorem StaysIn.meets {keep : σ → σ → Prop} {may : π → Bool} {pre : π → σ → Prop}
    {post : π → σ → Except ε ρ → σ → Prop} {last : Except ε α → σ → Prop} {I : σ → Prop}
    (hkeep : ∀ s s', I s → keep s s' → I s')
    (hpre : ∀ f s, may f = true → I s → pre f s)
    (hpost : ∀ f s r s', I s → post f s r s' → I s')
    (hlast : ∀ r s, I s → last r s) {c : Code π ε ρ σ α} (hc : c.StaysIn keep may) {s : σ}
    (hs : I s) : c.Meets pre post last s := by
  induction c generalizing s with
  | done r => exact hlast r s hs
  | panic => trivial
  | act change next ih => exact ih s (hc s).2 (hkeep _ _ hs (hc s).1)
  | call f next ih =>
    exact ⟨hpre f s hc.1 hs, fun r s' hr => ih r (hc.2 r) (hpost f s r s' hs hr)⟩

end Code

/-- Code that stays in bounds. -/
structure Within {σ π : Type} (keep : σ → σ → Prop) (may : π → Bool) (ε ρ α : Type) where
  code : Code π ε ρ σ α
  staysIn : code.StaysIn keep may

instance {σ π ε ρ : Type} {keep : σ → σ → Prop} {may : π → Bool} :
    Monad (Within keep may ε ρ) where
  pure a := ⟨.done (.ok a), trivial⟩
  bind c k := ⟨c.code.bind fun a => (k a).code, c.staysIn.bind fun a => (k a).staysIn⟩

/-- A call that waits for another one, with the state that it was made in. -/
structure Waiting (π ε ρ σ : Type) where
  proc : π
  entry : σ
  next : Except ε ρ → Code π ε ρ σ ρ

/-- The call that runs, with the state that it was made in, and the calls that wait. -/
structure Machine (π ε ρ σ : Type) where
  proc : π
  entry : σ
  code : Code π ε ρ σ ρ
  waiting : List (Waiting π ε ρ σ)
  state : σ

namespace Machine

variable {π ε ρ σ : Type} (body : π → Code π ε ρ σ ρ)

/-- A call of a procedure, before its first step. -/
def start (f : π) (s : σ) : Machine π ε ρ σ := ⟨f, s, body f, [], s⟩

def step (m : Machine π ε ρ σ) : Option (Machine π ε ρ σ) :=
  match m.code with
  | .done r =>
    match m.waiting with
    | [] => none
    | w :: waiting => some ⟨w.proc, w.entry, w.next r, waiting, m.state⟩
  | .panic => none
  | .act change next => some { m with code := next m.state, state := change m.state }
  | .call f next =>
    some ⟨f, m.state, body f, ⟨m.proc, m.entry, next⟩ :: m.waiting, m.state⟩

/-- The run comes to the second state. -/
def Reaches : Machine π ε ρ σ → Machine π ε ρ σ → Prop :=
  Relation.ReflTransGen fun m m' => m.step body = some m'

/-- The procedures whose calls are under way, the last one first. -/
def active (m : Machine π ε ρ σ) : List π := m.proc :: m.waiting.map (·.proc)

end Machine

/-- The specifications of procedures. -/
structure Specs (π ε ρ σ : Type) where
  pre : π → σ → Prop
  post : π → σ → Except ε ρ → σ → Prop
  link : π → σ → π → σ → Prop

namespace Specs

variable {π ε ρ σ : Type} (S : Specs π ε ρ σ)

/-- The rest of the code of a call, from a state on. -/
def Body (f : π) (e : σ) : Code π ε ρ σ ρ → σ → Prop :=
  Code.Meets (fun g s => S.pre g s ∧ S.link f e g s) S.post (S.post f e)

/-- A call and the calls that wait for it, the first of all of the procedure `root` in the state
`start`. -/
def Stack (root : π) (start : σ) : π → σ → List (Waiting π ε ρ σ) → Prop
  | f, e, [] => S.pre f e ∧ f = root ∧ e = start
  | f, e, w :: waiting =>
    S.pre f e ∧ S.link w.proc w.entry f e ∧
      (∀ r s, S.post f e r s → S.Body w.proc w.entry (w.next r) s) ∧
        Stack root start w.proc w.entry waiting

/-- The specifications hold of the calls under way. -/
structure Holds (root : π) (start : σ) (m : Machine π ε ρ σ) : Prop where
  body : S.Body m.proc m.entry m.code m.state
  stack : S.Stack root start m.proc m.entry m.waiting

variable {S} {body : π → Code π ε ρ σ ρ} {root : π} {start : σ}

theorem Stack.pre {f : π} {e : σ} {waiting : List (Waiting π ε ρ σ)}
    (h : S.Stack root start f e waiting) : S.pre f e := by
  cases waiting with
  | nil => exact h.1
  | cons w waiting => exact h.1

theorem Holds.step (hbody : ∀ f e, S.pre f e → S.Body f e (body f) e) {m m' : Machine π ε ρ σ}
    (h : S.Holds root start m) (hm : m.step body = some m') : S.Holds root start m' := by
  obtain ⟨f, e, code, waiting, s⟩ := m
  obtain ⟨hcode, hstack⟩ := h
  cases code with
  | done r =>
    cases waiting with
    | nil => cases hm
    | cons w waiting =>
      cases hm
      exact ⟨hstack.2.2.1 r s hcode, hstack.2.2.2⟩
  | panic => cases hm
  | act change next =>
    cases hm
    exact ⟨hcode, hstack⟩
  | call g next =>
    cases hm
    obtain ⟨⟨hpre, hlink⟩, hnext⟩ := hcode
    exact ⟨hbody g s hpre, hpre, hlink, hnext, hstack⟩

/-- The specifications hold in every state of a run. -/
theorem holds_of_reaches (hbody : ∀ f e, S.pre f e → S.Body f e (body f) e) {e : σ}
    (he : S.pre root e) {m : Machine π ε ρ σ} (hm : Machine.Reaches body (.start body root e) m) :
    S.Holds root e m := by
  induction hm with
  | refl => exact ⟨hbody root e he, he, rfl, rfl⟩
  | tail _ hstep ih => exact ih.step hbody hstep

theorem Holds.post {m : Machine π ε ρ σ} (h : S.Holds root start m) {r : Except ε ρ}
    (hr : m.code = .done r) : S.post m.proc m.entry r m.state := by
  have hbody := h.body
  rw [hr] at hbody
  exact hbody

end Specs

end Vuma.Lib
