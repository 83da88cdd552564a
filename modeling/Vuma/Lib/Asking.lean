import Vuma.Lib.Codec

/-!
# Readers that ask for resources

A reader may ask for something that is granted or refused: room for elements, a number that is not
too large. It crashes when it is refused. `Asks` says that all that matters is what is asked for: on
each short input there are some requests, the outcome is the same whenever all of them are granted,
and it is a crash when one of them is refused.
-/

namespace Vuma.Lib

/-- How a run ends that gives no value: with an error, or with a crash. -/
inductive Failure (ε : Type) where
  | err (e : ε)
  | panic
  deriving DecidableEq, Repr

section

variable {ρ ε α β : Type}

/-- A request that is refused is a crash. -/
def ask {m : Type → Type} [Monad m] [MonadExcept (Failure ε) m] (allow : ρ → Bool) (q : ρ) :
    m Unit :=
  if allow q then pure () else throw .panic

/-- What an outcome depends on: some requests, of which each may be refused. -/
def Depends (run : (ρ → Bool) → Except (Failure ε) α) (asked : Set ρ)
    (o : Except (Failure ε) α) : Prop :=
  o ≠ .error .panic ∧ (∀ allow, (∀ q ∈ asked, allow q = true) → run allow = o) ∧
    ∀ allow, (∃ q ∈ asked, allow q = false) → run allow = .error .panic

/-- Either some request is refused, or all are granted. -/
theorem granted_of_not_refused {asked : Set ρ} {allow : ρ → Bool}
    (h : ¬∃ q ∈ asked, allow q = false) (q : ρ) (hq : q ∈ asked) : allow q = true := by
  cases hallow : allow q with
  | true => rfl
  | false => exact absurd ⟨q, hq, hallow⟩ h

theorem Depends.panic_iff {run : (ρ → Bool) → Except (Failure ε) α} {asked : Set ρ}
    {o : Except (Failure ε) α} (h : Depends run asked o) (allow : ρ → Bool) :
    run allow = .error .panic ↔ ∃ q ∈ asked, allow q = false := by
  constructor
  · intro hpanic
    by_contra hall
    exact h.1 ((h.2.1 allow (granted_of_not_refused hall)).symm.trans hpanic)
  · exact h.2.2 allow

/-- A request is asked for when the run crashes if it alone is refused. -/
theorem Depends.mem_iff [DecidableEq ρ] {run : (ρ → Bool) → Except (Failure ε) α} {asked : Set ρ}
    {o : Except (Failure ε) α} (h : Depends run asked o) (q : ρ) :
    q ∈ asked ↔ run (fun q' => q' != q) = .error .panic := by
  rw [h.panic_iff]
  constructor
  · intro hq
    exact ⟨q, hq, by simp⟩
  · rintro ⟨q', hq', heq⟩
    rw [bne_eq_false_iff_eq] at heq
    exact heq ▸ hq'

/-- A run that depends on some requests, with a result that satisfies `P` if it has one. -/
def AsksFor (P : α → Prop) (run : (ρ → Bool) → Except (Failure ε) α) : Prop :=
  ∃ asked o, Depends run asked o ∧ ∀ a, o = .ok a → P a

namespace AsksFor

variable {P : α → Prop} {Q : β → Prop}

theorem mono {P' : α → Prop} {run : (ρ → Bool) → Except (Failure ε) α} (h : AsksFor P run)
    (hP : ∀ a, P a → P' a) : AsksFor P' run := by
  obtain ⟨asked, o, hdep, hok⟩ := h
  exact ⟨asked, o, hdep, fun a ho => hP a (hok a ho)⟩

/-- Nothing is asked for. -/
theorem const {o : Except (Failure ε) α} (h : o ≠ .error .panic) (hok : ∀ a, o = .ok a → P a) :
    AsksFor P fun _ : ρ → Bool => o := by
  refine ⟨∅, o, ⟨h, fun _ _ => rfl, ?_⟩, hok⟩
  rintro allow ⟨q, hq, -⟩
  exact absurd hq (Set.notMem_empty q)

theorem ok {a : α} (h : P a) : AsksFor P fun _ : ρ → Bool => (.ok a : Except (Failure ε) α) := by
  refine const nofun ?_
  intro b hb
  cases hb
  exact h

theorem err (e : ε) : AsksFor P fun _ : ρ → Bool => (.error (.err e) : Except (Failure ε) α) :=
  const nofun nofun

theorem ask (q : ρ) {o : Except (Failure ε) α} {a : α} (ho : o = .ok a) (h : P a) :
    AsksFor P fun allow => if allow q then o else .error .panic := by
  refine ⟨{q}, .ok a, ⟨nofun, ?_, ?_⟩, ?_⟩
  · intro allow hall
    simp only [hall q rfl, if_true, ho]
  · rintro allow ⟨q', hq', hfalse⟩
    rw [Set.mem_singleton_iff] at hq'
    subst hq'
    simp only [hfalse, Bool.false_eq_true, if_false]
  · intro b hb
    cases hb
    exact h

/-- What is asked for by a run and by what comes after it. -/
theorem bind {run : (ρ → Bool) → Except (Failure ε) α}
    {f : (ρ → Bool) → α → Except (Failure ε) β} (h : AsksFor P run)
    (h' : ∀ a, P a → AsksFor Q fun allow => f allow a) :
    AsksFor Q fun allow => run allow >>= f allow := by
  obtain ⟨asked, o, ⟨hne, hgranted, hrefused⟩, hok⟩ := h
  cases o with
  | error e =>
    refine ⟨asked, .error e, ⟨?_, ?_, ?_⟩, nofun⟩
    · intro heq
      apply hne
      rw [Except.error.inj heq]
    · intro allow hall
      show run allow >>= f allow = _
      rw [hgranted allow hall]
      rfl
    · intro allow hsome
      show run allow >>= f allow = _
      rw [hrefused allow hsome]
      rfl
  | ok a =>
    obtain ⟨asked', o', ⟨hne', hgranted', hrefused'⟩, hok'⟩ := h' a (hok a rfl)
    refine ⟨asked ∪ asked', o', ⟨hne', ?_, ?_⟩, hok'⟩
    · intro allow hall
      show run allow >>= f allow = _
      rw [hgranted allow fun q hq => hall q (.inl hq)]
      exact hgranted' allow fun q hq => hall q (.inr hq)
    · rintro allow ⟨q, hq, hfalse⟩
      show run allow >>= f allow = _
      by_cases hall : ∃ q ∈ asked, allow q = false
      · rw [hrefused allow hall]
        rfl
      · rw [hgranted allow (granted_of_not_refused hall)]
        rcases hq with hq | hq
        · exact absurd ⟨q, hq, hfalse⟩ hall
        · exact hrefused' allow ⟨q, hq, hfalse⟩

/-- A run through a list, with an invariant. -/
theorem foldlM {f : (ρ → Bool) → α → β → Except (Failure ε) α}
    (hf : ∀ a b, P a → AsksFor P fun allow => f allow a b) (l : List β) {a : α} (h : P a) :
    AsksFor P fun allow => l.foldlM (f allow) a := by
  induction l generalizing a with
  | nil => exact ok h
  | cons b l ih => exact (hf a b h).bind fun a' ha' => ih ha'

end AsksFor

/-! ## Readers -/

/-- A reader on inputs of at most `n` bytes asks for some requests, and takes at least `k` bytes
when it succeeds. -/
def Asks (n k : Nat) (r : (ρ → Bool) → Reader (Failure ε) α) : Prop :=
  ∀ s, s.length ≤ n →
    AsksFor (fun p => p.2.length + k ≤ s.length) fun allow => (r allow).run s

variable {n k : Nat}

theorem Asks.mono {r : (ρ → Bool) → Reader (Failure ε) α} (h : Asks n k r) {n' k' : Nat}
    (hn : n' ≤ n) (hk : k' ≤ k) : Asks n' k' r := by
  intro s hs
  exact (h s (hs.trans hn)).mono fun p hp => (Nat.add_le_add_left hk _).trans hp

theorem Asks.pure (a : α) : Asks n 0 (fun _ : ρ → Bool => (pure a : Reader (Failure ε) α)) :=
  fun _ _ => .ok (a := (a, _)) le_rfl

theorem Asks.throw (e : ε) :
    Asks n k fun _ : ρ → Bool => (throw (.err e) : Reader (Failure ε) α) :=
  fun _ _ => .err e

theorem Asks.ask (q : ρ) : Asks n 0 fun allow => (Lib.ask allow q : Reader (Failure ε) Unit) := by
  intro s _
  have hrun : ∀ allow : ρ → Bool, (Lib.ask allow q : Reader (Failure ε) Unit).run s =
      if allow q then .ok ((), s) else .error .panic := by
    intro allow
    rw [Lib.ask]
    cases allow q <;> rfl
  simp only [hrun]
  exact .ask q rfl le_rfl

theorem Asks.takeBytes (e : ε) (m : Nat) :
    Asks n m fun _ : ρ → Bool => Lib.takeBytes (Failure.err e) m := by
  intro s _
  show AsksFor _ fun _ : ρ → Bool => (Lib.takeBytes (Failure.err e) m).run s
  by_cases hm : m ≤ s.length
  · have hrun : (Lib.takeBytes (Failure.err e) m).run s = .ok (s.take m, s.drop m) := if_pos hm
    rw [hrun]
    apply AsksFor.ok
    show (s.drop m).length + m ≤ s.length
    rw [List.length_drop]
    omega
  · have hrun : (Lib.takeBytes (Failure.err e) m).run s = .error (.err e) := if_neg hm
    rw [hrun]
    exact .err e

/-- After a reader that takes some bytes the input is shorter, and it had as many. -/
theorem Asks.bind_lt {r : (ρ → Bool) → Reader (Failure ε) α}
    {f : (ρ → Bool) → α → Reader (Failure ε) β} {j : Nat} (h : Asks n k r)
    (h' : k ≤ n → ∀ a, Asks (n - k) j fun allow => f allow a) :
    Asks n (k + j) fun allow => r allow >>= f allow := by
  intro s hs
  refine (h s hs).bind (f := fun allow p => (f allow p.1).run p.2) ?_
  rintro ⟨a, s'⟩ hle
  have hle : s'.length + k ≤ s.length := hle
  refine (h' (by omega) a s' (by omega)).mono ?_
  intro p hp
  have hp : p.2.length + j ≤ s'.length := hp
  show p.2.length + (k + j) ≤ s.length
  omega

theorem Asks.bind {r : (ρ → Bool) → Reader (Failure ε) α}
    {f : (ρ → Bool) → α → Reader (Failure ε) β} {j : Nat} (h : Asks n k r)
    (h' : ∀ a, Asks n j fun allow => f allow a) :
    Asks n (k + j) fun allow => r allow >>= f allow :=
  h.bind_lt fun _ a => (h' a).mono (Nat.sub_le n k) le_rfl

theorem Asks.andThen {r : (ρ → Bool) → Reader (Failure ε) α}
    {f : (ρ → Bool) → α → Reader (Failure ε) β} (h : Asks n 0 r)
    (h' : ∀ a, Asks n 0 fun allow => f allow a) : Asks n 0 fun allow => r allow >>= f allow :=
  h.bind h'

theorem Asks.ite {c : Prop} [Decidable c] {r r' : (ρ → Bool) → Reader (Failure ε) α}
    (h : c → Asks n k r) (h' : ¬c → Asks n k r') :
    Asks n k fun allow => if c then r allow else r' allow := by
  by_cases hc : c
  · simpa only [if_pos hc] using h hc
  · simpa only [if_neg hc] using h' hc

/-! ## Repetition with an index -/

/-- Read `m` values, with the indices from `i`. -/
def readIndexed (r : Nat → Reader ε α) (i : Nat) : Nat → Reader ε (List α)
  | 0 => pure []
  | m + 1 => do
    let a ← r i
    let as ← readIndexed r (i + 1) m
    pure (a :: as)

theorem Asks.readIndexed {r : Nat → (ρ → Bool) → Reader (Failure ε) α} (h : ∀ i, Asks n 0 (r i))
    (i m : Nat) : Asks n 0 fun allow => Lib.readIndexed (fun i => r i allow) i m := by
  induction m generalizing i with
  | zero => exact .pure []
  | succ m ih => exact (h i).bind fun a => (ih (i + 1)).bind fun as => .pure (a :: as)

end

end Vuma.Lib
