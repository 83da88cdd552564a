import Vuma.Ive.SessionType

/-!
# The tree of a session type

A session type stands for an infinite tree: a recursion variable leads on to the recursion that
binds it, and a free one is a leaf. Unfolding puts the recursion itself for its variable without
lifting the variables that are free in it, so they are caught by the recursions in between.
-/

namespace Vuma.Ive

open Lib

/-! ## Trees -/

/-- What stands at a node of the tree. -/
inductive Label where
  | ended
  | send (t : String)
  | recv (t : String)
  | choice
  | offer
  | free (n : Nat)
  deriving DecidableEq, Repr

/-- The node that a type starts with, and what comes below. -/
def SessionType.node : SessionType → Option (Label × List SessionType)
  | .ended => some (.ended, [])
  | .send t s => some (.send t, [s])
  | .recv t s => some (.recv t, [s])
  | .choice s₁ s₂ => some (.choice, [s₁, s₂])
  | .offer s₁ s₂ => some (.offer, [s₁, s₂])
  | .recur _ | .var _ => none

/-- A type, and what its free variables stand for, from the innermost on. -/
inductive Closure where
  | mk (s : SessionType) (env : List Closure)

/-- The label at the end of a path in the tree of a type. -/
inductive Closure.At : Closure → List Nat → Label → Prop
  | here {s env l ss} (h : s.node = some (l, ss)) : At ⟨s, env⟩ [] l
  | child {s env l ss i s' p l'} (h : s.node = some (l, ss)) (hi : ss[i]? = some s')
      (hat : At ⟨s', env⟩ p l') : At ⟨s, env⟩ (i :: p) l'
  | recur {b env p l} (hat : At ⟨b, ⟨.recur b, env⟩ :: env⟩ p l) : At ⟨.recur b, env⟩ p l
  | bound {n env c p l} (h : env[n.toNat]? = some c) (hat : At c p l) : At ⟨.var n, env⟩ p l
  | free {n env} (h : env.length ≤ n.toNat) :
      At ⟨.var n, env⟩ [] (.free (n.toNat - env.length))

/-- Two types have the same tree. -/
def SameTree (s s' : SessionType) : Prop := ∀ p l, Closure.At ⟨s, []⟩ p l ↔ Closure.At ⟨s', []⟩ p l

/-- A variable, the path to it, and the number of the recursions that it is in. -/
inductive Occurs : SessionType → List Nat → Nat → UInt32 → Prop
  | here (n : UInt32) : Occurs (.var n) [] 0 n
  | child {s l ss i s' p k n} (h : s.node = some (l, ss)) (hi : ss[i]? = some s')
      (hocc : Occurs s' p k n) : Occurs s (i :: p) k n
  | recur {b p k n} (hocc : Occurs b p k n) : Occurs (.recur b) p (k + 1) n

/-- A variable is free in the type. -/
def SessionType.Open (s : SessionType) : Prop := ∃ p k n, Occurs s p k n ∧ k ≤ n.toNat

/-- The variable of the recursion is used inside of another recursion. -/
def SessionType.Nested (b : SessionType) : Prop := ∃ p k n, Occurs b p (k + 1) n ∧ n.toNat = k + 1

/-- The number of recursions inside of each other. -/
def SessionType.nesting : SessionType → Nat
  | .ended | .var _ => 0
  | .send _ s | .recv _ s => s.nesting
  | .choice s₁ s₂ | .offer s₁ s₂ => max s₁.nesting s₂.nesting
  | .recur s => s.nesting + 1

variable {s S b : SessionType} {env : List Closure} {p q : List Nat} {l l' : Label} {k d : Nat}
  {n : UInt32}

theorem Closure.At.unique {c : Closure} (h : c.At p l) (h' : c.At p l') : l = l' := by
  induction h with
  | here h =>
    cases h' with
    | here h' =>
      rw [h] at h'
      cases h'
      rfl
    | recur _ => cases h
    | bound _ _ => cases h
    | free _ => cases h
  | child h hi _ ih =>
    cases h' with
    | child h' hi' hat' =>
      rw [h] at h'
      cases h'
      rw [hi] at hi'
      cases hi'
      exact ih hat'
    | recur _ => cases h
    | bound _ _ => cases h
  | recur _ ih =>
    cases h' with
    | here h' => cases h'
    | child h' => cases h'
    | recur hat' => exact ih hat'
  | bound h _ ih =>
    cases h' with
    | here h' => cases h'
    | child h' => cases h'
    | bound h' hat' =>
      rw [h] at h'
      cases h'
      exact ih hat'
    | free h' =>
      rw [List.getElem?_eq_none h'] at h
      cases h
  | free h =>
    cases h' with
    | here h' => cases h'
    | bound h' _ =>
      rw [List.getElem?_eq_none h] at h'
      cases h'
    | free _ => rfl

/-! ## Substitution and nodes -/

theorem node_substitute {ss : List SessionType} (h : s.node = some (l, ss)) (depth : UInt32)
    (S : SessionType) :
    (substitute s depth S).node = some (l, ss.map fun s' => substitute s' depth S) := by
  cases s <;> cases h <;> rfl

theorem nesting_le_of_node {ss : List SessionType} {s' : SessionType} {i : Nat}
    (h : s.node = some (l, ss)) (hi : ss[i]? = some s') : s'.nesting ≤ s.nesting := by
  have hmem := List.mem_of_getElem? hi
  cases s <;> cases h <;> simp at hmem
  · exact hmem ▸ Nat.le_refl _
  · exact hmem ▸ Nat.le_refl _
  · rcases hmem with rfl | rfl
    · exact Nat.le_max_left _ _
    · exact Nat.le_max_right _ _
  · rcases hmem with rfl | rfl
    · exact Nat.le_max_left _ _
    · exact Nat.le_max_right _ _

/-! ## What a type does not look at -/

/-- The variables of the type are below a number, and those of its recursions. -/
def SessionType.ClosedAt (m : Nat) (s : SessionType) : Prop :=
  ∀ p k n, Occurs s p k n → n.toNat < m + k

theorem closedAt_zero_of_not_open (h : ¬ S.Open) : S.ClosedAt 0 := by
  intro p k n hocc
  by_contra hge
  exact h ⟨p, k, n, hocc, by omega⟩

theorem forall₂_getElem? {R : Closure → Closure → Prop} {f f' : List Closure} {c : Closure}
    {i : Nat} (h : List.Forall₂ R f f') (hc : f[i]? = some c) :
    ∃ c', f'[i]? = some c' ∧ R c c' := by
  induction h generalizing i with
  | nil => cases hc
  | cons hr _ ih =>
    cases i with
    | zero =>
      cases hc
      exact ⟨_, rfl, hr⟩
    | succ i => exact ih hc

/-- The environments agree where the type looks. -/
inductive Agree : Closure → Closure → Prop
  | mk {s f f' e e'} (hclosed : SessionType.ClosedAt f.length s) (hf : List.Forall₂ Agree f f') :
    Agree ⟨s, f ++ e⟩ ⟨s, f' ++ e'⟩

theorem Agree.at {c c' : Closure} (h : Agree c c') (hat : c.At p l) : c'.At p l := by
  induction hat generalizing c' with
  | here hnode =>
    cases h
    exact .here hnode
  | child hnode hi _ ih =>
    cases h with
    | mk hclosed hf =>
      exact .child hnode hi (ih (.mk (fun p k n hocc => hclosed _ _ _ (.child hnode hi hocc)) hf))
  | recur _ ih =>
    generalize henv : Closure.mk _ _ = c at h
    cases h with
    | mk hclosed hf =>
      cases henv
      refine .recur (ih ?_)
      rw [← List.cons_append, ← List.cons_append]
      refine .mk (fun p k n hocc => ?_) (.cons (.mk hclosed hf) hf)
      have hlt := hclosed _ _ _ (.recur hocc)
      rw [List.length_cons]
      omega
  | bound hc _ ih =>
    generalize henv : Closure.mk _ _ = c at h
    cases h with
    | mk hclosed hf =>
      cases henv
      have hlt := hclosed _ _ _ (.here _)
      rw [List.getElem?_append_left hlt] at hc
      obtain ⟨c', hc', hagree⟩ := forall₂_getElem? hf hc
      refine .bound ?_ (ih hagree)
      rw [List.getElem?_append_left, hc']
      exact (List.getElem?_eq_some_iff.mp hc').1
  | free hle =>
    generalize henv : Closure.mk _ _ = c at h
    cases h with
    | mk hclosed hf =>
      cases henv
      have hlt := hclosed _ _ _ (.here _)
      rw [List.length_append] at hle
      omega

/-- A closed type has the same tree everywhere. -/
theorem at_of_closed (h : S.ClosedAt 0) {env env' : List Closure}
    (hat : Closure.At ⟨S, env⟩ p l) : Closure.At ⟨S, env'⟩ p l := by
  have hagree : Agree ⟨S, env⟩ ⟨S, env'⟩ := @Agree.mk S [] [] env env' h .nil
  exact hagree.at hat

/-! ## Unfolding without capture -/

/-- A part of the unfolded body, and the same part of the body of the recursion. -/
inductive Subst (S : SessionType) : Closure → Closure → Prop
  | mk {s d f f'} (hd : d.toNat = f.length) (hnest : f.length + s.nesting < 2 ^ 32)
      (hok : S.ClosedAt 0 ∨
        ∀ p k n, Occurs s p k n → n.toNat = f.length + k → f.length + k = 0)
      (hf : List.Forall₂ (Subst S) f f') : Subst S ⟨substitute s d S, f⟩ ⟨s, f' ++ [⟨S, []⟩]⟩

theorem Subst.child {s s' : SessionType} {ss : List SessionType} {i : Nat} {d : UInt32}
    {f f' : List Closure} (hd : d.toNat = f.length) (hnest : f.length + s.nesting < 2 ^ 32)
    (hok : S.ClosedAt 0 ∨ ∀ p k n, Occurs s p k n → n.toNat = f.length + k → f.length + k = 0)
    (hf : List.Forall₂ (Subst S) f f') (hnode : s.node = some (l, ss)) (hi : ss[i]? = some s') :
    Subst S ⟨substitute s' d S, f⟩ ⟨s', f' ++ [⟨S, []⟩]⟩ := by
  have hle := nesting_le_of_node hnode hi
  apply Subst.mk hd (by omega) ?_ hf
  apply hok.imp_right
  intro hno p k n hocc
  exact hno _ _ _ (.child hnode hi hocc)

theorem toNat_succ {d : UInt32} (h : d.toNat + 1 < 2 ^ 32) : (d + 1).toNat = d.toNat + 1 := by
  rw [UInt32.toNat_add]
  exact Nat.mod_eq_of_lt h

theorem Subst.recur {s : SessionType} {d : UInt32} {f f' : List Closure} (hd : d.toNat = f.length)
    (hnest : f.length + (SessionType.recur s).nesting < 2 ^ 32)
    (hok : S.ClosedAt 0 ∨
      ∀ p k n, Occurs (.recur s) p k n → n.toNat = f.length + k → f.length + k = 0)
    (hf : List.Forall₂ (Subst S) f f') :
    Subst S ⟨substitute s (d + 1) S, ⟨.recur (substitute s (d + 1) S), f⟩ :: f⟩
      ⟨s, ⟨.recur s, f' ++ [⟨S, []⟩]⟩ :: (f' ++ [⟨S, []⟩])⟩ := by
  have hnest' : f.length + (s.nesting + 1) < 2 ^ 32 := hnest
  have hd' : (d + 1).toNat = f.length + 1 := by
    rw [← hd]
    exact toNat_succ (by omega)
  have hself : Subst S ⟨.recur (substitute s (d + 1) S), f⟩ ⟨.recur s, f' ++ [⟨S, []⟩]⟩ :=
    .mk hd hnest hok hf
  rw [← List.cons_append]
  apply Subst.mk hd' (by rw [List.length_cons]; omega) ?_ (.cons hself hf)
  apply hok.imp_right
  intro hno p k n hocc heq
  rw [List.length_cons] at heq ⊢
  have := hno _ _ _ (.recur hocc) (by omega)
  omega

/-- What the body has below, the unfolded body has as well. -/
theorem Subst.at {c c' : Closure} (h : Subst S c c') (hat : c'.At p l) : c.At p l := by
  induction hat generalizing c with
  | here hnode =>
    cases h
    exact .here (node_substitute hnode _ _)
  | child hnode hi _ ih =>
    cases h with
    | mk hd hnest hok hf =>
      refine .child (node_substitute hnode _ _) ?_ (ih (.child hd hnest hok hf hnode hi))
      rw [List.getElem?_map, hi]
      rfl
  | recur _ ih =>
    cases h with
    | mk hd hnest hok hf => exact .recur (ih (.recur hd hnest hok hf))
  | @bound n env c₀ p l hc hat ih =>
    cases h with
    | @mk _ d f f' hd hnest hok hf =>
      have hlen := hf.length_eq
      rcases Nat.lt_trichotomy n.toNat f.length with hlt | heq | hgt
      · -- the variable is bound inside
        have hne : n ≠ d := by
          intro h
          rw [h] at hlt
          omega
        have hnlt : ¬ d < n := by
          rw [UInt32.lt_iff_toNat_lt]
          omega
        rw [List.getElem?_append_left (by omega)] at hc
        obtain ⟨c₁, hc₁, hsub⟩ := forall₂_getElem? hf.flip hc
        show Closure.At ⟨if n = d then S else if d < n then .var (n - 1) else .var n, f⟩ _ _
        rw [if_neg hne, if_neg hnlt]
        exact .bound hc₁ (ih hsub)
      · -- the variable of the recursion
        have hnd : n = d := UInt32.toNat_inj.mp (by omega)
        rw [List.getElem?_append_right (by omega), show n.toNat - f'.length = 0 by omega] at hc
        cases hc
        show Closure.At ⟨if n = d then S else _, f⟩ _ _
        rw [if_pos hnd]
        rcases hok with hclosed | hno
        · exact at_of_closed hclosed hat
        · have hzero := hno _ _ _ (.here n) (by omega)
          have hnil : f = [] := List.length_eq_zero_iff.mp (by omega)
          rw [hnil]
          exact hat
      · rw [List.getElem?_eq_none (by rw [List.length_append, List.length_singleton]; omega)] at hc
        cases hc
  | @free n env hle =>
    cases h with
    | @mk _ d f f' hd hnest hok hf =>
      have hlen := hf.length_eq
      rw [List.length_append, List.length_singleton] at hle ⊢
      have hne : n ≠ d := by
        intro h
        rw [h] at hle
        omega
      have hlt : d < n := by
        rw [UInt32.lt_iff_toNat_lt]
        omega
      have hpred : (n - 1).toNat = n.toNat - 1 := by
        apply UInt32.toNat_sub_of_le
        rw [UInt32.le_iff_toNat_le]
        show 1 ≤ n.toNat
        omega
      show Closure.At ⟨if n = d then S else if d < n then .var (n - 1) else .var n, f⟩ _ _
      rw [if_neg hne, if_pos hlt,
        show n.toNat - (f'.length + 1) = (n - 1).toNat - f.length by omega]
      exact .free (by omega)

/-- Every part of the unfolded body comes from a part of the body, or has been put there. -/
theorem Subst.cases_replaced {c : Closure} {t : SessionType} {f : List Closure}
    (h : Subst S ⟨t, f⟩ c) : (∀ p l, Closure.At ⟨t, f⟩ p l → c.At p l) ∨
    ∃ s d f', t = substitute s d S ∧ c = ⟨s, f' ++ [⟨S, []⟩]⟩ ∧ s ≠ .var d ∧
      d.toNat = f.length ∧ f.length + s.nesting < 2 ^ 32 ∧
      (S.ClosedAt 0 ∨ ∀ p k n, Occurs s p k n → n.toNat = f.length + k → f.length + k = 0) ∧
      List.Forall₂ (Subst S) f f' := by
  cases h with
  | @mk s d _ f' hd hnest hok hf =>
    by_cases hs : s = .var d
    · left
      subst hs
      intro p l hat
      have hlen := hf.length_eq
      rw [show substitute (.var d) d S = S from if_pos rfl] at hat
      apply Closure.At.bound (c := ⟨S, []⟩)
      · rw [List.getElem?_append_right (by omega), show d.toNat - f'.length = 0 by omega]
        rfl
      · rcases hok with hclosed | hno
        · exact at_of_closed hclosed hat
        · have hzero := hno _ _ _ (.here d) (by omega)
          have hnil : f = [] := List.length_eq_zero_iff.mp (by omega)
          rw [hnil] at hat
          exact hat
    · exact .inr ⟨s, d, f', rfl, rfl, hs, hd, hnest, hok, hf⟩

theorem node_of_node_substitute {ss : List SessionType} {depth : UInt32}
    (hne : s ≠ .var depth) (h : (substitute s depth S).node = some (l, ss)) :
    ∃ ss', s.node = some (l, ss') ∧ ss = ss'.map fun s' => substitute s' depth S := by
  cases s with
  | var n =>
    have hn : n ≠ depth := fun heq => hne (heq ▸ rfl)
    rw [substitute, if_neg hn] at h
    split at h <;> cases h
  | recur b => cases h
  | _ =>
    cases h
    exact ⟨_, rfl, rfl⟩

theorem eq_recur_of_substitute {t : SessionType} {depth : UInt32} (hne : s ≠ .var depth)
    (h : SessionType.recur t = substitute s depth S) :
    ∃ b, s = .recur b ∧ t = substitute b (depth + 1) S := by
  cases s with
  | var n =>
    have hn : n ≠ depth := fun heq => hne (heq ▸ rfl)
    rw [substitute, if_neg hn] at h
    split at h <;> cases h
  | recur b =>
    cases h
    exact ⟨b, rfl, rfl⟩
  | _ => cases h

theorem eq_var_of_substitute {depth : UInt32} (hne : s ≠ .var depth)
    (h : SessionType.var n = substitute s depth S) :
    ∃ m, s = .var m ∧ m ≠ depth ∧ n = if depth < m then m - 1 else m := by
  cases s with
  | var m =>
    have hm : m ≠ depth := fun heq => hne (heq ▸ rfl)
    rw [substitute, if_neg hm] at h
    refine ⟨m, rfl, hm, ?_⟩
    split at h
    · rw [if_pos ‹_›]
      cases h
      rfl
    · rw [if_neg ‹_›]
      cases h
      rfl
  | _ => cases h

theorem toNat_pred {depth m : UInt32} (h : depth < m) : (m - 1).toNat = m.toNat - 1 := by
  apply UInt32.toNat_sub_of_le
  rw [UInt32.le_iff_toNat_le]
  rw [UInt32.lt_iff_toNat_lt] at h
  show 1 ≤ m.toNat
  omega

/-- What the unfolded body has below, the body has as well. -/
theorem Subst.at_of_at {c c' : Closure} (h : Subst S c c') (hat : c.At p l) : c'.At p l := by
  induction hat generalizing c' with
  | here hnode =>
    rcases h.cases_replaced with hall | ⟨s, d, f', rfl, rfl, hne, -⟩
    · exact hall _ _ (.here hnode)
    · obtain ⟨ss', hnode', -⟩ := node_of_node_substitute hne hnode
      exact .here hnode'
  | child hnode hi hat ih =>
    rcases h.cases_replaced with hall | ⟨s, d, f', rfl, rfl, hne, hd, hnest, hok, hf⟩
    · exact hall _ _ (.child hnode hi hat)
    · obtain ⟨ss', hnode', rfl⟩ := node_of_node_substitute hne hnode
      rw [List.getElem?_map, Option.map_eq_some_iff] at hi
      obtain ⟨s', hi', rfl⟩ := hi
      exact .child hnode' hi' (ih (.child hd hnest hok hf hnode' hi'))
  | recur hat ih =>
    rcases h.cases_replaced with hall | ⟨s, d, f', heq, rfl, hne, hd, hnest, hok, hf⟩
    · exact hall _ _ (.recur hat)
    · obtain ⟨b, rfl, rfl⟩ := eq_recur_of_substitute hne heq
      exact .recur (ih (.recur hd hnest hok hf))
  | @bound n env c₀ p l hc hat ih =>
    rcases h.cases_replaced with hall | ⟨s, d, f', heq, rfl, hne, hd, hnest, hok, hf⟩
    · exact hall _ _ (.bound hc hat)
    · obtain ⟨m, rfl, hmne, rfl⟩ := eq_var_of_substitute hne heq
      have hlen := hf.length_eq
      have hlt := (List.getElem?_eq_some_iff.mp hc).1
      obtain ⟨c₁, hc₁, hsub⟩ := forall₂_getElem? hf hc
      have hmd : ¬ d < m := by
        intro hdm
        rw [if_pos hdm, toNat_pred hdm] at hlt
        rw [UInt32.lt_iff_toNat_lt] at hdm
        omega
      rw [if_neg hmd] at hc₁ hlt
      apply Closure.At.bound ?_ (ih hsub)
      rw [List.getElem?_append_left (by omega), hc₁]
  | @free n env hle =>
    rcases h.cases_replaced with hall | ⟨s, d, f', heq, rfl, hne, hd, hnest, hok, hf⟩
    · exact hall _ _ (.free hle)
    · obtain ⟨m, rfl, hmne, rfl⟩ := eq_var_of_substitute hne heq
      have hlen := hf.length_eq
      have hmne' : m.toNat ≠ d.toNat := fun h => hmne (UInt32.toNat_inj.mp h)
      have hdm : d < m := by
        by_contra hnot
        rw [if_neg hnot] at hle
        rw [UInt32.lt_iff_toNat_lt] at hnot
        omega
      rw [if_pos hdm, toNat_pred hdm] at hle ⊢
      rw [UInt32.lt_iff_toNat_lt] at hdm
      have hlen' : (f' ++ [Closure.mk S []]).length = env.length + 1 := by
        rw [List.length_append, List.length_singleton, hlen]
      rw [show m.toNat - 1 - env.length = m.toNat - (f' ++ [Closure.mk S []]).length by
          omega]
      exact .free (by omega)

/-- Unfolding keeps the tree, where no free variable can be caught. -/
theorem sameTree_unfold (hnest : (SessionType.recur b).nesting < 2 ^ 32)
    (h : ¬ ((SessionType.recur b).Open ∧ b.Nested)) :
    SameTree (SessionType.recur b).unfold (.recur b) := by
  have hnest' : b.nesting + 1 < 2 ^ 32 := hnest
  have hsub : Subst (.recur b) ⟨substitute b 0 (.recur b), []⟩ ⟨b, [⟨.recur b, []⟩]⟩ := by
    apply @Subst.mk _ b 0 [] [] rfl (by rw [List.length_nil]; omega) ?_ .nil
    by_cases hopen : (SessionType.recur b).Open
    · right
      intro p k n hocc heq
      rw [List.length_nil, Nat.zero_add] at heq ⊢
      by_contra hk
      obtain ⟨k, rfl⟩ := Nat.exists_eq_succ_of_ne_zero hk
      exact h ⟨hopen, p, k, n, hocc, heq⟩
    · exact .inl (closedAt_zero_of_not_open hopen)
  intro p l
  constructor
  · intro hat
    exact .recur (hsub.at_of_at hat)
  · intro hat
    cases hat with
    | here hnode => cases hnode
    | child hnode => cases hnode
    | recur hat => exact hsub.at hat

/-! ## A free variable that is caught -/

/-- The type starts with a node, below recursions. -/
inductive HasHead : SessionType → Prop
  | node {s : SessionType} {l ss} (h : s.node = some (l, ss)) : HasHead s
  | recur {b : SessionType} (h : HasHead b) : HasHead (.recur b)

theorem node_ne_free {ss : List SessionType} (h : s.node = some (l, ss)) (m : Nat) :
    l ≠ .free m := by
  cases s <;> cases h <;> exact Label.noConfusion

theorem HasHead.at (h : HasHead s) (env : List Closure) :
    ∃ l, (∀ m, l ≠ .free m) ∧ Closure.At ⟨s, env⟩ [] l := by
  induction h generalizing env with
  | node h => exact ⟨_, node_ne_free h, .here h⟩
  | recur _ ih =>
    obtain ⟨l, hne, hat⟩ := ih _
    exact ⟨l, hne, .recur hat⟩

/-- A type without a node at its start has one variable. -/
theorem hasHead_or (s : SessionType) : HasHead s ∨
    ∃ k₀ n₀, ∀ p k n, Occurs s p k n → k = k₀ ∧ n = n₀ := by
  induction s with
  | recur b ih =>
    rcases ih with h | ⟨k₀, n₀, h⟩
    · exact .inl (.recur h)
    · right
      refine ⟨k₀ + 1, n₀, ?_⟩
      intro p k n hocc
      cases hocc with
      | child hnode => cases hnode
      | recur hocc =>
        obtain ⟨rfl, rfl⟩ := h _ _ _ hocc
        exact ⟨rfl, rfl⟩
  | var m =>
    right
    refine ⟨0, m, ?_⟩
    intro p k n hocc
    cases hocc with
    | here => exact ⟨rfl, rfl⟩
    | child hnode => cases hnode
  | _ => exact .inl (.node rfl)

theorem HasHead.substitute (hS : HasHead S) (hocc : Occurs s p k n) {depth : UInt32}
    (hn : n.toNat = depth.toNat + k) (hnest : depth.toNat + s.nesting < 2 ^ 32) :
    HasHead (substitute s depth S) := by
  induction hocc generalizing depth with
  | here n =>
    have heq : n = depth := UInt32.toNat_inj.mp hn
    rw [Ive.substitute, if_pos heq]
    exact hS
  | child hnode => exact .node (node_substitute hnode _ _)
  | @recur b p k n hocc ih =>
    have hnest' : depth.toNat + (b.nesting + 1) < 2 ^ 32 := hnest
    have hd : (depth + 1).toNat = depth.toNat + 1 := toNat_succ (by omega)
    exact .recur (ih (by omega) (by omega))

theorem Occurs.at (hocc : Occurs s p k n) (env : List Closure) : ∃ g, g.length = k ∧
    ∀ q l, Closure.At ⟨.var n, g ++ env⟩ q l → Closure.At ⟨s, env⟩ (p ++ q) l := by
  induction hocc generalizing env with
  | here n => exact ⟨[], rfl, fun q l hat => hat⟩
  | child hnode hi _ ih =>
    obtain ⟨g, hg, hall⟩ := ih env
    exact ⟨g, hg, fun q l hat => .child hnode hi (hall q l hat)⟩
  | @recur b p k n _ ih =>
    obtain ⟨g, hg, hall⟩ := ih (⟨.recur b, env⟩ :: env)
    refine ⟨g ++ [⟨.recur b, env⟩], by rw [List.length_append, hg]; rfl, fun q l hat => ?_⟩
    rw [List.append_assoc] at hat
    exact .recur (hall q l hat)

/-- The path to the variable that is replaced leads to what is put there, below recursions that
all start with a node. -/
theorem Occurs.at_substitute (hS : HasHead S) (hocc : Occurs s p k n) {depth : UInt32}
    (hn : n.toNat = depth.toNat + k) (hnest : depth.toNat + s.nesting < 2 ^ 32)
    (env : List Closure) : ∃ f, f.length = k ∧
    (∀ c ∈ f, ∃ l, (∀ m, l ≠ .free m) ∧ Closure.At c [] l) ∧
    ∀ q l, Closure.At ⟨S, f ++ env⟩ q l → Closure.At ⟨substitute s depth S, env⟩ (p ++ q) l := by
  induction hocc generalizing depth env with
  | here n =>
    have heq : n = depth := UInt32.toNat_inj.mp hn
    refine ⟨[], rfl, by simp, fun q l hat => ?_⟩
    rw [substitute, if_pos heq]
    exact hat
  | child hnode hi _ ih =>
    have hle := nesting_le_of_node hnode hi
    obtain ⟨f, hf, hhead, hall⟩ := ih hn (by omega) env
    refine ⟨f, hf, hhead, fun q l hat => ?_⟩
    refine .child (node_substitute hnode _ _) ?_ (hall q l hat)
    rw [List.getElem?_map, hi]
    rfl
  | @recur b p k n hocc ih =>
    have hnest' : depth.toNat + (b.nesting + 1) < 2 ^ 32 := hnest
    have hd : (depth + 1).toNat = depth.toNat + 1 := toNat_succ (by omega)
    have hself : HasHead (.recur (substitute b (depth + 1) S)) :=
      .recur (hS.substitute hocc (by omega) (by omega))
    obtain ⟨f, hf, hhead, hall⟩ := @ih (depth + 1) (by omega) (by omega)
      (⟨.recur (substitute b (depth + 1) S), env⟩ :: env)
    refine ⟨f ++ [⟨.recur (substitute b (depth + 1) S), env⟩],
      by rw [List.length_append, hf]; rfl, ?_, fun q l hat => ?_⟩
    · intro c hc
      rcases List.mem_append.mp hc with hc | hc
      · exact hhead c hc
      · rw [List.mem_singleton.mp hc]
        exact hself.at env
    · rw [List.append_assoc] at hat
      exact .recur (hall q l hat)

/-- A free variable of the recursion is caught where the recursion is put inside of another. -/
theorem not_sameTree_unfold (hnest : (SessionType.recur b).nesting < 2 ^ 32)
    (hopen : (SessionType.recur b).Open) (hnested : b.Nested) :
    ¬ SameTree (SessionType.recur b).unfold (.recur b) := by
  obtain ⟨pf, j, m, hfree, hj⟩ := hopen
  obtain ⟨q, k, n, hrec, hn⟩ := hnested
  have hnest' : b.nesting + 1 < 2 ^ 32 := hnest
  have hhead : HasHead (.recur b) := by
    rcases hasHead_or (.recur b) with h | ⟨k₀, n₀, h⟩
    · exact h
    · exfalso
      obtain ⟨rfl, rfl⟩ := h _ _ _ hfree
      obtain ⟨hk, rfl⟩ := h _ _ _ (.recur hrec)
      omega
  intro hsame
  -- in the recursion the variable is free
  have htree : Closure.At ⟨.recur b, []⟩ (q ++ pf) (.free (m.toNat - j)) := by
    obtain ⟨g, hg, hall⟩ := hrec.at [⟨.recur b, []⟩]
    obtain ⟨g', hg', hall'⟩ := hfree.at []
    apply Closure.At.recur
    apply hall
    apply Closure.At.bound (c := ⟨.recur b, []⟩)
    · rw [List.getElem?_append_right (by omega), show n.toNat - g.length = 0 by omega]
      rfl
    · rw [← List.append_nil pf]
      apply hall'
      rw [List.append_nil, ← hg']
      exact .free (by omega)
  -- in the unfolding it counts the recursions around the place
  have hzero : n.toNat = (0 : UInt32).toNat + (k + 1) := hn.trans (Nat.zero_add _).symm
  obtain ⟨f, hf, hfhead, hall⟩ := hrec.at_substitute hhead hzero
    (by show 0 + b.nesting < 2 ^ 32; omega) []
  rw [List.append_nil] at hall
  obtain ⟨g, hg, hall'⟩ := hfree.at f
  have hcaught : ∃ l, l ≠ .free (m.toNat - j) ∧ Closure.At ⟨.var m, g ++ f⟩ [] l := by
    by_cases hlt : m.toNat - j < f.length
    · obtain ⟨l, hl, hat⟩ := hfhead _ (List.getElem_mem hlt)
      refine ⟨l, hl _, .bound ?_ hat⟩
      rw [List.getElem?_append_right (by omega), show m.toNat - g.length = m.toNat - j by omega]
      exact List.getElem?_eq_getElem hlt
    · refine ⟨_, ?_, .free (by rw [List.length_append]; omega)⟩
      rw [List.length_append]
      intro heq
      injection heq with heq
      omega
  obtain ⟨l, hl, hat⟩ := hcaught
  have hunf : Closure.At ⟨(SessionType.recur b).unfold, []⟩ (q ++ pf) l := by
    apply hall
    rw [← List.append_nil pf]
    exact hall' _ _ hat
  exact hl (((hsame _ _).mp hunf).unique htree)

/-- Unfolding keeps the tree just where no free variable can be caught. -/
theorem sameTree_unfold_iff (hnest : (SessionType.recur b).nesting < 2 ^ 32) :
    SameTree (SessionType.recur b).unfold (.recur b) ↔
      ¬ ((SessionType.recur b).Open ∧ b.Nested) := by
  constructor
  · intro hsame h
    exact not_sameTree_unfold hnest h.1 h.2 hsame
  · exact sameTree_unfold hnest

end Vuma.Ive
