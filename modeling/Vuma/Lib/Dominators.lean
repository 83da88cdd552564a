import Mathlib

/-!
# Dominators and natural loops

A vertex dominates another if every path from the root to the other passes through it. An edge back
to a dominator of its source is a back edge, and the natural loop of a back edge holds the vertices
from which its source is reached without passing the header.
-/

namespace Vuma.Lib

variable {α : Type*} (E : α → α → Prop) (r : α)

/-- A path from the root, its last vertex first. -/
inductive PathTo : α → List α → Prop
  | root : PathTo r [r]
  | step {v w : α} {l : List α} (h : PathTo v l) (hE : E v w) : PathTo w (w :: l)

/-- There is a path from the root. -/
def Reachable (v : α) : Prop := ∃ l, PathTo E r v l

/-- Every path from the root to `b` passes through `a`. -/
def Dominates (a b : α) : Prop := ∀ l, PathTo E r b l → a ∈ l

/-- The closest strict dominator. -/
structure IsIdom (d b : α) : Prop where
  dominates : Dominates E r d b
  ne : d ≠ b
  closest : ∀ c, Dominates E r c b → c ≠ b → Dominates E r c d

/-- An edge from a reachable vertex to one that dominates it. -/
structure BackEdge (latch header : α) : Prop where
  edge : E latch header
  reachable : Reachable E r latch
  dominates : Dominates E r header latch

/-- The header, the latch, and what leads to a member other than the header. -/
inductive NaturalLoop (header latch : α) : α → Prop
  | header : NaturalLoop header latch header
  | latch : NaturalLoop header latch latch
  | pred {u v : α} (h : NaturalLoop header latch v) (hne : v ≠ header) (hE : E u v) :
      NaturalLoop header latch u

variable {E r}

/-! ## Paths -/

namespace PathTo

variable {v w : α} {l s t : List α}

theorem eq_cons (h : PathTo E r v l) : ∃ t, l = v :: t := by
  cases h with
  | root => exact ⟨[], rfl⟩
  | step _ _ => exact ⟨_, rfl⟩

/-- The last edge of a path with two or more vertices. -/
theorem last_edge {a : α} (h : PathTo E r v (a :: l)) (hl : l ≠ []) :
    a = v ∧ ∃ u, PathTo E r u l ∧ E u v := by
  cases h with
  | root => exact absurd rfl hl
  | step h hE => exact ⟨rfl, _, h, hE⟩

theorem self_mem (h : PathTo E r v l) : v ∈ l := by
  obtain ⟨t, rfl⟩ := h.eq_cons
  exact List.mem_cons_self

theorem root_mem (h : PathTo E r v l) : r ∈ l := by
  induction h with
  | root => exact List.mem_singleton_self r
  | step _ _ ih => exact List.mem_cons_of_mem _ ih

/-- The path up to a vertex on it. -/
theorem suffix (h : PathTo E r v (s ++ w :: t)) : PathTo E r w (w :: t) := by
  generalize hl : s ++ w :: t = l at h
  induction h generalizing s with
  | root =>
    cases s with
    | nil =>
      obtain ⟨rfl, rfl⟩ := List.cons.inj hl
      exact .root
    | cons a s => simp at hl
  | step h hE ih =>
    cases s with
    | nil =>
      obtain ⟨rfl, rfl⟩ := List.cons.inj hl
      exact .step h hE
    | cons a s => exact ih (List.cons.inj hl).2

/-- The path up to a vertex on it is replaced by another one. -/
theorem graft (h : PathTo E r v (s ++ w :: t)) (ht : PathTo E r w l) : PathTo E r v (s ++ l) := by
  generalize hp : s ++ w :: t = p at h
  induction h generalizing s with
  | root =>
    cases s with
    | nil =>
      obtain ⟨rfl, -⟩ := List.cons.inj hp
      exact ht
    | cons a s => simp at hp
  | step h hE ih =>
    cases s with
    | nil =>
      obtain ⟨rfl, -⟩ := List.cons.inj hp
      exact ht
    | cons a s =>
      obtain ⟨rfl, hp'⟩ := List.cons.inj hp
      exact .step (ih hp') hE

theorem reachable_of_mem (h : PathTo E r v l) (hw : w ∈ l) : Reachable E r w := by
  obtain ⟨s, t, rfl⟩ := List.append_of_mem hw
  exact ⟨_, h.suffix⟩

/-- Every path can be made simple. -/
theorem exists_nodup (h : PathTo E r v l) : ∃ p, PathTo E r v p ∧ p.Nodup ∧ p ⊆ l := by
  induction h with
  | root => exact ⟨[r], .root, List.nodup_singleton r, List.Subset.refl _⟩
  | @step v w l h hE ih =>
    obtain ⟨p, hp, hnodup, hsub⟩ := ih
    by_cases hw : w ∈ p
    · obtain ⟨s, t, rfl⟩ := List.append_of_mem hw
      exact ⟨w :: t, hp.suffix, hnodup.of_append_right,
        fun x hx => List.mem_cons_of_mem _ (hsub (List.mem_append_right s hx))⟩
    · exact ⟨w :: p, .step hp hE, List.nodup_cons.mpr ⟨hw, hnodup⟩,
        List.cons_subset_cons _ hsub⟩

end PathTo

theorem Reachable.step {u v : α} (h : Reachable E r u) (hE : E u v) : Reachable E r v :=
  let ⟨_, hl⟩ := h
  ⟨_, .step hl hE⟩

/-! ## Dominance -/

namespace Dominates

variable {a b c v : α}

theorem refl (a : α) : Dominates E r a a := fun _ h => h.self_mem

theorem root (b : α) : Dominates E r r b := fun _ h => h.root_mem

theorem trans (hab : Dominates E r a b) (hbc : Dominates E r b c) : Dominates E r a c := by
  intro l hl
  obtain ⟨s, t, rfl⟩ := List.append_of_mem (hbc l hl)
  exact List.mem_append_right s (hab _ hl.suffix)

theorem reachable (h : Dominates E r a b) (hb : Reachable E r b) : Reachable E r a := by
  obtain ⟨l, hl⟩ := hb
  exact hl.reachable_of_mem (h l hl)

/-- What lies before a dominator of `v` on a simple path to `v` dominates it, if it dominates
`v`. -/
theorem of_mem_suffix {s t : List α} (hl : PathTo E r v (s ++ a :: t))
    (hnodup : (s ++ a :: t).Nodup) (hb : Dominates E r b v) (hbt : b ∈ a :: t) :
    Dominates E r b a := by
  intro q hq
  have hbs : b ∉ s := fun h => List.disjoint_of_nodup_append hnodup h hbt
  exact (List.mem_append.mp (hb _ (hl.graft hq))).resolve_left hbs

theorem total (ha : Dominates E r a v) (hb : Dominates E r b v) (hv : Reachable E r v) :
    Dominates E r a b ∨ Dominates E r b a := by
  obtain ⟨_, h⟩ := hv
  obtain ⟨l, hl, hnodup, -⟩ := h.exists_nodup
  obtain ⟨s, t, rfl⟩ := List.append_of_mem (ha l hl)
  rcases List.mem_append.mp (hb _ hl) with hbs | hbt
  · obtain ⟨s₁, s₂, rfl⟩ := List.append_of_mem hbs
    rw [List.append_assoc, List.cons_append] at hl hnodup
    exact .inl (of_mem_suffix hl hnodup ha (by simp))
  · exact .inr (of_mem_suffix hl hnodup hb hbt)

theorem antisymm (hab : Dominates E r a b) (hba : Dominates E r b a) (hb : Reachable E r b) :
    a = b := by
  obtain ⟨_, h⟩ := hb
  obtain ⟨l, hl, hnodup, -⟩ := h.exists_nodup
  obtain ⟨t, rfl⟩ := hl.eq_cons
  by_contra hne
  have hat : a ∈ t := (List.mem_cons.mp (hab _ hl)).resolve_left hne
  obtain ⟨s, t', rfl⟩ := List.append_of_mem hat
  -- `b` lies on the path up to `a`, and again at its end
  have hbt : b ∈ a :: t' := hba _ (PathTo.suffix (s := b :: s) hl)
  exact (List.nodup_cons.mp hnodup).1 (List.mem_append_right s hbt)

/-- A dominator other than the vertex itself dominates the sources of all edges to it. -/
theorem pred (h : Dominates E r a b) (hne : a ≠ b) {p : α} (hE : E p b) : Dominates E r a p :=
  fun _ hl => (List.mem_cons.mp (h _ (.step hl hE))).resolve_left hne

/-- What dominates the source of every edge from a reachable vertex dominates the target. -/
theorem of_preds (hbr : b ≠ r) (h : ∀ p, E p b → Reachable E r p → Dominates E r a p) :
    Dominates E r a b := by
  intro l hl
  cases hl with
  | root => exact absurd rfl hbr
  | step hl hE => exact List.mem_cons_of_mem _ (h _ hE ⟨_, hl⟩ _ hl)

end Dominates

/-- A reachable vertex other than the root has a reachable predecessor that it does not dominate. -/
theorem Reachable.exists_pred {b : α} (h : Reachable E r b) (hbr : b ≠ r) :
    ∃ p, E p b ∧ Reachable E r p ∧ ¬ Dominates E r b p := by
  obtain ⟨_, h⟩ := h
  obtain ⟨l, hl, hnodup, -⟩ := h.exists_nodup
  cases hl with
  | root => exact absurd rfl hbr
  | step hl hE =>
    exact ⟨_, hE, ⟨_, hl⟩, fun hdom => (List.nodup_cons.mp hnodup).1 (hdom _ hl)⟩

/-! ## Natural loops -/

namespace NaturalLoop

variable {h l h' l' v : α}

/-- The header dominates the reachable members. -/
theorem dominates (he : BackEdge E r l h) (hv : NaturalLoop E h l v) (hr : Reachable E r v) :
    Dominates E r h v := by
  induction hv with
  | header => exact .refl h
  | latch => exact he.dominates
  | pred _ hne hE ih => exact (ih (hr.step hE)).pred hne.symm hE

/-- Two headers do not lie in the loops of each other. -/
theorem header_eq (he : BackEdge E r l h) (he' : BackEdge E r l' h')
    (hh : NaturalLoop E h' l' h) (hh' : NaturalLoop E h l h') : h = h' :=
  have hr : Reachable E r h := he.dominates.reachable he.reachable
  have hr' : Reachable E r h' := he'.dominates.reachable he'.reachable
  (hh'.dominates he hr').antisymm (hh.dominates he' hr) hr'

/-- A loop whose header lies in another loop is nested in it. -/
theorem nested (he : BackEdge E r l h) (he' : BackEdge E r l' h') (hh : NaturalLoop E h' l' h)
    (hne : h ≠ h') (hv : NaturalLoop E h l v) : NaturalLoop E h' l' v := by
  induction hv with
  | header => exact hh
  | latch => exact hh.pred hne he.edge
  | @pred u v hv _ hE ih =>
    refine ih.pred ?_ hE
    rintro rfl
    exact hne (header_eq he he' hh hv)

/-- Going back from a member without meeting the header stays in the loop. -/
theorem of_path {s t : List α} {w : α} (hv : NaturalLoop E h l v) (hp : PathTo E r v (s ++ w :: t))
    (hs : h ∉ s) : NaturalLoop E h l w := by
  induction s generalizing v with
  | nil =>
    obtain ⟨_, heq⟩ := hp.eq_cons
    obtain ⟨rfl, -⟩ := List.cons.inj heq
    exact hv
  | cons a s ih =>
    obtain ⟨rfl, u, hp, hE⟩ := hp.last_edge (by simp)
    exact ih (hv.pred (List.ne_of_not_mem_cons hs).symm hE) hp (List.not_mem_of_not_mem_cons hs)

/-- A header between another header and a common member lies in the loop of the other. -/
theorem header_mem_of_dominates (he' : BackEdge E r l' h') (hv : NaturalLoop E h l v)
    (hv' : NaturalLoop E h' l' v) (hr : Reachable E r v) (hdom : Dominates E r h h') :
    NaturalLoop E h l h' := by
  obtain ⟨_, hp⟩ := hr
  obtain ⟨p, hp, hnodup, -⟩ := hp.exists_nodup
  obtain ⟨s, t, rfl⟩ := List.append_of_mem (hv'.dominates he' ⟨_, hp⟩ p hp)
  have hh : h ∈ h' :: t := hdom _ hp.suffix
  exact hv.of_path hp fun hs => List.disjoint_of_nodup_append hnodup hs hh

/-- Of two loops with a reachable member in common, one contains the header of the other. -/
theorem header_mem (he : BackEdge E r l h) (he' : BackEdge E r l' h') (hv : NaturalLoop E h l v)
    (hv' : NaturalLoop E h' l' v) (hr : Reachable E r v) :
    NaturalLoop E h l h' ∨ NaturalLoop E h' l' h :=
  ((hv.dominates he hr).total (hv'.dominates he' hr) hr).imp
    (header_mem_of_dominates he' hv hv' hr) (header_mem_of_dominates he hv' hv hr)

end NaturalLoop

end Vuma.Lib
