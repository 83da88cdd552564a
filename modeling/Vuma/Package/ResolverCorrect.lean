import Vuma.Package.TopologicalSort

/-!
# What is resolved

The walk gets to every package that the root depends on, unless a requirement cannot be met or the
dependencies have a cycle. The result is right if all requirements of a package are met by the same
version, and a package without manifest is then taken for a cycle.
-/

namespace Vuma.Package

open Lib Relation

section Spec

variable (reg : PackageRegistry) (root : PackageManifest)

/-- A version of a package that some requirement leads to. -/
inductive Reachable : String → String → Prop
  | root {dep : Dependency} {v : String} (hdep : dep ∈ root.dependencies)
    (hv : reg.findVersion dep.name dep.version = .ok v) : Reachable dep.name v
  | dep {n v w : String} {m : PackageManifest} {dep : Dependency} (h : Reachable n v)
    (hm : reg.getManifest n v = some m) (hdep : dep ∈ m.dependencies)
    (hw : reg.findVersion dep.name dep.version = .ok w) : Reachable dep.name w

/-- The dependencies of the root, or of a version that is reached. -/
def Follows (n : String) (deps : List Dependency) : Prop :=
  (n = root.name ∧ deps = root.dependencies) ∨
    ∃ v m, Reachable reg root n v ∧ reg.getManifest n v = some m ∧ deps = m.dependencies

/-- A package depends on another. -/
def DependsOn (n d : String) : Prop := ∃ deps, Follows reg root n deps ∧ ∃ dep ∈ deps, dep.name = d

/-- The dependencies that are reached have a cycle. -/
def HasCycle : Prop := ∃ n, TransGen (DependsOn reg root) n n

/-- A requirement that is reached cannot be met. -/
def Unresolvable : Prop :=
  ∃ n deps, Follows reg root n deps ∧ ∃ dep ∈ deps, ∃ e,
    reg.findVersion dep.name dep.version = .error e

/-- All requirements of a package are met by the same version. -/
def Consistent : Prop := ∀ n v w, Reachable reg root n v → Reachable reg root n w → v = w

/-- Below the packages `under`, these dependencies are gone through one after another, each with its
own dependencies before the next: all requirements that are come to can be met, and none leads back
to a package that it is below. The packages `done` are not gone into again. -/
inductive Passes : Finset String → List Dependency → Finset String → Finset String → Prop
  | nil {under done : Finset String} : Passes under [] done done
  | skip {under done done' : Finset String} {dep : Dependency} {deps : List Dependency} {v : String}
    (hv : reg.findVersion dep.name dep.version = .ok v)
    (hm : reg.getManifest dep.name v = none ∨ dep.name ∈ done)
    (h : Passes under deps done done') : Passes under (dep :: deps) done done'
  | follow {under done done₁ done' : Finset String} {dep : Dependency} {deps : List Dependency}
    {v : String} {m : PackageManifest} (hv : reg.findVersion dep.name dep.version = .ok v)
    (hm : reg.getManifest dep.name v = some m) (hd : dep.name ∉ done) (hu : dep.name ∉ under)
    (hdeps : Passes (insert dep.name under) m.dependencies done done₁)
    (h : Passes under deps (insert dep.name done₁) done') : Passes under (dep :: deps) done done'

/-- Depth first from the root, no requirement that cannot be met and no cycle is come to. -/
def GetsThrough : Prop := ∃ done, Passes reg {root.name} root.dependencies ∅ done

end Spec

variable {reg : PackageRegistry} {root : PackageManifest}

theorem Follows.reachable {n v : String} {deps : List Dependency} (h : Follows reg root n deps)
    {dep : Dependency} (hdep : dep ∈ deps) (hv : reg.findVersion dep.name dep.version = .ok v) :
    Reachable reg root dep.name v := by
  rcases h with ⟨-, rfl⟩ | ⟨w, m, hw, hm, rfl⟩
  · exact .root hdep hv
  · exact .dep hw hm hdep hv

/-- The root depends on a package that is reached, in some steps. -/
theorem Reachable.transGen {n v : String} (h : Reachable reg root n v) :
    TransGen (DependsOn reg root) root.name n := by
  induction h with
  | root hdep hv => exact .single ⟨_, .inl ⟨rfl, rfl⟩, _, hdep, rfl⟩
  | dep hn hm hdep hw ih => exact ih.tail ⟨_, .inr ⟨_, _, hn, hm, rfl⟩, _, hdep, rfl⟩

theorem Reachable.exists_dependsOn {n v : String} (h : Reachable reg root n v) :
    ∃ m, DependsOn reg root m n := by
  obtain ⟨m, -, hm⟩ := TransGen.tail'_iff.1 h.transGen
  exact ⟨m, hm⟩

theorem findVersion_ne_circular {name req text : String} :
    reg.findVersion name req ≠ .error (.circularDependency text) := by
  rw [PackageRegistry.findVersion]
  cases reg.index with
  | error e => simp
  | ok index =>
    dsimp only
    split_ifs
    · simp
    · simp
    · split <;> simp

/-! ## The walk -/

/-- The packages that the walk is done with, in the order in which it has left them. -/
structure Walked (reg : PackageRegistry) (root : PackageManifest) (ctx : ResolveContext)
    (done : List String) : Prop where
  visited : ∀ n, n ∈ ctx.visited ↔ n ∈ done
  visiting : ∀ n ∈ ctx.visiting, n ∉ done
  nodup : done.Nodup
  graph : ∀ n, (ctx.graph.lookup n).isSome → n ∈ done
  order : ∀ l₁ n l₂, done = l₁ ++ n :: l₂ → ∃ deps, Follows reg root n deps ∧
    ctx.graph.lookup n = some (deps.map Dependency.name) ∧ ∀ dep ∈ deps, ∃ v,
      reg.findVersion dep.name dep.version = .ok v ∧ (ctx.resolved.lookup dep.name).isSome ∧
        ∀ m, reg.getManifest dep.name v = some m → dep.name ∈ l₁
  resolved : ∀ d p, ctx.resolved.lookup d = some p → p.name = d ∧ Reachable reg root d p.version ∧
    p.manifest = reg.getManifest d p.version

/-- What a part of the walk keeps. -/
structure Grown (ctx ctx' : ResolveContext) (done done' : List String) : Prop where
  done : done <+: done'
  visiting : ctx'.visiting = ctx.visiting
  resolved : ∀ d, (ctx.resolved.lookup d).isSome → (ctx'.resolved.lookup d).isSome

theorem Grown.trans {ctx₁ ctx₂ ctx₃ : ResolveContext} {done₁ done₂ done₃ : List String}
    (h : Grown ctx₁ ctx₂ done₁ done₂) (h' : Grown ctx₂ ctx₃ done₂ done₃) :
    Grown ctx₁ ctx₃ done₁ done₃ :=
  ⟨h.done.trans h'.done, h'.visiting.trans h.visiting, fun d hd => h'.resolved d (h.resolved d hd)⟩

/-- What a part of the walk gives: a cycle or a requirement that cannot be met, or a context in
which it is done with what it has been asked for. -/
inductive WalkResult (reg : PackageRegistry) (root : PackageManifest) (ctx : ResolveContext)
    (done : List String) (goal : ResolveContext → List String → Prop) :
    Option (Except PackageError ResolveContext) → Prop
  | ok {ctx' : ResolveContext} {done' : List String} (hw : Walked reg root ctx' done')
    (hg : Grown ctx ctx' done done') (hgoal : goal ctx' done') :
    WalkResult reg root ctx done goal (some (.ok ctx'))
  | cycle {text : String} (h : HasCycle reg root) :
    WalkResult reg root ctx done goal (some (.error (.circularDependency text)))
  | error {e : PackageError} (he : ∀ text, e ≠ .circularDependency text)
    (h : Unresolvable reg root) : WalkResult reg root ctx done goal (some (.error e))

/-- A dependency is recorded, and if it has a manifest the walk is done with it. -/
def Handled (reg : PackageRegistry) (dep : Dependency) (ctx : ResolveContext)
    (done : List String) : Prop :=
  ∃ v, reg.findVersion dep.name dep.version = .ok v ∧ (ctx.resolved.lookup dep.name).isSome ∧
    ∀ m, reg.getManifest dep.name v = some m → dep.name ∈ done

theorem Handled.grown {dep : Dependency} {ctx ctx' : ResolveContext} {done done' : List String}
    (h : Handled reg dep ctx done) (hg : Grown ctx ctx' done done') : Handled reg dep ctx' done' := by
  obtain ⟨v, hv, hr, hm⟩ := h
  exact ⟨v, hv, hg.resolved _ hr, fun m h => hg.done.subset (hm m h)⟩

/-- A part of the walk after another. -/
theorem WalkResult.after {ctx ctx₁ : ResolveContext} {done done₁ : List String}
    {goal goal' : ResolveContext → List String → Prop}
    {r : Option (Except PackageError ResolveContext)} (h : WalkResult reg root ctx₁ done₁ goal r)
    (hg : Grown ctx ctx₁ done done₁)
    (hgoal : ∀ ctx' done', Grown ctx₁ ctx' done₁ done' → goal ctx' done' → goal' ctx' done') :
    WalkResult reg root ctx done goal' r := by
  cases h with
  | ok hw hg' h => exact .ok hw (hg.trans hg') (hgoal _ _ hg' h)
  | cycle h => exact .cycle h
  | error he h => exact .error he h

theorem Walked.record {ctx : ResolveContext} {done : List String} (h : Walked reg root ctx done)
    {d v : String} (hv : Reachable reg root d v) :
    let ctx' := { ctx with resolved := ctx.resolved.insert d ⟨d, v, reg.getManifest d v⟩ }
    Walked reg root ctx' done ∧ Grown ctx ctx' done done ∧ (ctx'.resolved.lookup d).isSome := by
  have hsome : ∀ d', (ctx.resolved.lookup d').isSome →
      ((ctx.resolved.insert d ⟨d, v, reg.getManifest d v⟩).lookup d').isSome := by
    intro d' hd'
    rw [HashMap.lookup_insert_ite]
    split_ifs
    · rfl
    · exact hd'
  refine ⟨⟨h.visited, h.visiting, h.nodup, h.graph, ?_, ?_⟩, ⟨List.prefix_rfl, rfl, hsome⟩, ?_⟩
  · intro l₁ n l₂ hl
    obtain ⟨deps, hf, hg, hdeps⟩ := h.order l₁ n l₂ hl
    refine ⟨deps, hf, hg, fun dep hdep => ?_⟩
    obtain ⟨w, hw, hr, hm⟩ := hdeps dep hdep
    exact ⟨w, hw, hsome _ hr, hm⟩
  · intro d' p hp
    rw [HashMap.lookup_insert_ite] at hp
    split_ifs at hp with hd'
    · cases hp
      subst hd'
      exact ⟨rfl, hv, rfl⟩
    · exact h.resolved d' p hp
  · rw [HashMap.lookup_insert_ite, if_pos rfl]
    rfl

theorem resolveDeps_result {recurse : String → List Dependency → ResolveContext →
      Option (Except PackageError ResolveContext)} {n : String} {all : List Dependency}
    (hall : Follows reg root n all) {visiting : Finset String}
    (hrec : ∀ (d : String) (deps : List Dependency) (ctx : ResolveContext) (done : List String),
      Follows reg root d deps → DependsOn reg root n d → (∃ v, Reachable reg root d v) →
      ctx.visiting = visiting → Walked reg root ctx done →
      WalkResult reg root ctx done (fun _ done' => d ∈ done') (recurse d deps ctx))
    {deps : List Dependency} (hdeps : deps ⊆ all) {ctx : ResolveContext} {done : List String}
    (hvisiting : ctx.visiting = visiting) (hw : Walked reg root ctx done) :
    WalkResult reg root ctx done (fun ctx' done' => ∀ dep ∈ deps, Handled reg dep ctx' done')
      (resolveDeps reg recurse deps ctx) := by
  induction deps generalizing ctx done with
  | nil => exact .ok hw ⟨List.prefix_rfl, rfl, fun _ h => h⟩ (by simp)
  | cons dep deps ih =>
    have hmem : dep ∈ all := hdeps List.mem_cons_self
    have hdeps' : deps ⊆ all := fun x hx => hdeps (List.mem_cons_of_mem _ hx)
    rw [resolveDeps]
    cases hv : reg.findVersion dep.name dep.version with
    | error e =>
      refine .error ?_ ⟨n, all, hall, dep, hmem, e, hv⟩
      rintro text rfl
      exact findVersion_ne_circular hv
    | ok v =>
      have hreach := hall.reachable hmem hv
      obtain ⟨hw₁, hg₁, hr₁⟩ := hw.record hreach
      -- the loop goes on in the same way after a dependency with and without manifest
      have hgo : ∀ {ctx₂ : ResolveContext} {done₂ : List String}, Walked reg root ctx₂ done₂ →
          Grown ctx ctx₂ done done₂ → Handled reg dep ctx₂ done₂ →
          WalkResult reg root ctx done
            (fun ctx' done' => ∀ dep' ∈ dep :: deps, Handled reg dep' ctx' done')
            (resolveDeps reg recurse deps ctx₂) := by
        intro ctx₂ done₂ hw₂ hg₂ hh
        refine (ih hdeps' (hg₂.visiting.trans hvisiting) hw₂).after hg₂ fun ctx' done' hg' hgoal => ?_
        exact List.forall_mem_cons.2 ⟨hh.grown hg', hgoal⟩
      dsimp only
      cases hm : reg.getManifest dep.name v with
      | none =>
        rw [hm] at hw₁ hg₁ hr₁
        refine hgo hw₁ hg₁ ⟨v, hv, hr₁, fun m hm' => ?_⟩
        rw [hm] at hm'
        cases hm'
      | some m =>
        rw [hm] at hw₁ hg₁ hr₁
        have hres := hrec dep.name m.dependencies _ done (.inr ⟨v, m, hreach, hm, rfl⟩)
          ⟨all, hall, dep, hmem, rfl⟩ ⟨v, hreach⟩ (hg₁.visiting.trans hvisiting) hw₁
        dsimp only
        generalize recurse dep.name m.dependencies _ = r at hres
        cases hres with
        | ok hw₂ hg₂ hd =>
          exact hgo hw₂ (hg₁.trans hg₂) ⟨v, hv, hg₂.resolved _ hr₁, fun _ _ => hd⟩
        | cycle h => exact .cycle h
        | error he h => exact .error he h

/-- The names that the walk can get to. -/
def names (reg : PackageRegistry) (root : PackageManifest) : Finset String :=
  match reg.index with
  | .ok index => insert root.name index.keys.toFinset
  | .error _ => {root.name}

theorem Reachable.exists_findVersion {n v : String} (h : Reachable reg root n v) :
    ∃ req, reg.findVersion n req = .ok v := by
  cases h with
  | root _ hv => exact ⟨_, hv⟩
  | dep _ _ _ hw => exact ⟨_, hw⟩

theorem mem_names_of_findVersion {n req v : String} (h : reg.findVersion n req = .ok v) :
    n ∈ names reg root := by
  rw [PackageRegistry.findVersion] at h
  rw [names]
  cases hi : reg.index with
  | error e =>
    rw [hi] at h
    cases h
  | ok index =>
    rw [hi] at h
    dsimp only at h ⊢
    refine Finset.mem_insert_of_mem (List.mem_toFinset.2 (HashMap.mem_keys_iff.2 ?_))
    cases hl : index.lookup n with
    | some vs => rfl
    | none =>
      rw [hl] at h
      cases h

/-- The walk is done with a package; if it has not been before, then last, and after what the
package depends on. -/
def Visited (reg : PackageRegistry) (n : String) (deps : List Dependency) (done : List String)
    (ctx' : ResolveContext) (done' : List String) : Prop :=
  n ∈ done' ∧ (n ∉ done → ∃ l, done' = l ++ [n] ∧
    ctx'.graph.lookup n = some (deps.map Dependency.name) ∧
      ∀ dep ∈ deps, Handled reg dep ctx' l)

/-- The walk from a package. -/
theorem resolveRecursive_result {depth : Nat} {n : String} {deps : List Dependency}
    {ctx : ResolveContext} {done : List String} (hf : Follows reg root n deps)
    (hw : Walked reg root ctx done) (hn : n ∈ names reg root)
    (hvisiting : ctx.visiting ⊆ names reg root)
    (hdepth : (names reg root).card < depth + ctx.visiting.card)
    (hpath : ∀ m ∈ ctx.visiting, TransGen (DependsOn reg root) m n) :
    WalkResult reg root ctx done (Visited reg n deps done)
      (resolveRecursive reg depth n deps ctx) := by
  induction depth generalizing n deps ctx done with
  | zero =>
    have := Finset.card_le_card hvisiting
    omega
  | succ depth ih =>
    rw [resolveRecursive]
    split_ifs with hv hg
    · have hn := (hw.visited n).1 hv
      exact .ok hw ⟨List.prefix_rfl, rfl, fun _ h => h⟩ ⟨hn, fun h => (h hn).elim⟩
    · exact .cycle ⟨n, hpath n hg⟩
    · have hnd : n ∉ done := mt (hw.visited n).2 hv
      have hw₁ : Walked reg root { ctx with visiting := insert n ctx.visiting } done := by
        refine ⟨hw.visited, fun m hm => ?_, hw.nodup, hw.graph, hw.order, hw.resolved⟩
        rcases Finset.mem_insert.1 hm with rfl | hm
        · exact hnd
        · exact hw.visiting m hm
      have hrec : ∀ (d : String) (deps : List Dependency) (ctx' : ResolveContext)
          (done' : List String), Follows reg root d deps → DependsOn reg root n d →
          (∃ v, Reachable reg root d v) → ctx'.visiting = insert n ctx.visiting →
          Walked reg root ctx' done' → WalkResult reg root ctx' done' (fun _ done'' => d ∈ done'')
            (resolveRecursive reg depth d deps ctx') := by
        rintro d deps ctx' done' hfd hnd ⟨v, hv⟩ hvis hw'
        obtain ⟨req, hreq⟩ := hv.exists_findVersion
        have hres : WalkResult reg root ctx' done' (Visited reg d deps done')
            (resolveRecursive reg depth d deps ctx') := ?_
        · exact hres.after ⟨List.prefix_rfl, rfl, fun _ h => h⟩ fun _ _ _ h => h.1
        refine ih hfd hw' (mem_names_of_findVersion hreq) ?_ ?_ ?_ <;> rw [hvis]
        · exact Finset.insert_subset hn hvisiting
        · rw [Finset.card_insert_of_notMem hg]
          omega
        · intro m hm
          rcases Finset.mem_insert.1 hm with rfl | hm
          · exact .single hnd
          · exact (hpath m hm).tail hnd
      have hres := resolveDeps_result hf hrec (List.Subset.refl deps) rfl hw₁
      generalize resolveDeps _ _ _ _ = r at hres
      cases hres with
      | cycle h => exact .cycle h
      | error he h => exact .error he h
      | @ok ctx' done' hw' hg' hgoal =>
        have hnd' : n ∉ done' := by
          refine hw'.visiting n ?_
          rw [hg'.visiting]
          exact Finset.mem_insert_self _ _
        have hgrown : Grown ctx { ctx' with
            graph := ctx'.graph.insert n (deps.map Dependency.name)
            visiting := ctx'.visiting.erase n
            visited := insert n ctx'.visited } done (done' ++ [n]) := by
          refine ⟨hg'.done.trans (List.prefix_append _ _), ?_, hg'.resolved⟩
          show ctx'.visiting.erase n = ctx.visiting
          rw [hg'.visiting, Finset.erase_insert hg]
        have hgraph : (ctx'.graph.insert n (deps.map Dependency.name)).lookup n =
            some (deps.map Dependency.name) := AList.lookup_insert _
        refine .ok ⟨?_, ?_, ?_, ?_, ?_, hw'.resolved⟩ hgrown
          ⟨by simp, fun _ => ⟨done', rfl, hgraph, hgoal⟩⟩
        · intro m
          rw [Finset.mem_insert, List.mem_append, List.mem_singleton, hw'.visited, or_comm]
        · intro m hm
          rw [Finset.mem_erase] at hm
          simp [hw'.visiting m hm.2, hm.1]
        · exact hw'.nodup.append (List.nodup_singleton n) (by simpa using hnd')
        · intro m hm
          rw [HashMap.lookup_insert_ite] at hm
          split_ifs at hm with hmn
          · simp [hmn]
          · exact List.mem_append_left _ (hw'.graph m hm)
        · intro l₁ x l₂ hl
          rcases List.eq_nil_or_concat l₂ with rfl | ⟨l₂, y, rfl⟩
          · obtain ⟨rfl, hx⟩ := List.append_inj' hl rfl
            cases hx
            refine ⟨deps, hf, ?_, hgoal⟩
            rw [HashMap.lookup_insert_ite, if_pos rfl]
          · have hl' : done' ++ [n] = (l₁ ++ x :: l₂) ++ [y] := by simpa using hl
            have hdone := (List.append_inj' hl' rfl).1
            obtain ⟨deps', hf', hgr, hdeps'⟩ := hw'.order l₁ x l₂ hdone
            refine ⟨deps', hf', ?_, hdeps'⟩
            have hne : x ≠ n := by
              rintro rfl
              exact hnd' (by simp [hdone])
            rw [HashMap.lookup_insert_ite, if_neg hne]
            exact hgr

/-- The walk from a package has come to its end. -/
def Passed (reg : PackageRegistry) (n : String) (deps : List Dependency)
    (ctx ctx' : ResolveContext) : Prop :=
  ctx'.visiting = ctx.visiting ∧
    (n ∈ ctx.visited ∧ ctx'.visited = ctx.visited ∨ n ∉ ctx.visited ∧ n ∉ ctx.visiting ∧
      ∃ done, Passes reg (insert n ctx.visiting) deps ctx.visited done ∧
        ctx'.visited = insert n done)

theorem passes_of_resolveDeps {recurse : String → List Dependency → ResolveContext →
      Option (Except PackageError ResolveContext)}
    (hrec : ∀ d deps ctx ctx', recurse d deps ctx = some (.ok ctx') → Passed reg d deps ctx ctx')
    {deps : List Dependency} {ctx ctx' : ResolveContext}
    (h : resolveDeps reg recurse deps ctx = some (.ok ctx')) :
    ctx'.visiting = ctx.visiting ∧ Passes reg ctx.visiting deps ctx.visited ctx'.visited := by
  induction deps generalizing ctx with
  | nil =>
    cases h
    exact ⟨rfl, .nil⟩
  | cons dep deps ih =>
    rw [resolveDeps] at h
    cases hv : reg.findVersion dep.name dep.version with
    | error e =>
      rw [hv] at h
      cases h
    | ok v =>
      rw [hv] at h
      dsimp only at h
      cases hm : reg.getManifest dep.name v with
      | none =>
        rw [hm] at h
        obtain ⟨hvisiting, hpass⟩ := ih h
        exact ⟨hvisiting, .skip hv (.inl hm) hpass⟩
      | some m =>
        rw [hm] at h
        dsimp only at h
        split at h
        · next ctx₁ hctx₁ =>
          obtain ⟨hvisiting₁, hpassed⟩ := hrec _ _ _ _ hctx₁
          obtain ⟨hvisiting, hpass⟩ := ih h
          rw [hvisiting₁] at hvisiting hpass
          refine ⟨hvisiting, ?_⟩
          rcases hpassed with ⟨hd, heq⟩ | ⟨hd, hu, done, hdone, heq⟩
          · rw [heq] at hpass
            exact .skip hv (.inr hd) hpass
          · rw [heq] at hpass
            exact .follow hv hm hd hu hdone hpass
        · next hne => exact absurd h (hne _)

theorem passed_of_resolveRecursive {depth : Nat} {n : String} {deps : List Dependency}
    {ctx ctx' : ResolveContext} (h : resolveRecursive reg depth n deps ctx = some (.ok ctx')) :
    Passed reg n deps ctx ctx' := by
  induction depth generalizing n deps ctx ctx' with
  | zero => cases h
  | succ depth ih =>
    rw [resolveRecursive] at h
    split_ifs at h with hv hg
    · cases h
      exact ⟨rfl, .inl ⟨hv, rfl⟩⟩
    · cases h
    · split at h
      · next ctx₁ hctx₁ =>
        obtain ⟨hvisiting, hpass⟩ := passes_of_resolveDeps (fun _ _ _ _ h => ih h) hctx₁
        cases h
        refine ⟨?_, .inr ⟨hv, hg, ctx₁.visited, hpass, rfl⟩⟩
        show ctx₁.visiting.erase n = ctx.visiting
        rw [hvisiting, Finset.erase_insert hg]
      · next hne => exact absurd h (hne _)

/-! ## After the walk -/

theorem walked_empty : Walked reg root ⟨∅, ∅, ∅, ∅⟩ [] := by
  refine ⟨by simp, by simp, List.nodup_nil, ?_, ?_, ?_⟩
  · intro n hn
    simp at hn
  · intro l₁ n l₂ hl
    simp at hl
  · intro d p hp
    simp at hp

theorem resolveRecursive_root {depth : Nat} (hdepth : (names reg root).card < depth) :
    WalkResult reg root ⟨∅, ∅, ∅, ∅⟩ [] (fun ctx done => ∃ l, done = l ++ [root.name] ∧
      ctx.graph.lookup root.name = some (root.dependencies.map Dependency.name) ∧
        ∀ dep ∈ root.dependencies, Handled reg dep ctx l)
      (resolveRecursive reg depth root.name root.dependencies ⟨∅, ∅, ∅, ∅⟩) := by
  have hroot : root.name ∈ names reg root := by
    rw [names]
    split
    · exact Finset.mem_insert_self _ _
    · exact Finset.mem_singleton_self _
  have hres := resolveRecursive_result (.inl ⟨rfl, rfl⟩) walked_empty hroot (by simp)
    (by simpa using hdepth) (by simp)
  exact hres.after ⟨List.prefix_rfl, rfl, fun _ h => h⟩ fun _ _ _ h => h.2 (by simp)

/-- The walk is done with the root, and with nothing after it. -/
structure Complete (reg : PackageRegistry) (root : PackageManifest) (ctx : ResolveContext)
    (l : List String) : Prop where
  walked : Walked reg root ctx (l ++ [root.name])
  graph : ctx.graph.lookup root.name = some (root.dependencies.map Dependency.name)
  deps : ∀ dep ∈ root.dependencies, Handled reg dep ctx l

namespace Complete

variable {ctx : ResolveContext} {l : List String}

theorem root_notMem (h : Complete reg root ctx l) : root.name ∉ l := by
  have hnd := h.walked.nodup
  rw [List.nodup_append] at hnd
  exact fun hm => hnd.2.2 _ hm _ List.mem_cons_self rfl

/-- The version of a package whose dependencies the walk has followed. -/
theorem of_eq (h : Complete reg root ctx l) {l₁ l₂ : List String} {n : String}
    (hl : l = l₁ ++ n :: l₂) : ∃ v m, Reachable reg root n v ∧ reg.getManifest n v = some m ∧
      ctx.graph.lookup n = some (m.dependencies.map Dependency.name) ∧
        ∀ dep ∈ m.dependencies, Handled reg dep ctx l₁ := by
  obtain ⟨deps, hf, hg, hdeps⟩ := h.walked.order l₁ n (l₂ ++ [root.name]) (by simp [hl])
  have hne : n ≠ root.name := by
    rintro rfl
    exact h.root_notMem (by simp [hl])
  rcases hf with ⟨hn, -⟩ | ⟨v, m, hv, hm, rfl⟩
  · exact absurd hn hne
  · exact ⟨v, m, hv, hm, hg, hdeps⟩

theorem exists_of_graph (h : Complete reg root ctx l) {n : String} {ds : List String}
    (hg : ctx.graph.lookup n = some ds) : ∃ deps, Follows reg root n deps ∧
      ds = deps.map Dependency.name := by
  obtain ⟨l₁, l₂, hl⟩ := List.append_of_mem (h.walked.graph n (Option.isSome_of_eq_some hg))
  obtain ⟨deps, hf, hg', -⟩ := h.walked.order l₁ n l₂ hl
  rw [hg] at hg'
  exact ⟨deps, hf, Option.some.inj hg'⟩

variable (hc : Consistent reg root)

include hc

theorem reachable (h : Complete reg root ctx l) {n v : String} (hv : Reachable reg root n v) :
    (ctx.resolved.lookup n).isSome ∧ ∀ m, reg.getManifest n v = some m → n ∈ l := by
  induction hv with
  | root hdep hv =>
    obtain ⟨v', hv', hr, hm⟩ := h.deps _ hdep
    rw [hv] at hv'
    cases hv'
    exact ⟨hr, hm⟩
  | @dep n v w m dep hn hm hdep hw ih =>
    obtain ⟨l₁, l₂, hl⟩ := List.append_of_mem (ih.2 m hm)
    obtain ⟨v', m', hv', hm', -, hdeps⟩ := h.of_eq hl
    obtain rfl := hc n v v' hn hv'
    rw [hm] at hm'
    cases hm'
    obtain ⟨w', hw', hr, hmem⟩ := hdeps dep hdep
    rw [hw] at hw'
    cases hw'
    exact ⟨hr, fun m hm => hl ▸ List.mem_append_left _ (hmem m hm)⟩

theorem of_follows (h : Complete reg root ctx l) {n : String} {deps : List Dependency}
    (hf : Follows reg root n deps) : ∃ l₁ l₂, l ++ [root.name] = l₁ ++ n :: l₂ ∧
      ctx.graph.lookup n = some (deps.map Dependency.name) ∧
        ∀ dep ∈ deps, Handled reg dep ctx l₁ := by
  rcases hf with ⟨rfl, rfl⟩ | ⟨v, m, hv, hm, rfl⟩
  · exact ⟨l, [], rfl, h.graph, h.deps⟩
  · obtain ⟨l₁, l₂, hl⟩ := List.append_of_mem ((h.reachable hc hv).2 m hm)
    obtain ⟨v', m', hv', hm', hg, hdeps⟩ := h.of_eq hl
    obtain rfl := hc n v v' hv hv'
    rw [hm] at hm'
    cases hm'
    exact ⟨l₁, l₂ ++ [root.name], by simp [hl], hg, hdeps⟩

theorem mem_depsOf_iff (h : Complete reg root ctx l) {n d : String} :
    d ∈ depsOf ctx.graph n ↔ DependsOn reg root n d := by
  constructor
  · intro hd
    obtain ⟨ds, hds⟩ := Option.isSome_iff_exists.1
      (HashMap.mem_keys_iff.1 (mem_keys_of_mem_depsOf hd))
    obtain ⟨deps, hf, rfl⟩ := h.exists_of_graph hds
    rw [depsOf, hds] at hd
    obtain ⟨dep, hdep, rfl⟩ := List.mem_map.1 hd
    exact ⟨deps, hf, dep, hdep, rfl⟩
  · rintro ⟨deps, hf, dep, hdep, rfl⟩
    obtain ⟨_, _, -, hg, -⟩ := h.of_follows hc hf
    rw [depsOf, hg]
    exact List.mem_map_of_mem hdep

theorem not_unresolvable (h : Complete reg root ctx l) : ¬ Unresolvable reg root := by
  rintro ⟨n, deps, hf, dep, hdep, e, he⟩
  obtain ⟨_, _, -, -, hdeps⟩ := h.of_follows hc hf
  obtain ⟨v, hv, -⟩ := hdeps dep hdep
  rw [he] at hv
  cases hv

theorem reachable_of_dependsOn (h : Complete reg root ctx l) {n d : String}
    (hd : DependsOn reg root n d) : ∃ v, Reachable reg root d v := by
  obtain ⟨deps, hf, dep, hdep, rfl⟩ := hd
  obtain ⟨_, _, -, -, hdeps⟩ := h.of_follows hc hf
  obtain ⟨v, hv, -⟩ := hdeps dep hdep
  exact ⟨v, hf.reachable hdep hv⟩

/-- A package comes before those that depend on it. -/
theorem idxOf_lt (h : Complete reg root ctx l) (hroot : ∀ v, ¬ Reachable reg root root.name v)
    {n d : String} (hd : DependsOn reg root n d) {deps : List Dependency}
    (hf : Follows reg root d deps) :
    (l ++ [root.name]).idxOf d < (l ++ [root.name]).idxOf n := by
  obtain ⟨v, hv⟩ := h.reachable_of_dependsOn hc hd
  rcases hf with ⟨rfl, -⟩ | ⟨w, m, hw, hm, -⟩
  · exact absurd hv (hroot v)
  · obtain rfl := hc d v w hv hw
    obtain ⟨deps', hf', dep, hdep, rfl⟩ := hd
    obtain ⟨l₁, l₂, hl, -, hdeps⟩ := h.of_follows hc hf'
    obtain ⟨v', hv', -, hmem⟩ := hdeps dep hdep
    obtain rfl := hc _ v v' hv (hf'.reachable hdep hv')
    have hd := hmem m hm
    have hn : n ∉ l₁ := by
      have hnd := h.walked.nodup
      rw [hl, List.nodup_append] at hnd
      exact fun hm => hnd.2.2 _ hm _ List.mem_cons_self rfl
    rw [hl, List.idxOf_append_of_mem hd, List.idxOf_append_of_notMem hn]
    exact Nat.lt_of_lt_of_le (List.idxOf_lt_length_iff.2 hd) (Nat.le_add_right _ _)

theorem not_hasCycle (h : Complete reg root ctx l)
    (hroot : ∀ v, ¬ Reachable reg root root.name v) : ¬ HasCycle reg root := by
  rintro ⟨n, hn⟩
  have hlt : ∀ {d}, TransGen (DependsOn reg root) n d → ∀ deps, Follows reg root d deps →
      (l ++ [root.name]).idxOf d < (l ++ [root.name]).idxOf n := by
    intro d hd
    induction hd with
    | single hd => exact fun deps hf => h.idxOf_lt hc hroot hd hf
    | tail _ hd ih =>
      intro deps hf
      have hlt := h.idxOf_lt hc hroot hd hf
      obtain ⟨deps', hf', -⟩ := hd
      exact hlt.trans (ih deps' hf')
  obtain ⟨d, ⟨deps, hf, -⟩, -⟩ := TransGen.head'_iff.1 hn
  exact absurd (hlt hn deps hf) (Nat.lt_irrefl _)

theorem mem_sorted (h : Complete reg root ctx l) (hroot : ∀ v, ¬ Reachable reg root root.name v)
    {sorted : List String} (hs : Sorted ctx.graph sorted) {n : String} {deps : List Dependency}
    (hf : Follows reg root n deps) : n ∈ sorted := by
  -- the packages that depend on one come after it, so that the induction is from the end
  induction hk : (l ++ [root.name]).length - (l ++ [root.name]).idxOf n using Nat.strongRecOn
    generalizing n deps with
  | ind k ih =>
    obtain ⟨_, _, -, hg, -⟩ := h.of_follows hc hf
    refine hs.closed n (.inl (Option.isSome_of_eq_some hg)) fun m hm => ?_
    have hd := (h.mem_depsOf_iff hc).1 hm
    have hlt := h.idxOf_lt hc hroot hd hf
    obtain ⟨deps', hf', -⟩ := hd
    obtain ⟨l₁, l₂, hl, -, -⟩ := h.of_follows hc hf'
    have hmem : m ∈ l ++ [root.name] := by simp [hl]
    have := List.idxOf_lt_length_iff.2 hmem
    exact ih _ (by omega) hf' rfl

/-- The sort gets to every package that is reached, with or without manifest. -/
theorem mem_sorted_of_reachable (h : Complete reg root ctx l)
    (hroot : ∀ v, ¬ Reachable reg root root.name v) {sorted : List String}
    (hs : Sorted ctx.graph sorted) {n v : String} (hv : Reachable reg root n v) : n ∈ sorted := by
  refine hs.closed n (.inr (hv.exists_dependsOn.imp fun m => (h.mem_depsOf_iff hc).2)) fun m hm => ?_
  obtain ⟨deps, hf, -⟩ := (h.mem_depsOf_iff hc).1 hm
  exact h.mem_sorted hc hroot hs hf

omit hc in
theorem mem_keys_iff (h : Complete reg root ctx l) {n : String} :
    n ∈ ctx.graph.keys ↔ n ∈ l ++ [root.name] := by
  rw [HashMap.mem_keys_iff]
  refine ⟨h.walked.graph n, fun hn => ?_⟩
  obtain ⟨l₁, l₂, hl⟩ := List.append_of_mem hn
  obtain ⟨deps, -, hg, -⟩ := h.walked.order l₁ n l₂ hl
  exact Option.isSome_of_eq_some hg

omit hc in
theorem length_keys (h : Complete reg root ctx l) :
    ctx.graph.keys.length = (l ++ [root.name]).length :=
  ((List.perm_ext_iff_of_nodup ctx.graph.keys_nodup h.walked.nodup).2
    fun _ => h.mem_keys_iff).length_eq

theorem length_sorted (h : Complete reg root ctx l)
    (hroot : ∀ v, ¬ Reachable reg root root.name v)
    (hall : ∀ n v, Reachable reg root n v → (reg.getManifest n v).isSome) {sorted : List String}
    (hs : Sorted ctx.graph sorted) : sorted.length = ctx.graph.keys.length := by
  rw [h.length_keys]
  suffices hperm : sorted.Perm (l ++ [root.name]) from hperm.length_eq
  refine (List.perm_ext_iff_of_nodup hs.nodup h.walked.nodup).2 fun n => ⟨fun hn => ?_, ?_⟩
  · rcases hs.isNode n hn with hg | ⟨m, hm⟩
    · exact h.walked.graph n hg
    · obtain ⟨v, hv⟩ := h.reachable_of_dependsOn hc ((h.mem_depsOf_iff hc).1 hm)
      obtain ⟨m', hm'⟩ := Option.isSome_iff_exists.1 (hall n v hv)
      exact List.mem_append_left _ ((h.reachable hc hv).2 m' hm')
  · intro hn
    rcases List.mem_append.1 hn with hn | hn
    · obtain ⟨l₁, l₂, hl⟩ := List.append_of_mem hn
      obtain ⟨v, -, hv, -⟩ := h.of_eq hl
      exact h.mem_sorted_of_reachable hc hroot hs hv
    · rw [List.mem_singleton] at hn
      exact h.mem_sorted hc hroot hs (.inl ⟨hn, rfl⟩)

theorem length_sorted_ne (h : Complete reg root ctx l)
    (hroot : ∀ v, ¬ Reachable reg root root.name v) {n v : String}
    (hv : Reachable reg root n v) (hm : reg.getManifest n v = none) {sorted : List String}
    (hs : Sorted ctx.graph sorted) : sorted.length ≠ ctx.graph.keys.length := by
  have hn : n ∉ l ++ [root.name] := by
    rw [List.mem_append, List.mem_singleton, not_or]
    refine ⟨fun hn => ?_, ?_⟩
    · obtain ⟨l₁, l₂, hl⟩ := List.append_of_mem hn
      obtain ⟨w, m, hw, hm', -⟩ := h.of_eq hl
      obtain rfl := hc n v w hv hw
      rw [hm] at hm'
      cases hm'
    · rintro rfl
      exact hroot v hv
  have hsub : n :: (l ++ [root.name]) ⊆ sorted := by
    refine List.cons_subset.2 ⟨h.mem_sorted_of_reachable hc hroot hs hv, fun m hm => ?_⟩
    rcases List.mem_append.1 hm with hm | hm
    · obtain ⟨l₁, l₂, hl⟩ := List.append_of_mem hm
      obtain ⟨w, -, hw, -⟩ := h.of_eq hl
      exact h.mem_sorted_of_reachable hc hroot hs hw
    · rw [List.mem_singleton] at hm
      exact h.mem_sorted hc hroot hs (.inl ⟨hm, rfl⟩)
  have hlen := (List.subperm_of_subset (List.nodup_cons.2 ⟨hn, h.walked.nodup⟩) hsub).length_le
  rw [List.length_cons, ← h.length_keys] at hlen
  omega

theorem length_sorted_ne_of_root (h : Complete reg root ctx l) {v : String}
    (hv : Reachable reg root root.name v) {sorted : List String} (hs : Sorted ctx.graph sorted) :
    sorted.length ≠ ctx.graph.keys.length := by
  -- the first package of the sort would have to be one on which nothing depends
  have hnil : sorted = [] := by
    cases hsorted : sorted with
    | nil => rfl
    | cons d l₂ =>
      have hnone : ∀ m, d ∉ depsOf ctx.graph m := fun m hm =>
        List.not_mem_nil (hs.order [] d l₂ hsorted m hm)
      rcases hs.isNode d (by simp [hsorted]) with hg | ⟨m, hm⟩
      · rcases List.mem_append.1 (h.walked.graph d hg) with hd | hd
        · obtain ⟨l₁, l₂, hl⟩ := List.append_of_mem hd
          obtain ⟨w, -, hw, -⟩ := h.of_eq hl
          obtain ⟨m, hm⟩ := hw.exists_dependsOn
          exact absurd ((h.mem_depsOf_iff hc).2 hm) (hnone m)
        · rw [List.mem_singleton] at hd
          obtain ⟨m, hm⟩ := hv.exists_dependsOn
          exact absurd ((h.mem_depsOf_iff hc).2 (hd ▸ hm)) (hnone m)
      · exact absurd hm (hnone m)
  rw [hnil, h.length_keys]
  simp

end Complete

/-! ## The result -/

/-- A resolution is right: it has one entry for every package that is reached, each after those that
it depends on, with the version whose dependencies were followed, which meets all requirements. -/
structure RightResult (reg : PackageRegistry) (root : PackageManifest) (r : ResolveResult) :
    Prop where
  nodup : (r.packages.map ResolvedPackage.name).Nodup
  mem : ∀ n, n ∈ r.packages.map ResolvedPackage.name ↔ ∃ v, Reachable reg root n v
  order : ∀ l₁ p l₂, r.packages = l₁ ++ p :: l₂ → ∀ d, DependsOn reg root p.name d →
    d ∈ l₁.map ResolvedPackage.name
  followed : ∀ p ∈ r.packages, p.manifest = reg.getManifest p.name p.version ∧
    ∀ ds, r.graph.lookup p.name = some ds → ∃ m, p.manifest = some m ∧
      ds = m.dependencies.map Dependency.name
  satisfies : ∀ p ∈ r.packages, ∀ n deps, Follows reg root n deps → ∀ dep ∈ deps,
    dep.name = p.name → matchesPrefix dep.version p.version

/-- `resolve` gives a result; it reports a cycle only if there is one, and otherwise is right. -/
structure Resolves (it : KeyOrder String) (reg : PackageRegistry) (depth : Nat)
    (root : PackageManifest) : Prop where
  returns : resolve it reg depth root ≠ none
  circular : ∀ text, resolve it reg depth root = some (.error (.circularDependency text)) →
    HasCycle reg root
  right : ∀ r, resolve it reg depth root = some (.ok r) → RightResult reg root r

theorem removePackages_eq {names : List String} (h : names.Nodup)
    (resolved : HashMap String ResolvedPackage) :
    removePackages names resolved = names.filterMap fun name => resolved.lookup name := by
  induction names generalizing resolved with
  | nil => rfl
  | cons name names ih =>
    obtain ⟨hn, hnd⟩ := List.nodup_cons.1 h
    rw [removePackages, List.filterMap_cons]
    cases hl : resolved.lookup name with
    | none => exact ih hnd resolved
    | some p =>
      dsimp only
      rw [ih hnd]
      congr 1
      refine List.filterMap_congr fun x hx => ?_
      rw [HashMap.lookup_erase_ite, if_neg]
      rintro rfl
      exact hn hx

theorem matchesPrefix_of_findVersion {name req v : String} (h : reg.findVersion name req = .ok v) :
    matchesPrefix req v := by
  rw [PackageRegistry.findVersion] at h
  cases hi : reg.index with
  | error e =>
    rw [hi] at h
    cases h
  | ok index =>
    rw [hi] at h
    dsimp only at h
    split_ifs at h
    · cases h
      simp [matchesPrefix]
    · split at h
      · cases h
      · next hlast =>
        cases h
        have hmem := List.mem_of_getLast? hlast
        rw [List.mem_mergeSort, List.mem_filter] at hmem
        exact hmem.2

theorem map_name_filterMap {resolved : HashMap String ResolvedPackage}
    (h : ∀ d p, resolved.lookup d = some p → p.name = d) (names : List String) :
    (names.filterMap fun name => resolved.lookup name).map ResolvedPackage.name =
      names.filter fun name => (resolved.lookup name).isSome := by
  induction names with
  | nil => rfl
  | cons name names ih =>
    rw [List.filterMap_cons, List.filter_cons]
    cases hl : resolved.lookup name with
    | none => exact ih
    | some p =>
      rw [List.map_cons, h name p hl, ih]
      rfl

/-- After a walk that gets to manifests only, what is sorted is right. -/
theorem Complete.rightResult {ctx : ResolveContext} {l : List String}
    (h : Complete reg root ctx l) (hc : Consistent reg root)
    (hroot : ∀ v, ¬ Reachable reg root root.name v) {sorted : List String}
    (hs : Sorted ctx.graph sorted) :
    RightResult reg root ⟨removePackages sorted.reverse ctx.resolved, ctx.graph⟩ := by
  have hmap := map_name_filterMap (fun d p hp => (h.walked.resolved d p hp).1) sorted.reverse
  have hmem : ∀ p ∈ sorted.reverse.filterMap fun name => ctx.resolved.lookup name,
      ctx.resolved.lookup p.name = some p := by
    intro p hp
    obtain ⟨n, -, hn⟩ := List.mem_filterMap.1 hp
    rwa [(h.walked.resolved n p hn).1]
  have hnodup := List.nodup_reverse.2 hs.nodup
  rw [removePackages_eq hnodup]
  refine ⟨?_, ?_, ?_, ?_, ?_⟩
  · rw [hmap]
    exact hnodup.filter _
  · intro n
    rw [hmap, List.mem_filter, List.mem_reverse]
    constructor
    · rintro ⟨-, hn⟩
      obtain ⟨p, hp⟩ := Option.isSome_iff_exists.1 hn
      exact ⟨p.version, (h.walked.resolved n p hp).2.1⟩
    · rintro ⟨v, hv⟩
      exact ⟨h.mem_sorted_of_reachable hc hroot hs hv, (h.reachable hc hv).1⟩
  · intro l₁ p l₂ hl d hd
    obtain ⟨v, hv⟩ := h.reachable_of_dependsOn hc hd
    have hsome := (h.reachable hc hv).1
    obtain ⟨k₁, k₂, hk, rfl, hk₂⟩ := List.filterMap_eq_append_iff.1 hl
    obtain ⟨k, n, k', rfl, hnone, hn, rfl⟩ := List.filterMap_eq_cons_iff.1 hk₂
    obtain rfl := (h.walked.resolved n p hn).1
    have hsorted : sorted = k'.reverse ++ p.name :: (k₁ ++ k).reverse := by
      rw [← List.reverse_reverse sorted, hk]
      simp
    have hmem := hs.mem_of_mem_depsOf hsorted ((h.mem_depsOf_iff hc).2 hd)
      (h.mem_sorted_of_reachable hc hroot hs hv)
    rw [List.mem_reverse, List.mem_append] at hmem
    rw [map_name_filterMap fun d p hp => (h.walked.resolved d p hp).1, List.mem_filter]
    rcases hmem with hmem | hmem
    · exact ⟨hmem, hsome⟩
    · rw [hnone d hmem] at hsome
      cases hsome
  · intro p hp
    obtain ⟨-, hv, hm⟩ := h.walked.resolved p.name p (hmem p hp)
    refine ⟨hm, fun ds hds => ?_⟩
    obtain ⟨deps, hf, rfl⟩ := h.exists_of_graph hds
    rcases hf with ⟨hn, -⟩ | ⟨w, m, hw, hm', rfl⟩
    · exact absurd (hn ▸ hv) (hroot _)
    · obtain rfl := hc p.name _ _ hv hw
      exact ⟨m, hm.trans hm', rfl⟩
  · intro p hp n deps hf dep hdep hn
    obtain ⟨-, hv, -⟩ := h.walked.resolved p.name p (hmem p hp)
    obtain ⟨_, _, -, -, hdeps⟩ := h.of_follows hc hf
    obtain ⟨w, hw, -⟩ := hdeps dep hdep
    obtain rfl := hc p.name _ _ hv (hn ▸ hf.reachable hdep hw)
    exact matchesPrefix_of_findVersion hw

/-- If all requirements of a package are met by the same version, or the walk does not get past them,
then the resolution is right exactly if every package has a manifest, or there is a cycle or a
requirement that cannot be met. -/
theorem resolve_iff (it : KeyOrder String) {depth : Nat}
    (hdepth : (names reg root).card < depth) (hc : GetsThrough reg root → Consistent reg root) :
    Resolves it reg depth root ↔
      (∀ n v, Reachable reg root n v → (reg.getManifest n v).isSome) ∨ HasCycle reg root ∨
        Unresolvable reg root := by
  have hwalk := resolveRecursive_root hdepth
  have hresolve := resolve.eq_1 it reg depth root
  generalize hr : resolveRecursive reg depth _ _ _ = r at hwalk hresolve
  cases hwalk with
  | @cycle text hcycle =>
    refine iff_of_true ⟨?_, fun _ _ => hcycle, ?_⟩ (.inr (.inl hcycle)) <;> simp [hresolve]
  | @error e he hun =>
    refine iff_of_true ⟨?_, fun text ht => ?_, ?_⟩ (.inr (.inr hun))
    · simp [hresolve]
    · rw [hresolve] at ht
      cases ht
      exact absurd rfl (he text)
    · simp [hresolve]
  | @ok ctx done hw hg hgoal =>
    obtain ⟨l, rfl, hgraph, hdeps⟩ := hgoal
    obtain ⟨-, ⟨hroot, -⟩ | ⟨-, -, done, hpass, -⟩⟩ := passed_of_resolveRecursive hr
    · exact absurd hroot (Finset.notMem_empty _)
    have hc := hc ⟨done, by simpa using hpass⟩
    have h : Complete reg root ctx l := ⟨hw, hgraph, hdeps⟩
    obtain ⟨sorted, hs, hok, herr⟩ := topologicalSort_eq it ctx.graph
    dsimp only at hresolve
    by_cases hroot : ∃ v, Reachable reg root root.name v
    · obtain ⟨v, hv⟩ := hroot
      have hcycle : HasCycle reg root := ⟨root.name, hv.transGen⟩
      obtain ⟨text, ht⟩ := herr (h.length_sorted_ne_of_root hc hv hs)
      rw [ht] at hresolve
      refine iff_of_true ⟨?_, fun _ _ => hcycle, ?_⟩ (.inr (.inl hcycle)) <;> simp [hresolve]
    rw [not_exists] at hroot
    have hcycle := h.not_hasCycle hc hroot
    by_cases hall : ∀ n v, Reachable reg root n v → (reg.getManifest n v).isSome
    · rw [hok (h.length_sorted hc hroot hall hs)] at hresolve
      refine iff_of_true ⟨?_, ?_, fun r hr => ?_⟩ (.inl hall)
      · simp [hresolve]
      · simp [hresolve]
      · rw [hresolve] at hr
        cases hr
        exact h.rightResult hc hroot hs
    · refine iff_of_false (fun hres => ?_) ?_
      · simp only [not_forall] at hall
        obtain ⟨n, v, hv, hm⟩ := hall
        obtain ⟨text, ht⟩ := herr (h.length_sorted_ne hc hroot hv (by simpa using hm) hs)
        rw [ht] at hresolve
        exact hcycle (hres.circular text hresolve)
      · exact not_or.2 ⟨hall, not_or.2 ⟨hcycle, h.not_unresolvable hc⟩⟩

/-- Two packages with a common dependency, of which the second asks for a version. -/
def diamond (version : String) : PackageRegistry where
  index := .ok ((((∅ : HashMap String (List String)).insert "a" ["1"]).insert "b" ["1"]).insert "c"
    ["1", "2"])
  getManifest n v :=
    if (n, v) = ("a", "1") then some ⟨n, v, [⟨"c", "1"⟩]⟩
    else if (n, v) = ("b", "1") then some ⟨n, v, [⟨"c", version⟩]⟩
    else if (n, v) = ("c", "1") then some ⟨n, v, []⟩
    else if (n, v) = ("c", "2") then some ⟨n, v, [⟨"d", "1"⟩]⟩
    else none

def app : PackageManifest := ⟨"app", "1", [⟨"a", "1"⟩, ⟨"b", "1"⟩]⟩

theorem mem_of_reachable_diamond {n v : String} (h : Reachable (diamond "1") app n v) :
    (n, v) ∈ [("a", "1"), ("b", "1"), ("c", "1")] := by
  have hfind : ∀ n ∈ ["a", "b", "c"], (diamond "1").findVersion n "1" = .ok "1" := by
    decide +kernel
  induction h with
  | root hdep hv =>
    simp only [app, List.mem_cons, List.not_mem_nil, or_false] at hdep
    rcases hdep with rfl | rfl
    · rw [hfind "a" (by decide)] at hv
      cases hv
      decide
    · rw [hfind "b" (by decide)] at hv
      cases hv
      decide
  | @dep n v w m dep hn hm hdep hw ih =>
    simp only [List.mem_cons, Prod.mk.injEq, List.not_mem_nil, or_false] at ih
    have hc : dep = ⟨"c", "1"⟩ := by
      rcases ih with ⟨rfl, rfl⟩ | ⟨rfl, rfl⟩ | ⟨rfl, rfl⟩
      all_goals
        simp [diamond] at hm
        subst hm
        simp at hdep
      · exact hdep
      · exact hdep
    subst hc
    rw [hfind "c" (by decide)] at hw
    cases hw
    decide

theorem resolve_diamond : Resolves .id (diamond "1") 5 app := by
  refine (resolve_iff .id (by decide +kernel) fun _ n v w hv hw => ?_).2 (.inl fun n v hv => ?_)
  · have hv := mem_of_reachable_diamond hv
    have hw := mem_of_reachable_diamond hw
    simp at hv hw
    grind
  · have hv := mem_of_reachable_diamond hv
    simp at hv
    rcases hv with ⟨rfl, rfl⟩ | ⟨rfl, rfl⟩ | ⟨rfl, rfl⟩ <;> decide +kernel

/-- A registry with a package that has no manifest. -/
def leaf : PackageRegistry where
  index := .ok ((∅ : HashMap String (List String)).insert "a" ["1"])
  getManifest _ _ := none

/-- A package without manifest is taken for a cycle; and a requirement that is met later replaces
the version whose dependencies have been followed. -/
theorem resolve_fails : ¬ Resolves .id leaf 3 ⟨"app", "1", [⟨"a", "1"⟩]⟩ ∧
    ¬ Resolves .id (diamond "2") 6 app := by
  constructor
  · intro h
    have hres : resolve .id leaf 3 ⟨"app", "1", [⟨"a", "1"⟩]⟩ =
        some (.error (.circularDependency "")) := by rfl
    obtain ⟨n, hn⟩ := h.circular "" hres
    have hstep : ∀ {n d}, DependsOn leaf ⟨"app", "1", [⟨"a", "1"⟩]⟩ n d → n = "app" ∧ d = "a" := by
      rintro n d ⟨deps, ⟨rfl, rfl⟩ | ⟨v, m, -, hm, -⟩, dep, hdep, rfl⟩
      · simp at hdep
        simp [hdep]
      · cases hm
    obtain ⟨d, hd, -⟩ := TransGen.head'_iff.1 hn
    obtain ⟨c, -, hc⟩ := TransGen.tail'_iff.1 hn
    exact absurd ((hstep hd).1.symm.trans (hstep hc).2) (by decide)
  · intro h
    obtain ⟨r, hr, hp, hg⟩ : ∃ r, resolve .id (diamond "2") 6 app = some (.ok r) ∧
        ⟨"c", "2", some ⟨"c", "2", [⟨"d", "1"⟩]⟩⟩ ∈ r.packages ∧ r.graph.lookup "c" = some [] :=
      ⟨_, rfl, by decide +kernel, by decide +kernel⟩
    obtain ⟨-, hfollowed⟩ := (h.right r hr).followed _ hp
    obtain ⟨m, hm, hds⟩ := hfollowed [] hg
    cases hm
    cases hds

end Vuma.Package
