import Vuma.IR.Footprint

/-!
# Sequentialising parallel copies

`IRBuilder::emit_parallel_copies` of `scg_to_ir.rs`: a list of pairs `(dst, src)`, to be executed
in parallel, becomes a sequence of `Add { dst, src, 0 }`. Each iteration emits the first pending
copy whose *source* is not the destination of a pending copy; when there is none, the source of
the first pending copy is saved in a fresh temporary.

The test looks at the wrong side of the copy. Emitting `b := c` is harmless for the value of `c`,
but it destroys `b`, which a pending `a := b` still has to read; that copy only becomes ready
once `b` has been overwritten. Breaking a cycle does not help: the copy whose source was saved is
emitted next and overwrites a register the cycle still reads. So the emitted sequence implements
the parallel copy exactly when no source is a destination (`emitParallelCopies_correct_iff`). The
loop itself always terminates.
-/

namespace Vuma.Codegen

open IR

/-- A pending copy `(dst, src)`. -/
abbrev Copy := IRValue × IRValue

/-- `make_copy`: `dst = src + 0`. -/
def makeCopy (c : Copy) : IRInstr := .add c.1 c.2 (.immediate 0) none

/-- The value is a register that some pending copy is about to overwrite. -/
def conflicts (copies : List Copy) : IRValue → Bool
  | .register r => copies.any (fun c => c.1 == .register r)
  | _ => false

/-- Replace the pending uses of `r` by the temporary `temp`. -/
def retarget (r temp : VReg) (c : Copy) : Copy :=
  if c.2 = .register r then (c.1, .register temp) else c

/-- The body of the `while` loop: the copy it emits, the copies left and the next free register.
`none` once nothing is pending. -/
def copyStep (copies : List Copy) (nextVreg : VReg) : Option (Copy × List Copy × VReg) :=
  match copies with
  | [] => none
  | c :: cs =>
    match (c :: cs).findIdx? (fun p => !conflicts (c :: cs) p.2) with
    | some i => some ((c :: cs).getD i c, (c :: cs).eraseIdx i, nextVreg)
    | none =>
      match c.2 with
      | .register r =>
        some ((.register nextVreg, .register r), (c :: cs).map (retarget r nextVreg),
          nextVreg + 1)
      -- "Shouldn't happen": an immediate never conflicts
      | _ => some (c, cs, nextVreg)

/-- The first `n` iterations of the loop: the copies emitted, the copies left, the next free
register. -/
def copyLoop : Nat → List Copy → VReg → List Copy × List Copy × VReg
  | 0, copies, next => ([], copies, next)
  | n + 1, copies, next =>
    match copyStep copies next with
    | none => ([], [], next)
    | some (c, copies', next') =>
      let r := copyLoop n copies' next'
      (c :: r.1, r.2)

/-- `IRBuilder::emit_parallel_copies`: the emitted instructions and the next free register. Twice
the number of copies bounds the iterations (`copyLoop_pending`). -/
def emitParallelCopies (copies : List Copy) (nextVreg : VReg) : List IRInstr × VReg :=
  let r := copyLoop (2 * copies.length) copies nextVreg
  (r.1.map makeCopy, r.2.2)

/-- Destinations are pairwise distinct registers, no copy is a self copy, and the allocator's next
register is above every register in use. -/
structure WellFormed (copies : List Copy) (nextVreg : VReg) : Prop where
  dst_register : ∀ c ∈ copies, ∃ r, c.1 = .register r
  dst_nodup : (copies.map Prod.fst).Nodup
  dst_ne_src : ∀ c ∈ copies, c.1 ≠ c.2
  fresh : ∀ c ∈ copies, ∀ r, c.1 = .register r ∨ c.2 = .register r → r < nextVreg

/-! ## One iteration -/

theorem conflicts_iff {copies : List Copy} {v : IRValue} (h : ∀ c ∈ copies, ∃ r, c.1 = .register r) :
    conflicts copies v = true ↔ ∃ c ∈ copies, c.1 = v := by
  constructor
  · intro hv
    cases v with
    | register r =>
      obtain ⟨c, hc, he⟩ := List.any_eq_true.mp hv
      exact ⟨c, hc, by simpa using he⟩
    | _ => simp [conflicts] at hv
  · rintro ⟨c, hc, rfl⟩
    obtain ⟨r, hr⟩ := h c hc
    rw [hr]
    exact List.any_eq_true.mpr ⟨c, hc, by simp [hr]⟩

theorem conflicts_false_iff {copies : List Copy} {v : IRValue}
    (h : ∀ c ∈ copies, ∃ r, c.1 = .register r) :
    conflicts copies v = false ↔ ∀ c ∈ copies, c.1 ≠ v := by
  rw [← Bool.not_eq_true, conflicts_iff h]
  exact ⟨fun hn c hc e => hn ⟨c, hc, e⟩, fun hn ⟨c, hc, e⟩ => hn c hc e⟩

/-- What one iteration can do: emit a copy that does not conflict, or, when every pending copy
conflicts, save the source of the first one. -/
theorem copyStep_cases {copies : List Copy} (next : VReg) (hne : copies ≠ []) :
    (∃ pre c post, copies = pre ++ c :: post ∧ conflicts copies c.2 = false ∧
        copyStep copies next = some (c, pre ++ post, next)) ∨
    (∃ d r cs, copies = (d, .register r) :: cs ∧ (∀ c ∈ copies, conflicts copies c.2 = true) ∧
        copyStep copies next = some ((.register next, .register r),
          copies.map (retarget r next), next + 1)) := by
  obtain ⟨c, cs, rfl⟩ := List.exists_cons_of_ne_nil hne
  cases hi : (c :: cs).findIdx? (fun p => !conflicts (c :: cs) p.2) with
  | some i =>
    left
    obtain ⟨hlt, hp, -⟩ := List.findIdx?_eq_some_iff_getElem.mp hi
    refine ⟨(c :: cs).take i, (c :: cs)[i], (c :: cs).drop (i + 1), ?_, ?_, ?_⟩
    · rw [List.getElem_cons_drop, List.take_append_drop]
    · simpa using hp
    · simp only [copyStep, hi]
      rw [List.getD_eq_getElem?_getD, List.getElem?_eq_getElem hlt, Option.getD_some,
        List.eraseIdx_eq_take_drop_succ]
  | none =>
    right
    have hall : ∀ p ∈ c :: cs, conflicts (c :: cs) p.2 = true := by
      intro p hp
      have := List.findIdx?_eq_none_iff.mp hi p hp
      simpa using this
    obtain ⟨d, s⟩ := c
    cases s with
    | register r => exact ⟨d, r, cs, rfl, hall, by simp only [copyStep, hi]⟩
    | _ => exact absurd (hall _ List.mem_cons_self) (by simp [conflicts])

@[simp] theorem retarget_fst (r temp : VReg) (c : Copy) : (retarget r temp c).1 = c.1 := by
  unfold retarget
  split <;> rfl

theorem retarget_snd (r temp : VReg) (c : Copy) :
    (c.2 = .register r ∧ (retarget r temp c).2 = .register temp) ∨
      (c.2 ≠ .register r ∧ retarget r temp c = c) := by
  unfold retarget
  split
  · exact .inl ⟨‹_›, rfl⟩
  · exact .inr ⟨‹_›, rfl⟩

theorem WellFormed.erase {pre post : List Copy} {c : Copy} {next : VReg}
    (h : WellFormed (pre ++ c :: post) next) : WellFormed (pre ++ post) next := by
  have hsub : (pre ++ post).Sublist (pre ++ c :: post) :=
    List.Sublist.append_left (List.sublist_cons_self c post) pre
  refine ⟨fun d hd => h.dst_register d (hsub.subset hd), ?_,
    fun d hd => h.dst_ne_src d (hsub.subset hd), fun d hd => h.fresh d (hsub.subset hd)⟩
  exact h.dst_nodup.sublist (hsub.map Prod.fst)

theorem WellFormed.retarget {copies : List Copy} {next : VReg} (h : WellFormed copies next)
    (r : VReg) : WellFormed (copies.map (retarget r next)) (next + 1) := by
  refine ⟨?_, ?_, ?_, ?_⟩
  · intro c hc
    obtain ⟨d, hd, rfl⟩ := List.mem_map.mp hc
    simpa using h.dst_register d hd
  · rw [List.map_map]
    have : Prod.fst ∘ Codegen.retarget r next = (Prod.fst : Copy → IRValue) := by
      funext c
      exact retarget_fst r next c
    rw [this]
    exact h.dst_nodup
  · intro c hc
    obtain ⟨d, hd, rfl⟩ := List.mem_map.mp hc
    rcases retarget_snd r next d with ⟨-, h2⟩ | ⟨-, h2⟩
    · rw [retarget_fst, h2]
      intro e
      exact absurd (h.fresh d hd next (.inl e)) (Nat.lt_irrefl next)
    · rw [h2]
      exact h.dst_ne_src d hd
  · intro c hc q hq
    obtain ⟨d, hd, rfl⟩ := List.mem_map.mp hc
    rcases retarget_snd r next d with ⟨-, h2⟩ | ⟨-, h2⟩
    · rw [retarget_fst, h2] at hq
      rcases hq with hq | hq
      · exact Nat.lt_succ_of_lt (h.fresh d hd q (.inl hq))
      · cases hq
        exact Nat.lt_succ_self next
    · rw [h2] at hq
      exact Nat.lt_succ_of_lt (h.fresh d hd q hq)

/-- The destination of a copy is not the destination of another one. -/
theorem WellFormed.dst_unique {pre post : List Copy} {c : Copy} {next : VReg}
    (h : WellFormed (pre ++ c :: post) next) : ∀ d ∈ pre ++ post, d.1 ≠ c.1 := by
  have hnd := h.dst_nodup
  rw [List.map_append, List.map_cons, List.nodup_middle, List.nodup_cons] at hnd
  intro d hd e
  apply hnd.1
  rw [← List.map_append, ← e]
  exact List.mem_map_of_mem hd

/-! ## Termination -/

/-- Twice the pending copies, less one when the first is ready. An iteration that only saves a
source makes the first copy ready. -/
def loopBound (copies : List Copy) : Nat :=
  match copies with
  | [] => 0
  | c :: cs => 2 * cs.length + if conflicts (c :: cs) c.2 then 2 else 1

theorem loopBound_le (copies : List Copy) : loopBound copies ≤ 2 * copies.length := by
  cases copies with
  | nil => exact Nat.le_refl 0
  | cons c cs =>
    simp only [loopBound, List.length_cons]
    split <;> omega

theorem loopBound_retarget {d : IRValue} {r next : VReg} {cs : List Copy}
    (h : WellFormed ((d, .register r) :: cs) next)
    (hc : conflicts ((d, .register r) :: cs) (.register r) = true) :
    loopBound (((d, .register r) :: cs).map (retarget r next)) <
      loopBound ((d, .register r) :: cs) := by
  have hready : conflicts (((d, .register r) :: cs).map (retarget r next))
      (.register next) = false := by
    rw [conflicts_false_iff (h.retarget r).dst_register]
    intro c hcm e
    obtain ⟨c', hc', rfl⟩ := List.mem_map.mp hcm
    rw [retarget_fst] at e
    exact absurd (h.fresh c' hc' next (.inl e)) (Nat.lt_irrefl next)
  have hhead : retarget r next (d, .register r) = (d, .register next) := by simp [retarget]
  rw [List.map_cons, hhead] at hready ⊢
  simp only [loopBound, hc, hready, List.length_map, if_true, Bool.false_eq_true, if_false]
  omega

/-- The loop empties the worklist within `loopBound` iterations. -/
theorem copyLoop_pending {n : Nat} {copies : List Copy} {next : VReg} (h : WellFormed copies next)
    (hn : loopBound copies ≤ n) : (copyLoop n copies next).2.1 = [] := by
  induction n generalizing copies next with
  | zero =>
    cases copies with
    | nil => rfl
    | cons c cs =>
      simp only [loopBound] at hn
      split at hn <;> omega
  | succ n ih =>
    by_cases hne : copies = []
    · subst hne
      rfl
    · rcases copyStep_cases next hne with
        ⟨pre, c, post, rfl, -, hs⟩ | ⟨d, r, cs, rfl, hall, hs⟩
      · simp only [copyLoop, hs]
        refine ih h.erase (Nat.le_trans (loopBound_le _) ?_)
        have hpos : 2 * (pre ++ post).length + 1 ≤ loopBound (pre ++ c :: post) := by
          cases pre with
          | nil =>
            simp only [List.nil_append, loopBound]
            split <;> omega
          | cons p ps =>
            simp only [List.cons_append, loopBound, List.length_cons, List.length_append]
            split <;> omega
        omega
      · simp only [copyLoop, hs]
        have := loopBound_retarget h (hall _ List.mem_cons_self)
        exact ih (h.retarget r) (by omega)

/-- Further iterations change nothing once the worklist is empty. -/
theorem copyLoop_of_pending_nil {n m : Nat} {copies : List Copy} {next : VReg}
    (h : (copyLoop n copies next).2.1 = []) (hnm : n ≤ m) :
    copyLoop m copies next = copyLoop n copies next := by
  induction n generalizing m copies next with
  | zero =>
    simp only [copyLoop] at h
    subst h
    cases m <;> rfl
  | succ n ih =>
    obtain ⟨m, rfl⟩ : ∃ k, m = k + 1 := ⟨m - 1, by omega⟩
    simp only [copyLoop] at h ⊢
    cases hs : copyStep copies next with
    | none => rfl
    | some r =>
      obtain ⟨c, copies', next'⟩ := r
      rw [hs] at h
      simp only [ih (m := m) h (by omega)]

/-! ## Executing the copies -/

/-- The register file after one copy. -/
def applyCopy (M : Machine) (σ : Regs) (c : Copy) : Regs := σ.write (c.1, c.2.eval M σ)

/-- The register file after a sequence of copies. -/
def applyCopies (M : Machine) (σ : Regs) (cs : List Copy) : Regs := cs.foldl (applyCopy M) σ

theorem execInstrs_makeCopy (M : Machine) (label : String) (pred : Option String) (edge : Regs)
    (cs : List Copy) (σ : Regs) (w : World) :
    execInstrs M label pred edge (cs.map makeCopy) σ w = .stay (applyCopies M σ cs) w := by
  induction cs generalizing σ with
  | nil => rfl
  | cons c cs ih =>
    rw [List.map_cons, execInstrs_cons, makeCopy, IRInstr.effect_copy]
    exact ih (applyCopy M σ c)

theorem eval_applyCopy_of_ne (M : Machine) {σ : Regs} {c : Copy} {v : IRValue} (h : c.1 ≠ v) :
    v.eval M (applyCopy M σ c) = v.eval M σ := by
  refine IRValue.eval_congr M (fun r hr => Regs.write_of_ne ?_)
  rw [IRValue.mem_regs] at hr
  rwa [← hr]

theorem eval_applyCopy_self (M : Machine) (σ : Regs) {c : Copy} {r : VReg}
    (h : c.1 = .register r) : c.1.eval M (applyCopy M σ c) = c.2.eval M σ := by
  simp [applyCopy, h, IRValue.eval, Regs.write]

theorem copyLoop_next_le (n : Nat) (copies : List Copy) (next : VReg) :
    next ≤ (copyLoop n copies next).2.2 := by
  induction n generalizing copies next with
  | zero => exact Nat.le_refl next
  | succ n ih =>
    by_cases hne : copies = []
    · subst hne
      exact Nat.le_refl next
    · rcases copyStep_cases next hne with ⟨_, _, _, _, _, hs⟩ | ⟨_, _, _, _, _, hs⟩
      · simp only [copyLoop, hs]
        exact ih _ next
      · simp only [copyLoop, hs]
        exact Nat.le_of_succ_le (ih _ (next + 1))

/-- The loop leaves alone every register that is neither a destination nor a temporary. -/
theorem copyLoop_frame (M : Machine) {n : Nat} {copies : List Copy} {next : VReg} {v : IRValue}
    (hv : ∀ c ∈ copies, c.1 ≠ v)
    (hv' : ∀ t, next ≤ t → t < (copyLoop n copies next).2.2 → v ≠ .register t) (σ : Regs) :
    v.eval M (applyCopies M σ (copyLoop n copies next).1) = v.eval M σ := by
  induction n generalizing copies next σ with
  | zero => rfl
  | succ n ih =>
    by_cases hne : copies = []
    · subst hne
      rfl
    · rcases copyStep_cases next hne with
        ⟨pre, c, post, rfl, -, hs⟩ | ⟨d, r, cs, rfl, -, hs⟩
      · simp only [copyLoop, hs] at hv' ⊢
        have hrest := @ih (pre ++ post) next
          (fun d hd => hv d (by simp only [List.mem_append, List.mem_cons] at hd ⊢; tauto)) hv'
          (applyCopy M σ c)
        rw [applyCopies, List.foldl_cons, ← applyCopies, hrest]
        exact eval_applyCopy_of_ne M (hv c (by simp))
      · simp only [copyLoop, hs] at hv' ⊢
        have hrest := @ih (((d, .register r) :: cs).map (retarget r next)) (next + 1) (fun c hc => by
            obtain ⟨c', hc', rfl⟩ := List.mem_map.mp hc
            rw [retarget_fst]
            exact hv c' hc') (fun t ht => hv' t (Nat.le_of_succ_le ht))
          (applyCopy M σ (.register next, .register r))
        rw [applyCopies, List.foldl_cons, ← applyCopies, hrest]
        exact eval_applyCopy_of_ne M
          (Ne.symm (hv' next (Nat.le_refl next) (copyLoop_next_le n _ (next + 1))))

/-- A copy whose source is not about to be overwritten is executed correctly. -/
theorem copyLoop_ready (M : Machine) {n : Nat} {copies : List Copy} {next : VReg}
    (h : WellFormed copies next) (hdone : (copyLoop n copies next).2.1 = []) {p : Copy}
    (hp : p ∈ copies) (hready : ∀ c ∈ copies, c.1 ≠ p.2) (σ : Regs) :
    p.1.eval M (applyCopies M σ (copyLoop n copies next).1) = p.2.eval M σ := by
  induction n generalizing copies next σ with
  | zero =>
    simp only [copyLoop] at hdone
    simp [hdone] at hp
  | succ n ih =>
    rcases copyStep_cases next (List.ne_nil_of_mem hp) with
      ⟨pre, c, post, rfl, -, hs⟩ | ⟨d, r, cs, rfl, hall, hs⟩
    · simp only [copyLoop, hs] at hdone ⊢
      rw [applyCopies, List.foldl_cons, ← applyCopies]
      by_cases hcp : c = p
      · subst hcp
        -- the copy itself: its destination is not written again
        obtain ⟨q, hq⟩ := h.dst_register c hp
        have hframe := @copyLoop_frame M n (pre ++ post) next c.1 h.dst_unique
          (fun t ht _ e => absurd (h.fresh c hp t (.inl e)) (Nat.not_lt.mpr ht))
          (applyCopy M σ c)
        rw [hframe, eval_applyCopy_self M σ hq]
      · have hp' : p ∈ pre ++ post := by
          simp only [List.mem_append, List.mem_cons] at hp ⊢
          rcases hp with hp | rfl | hp
          · exact .inl hp
          · exact absurd rfl hcp
          · exact .inr hp
        have hsub : ∀ c' ∈ pre ++ post, c'.1 ≠ p.2 := fun c' hc' =>
          hready c' (by simp only [List.mem_append, List.mem_cons] at hc' ⊢; tauto)
        rw [ih h.erase hdone hp' hsub, eval_applyCopy_of_ne M (hready c (by simp))]
    · obtain ⟨c, hc, e⟩ := (conflicts_iff h.dst_register).mp (hall p hp)
      exact absurd e (hready c hc)

/-- A source that is about to be overwritten is read too late: some copy receives the new value
of its source instead of the old one. -/
theorem copyLoop_conflict {n : Nat} {copies : List Copy} {next : VReg}
    (h : WellFormed copies next) (hdone : (copyLoop n copies next).2.1 = [])
    (hconf : ∃ p ∈ copies, ∃ q ∈ copies, p.2 = q.1) :
    ∃ p ∈ copies, ∃ q ∈ copies, p.2 = q.1 ∧ ∀ M σ,
      p.1.eval M (applyCopies M σ (copyLoop n copies next).1) = q.2.eval M σ := by
  induction n generalizing copies next with
  | zero =>
    simp only [copyLoop] at hdone
    obtain ⟨p, hp, -⟩ := hconf
    simp [hdone] at hp
  | succ n ih =>
    obtain ⟨p₀, hp₀, q₀, hq₀, hpq₀⟩ := hconf
    rcases copyStep_cases next (List.ne_nil_of_mem hp₀) with
      ⟨pre, c, post, rfl, hready, hs⟩ | ⟨d, r, cs, rfl, hall, hs⟩
    · simp only [copyLoop, hs] at hdone ⊢
      have hmem : ∀ {x : Copy}, x ∈ pre ++ post → x ∈ pre ++ c :: post := by
        intro x hx
        simp only [List.mem_append, List.mem_cons] at hx ⊢
        tauto
      have hmem' : ∀ {x : Copy}, x ∈ pre ++ c :: post → x ≠ c → x ∈ pre ++ post := by
        intro x hx hne
        simp only [List.mem_append, List.mem_cons] at hx ⊢
        tauto
      have hc : c ∈ pre ++ c :: post := by simp
      have hready' := (conflicts_false_iff h.dst_register).mp hready
      by_cases hread : ∃ p ∈ pre ++ post, p.2 = c.1
      · -- `c` overwrites the source of `p`, which thereby becomes ready
        obtain ⟨p, hp, hpc⟩ := hread
        refine ⟨p, hmem hp, c, hc, hpc, fun M σ => ?_⟩
        obtain ⟨q, hq⟩ := h.dst_register c hc
        rw [applyCopies, List.foldl_cons, ← applyCopies,
          copyLoop_ready M h.erase hdone hp (fun c' hc' => hpc ▸ h.dst_unique c' hc'), hpc,
          eval_applyCopy_self M σ hq]
      · -- the conflict is among the copies left
        have hne : ∀ x ∈ pre ++ post, c.1 ≠ x.2 := fun x hx e => hread ⟨x, hx, e.symm⟩
        have hp₀c : p₀ ≠ c := fun e => hready' q₀ hq₀ (by rw [← hpq₀, e])
        have hq₀c : q₀ ≠ c := fun e => hne p₀ (hmem' hp₀ hp₀c) (by rw [hpq₀, e])
        obtain ⟨p, hp, q, hq, hpq, hval⟩ :=
          ih h.erase hdone ⟨p₀, hmem' hp₀ hp₀c, q₀, hmem' hq₀ hq₀c, hpq₀⟩
        refine ⟨p, hmem hp, q, hmem hq, hpq, fun M σ => ?_⟩
        rw [applyCopies, List.foldl_cons, ← applyCopies, hval,
          eval_applyCopy_of_ne M (hne q hq)]
    · simp only [copyLoop, hs] at hdone ⊢
      -- the copy that overwrites `r` conflicts with another one, before and after the saving
      have hhead : ((d, .register r) : Copy) ∈ (d, IRValue.register r) :: cs :=
        List.mem_cons_self
      obtain ⟨q₁, hq₁, hq₁r⟩ := (conflicts_iff h.dst_register).mp (hall _ hhead)
      obtain ⟨q₂, hq₂, hq₂₁⟩ := (conflicts_iff h.dst_register).mp (hall q₁ hq₁)
      have hq₁keep : retarget r next q₁ = q₁ := by
        rcases retarget_snd r next q₁ with ⟨e, -⟩ | ⟨-, e⟩
        · exact absurd (hq₁r.trans e.symm) (h.dst_ne_src q₁ hq₁)
        · exact e
      obtain ⟨p', hp', q', hq', hpq, hval⟩ := ih (h.retarget r) hdone
        ⟨q₁, List.mem_map.mpr ⟨q₁, hq₁, hq₁keep⟩, retarget r next q₂,
          List.mem_map_of_mem hq₂, by rw [retarget_fst, hq₂₁]⟩
      obtain ⟨p, hp, rfl⟩ := List.mem_map.mp hp'
      obtain ⟨q, hq, rfl⟩ := List.mem_map.mp hq'
      have hpkeep : retarget r next p = p := by
        rcases retarget_snd r next p with ⟨-, e⟩ | ⟨-, e⟩
        · rw [e, retarget_fst] at hpq
          exact absurd (h.fresh q hq next (.inl hpq.symm)) (Nat.lt_irrefl next)
        · exact e
      rw [hpkeep, retarget_fst] at hpq
      refine ⟨p, hp, q, hq, hpq, fun M σ => ?_⟩
      have hval' := hval M (applyCopy M σ (.register next, .register r))
      rw [retarget_fst] at hval'
      rw [applyCopies, List.foldl_cons, ← applyCopies, hval']
      rcases retarget_snd r next q with ⟨e, e'⟩ | ⟨-, e⟩
      · rw [e, e']
        exact eval_applyCopy_self M σ (c := (.register next, .register r)) rfl
      · rw [e]
        refine eval_applyCopy_of_ne M (fun e' => ?_)
        exact absurd (h.fresh q hq next (.inr e'.symm)) (Nat.lt_irrefl next)

/-! ## Correctness -/

/-- The emitted instructions implement the parallel copy: each destination ends up with the value
its source had before the first instruction, and no other register changes except the
temporaries `next, …, next' - 1`. -/
def CopiesCorrect (copies : List Copy) (next : VReg) : Prop :=
  ∀ (M : Machine) (label : String) (pred : Option String) (edge σ : Regs) (w : World),
    ∃ σ', execInstrs M label pred edge (emitParallelCopies copies next).1 σ w = .stay σ' w ∧
      (∀ c ∈ copies, c.1.eval M σ' = c.2.eval M σ) ∧
      ∀ r, (∀ c ∈ copies, c.1 ≠ .register r) →
        (r < next ∨ (emitParallelCopies copies next).2 ≤ r) → σ' r = σ r

theorem execInstrs_emitParallelCopies (M : Machine) (label : String) (pred : Option String)
    (edge : Regs) (copies : List Copy) (next : VReg) (σ : Regs) (w : World) :
    execInstrs M label pred edge (emitParallelCopies copies next).1 σ w =
      .stay (applyCopies M σ (copyLoop (2 * copies.length) copies next).1) w :=
  execInstrs_makeCopy M label pred edge _ σ w

theorem copiesCorrect_of_disjoint {copies : List Copy} {next : VReg} (h : WellFormed copies next)
    (hdisj : ∀ c ∈ copies, ∀ d ∈ copies, c.2 ≠ d.1) : CopiesCorrect copies next := by
  intro M label pred edge σ w
  refine ⟨_, execInstrs_emitParallelCopies M label pred edge copies next σ w, ?_, ?_⟩
  · intro c hc
    exact copyLoop_ready M h (copyLoop_pending h (loopBound_le copies)) hc
      (fun d hd => Ne.symm (hdisj c hc d hd)) σ
  · intro r hr ht
    refine copyLoop_frame M (v := .register r) hr (fun t hle hlt e => ?_) σ
    cases e
    rcases ht with ht | ht
    · exact absurd ht (Nat.not_lt.mpr hle)
    · exact absurd hlt (Nat.not_lt.mpr ht)

theorem not_copiesCorrect_of_conflict {copies : List Copy} {next : VReg}
    (h : WellFormed copies next) (hconf : ∃ p ∈ copies, ∃ q ∈ copies, p.2 = q.1) :
    ¬ CopiesCorrect copies next := by
  intro hcorrect
  obtain ⟨p, hp, q, hq, hpq, hval⟩ :=
    copyLoop_conflict h (copyLoop_pending h (loopBound_le copies)) hconf
  obtain ⟨r, hr⟩ := h.dst_register q hq
  -- a register file in which the old and the new value of the source of `p` differ
  let v := q.2.eval default (fun _ => 0)
  let σ : Regs := Function.update (fun _ => 0) r (v + 1)
  obtain ⟨σ', hσ', hdst, -⟩ := hcorrect default "" none σ σ ⟨fun _ => 0, []⟩
  rw [execInstrs_emitParallelCopies] at hσ'
  cases hσ'
  have hnew : q.2.eval default σ = v := by
    refine IRValue.eval_congr default (fun s hs => ?_)
    rw [IRValue.mem_regs] at hs
    refine Function.update_of_ne (fun e => h.dst_ne_src q hq ?_) _ _
    rw [hr, hs, e]
  have hold : p.2.eval default σ = v + 1 := by
    rw [hpq, hr]
    simp [σ, IRValue.eval]
  have heq : v + 1 = v := hold.symm.trans ((hdst p hp).symm.trans ((hval default σ).trans hnew))
  exact absurd heq (by simp)

/-- The loop terminates on every worklist, within two iterations per copy. The emitted sequence
implements the parallel copy if and only if no source is the destination of a copy of the list. -/
theorem emitParallelCopies_correct_iff {copies : List Copy} {next : VReg}
    (h : WellFormed copies next) :
    (∀ n, 2 * copies.length ≤ n → (copyLoop n copies next).2.1 = [] ∧
        ((copyLoop n copies next).1.map makeCopy, (copyLoop n copies next).2.2) =
          emitParallelCopies copies next) ∧
    (CopiesCorrect copies next ↔ ∀ c ∈ copies, ∀ d ∈ copies, c.2 ≠ d.1) := by
  refine ⟨fun n hn => ⟨copyLoop_pending h (Nat.le_trans (loopBound_le copies) hn), ?_⟩, ?_, ?_⟩
  · rw [copyLoop_of_pending_nil (copyLoop_pending h (loopBound_le copies)) hn]
    rfl
  · intro hcorrect c hc d hd e
    exact not_copiesCorrect_of_conflict h ⟨c, hc, d, hd, e⟩ hcorrect
  · exact copiesCorrect_of_disjoint h

/-- Two disjoint copies: well formed, and executed correctly. -/
theorem emitParallelCopies_correct_disjoint :
    WellFormed [(.register 1, .register 3), (.register 2, .immediate 7)] 4 ∧
      CopiesCorrect [(.register 1, .register 3), (.register 2, .immediate 7)] 4 := by
  have h : WellFormed [(.register 1, .register 3), (.register 2, .immediate 7)] 4 := by
    constructor <;> simp
    grind
  exact ⟨h, (emitParallelCopies_correct_iff h).2.mpr (by decide)⟩

/-- The swap `1, 2 := 2, 1` becomes `4 := 2; 1 := 4; 2 := 1`: register 2 gets back its own value.
The chain `1 := 2, 2 := 3` becomes `2 := 3; 1 := 2`. -/
theorem emitParallelCopies_swap_chain_wrong :
    (emitParallelCopies [(.register 1, .register 2), (.register 2, .register 1)] 4 =
        ([makeCopy (.register 4, .register 2), makeCopy (.register 1, .register 4),
          makeCopy (.register 2, .register 1)], 5) ∧
      ¬ CopiesCorrect [(.register 1, .register 2), (.register 2, .register 1)] 4) ∧
    emitParallelCopies [(.register 1, .register 2), (.register 2, .register 3)] 4 =
        ([makeCopy (.register 2, .register 3), makeCopy (.register 1, .register 2)], 4) ∧
      ¬ CopiesCorrect [(.register 1, .register 2), (.register 2, .register 3)] 4 := by
  refine ⟨⟨by decide, ?_⟩, by decide, ?_⟩
  · refine not_copiesCorrect_of_conflict (by constructor <;> simp; grind) ?_
    exact ⟨_, List.mem_cons_self, _, List.mem_cons_of_mem _ List.mem_cons_self, rfl⟩
  · refine not_copiesCorrect_of_conflict (by constructor <;> simp; grind) ?_
    exact ⟨_, List.mem_cons_self, _, List.mem_cons_of_mem _ List.mem_cons_self, rfl⟩

end Vuma.Codegen
