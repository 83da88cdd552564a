import Vuma.Ipc.Workers

/-!
# Budgets of workers

What holds along a history of calls. The lifecycle of the workers counts the restarts of a target
by the highest count among its workers, which is the number of its restarts so far; but a restart
leaves the worker that it replaces as it is, so that the worker is dead only when it was. The
supervisor counts the restarts of each worker since its registration.
-/

namespace Vuma.Ipc

open Lib

/-! ## Histories of the lifecycle -/

/-- The calls with their answers, and the workers after them. -/
structure LifecycleHistory where
  log : List (LifecycleOp × Except IpcError LifecycleAnswer)
  state : FfiWorkerLifecycle

/-- One more call. -/
def LifecycleHistory.step (h : LifecycleHistory) (op : LifecycleOp) : LifecycleHistory :=
  ⟨(op, (op.exec h.state).1) :: h.log, (op.exec h.state).2⟩

/-- The history of some calls; the last call is the first of the log. -/
def lifecycleHistory (ops : List LifecycleOp) : LifecycleHistory :=
  ops.foldl LifecycleHistory.step ⟨[], .new⟩

/-- A restart of a target that succeeded. -/
def isRestartOf (config : FfiWorkerConfig) :
    LifecycleOp × Except IpcError LifecycleAnswer → Bool
  | (.restart config', .ok (.pid _)) => config'.sameTarget config
  | _ => false

/-- The pid that a call has returned. -/
def returnedPid : LifecycleOp × Except IpcError LifecycleAnswer → Option UInt32
  | (_, .ok (.pid pid)) => some pid
  | _ => none

/-- The largest number of restarts that was passed for a target. -/
def largestBudget (config : FfiWorkerConfig) (ops : List LifecycleOp) : Nat :=
  (((ops.filterMap LifecycleOp.config?).filter fun c => c.sameTarget config).map
    fun c => c.maxRestarts.toNat).foldr max 0

/-- The worker that was put in last for a target. -/
def MostRecent (s : FfiWorkerLifecycle) (config : FfiWorkerConfig) (pid : UInt32) : Prop :=
  (∃ e, s.workers.lookup pid = some e ∧ e.config.sameTarget config) ∧
    ∀ pid' e, s.workers.lookup pid' = some e → e.config.sameTarget config → pid' ≤ pid

/-- What is said of the calls of a lifecycle. -/
structure BudgetsHold (ops : List LifecycleOp) : Prop where
  restarts : ∀ config,
    ((lifecycleHistory ops).log.countP (isRestartOf config)) ≤ largestBudget config ops
  pids : ((lifecycleHistory ops).log.filterMap returnedPid).Nodup
  replaced : ∀ pre config post, ops = pre ++ .restart config :: post →
    ∀ pid, ((lifecycleHistory pre).state.restartFfiWorker config).1 = .ok pid →
      ∀ old, MostRecent (lifecycleHistory pre).state config old →
        ((lifecycleHistory pre).state.restartFfiWorker config).2.isAlive old = false
  errors : ∀ pre op post, ops = pre ++ op :: post →
    ∀ e, (op.exec (lifecycleHistory pre).state).1 = .error e →
      (op.exec (lifecycleHistory pre).state).2 = (lifecycleHistory pre).state

/-- The budget for a restart is not used up, and there is a pid for it. -/
def CanRestart (s : FfiWorkerLifecycle) (config : FfiWorkerConfig) : Prop :=
  (∃ prev, s.prevRestartCount config = some prev ∧ prev < config.maxRestarts) ∧
    s.nextPid.toNat + 1 < 2 ^ 32

/-- A worker that can be restarted is dead. -/
def RestartsDead (s : FfiWorkerLifecycle) : LifecycleOp → Prop
  | .restart config => CanRestart s config → ∀ old, MostRecent s config old → s.isAlive old = false
  | _ => True

/-! ## One call -/

namespace FfiWorkerConfig

theorem sameTarget_trans {a b c : FfiWorkerConfig} (h : a.sameTarget b) (h' : b.sameTarget c) :
    a.sameTarget c := by
  simp only [sameTarget, Bool.and_eq_true, beq_iff_eq] at *
  exact ⟨h.1.trans h'.1, h.2.trans h'.2⟩

theorem sameTarget_symm {a b : FfiWorkerConfig} (h : a.sameTarget b) : b.sameTarget a := by
  simp only [sameTarget, Bool.and_eq_true, beq_iff_eq] at *
  exact ⟨h.1.symm, h.2.symm⟩

theorem sameTarget_congr {a b : FfiWorkerConfig} (h : a.sameTarget b) (c : FfiWorkerConfig) :
    c.sameTarget a = c.sameTarget b :=
  Bool.eq_iff_iff.2
    ⟨fun hc => sameTarget_trans hc h, fun hc => sameTarget_trans hc (sameTarget_symm h)⟩

end FfiWorkerConfig

namespace FfiWorkerLifecycle

variable {s : FfiWorkerLifecycle} {config : FfiWorkerConfig}

instance : Std.LawfulOrderMax UInt32 where
  max_eq_or a b := by
    show (if a ≤ b then b else a) = a ∨ (if a ≤ b then b else a) = b
    split_ifs
    · exact .inr rfl
    · exact .inl rfl
  max_le_iff a b c := by
    show (if a ≤ b then b else a) ≤ c ↔ a ≤ c ∧ b ≤ c
    simp only [UInt32.le_iff_toNat_le]
    split_ifs <;> omega

/-- The counts among which the highest is looked for. -/
theorem mem_restartCounts {n : UInt32} :
    n ∈ ((s.workers.entries.map Sigma.snd).filter fun e => e.config.sameTarget config).map
        FfiWorkerEntry.restartCount ↔
      ∃ pid e, s.workers.lookup pid = some e ∧ e.config.sameTarget config ∧ e.restartCount = n := by
  rw [List.mem_map]
  constructor
  · rintro ⟨e, hmem, rfl⟩
    obtain ⟨hmem, hsame⟩ := List.mem_filter.1 hmem
    obtain ⟨⟨pid, e'⟩, hentry, rfl⟩ := List.mem_map.1 hmem
    exact ⟨pid, e', AList.mem_lookup_iff.2 hentry, hsame, rfl⟩
  · rintro ⟨pid, e, hpid, hsame, rfl⟩
    have hmem := List.mem_map_of_mem (f := Sigma.snd) (AList.mem_lookup_iff.1 hpid)
    exact ⟨e, List.mem_filter.2 ⟨hmem, hsame⟩, rfl⟩

theorem prevRestartCount_eq_some {n : UInt32} : s.prevRestartCount config = some n ↔
    (∃ pid e, s.workers.lookup pid = some e ∧ e.config.sameTarget config ∧ e.restartCount = n) ∧
      ∀ pid e, s.workers.lookup pid = some e → e.config.sameTarget config →
        e.restartCount ≤ n := by
  rw [prevRestartCount, List.max?_eq_some_iff, mem_restartCounts]
  refine and_congr_right fun _ => ?_
  constructor
  · exact fun h pid e hpid hsame => h _ (mem_restartCounts.2 ⟨pid, e, hpid, hsame, rfl⟩)
  · intro h m hm
    obtain ⟨pid, e, hpid, hsame, rfl⟩ := mem_restartCounts.1 hm
    exact h pid e hpid hsame

/-- A new worker is put in, or nothing is changed. -/
theorem push_cases (s : FfiWorkerLifecycle) (entry : FfiWorkerEntry) :
    (s.push entry = (.error .tooManyProcesses, s) ∧ ¬s.nextPid.toNat + 1 < 2 ^ 32) ∨
      (s.push entry =
        (.ok s.nextPid, ⟨s.workers.insert s.nextPid entry, s.nextPid + 1⟩) ∧
        s.nextPid < s.nextPid + 1) := by
  by_cases h : s.nextPid.toNat + 1 < 2 ^ 32
  · refine .inr ⟨if_pos h, ?_⟩
    rw [UInt32.lt_iff_toNat_lt, UInt32.toNat_add]
    show _ < (s.nextPid.toNat + 1) % 2 ^ 32
    omega
  · exact .inl ⟨if_neg h, h⟩

end FfiWorkerLifecycle

theorem isRestartOf_congr {config config' : FfiWorkerConfig} (h : config.sameTarget config') :
    isRestartOf config = isRestartOf config' := by
  funext ⟨op, answer⟩
  match op, answer with
  | .restart c, .ok (.pid pid) => exact FfiWorkerConfig.sameTarget_congr h c
  | .restart c, .ok .done => rfl
  | .restart c, .ok (.result r) => rfl
  | .restart c, .error e => rfl
  | .spawn c, _ => rfl
  | .kill pid, _ => rfl
  | .call pid c t, _ => rfl

theorem lifecycleHistory_concat (ops : List LifecycleOp) (op : LifecycleOp) :
    lifecycleHistory (ops ++ [op]) = (lifecycleHistory ops).step op := by
  rw [lifecycleHistory, List.foldl_append]
  rfl

theorem le_foldr_max {n : Nat} {l : List Nat} (h : n ∈ l) : n ≤ l.foldr max 0 := by
  induction l with
  | nil => cases h
  | cons m l ih =>
    rw [List.foldr_cons]
    rcases List.mem_cons.1 h with rfl | h
    · exact Nat.le_max_left _ _
    · exact (ih h).trans (Nat.le_max_right _ _)

theorem foldr_max_le {m : Nat} {l : List Nat} (h : ∀ n ∈ l, n ≤ m) : l.foldr max 0 ≤ m := by
  induction l with
  | nil => exact Nat.zero_le m
  | cons n l ih =>
    rw [List.foldr_cons, Nat.max_le]
    exact ⟨h n List.mem_cons_self, ih fun k hk => h k (List.mem_cons_of_mem n hk)⟩

theorem largestBudget_mono (config : FfiWorkerConfig) (ops : List LifecycleOp) (op : LifecycleOp) :
    largestBudget config ops ≤ largestBudget config (ops ++ [op]) := by
  apply foldr_max_le
  intro n hn
  apply le_foldr_max
  rw [List.filterMap_append, List.filter_append, List.map_append]
  exact List.mem_append_left _ hn

theorem maxRestarts_le_largestBudget {config c : FfiWorkerConfig} (h : c.sameTarget config)
    (ops : List LifecycleOp) :
    c.maxRestarts.toNat ≤ largestBudget config (ops ++ [.restart c]) := by
  apply le_foldr_max
  rw [List.filterMap_append, List.filter_append, List.map_append]
  apply List.mem_append_right
  have hfilter : [c].filter (fun c => c.sameTarget config) = [c] := by simp [h]
  show c.maxRestarts.toNat ∈ ([c].filter _).map _
  rw [hfilter]
  exact List.mem_singleton_self _

/-! ## The invariant of the lifecycle -/

/-- The pids are below the next one, and the highest count of a target is the number of its
restarts. -/
structure LifecycleInv (ops : List LifecycleOp) (h : LifecycleHistory) : Prop where
  bounded : ∀ pid e, h.state.workers.lookup pid = some e → pid < h.state.nextPid
  returned : ∀ pid ∈ h.log.filterMap returnedPid, pid < h.state.nextPid
  nodup : (h.log.filterMap returnedPid).Nodup
  count_le : ∀ config pid e, h.state.workers.lookup pid = some e → e.config.sameTarget config →
    e.restartCount.toNat ≤ h.log.countP (isRestartOf config)
  counted : ∀ config, h.log.countP (isRestartOf config) = 0 ∨
    ∃ pid e, h.state.workers.lookup pid = some e ∧ e.config.sameTarget config ∧
      e.restartCount.toNat = h.log.countP (isRestartOf config)
  budget : ∀ config, h.log.countP (isRestartOf config) ≤ largestBudget config ops

namespace LifecycleInv

variable {ops : List LifecycleOp} {h : LifecycleHistory}

theorem prevRestartCount_eq (hinv : LifecycleInv ops h) {config : FfiWorkerConfig} {n : UInt32}
    (hn : h.state.prevRestartCount config = some n) :
    n.toNat = h.log.countP (isRestartOf config) := by
  obtain ⟨⟨pid, e, hpid, hsame, rfl⟩, hle⟩ := FfiWorkerLifecycle.prevRestartCount_eq_some.1 hn
  have hcount := hinv.count_le config pid e hpid hsame
  rcases hinv.counted config with hzero | ⟨pid', e', hpid', hsame', heq⟩
  · omega
  · have hmax := UInt32.le_iff_toNat_le.1 (hle pid' e' hpid' hsame')
    omega

/-- A call that leaves the table and returns no pid. -/
theorem same (hinv : LifecycleInv ops h) {op : LifecycleOp}
    {answer : Except IpcError LifecycleAnswer} (hpid : returnedPid (op, answer) = none) :
    LifecycleInv (ops ++ [op]) ⟨(op, answer) :: h.log, h.state⟩ := by
  have hlog : ((op, answer) :: h.log).filterMap returnedPid = h.log.filterMap returnedPid :=
    List.filterMap_cons_none hpid
  have hcount : ∀ config, ((op, answer) :: h.log).countP (isRestartOf config) =
      h.log.countP (isRestartOf config) := by
    intro config
    apply List.countP_cons_of_neg
    match op, answer with
    | .restart c, .ok (.pid pid) => cases hpid
    | .restart c, .ok .done => exact Bool.false_ne_true
    | .restart c, .ok (.result r) => exact Bool.false_ne_true
    | .restart c, .error e => exact Bool.false_ne_true
    | .spawn c, _ => exact Bool.false_ne_true
    | .kill pid, _ => exact Bool.false_ne_true
    | .call pid c t, _ => exact Bool.false_ne_true
  constructor
  · exact hinv.bounded
  · rw [hlog]
    exact hinv.returned
  · rw [hlog]
    exact hinv.nodup
  · intro config
    rw [hcount]
    exact hinv.count_le config
  · intro config
    rw [hcount]
    exact hinv.counted config
  · intro config
    rw [hcount]
    exact (hinv.budget config).trans (largestBudget_mono config ops op)

theorem modify (hinv : LifecycleInv ops h) {pid : UInt32} {e e' : FfiWorkerEntry}
    (hpid : h.state.workers.lookup pid = some e) (hconfig : e'.config = e.config)
    (hcount : e'.restartCount = e.restartCount) :
    LifecycleInv ops ⟨h.log, { h.state with workers := h.state.workers.insert pid e' }⟩ := by
  have hback : ∀ pid' d', (h.state.workers.insert pid e').lookup pid' = some d' →
      ∃ d, h.state.workers.lookup pid' = some d ∧ d'.config = d.config ∧
        d'.restartCount = d.restartCount := by
    intro pid' d' hd
    rw [HashMap.lookup_insert_ite] at hd
    split_ifs at hd with heq
    · cases hd
      exact ⟨e, heq ▸ hpid, hconfig, hcount⟩
    · exact ⟨d', hd, rfl, rfl⟩
  constructor
  · intro pid' d' hd
    obtain ⟨d, hd, -⟩ := hback pid' d' hd
    exact hinv.bounded pid' d hd
  · exact hinv.returned
  · exact hinv.nodup
  · intro config pid' d' hd hsame
    obtain ⟨d, hd, hc, hn⟩ := hback pid' d' hd
    rw [hn]
    exact hinv.count_le config pid' d hd (hc ▸ hsame)
  · intro config
    rcases hinv.counted config with hzero | ⟨pid', d, hd, hsame, heq⟩
    · exact .inl hzero
    · by_cases hp : pid' = pid
      · subst hp
        rw [hpid] at hd
        cases hd
        exact .inr ⟨pid', e', AList.lookup_insert _, hconfig.symm ▸ hsame, hcount.symm ▸ heq⟩
      · exact .inr ⟨pid', d, (AList.lookup_insert_ne hp).trans hd, hsame, heq⟩
  · exact hinv.budget

theorem push (hinv : LifecycleInv ops h) {op : LifecycleOp} {entry : FfiWorkerEntry}
    (hlt : h.state.nextPid < h.state.nextPid + 1)
    (hother : ∀ config, ¬entry.config.sameTarget config →
      ¬isRestartOf config (op, .ok (.pid h.state.nextPid)))
    (hcount : ∀ config, entry.config.sameTarget config →
      entry.restartCount.toNat ≤ ((op, .ok (.pid h.state.nextPid)) :: h.log).countP
        (isRestartOf config) ∧
      (isRestartOf config (op, .ok (.pid h.state.nextPid)) →
        entry.restartCount.toNat = ((op, .ok (.pid h.state.nextPid)) :: h.log).countP
          (isRestartOf config) ∧ entry.restartCount.toNat ≤ largestBudget config (ops ++ [op]))) :
    LifecycleInv (ops ++ [op]) ⟨(op, .ok (.pid h.state.nextPid)) :: h.log,
      ⟨h.state.workers.insert h.state.nextPid entry, h.state.nextPid + 1⟩⟩ := by
  have hlog : ((op, .ok (.pid h.state.nextPid)) :: h.log).filterMap returnedPid =
      h.state.nextPid :: h.log.filterMap returnedPid := rfl
  have hgrow : ∀ config, h.log.countP (isRestartOf config) ≤
      ((op, .ok (.pid h.state.nextPid)) :: h.log).countP (isRestartOf config) :=
    fun config => (List.sublist_cons_self _ _).countP_le
  have hold : ∀ pid e, h.state.workers.lookup pid = some e →
      (h.state.workers.insert h.state.nextPid entry).lookup pid = some e := by
    intro pid e hpid
    refine (AList.lookup_insert_ne ?_).trans hpid
    rintro rfl
    exact UInt32.lt_irrefl _ (hinv.bounded _ e hpid)
  constructor
  · intro pid e hpid
    replace hpid := (HashMap.lookup_insert_ite _ _ _ _).symm.trans hpid
    split_ifs at hpid with heq
    · exact heq ▸ hlt
    · exact UInt32.lt_trans (hinv.bounded pid e hpid) hlt
  · rw [hlog]
    intro pid hpid
    rcases List.mem_cons.1 hpid with rfl | hpid
    · exact hlt
    · exact UInt32.lt_trans (hinv.returned pid hpid) hlt
  · rw [hlog, List.nodup_cons]
    exact ⟨fun hmem => UInt32.lt_irrefl _ (hinv.returned _ hmem), hinv.nodup⟩
  · intro config pid e hpid hsame
    replace hpid := (HashMap.lookup_insert_ite _ _ _ _).symm.trans hpid
    split_ifs at hpid with heq
    · cases hpid
      exact (hcount config hsame).1
    · exact (hinv.count_le config pid e hpid hsame).trans (hgrow config)
  · intro config
    by_cases hr : isRestartOf config (op, .ok (.pid h.state.nextPid))
    · have hsame : entry.config.sameTarget config := by
        by_contra hsame
        exact hother config hsame hr
      exact .inr ⟨h.state.nextPid, entry, AList.lookup_insert _, hsame,
        ((hcount config hsame).2 hr).1⟩
    · rw [List.countP_cons_of_neg hr]
      rcases hinv.counted config with hzero | ⟨pid, e, hpid, hsame, heq⟩
      · exact .inl hzero
      · exact .inr ⟨pid, e, hold pid e hpid, hsame, heq⟩
  · intro config
    by_cases hr : isRestartOf config (op, .ok (.pid h.state.nextPid))
    · have hsame : entry.config.sameTarget config := by
        by_contra hsame
        exact hother config hsame hr
      obtain ⟨heq, hle⟩ := (hcount config hsame).2 hr
      exact heq ▸ hle
    · rw [List.countP_cons_of_neg hr]
      exact (hinv.budget config).trans (largestBudget_mono config ops op)

theorem step (hinv : LifecycleInv ops h) (op : LifecycleOp) :
    LifecycleInv (ops ++ [op]) (h.step op) := by
  cases op with
  | spawn config =>
    rcases h.state.push_cases ⟨config, 0, true⟩ with ⟨hpush, -⟩ | ⟨hpush, hlt⟩
    · have hstep : h.step (.spawn config) =
          ⟨(.spawn config, .error .tooManyProcesses) :: h.log, h.state⟩ := by
        simp [LifecycleHistory.step, LifecycleOp.exec, FfiWorkerLifecycle.spawnFfiWorker, hpush,
          Except.map]
      rw [hstep]
      exact hinv.same rfl
    · have hstep : h.step (.spawn config) =
          ⟨(.spawn config, .ok (.pid h.state.nextPid)) :: h.log,
            ⟨h.state.workers.insert h.state.nextPid ⟨config, 0, true⟩, h.state.nextPid + 1⟩⟩ := by
        simp [LifecycleHistory.step, LifecycleOp.exec, FfiWorkerLifecycle.spawnFfiWorker, hpush,
          Except.map]
      rw [hstep]
      apply hinv.push hlt
      · intro config' _
        simp [isRestartOf]
      · intro config' _
        exact ⟨Nat.zero_le _, fun hr => by simp [isRestartOf] at hr⟩
  | restart config =>
    have hsame : ∀ e, h.state.restartFfiWorker config = (.error e, h.state) →
        LifecycleInv (ops ++ [.restart config]) (h.step (.restart config)) := by
      intro e he
      have hstep : h.step (.restart config) = ⟨(.restart config, .error e) :: h.log, h.state⟩ := by
        simp [LifecycleHistory.step, LifecycleOp.exec, he, Except.map]
      rw [hstep]
      exact hinv.same rfl
    cases hprev : h.state.prevRestartCount config with
    | none =>
      apply hsame .workerNotFound
      rw [FfiWorkerLifecycle.restartFfiWorker, hprev]
    | some prev =>
      by_cases hmax : prev ≥ config.maxRestarts
      · apply hsame .maxRestartsExceeded
        simp only [FfiWorkerLifecycle.restartFfiWorker, hprev, if_pos hmax]
      · have hrestart : h.state.restartFfiWorker config =
            h.state.push ⟨config, prev + 1, true⟩ := by
          simp only [FfiWorkerLifecycle.restartFfiWorker, hprev, if_neg hmax]
        rcases h.state.push_cases ⟨config, prev + 1, true⟩ with ⟨hpush, -⟩ | ⟨hpush, hlt⟩
        · exact hsame .tooManyProcesses (hrestart.trans hpush)
        · have hstep : h.step (.restart config) =
              ⟨(.restart config, .ok (.pid h.state.nextPid)) :: h.log,
                ⟨h.state.workers.insert h.state.nextPid ⟨config, prev + 1, true⟩,
                  h.state.nextPid + 1⟩⟩ := by
            simp [LifecycleHistory.step, LifecycleOp.exec, hrestart, hpush, Except.map]
          rw [hstep]
          have hlt' : prev.toNat < config.maxRestarts.toNat := by
            rw [ge_iff_le, UInt32.le_iff_toNat_le] at hmax
            omega
          have hsucc : (prev + 1).toNat = prev.toNat + 1 := by
            have hbound := config.maxRestarts.toNat_lt
            rw [UInt32.toNat_add]
            show (prev.toNat + 1) % 2 ^ 32 = _
            omega
          apply hinv.push hlt
          · exact fun config' hne => hne
          · intro config' heq
            have hcountP : ((LifecycleOp.restart config, .ok (.pid h.state.nextPid)) ::
                h.log).countP (isRestartOf config') = prev.toNat + 1 := by
              rw [List.countP_cons_of_pos (by exact heq), ← isRestartOf_congr heq,
                hinv.prevRestartCount_eq hprev]
            rw [hcountP]
            refine ⟨hsucc.le, fun _ => ⟨hsucc, ?_⟩⟩
            have hbudget : config.maxRestarts.toNat ≤
                largestBudget config' (ops ++ [.restart config]) :=
              maxRestarts_le_largestBudget heq ops
            show (prev + 1).toNat ≤ _
            omega
  | kill pid =>
    cases hpid : h.state.workers.lookup pid with
    | none =>
      have hstep : h.step (.kill pid) =
          ⟨(.kill pid, .error .workerNotFound) :: h.log, h.state⟩ := by
        simp [LifecycleHistory.step, LifecycleOp.exec, FfiWorkerLifecycle.killFfiWorker, hpid,
          Except.map]
      rw [hstep]
      exact hinv.same rfl
    | some e =>
      have hstep : h.step (.kill pid) = ⟨(.kill pid, .ok .done) :: h.log,
          { h.state with workers := h.state.workers.insert pid { e with alive := false } }⟩ := by
        simp [LifecycleHistory.step, LifecycleOp.exec, FfiWorkerLifecycle.killFfiWorker, hpid,
          Except.map]
      rw [hstep]
      have hsame : LifecycleInv (ops ++ [.kill pid])
          ⟨(.kill pid, .ok .done) :: h.log, h.state⟩ := hinv.same rfl
      exact hsame.modify hpid rfl rfl
  | call pid c timeoutMs =>
    apply hinv.same
    show returnedPid (.call pid c timeoutMs,
      (h.state.callFfi pid c timeoutMs).map LifecycleAnswer.result) = none
    cases h.state.callFfi pid c timeoutMs <;> rfl

theorem history (ops : List LifecycleOp) : LifecycleInv ops (lifecycleHistory ops) := by
  induction ops using List.reverseRecOn with
  | nil =>
    refine ⟨nofun, nofun, List.nodup_nil, nofun, fun _ => .inl rfl, fun _ => Nat.zero_le _⟩
  | append_singleton ops op ih =>
    rw [lifecycleHistory_concat]
    exact ih.step op

end LifecycleInv

/-! ## What a call leaves -/

namespace FfiWorkerLifecycle

variable {s : FfiWorkerLifecycle} {config : FfiWorkerConfig}

theorem restartFfiWorker_of_canRestart (h : CanRestart s config) :
    ∃ entry, s.restartFfiWorker config =
      (.ok s.nextPid, ⟨s.workers.insert s.nextPid entry, s.nextPid + 1⟩) := by
  obtain ⟨⟨prev, hprev, hlt⟩, hpid⟩ := h
  refine ⟨⟨config, prev + 1, true⟩, ?_⟩
  rw [restartFfiWorker, hprev]
  show (if prev ≥ config.maxRestarts then _ else _) = _
  rw [if_neg (UInt32.not_le.2 hlt), push, if_pos hpid]

theorem canRestart_of_eq_ok {pid : UInt32} (h : (s.restartFfiWorker config).1 = .ok pid) :
    CanRestart s config := by
  rw [restartFfiWorker] at h
  cases hprev : s.prevRestartCount config with
  | none =>
    rw [hprev] at h
    cases h
  | some prev =>
    simp only [hprev] at h
    split_ifs at h with hmax
    rw [push] at h
    split_ifs at h with hpid
    exact ⟨⟨prev, hprev, UInt32.not_le.1 hmax⟩, hpid⟩

theorem push_error {entry : FfiWorkerEntry} {e : IpcError} (h : (s.push entry).1 = .error e) :
    (s.push entry).2 = s := by
  rcases s.push_cases entry with ⟨hpush, -⟩ | ⟨hpush, -⟩
  · rw [hpush]
  · rw [hpush] at h
    cases h

theorem restartFfiWorker_error {e : IpcError} (h : (s.restartFfiWorker config).1 = .error e) :
    (s.restartFfiWorker config).2 = s := by
  rw [restartFfiWorker] at h ⊢
  cases hprev : s.prevRestartCount config with
  | none => rfl
  | some prev =>
    simp only [hprev] at h ⊢
    split_ifs at h ⊢
    · rfl
    · exact push_error h

theorem killFfiWorker_error {pid : UInt32} {e : IpcError}
    (h : (s.killFfiWorker pid).1 = .error e) : (s.killFfiWorker pid).2 = s := by
  rw [killFfiWorker] at h ⊢
  cases hpid : s.workers.lookup pid with
  | none => rfl
  | some entry =>
    simp only [hpid] at h
    cases h

end FfiWorkerLifecycle

theorem map_eq_error {ε α β : Type} {f : α → β} {r : Except ε α} {e : ε}
    (h : r.map f = .error e) : r = .error e := by
  cases r with
  | error e' =>
    cases h
    rfl
  | ok a => cases h

theorem LifecycleOp.exec_error {s : FfiWorkerLifecycle} {op : LifecycleOp} {e : IpcError}
    (h : (op.exec s).1 = .error e) : (op.exec s).2 = s := by
  cases op with
  | spawn config => exact FfiWorkerLifecycle.push_error (map_eq_error h)
  | restart config => exact FfiWorkerLifecycle.restartFfiWorker_error (map_eq_error h)
  | kill pid => exact FfiWorkerLifecycle.killFfiWorker_error (map_eq_error h)
  | call pid c timeoutMs => rfl

theorem budgetsHold_of_calls (ops : List LifecycleOp) : BudgetsHold ops ↔
    ∀ pre op post, ops = pre ++ op :: post → RestartsDead (lifecycleHistory pre).state op := by
  have hinv := LifecycleInv.history
  have hold : ∀ pre config old, CanRestart (lifecycleHistory pre).state config →
      MostRecent (lifecycleHistory pre).state config old →
      ((lifecycleHistory pre).state.restartFfiWorker config).2.isAlive old =
        (lifecycleHistory pre).state.isAlive old := by
    rintro pre config old hcan ⟨⟨e, he, -⟩, -⟩
    obtain ⟨entry, hrestart⟩ := FfiWorkerLifecycle.restartFfiWorker_of_canRestart hcan
    have hlt := (hinv pre).bounded old e he
    have hne : old ≠ (lifecycleHistory pre).state.nextPid := by
      rintro heq
      exact UInt32.lt_irrefl _ (heq ▸ hlt)
    rw [hrestart, FfiWorkerLifecycle.isAlive, FfiWorkerLifecycle.isAlive,
      AList.lookup_insert_ne hne]
  constructor
  · intro h pre op post hops
    cases op with
    | restart config =>
      intro hcan old hrecent
      obtain ⟨entry, hrestart⟩ := FfiWorkerLifecycle.restartFfiWorker_of_canRestart hcan
      rw [← hold pre config old hcan hrecent]
      exact h.replaced pre config post hops _ (congrArg Prod.fst hrestart) old hrecent
    | spawn config => trivial
    | kill pid => trivial
    | call pid c timeoutMs => trivial
  · intro h
    refine ⟨(hinv ops).budget, (hinv ops).nodup, ?_, ?_⟩
    · intro pre config post hops pid hpid old hrecent
      have hcan := FfiWorkerLifecycle.canRestart_of_eq_ok hpid
      rw [hold pre config old hcan hrecent]
      exact h pre (.restart config) post hops hcan old hrecent
    · exact fun pre op post _ e he => LifecycleOp.exec_error he

/-! ## Histories of the supervisor -/

/-- What was recorded, and the supervisor after it. -/
structure SupervisorHistory where
  events : List (UInt64 × WorkerEvent)
  state : Supervisor

/-- One more call. -/
def SupervisorHistory.step (h : SupervisorHistory) (op : SupervisorOp) : SupervisorHistory :=
  ⟨(op.record h.state).toList ++ h.events, op.exec h.state⟩

/-- The history of some calls; the last event is the first of the list. -/
def supervisorHistory (maxRestarts : UInt32) (timeoutMs : UInt64) (ops : List SupervisorOp) :
    SupervisorHistory :=
  ops.foldl SupervisorHistory.step ⟨[], .new maxRestarts timeoutMs⟩

/-- What was recorded of a worker. -/
def eventsOf (pid : UInt64) (events : List (UInt64 × WorkerEvent)) : List WorkerEvent :=
  (events.filter fun e => e.1 = pid).map Prod.snd

/-- The exits since the last registration that were answered with a restart. -/
def restartsSince (events : List WorkerEvent) : Nat :=
  (events.takeWhile fun e => e ≠ .registered).count (.exited .restart)

/-- The last event is a registration or a restart. -/
def LastAlive (events : List WorkerEvent) : Prop :=
  events.head? = some .registered ∨ events.head? = some (.exited .restart)

/-- A worker is reported alive, and counted by `alive_count`. -/
def ReportedAlive (s : Supervisor) (pid : UInt64) : Prop :=
  ∃ state, s.workers.lookup pid = some state ∧ state.isAlive

/-- What is said of the calls of a supervisor. -/
structure SupervisionHolds (maxRestarts : UInt32) (timeoutMs : UInt64) (ops : List SupervisorOp) :
    Prop where
  restarts : ∀ pid, restartsSince
    (eventsOf pid (supervisorHistory maxRestarts timeoutMs ops).events) ≤ maxRestarts.toNat
  alive : ∀ pid, ReportedAlive (supervisorHistory maxRestarts timeoutMs ops).state pid ↔
    LastAlive (eventsOf pid (supervisorHistory maxRestarts timeoutMs ops).events)

/-- What the state of a worker says about its events. -/
def StateAgrees (maxRestarts : UInt32) (events : List WorkerEvent) : Option WorkerState → Prop
  | none => ¬LastAlive events ∧ restartsSince events ≤ maxRestarts.toNat
  | some state => (state.isAlive ↔ LastAlive events) ∧
      restartsSince events = state.restartCount.toNat ∧ state.restartCount ≤ maxRestarts

theorem eventsOf_record {pid : UInt64} {e : WorkerEvent} {events : List (UInt64 × WorkerEvent)}
    (pid' : UInt64) : eventsOf pid' ((pid, e) :: events) =
      if pid' = pid then e :: eventsOf pid' events else eventsOf pid' events := by
  by_cases h : pid' = pid
  · subst h
    simp [eventsOf]
  · simp [eventsOf, h, Ne.symm h]

theorem restartsSince_cons {e : WorkerEvent} (he : e ≠ .registered) (events : List WorkerEvent) :
    restartsSince (e :: events) =
      restartsSince events + if e = .exited .restart then 1 else 0 := by
  rw [restartsSince, List.takeWhile_cons_of_pos (by simpa using he), List.count_cons, restartsSince]
  simp

theorem lastAlive_cons (e : WorkerEvent) (events : List WorkerEvent) :
    LastAlive (e :: events) ↔ e = .registered ∨ e = .exited .restart := by
  simp [LastAlive]

/-- The action for an exit, and what it leaves of the worker. -/
theorem Supervisor.recover_cases (s : Supervisor) (state : WorkerState) (exitCode : Int32) :
    ((s.recover state exitCode).1 ≠ .restart ∧ (s.recover state exitCode).2 = state) ∨
      ((s.recover state exitCode).1 = .restart ∧ state.restartCount < s.maxRestarts ∧
        (s.recover state exitCode).2 =
          { state with restartCount := state.restartCount + 1, isAlive := true }) := by
  unfold Supervisor.recover
  dsimp only
  split_ifs with _ _ hbudget
  · exact .inl ⟨nofun, rfl⟩
  · exact .inl ⟨nofun, rfl⟩
  · exact .inl ⟨nofun, rfl⟩
  · exact .inr ⟨rfl, UInt32.not_le.1 hbudget, rfl⟩

/-- The worker that a call is about is recorded as it is afterwards, and the others stay. -/
theorem SupervisorHistory.stateAgrees_step {maxRestarts : UInt32} {h : SupervisorHistory}
    (hmax : h.state.maxRestarts = maxRestarts)
    (hagrees : ∀ pid, StateAgrees maxRestarts (eventsOf pid h.events) (h.state.workers.lookup pid))
    (op : SupervisorOp) :
    (h.step op).state.maxRestarts = maxRestarts ∧ ∀ pid, StateAgrees maxRestarts
      (eventsOf pid (h.step op).events) ((h.step op).state.workers.lookup pid) := by
  cases op with
  | register pid =>
    cases hpid : h.state.workers.lookup pid with
    | some state =>
      have hstep : h.step (.register pid) = h := by
        simp [step, SupervisorOp.exec, SupervisorOp.record, Supervisor.registerWorker, hpid]
      rw [hstep]
      exact ⟨hmax, hagrees⟩
    | none =>
      have hstep : h.step (.register pid) = ⟨(pid, .registered) :: h.events,
          { h.state with workers := h.state.workers.insert pid (.new pid) }⟩ := by
        simp [step, SupervisorOp.exec, SupervisorOp.record, Supervisor.registerWorker, hpid]
      rw [hstep]
      refine ⟨hmax, fun pid' => ?_⟩
      rw [eventsOf_record, HashMap.lookup_insert_ite]
      split_ifs with heq
      · refine ⟨?_, rfl, UInt32.zero_le⟩
        rw [lastAlive_cons]
        exact iff_of_true rfl (.inl rfl)
      · exact hagrees pid'
  | unregister pid =>
    cases hpid : h.state.workers.lookup pid with
    | none =>
      have hstep : h.step (.unregister pid) = h := by
        simp [step, SupervisorOp.exec, SupervisorOp.record, Supervisor.unregisterWorker, hpid]
      rw [hstep]
      exact ⟨hmax, hagrees⟩
    | some state =>
      have hstep : h.step (.unregister pid) = ⟨(pid, .unregistered) :: h.events,
          { h.state with workers := h.state.workers.erase pid }⟩ := by
        simp [step, SupervisorOp.exec, SupervisorOp.record, Supervisor.unregisterWorker, hpid]
      rw [hstep]
      refine ⟨hmax, fun pid' => ?_⟩
      rw [eventsOf_record, HashMap.lookup_erase_ite]
      split_ifs with heq
      · subst heq
        obtain ⟨-, hcount, hle⟩ : StateAgrees _ _ (some state) := hpid ▸ hagrees pid'
        rw [UInt32.le_iff_toNat_le] at hle
        refine ⟨?_, ?_⟩
        · rw [lastAlive_cons]
          simp
        · rw [restartsSince_cons (by simp), hcount]
          simpa using hle
      · exact hagrees pid'
  | exit pid exitCode signal =>
    cases hpid : h.state.workers.lookup pid with
    | none =>
      have hstep : h.step (.exit pid exitCode signal) = h := by
        simp [step, SupervisorOp.exec, SupervisorOp.record, Supervisor.handleWorkerExit, hpid]
      rw [hstep]
      exact ⟨hmax, hagrees⟩
    | some state =>
      let dead : WorkerState :=
        { state with isAlive := false, lastExitCode := exitCode, lastSignal := signal }
      have hstep : h.step (.exit pid exitCode signal) =
          ⟨(pid, .exited (h.state.recover dead exitCode).1) :: h.events,
            { h.state with workers :=
              h.state.workers.insert pid (h.state.recover dead exitCode).2 }⟩ := by
        simp [step, SupervisorOp.exec, SupervisorOp.record, Supervisor.handleWorkerExit, hpid, dead]
      rw [hstep]
      refine ⟨hmax, fun pid' => ?_⟩
      rw [eventsOf_record, HashMap.lookup_insert_ite]
      split_ifs with heq
      · subst heq
        obtain ⟨-, hcount, hle⟩ : StateAgrees _ _ (some state) := hpid ▸ hagrees pid'
        obtain ⟨hne, hstate⟩ | ⟨hrestart, hlt, hstate⟩ := h.state.recover_cases dead exitCode
        · rw [hstate]
          refine ⟨?_, ?_, hle⟩
          · rw [lastAlive_cons]
            simp [dead, hne]
          · rw [restartsSince_cons (by simp), hcount]
            simp [dead, hne]
        · rw [hstate, hrestart]
          have hlt' : state.restartCount.toNat < maxRestarts.toNat := hmax ▸ hlt
          have hbound := maxRestarts.toNat_lt
          have hsucc : (state.restartCount + 1).toNat = state.restartCount.toNat + 1 := by
            rw [UInt32.toNat_add]
            show (state.restartCount.toNat + 1) % 2 ^ 32 = _
            omega
          refine ⟨?_, ?_, ?_⟩
          · rw [lastAlive_cons]
            simp
          · rw [restartsSince_cons (by simp), hcount]
            simp [dead, hsucc]
          · rw [UInt32.le_iff_toNat_le]
            show (state.restartCount + 1).toNat ≤ _
            omega
      · exact hagrees pid'

theorem stateAgrees_supervisorHistory (maxRestarts : UInt32) (timeoutMs : UInt64)
    (ops : List SupervisorOp) :
    (supervisorHistory maxRestarts timeoutMs ops).state.maxRestarts = maxRestarts ∧
      ∀ pid, StateAgrees maxRestarts
        (eventsOf pid (supervisorHistory maxRestarts timeoutMs ops).events)
        ((supervisorHistory maxRestarts timeoutMs ops).state.workers.lookup pid) := by
  induction ops using List.reverseRecOn with
  | nil =>
    refine ⟨rfl, fun pid => ⟨?_, Nat.zero_le _⟩⟩
    rintro (h | h) <;> cases h
  | append_singleton ops op ih =>
    rw [supervisorHistory, List.foldl_append]
    exact SupervisorHistory.stateAgrees_step ih.1 ih.2 op

theorem supervisionHolds (maxRestarts : UInt32) (timeoutMs : UInt64) (ops : List SupervisorOp) :
    SupervisionHolds maxRestarts timeoutMs ops := by
  obtain ⟨-, hagrees⟩ := stateAgrees_supervisorHistory maxRestarts timeoutMs ops
  constructor
  · intro pid
    have h := hagrees pid
    revert h
    cases (supervisorHistory maxRestarts timeoutMs ops).state.workers.lookup pid with
    | none => exact fun h => h.2
    | some state =>
      rintro ⟨-, hcount, hle⟩
      exact hcount ▸ UInt32.le_iff_toNat_le.1 hle
  · intro pid
    have h := hagrees pid
    rw [ReportedAlive]
    revert h
    cases (supervisorHistory maxRestarts timeoutMs ops).state.workers.lookup pid with
    | none =>
      rintro ⟨hlast, -⟩
      exact iff_of_false (by simp) hlast
    | some state =>
      rintro ⟨halive, -, -⟩
      simpa using halive

/-! ## Both -/

/-- The budgets hold along the calls of a lifecycle and of a supervisor exactly when only dead
workers are restarted. -/
theorem budgetsHold_iff (ops : List LifecycleOp) (maxRestarts : UInt32) (timeoutMs : UInt64)
    (supervisorOps : List SupervisorOp) :
    BudgetsHold ops ∧ SupervisionHolds maxRestarts timeoutMs supervisorOps ↔
      ∀ pre op post, ops = pre ++ op :: post →
        RestartsDead (lifecycleHistory pre).state op := by
  rw [budgetsHold_of_calls]
  exact and_iff_left (supervisionHolds maxRestarts timeoutMs supervisorOps)

/-- A worker that is started and restarted while it is alive. -/
def restartAlive : List LifecycleOp :=
  [.spawn ⟨"/lib/a.so", "f", .untrusted, 1, 100⟩, .restart ⟨"/lib/a.so", "f", .untrusted, 1, 100⟩]

theorem not_budgetsHold_restartAlive :
    ¬(BudgetsHold restartAlive ∧ SupervisionHolds 0 0 []) := by
  rintro ⟨h, -⟩
  have hrecent : MostRecent (lifecycleHistory [restartAlive[0]]).state
      ⟨"/lib/a.so", "f", .untrusted, 1, 100⟩ 1000 := by
    refine ⟨⟨_, rfl, by decide⟩, ?_⟩
    intro pid e he _
    replace he := (HashMap.lookup_insert_ite _ _ _ _).symm.trans he
    split_ifs at he with hpid
    · exact hpid ▸ UInt32.le_refl _
    · cases he
  have halive := h.replaced [restartAlive[0]] _ [] rfl 1001 (by decide) 1000 hrecent
  revert halive
  decide

end Vuma.Ipc
