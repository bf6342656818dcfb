import AgenticExecution.Workers

set_option autoImplicit false

/-! # The retry budget

How often the agent of a task is started. Each start takes a claim of its own, and `attempts` counts
the claims that failed, as long as `_retry_or_fail` writes back a number that is not older than the
row's: it reads `attempts` first, and its update only checks that the task is RUNNING, so a task that
was released and claimed again in between loses attempts. -/

namespace AgenticExecution

variable {cfg : Config} {s s' : State} {ev : Event}

/-! ## Agent starts -/

/-- The event starts the agent of the task. -/
def starts (tid : TaskId) (p : State × Event) : Bool :=
  match p.2 with
  | .run hid _ =>
    match p.1.live? hid with
    | some (.agentStart task _) => task.id = tid
    | _ => false
  | _ => false

/-- The handler claimed the task and has its agent still to start. -/
def Pc.readies (tid : TaskId) (pc : Pc) : Nat :=
  match pc.work with
  | some (tid', .claimed) => if tid' = tid then 1 else 0
  | _ => 0

/-- The starts of the task's agent so far, and the claims that may still lead to one. -/
def startBound (tid : TaskId) (trace : List (State × Event)) (s : State) : Nat :=
  trace.countP (starts tid) + s.weight (Pc.readies tid)

/-- `_retry_or_fail` is about to write a number of attempts older than the row's. -/
def staleAttempts (s : State) : Event → Bool
  | .run hid _ =>
    match s.live? hid with
    | some (.retryOrFail task _ _) => s.db.tasks.rows.any fun t =>
        t.id = task.id && t.status = .running && task.attempts < t.attempts
    | _ => false
  | _ => false

/-- The handler `hid` claims the task. -/
def Claims (s : State) (ev : Event) (tid : TaskId) : Prop :=
  ∃ hid o, ev = .run hid o ∧ s.handlers[hid]? = some (.taskClaim tid) ∧
    s.db.rowcount (.updateTask tid .claimTask) = 1

theorem readies_of_next {o : Oracle} {pc pc' : Pc} {tid tid' : TaskId} {st : Stage}
    (hw : pc.work = some (tid', st)) (hnext : Stage.Next o tid' st pc'.work) :
    pc'.readies tid ≤ pc.readies tid := by
  unfold Pc.readies
  rw [hw]
  generalize pc'.work = w at hnext
  cases hnext with
  | stay => exact Nat.le_refl _
  | start | claimedStored | returns | raises | returnedStored | drop => exact Nat.zero_le _

theorem readies_of_work_none {pc : Pc} {tid : TaskId} (h : pc.work = none) : pc.readies tid = 0 := by
  simp [Pc.readies, h]

theorem starts_run {hid : Nat} {o : Oracle} {tid : TaskId} {pc : Pc}
    (hpc : s.handlers[hid]? = some pc) (h : starts tid (s, .run hid o) = true) :
    ∃ task context, pc = .agentStart task context ∧ task.id = tid := by
  cases pc with
  | agentStart task context =>
      exact ⟨task, context, rfl, by simpa [starts, State.live?, hpc] using h⟩
  | _ => simp [starts, State.live?, hpc] at h

theorem not_starts {hid : Nat} {o : Oracle} {tid : TaskId} {pc : Pc}
    (hpc : s.handlers[hid]? = some pc) (hne : ∀ task context, pc ≠ .agentStart task context) :
    starts tid (s, .run hid o) = false := by
  by_contra hstart
  obtain ⟨task, context, hstart, -⟩ := starts_run hpc (by simpa using hstart)
  exact hne task context hstart

section Bound

variable {tid : TaskId} {trace : List (State × Event)} {hid : Nat} {o : Oracle} {pc pc' : Pc}

/-- An event that starts no agent and adds no claim. -/
theorem startBound_keep (hno : starts tid (s, ev) = false)
    (hle : s'.weight (Pc.readies tid) ≤ s.weight (Pc.readies tid)) :
    startBound tid (trace ++ [(s, ev)]) s' ≤ startBound tid trace s := by
  rw [startBound, startBound, List.countP_append, List.countP_singleton, hno]
  simpa using hle

theorem readies_spawn (hh : s'.handlers = s.handlers ++ [pc]) (hnone : pc.work = none) :
    s'.weight (Pc.readies tid) ≤ s.weight (Pc.readies tid) := by
  rw [State.weight_spawn _ hh, readies_of_work_none hnone, Nat.add_zero]

theorem readies_set (hpc : s.handlers[hid]? = some pc) (hh : s'.handlers = s.handlers.set hid pc')
    (hle : pc'.readies tid ≤ pc.readies tid) :
    s'.weight (Pc.readies tid) ≤ s.weight (Pc.readies tid) := by
  have := State.weight_set (Pc.readies tid) hpc hh
  omega

theorem readies_drop (hpc : s.handlers[hid]? = some pc) (hh : s'.handlers = s.handlers.set hid pc')
    (hnone : pc'.work = none) : s'.weight (Pc.readies tid) ≤ s.weight (Pc.readies tid) := by
  refine readies_set hpc hh ?_
  rw [readies_of_work_none hnone]
  exact Nat.zero_le _

/-- A start exchanges the claim of its handler for an entry of the history. -/
theorem startBound_move (hpc : s.handlers[hid]? = some pc)
    (hact : pc.act cfg o s.db s.redis = .goto pc') (hh : s'.handlers = s.handlers.set hid pc') :
    startBound tid (trace ++ [(s, .run hid o)]) s' ≤ startBound tid trace s := by
  by_cases hstart : starts tid (s, .run hid o) = true
  · obtain ⟨task, context, rfl, rfl⟩ := starts_run hpc hstart
    obtain rfl := Act.goto.inj hact
    have hweight := State.weight_set (Pc.readies task.id) hpc hh
    have hbefore : (Pc.agentStart task context).readies task.id = 1 := by simp [Pc.readies, Pc.work]
    have hafter : (Pc.agentRun task context).readies task.id = 0 := rfl
    rw [startBound, startBound, List.countP_append, List.countP_singleton, if_pos hstart]
    omega
  · refine startBound_keep (by simpa using hstart) ?_
    rcases (Pc.moves_of_act hact).work with ⟨-, hnone⟩ | ⟨tid', st, hw, hnext⟩
    · exact readies_drop hpc hh hnone
    · exact readies_set hpc hh (readies_of_next hw hnext)

/-- A commit only adds a claim. -/
theorem startBound_commit {τ : Txn} {k : Nat → Pc} (hpc : s.handlers[hid]? = some pc)
    (hcommit : pc.Commits cfg o s.db τ k)
    (hh : s'.handlers = s.handlers.set hid (k (s.db.rowcount τ))) :
    startBound tid (trace ++ [(s, .run hid o)]) s' ≤ startBound tid trace s ∨
      Claims s (.run hid o) tid ∧
        startBound tid (trace ++ [(s, .run hid o)]) s' = startBound tid trace s + 1 := by
  have hno : starts tid (s, .run hid o) = false := by
    refine not_starts hpc ?_
    rintro task context rfl
    cases hcommit
  rcases hcommit.work (s.db.rowcount τ) with heq | hnone | ⟨tid', rfl, hn, hclaimed⟩
  · refine .inl (startBound_keep hno (readies_set hpc hh (Nat.le_of_eq ?_)))
    rw [Pc.readies, Pc.readies, heq]
  · exact .inl (startBound_keep hno (readies_drop hpc hh hnone))
  · by_cases htid : tid' = tid
    · subst htid
      have hweight := State.weight_set (Pc.readies tid') hpc hh
      have hbefore : (Pc.taskClaim tid').readies tid' = 0 := rfl
      have hafter : (k (s.db.rowcount τ)).readies tid' = 1 := by simp [Pc.readies, hclaimed]
      have hclaim : s.db.rowcount (.updateTask tid' .claimTask) = 1 := by
        cases hcommit
        exact hn
      refine .inr ⟨⟨hid, o, rfl, hpc, hclaim⟩, ?_⟩
      rw [startBound, startBound, List.countP_append, List.countP_singleton, hno]
      simp only [Bool.false_eq_true, if_false]
      omega
    · refine .inl (startBound_keep hno (readies_set hpc hh ?_))
      simp [Pc.readies, hclaimed, htid]

end Bound

/-- A start uses up a claim: the bound only grows when the task is claimed, and then by one. -/
theorem startBound_step (tid : TaskId) (trace : List (State × Event))
    (hs : s.step cfg ev = some s') :
    startBound tid (trace ++ [(s, ev)]) s' ≤ startBound tid trace s ∨
      Claims s ev tid ∧
        startBound tid (trace ++ [(s, ev)]) s' = startBound tid trace s + 1 := by
  cases State.stepsTo hs with
  | createExecution | promoteDue | recoverStaleTasks =>
      exact .inl (startBound_keep rfl (readies_spawn rfl rfl))
  | dequeue job | redeliver job =>
      exact .inl (startBound_keep rfl (readies_spawn rfl job.handler_work))
  | move hid o pc pc' hpc hlive hact => exact .inl (startBound_move hpc hact rfl)
  | commit hid o pc τ k hpc hlive hact =>
      exact startBound_commit hpc (Pc.commits_of_act hact) rfl
  | send hid o pc c k hpc hlive hact =>
      have hsend := Pc.sends_of_act hact
      refine .inl (startBound_keep (not_starts hpc ?_) (readies_drop hpc rfl (hsend.work _).2))
      rintro task context rfl
      cases hsend
  | raise hid exc pc hpc hlive =>
      refine .inl (startBound_keep rfl ?_)
      rcases pc.raised_work exc with hnone | ⟨tid', hfailed, -⟩
      · exact readies_drop hpc rfl hnone
      · exact readies_set hpc rfl (by simp [Pc.readies, hfailed])
  | crash hid pc hpc hlive => exact .inl (startBound_keep rfl (readies_drop hpc rfl rfl))

/-! ## The invariant of one task -/

/-- How `n` starts and claims fit into the budget of a row. -/
def Task.Within (taskMaxRetries : Int) (n : Nat) (t : Task) : Prop :=
  match t.status with
  | .pending | .retrying => n ≤ t.attempts ∧ (t.attempts : Int) ≤ taskMaxRetries
  | .running => n ≤ t.attempts + 1 ∧ (t.attempts : Int) ≤ taskMaxRetries
  | .completed | .failed => (n : Int) ≤ taskMaxRetries + 1

theorem Task.Within.mono {maxRetries : Int} {n n' : Nat} {t : Task} (h : t.Within maxRetries n)
    (hle : n' ≤ n) : t.Within maxRetries n' := by
  unfold Task.Within at h ⊢
  split at h <;> omega

/-- A row within the budget never allows more than `task_max_retries + 1` starts. -/
theorem Task.Within.le {maxRetries : Int} {n : Nat} {t : Task} (h : t.Within maxRetries n) :
    (n : Int) ≤ maxRetries + 1 := by
  unfold Task.Within at h
  split at h <;> omega

/-- A task update stays within the budget; a claim leaves room for one start more. -/
theorem Task.Within.set {now : Time} {maxRetries : Int} {n : Nat} {t : Task} {u : TaskUpdate}
    (h : t.Within maxRetries n) (hg : u.guard t = true)
    (hretry : ∀ attempts nextAt error, u = .retryTask attempts nextAt error →
      t.attempts < attempts ∧ (attempts : Int) ≤ maxRetries) :
    (u.set now t).Within maxRetries n ∧
      (u = .claimTask → (u.set now t).Within maxRetries (n + 1)) := by
  cases u with
  | retryTask attempts nextAt error =>
      obtain ⟨hlt, hle⟩ := hretry attempts nextAt error rfl
      simp only [TaskUpdate.guard, decide_eq_true_eq] at hg
      simp only [Task.Within, hg] at h
      refine ⟨⟨?_, hle⟩, by rintro ⟨⟩⟩
      simp only [TaskUpdate.set]
      omega
  | claimTask =>
      cases hs : t.status <;> simp_all [Task.Within, TaskUpdate.set, TaskUpdate.guard,
        TaskStatus.claimable]
      all_goals omega
  | markStarted | markEnqueued => exact ⟨h, by rintro ⟨⟩⟩
  | skipTask | failTask | completeStored | completeTask => exact ⟨h.le, by rintro ⟨⟩⟩

/-! ## The budget of a run -/

/-- The update of `_retry_or_fail` counts on from the row's attempts, unless it is stale. -/
theorem attempts_le_of_fresh {hid : Nat} {o : Oracle} {task : Task} {error : String} {k : RetryCaller}
    (hpc : s.handlers[hid]? = some (.retryOrFail task error k))
    (hfresh : staleAttempts s (.run hid o) = false) {t : Task} (ht : t ∈ s.db.tasks)
    (hid' : t.id = task.id) (hs : t.status = .running) : t.attempts ≤ task.attempts := by
  simp only [staleAttempts, State.live?, hpc, List.any_eq_false] at hfresh
  simpa [hid', hs] using hfresh t ht

/-- What a commit without stale attempts does to the attempts of a row. -/
theorem attempts_commit {hid : Nat} {o : Oracle} {pc : Pc} {τ : Txn} {k : Nat → Pc}
    (hpc : s.handlers[hid]? = some pc) (hcommit : pc.Commits cfg o s.db τ k)
    (hfresh : staleAttempts s (.run hid o) = false) {t : Task} (ht : t ∈ s.db.tasks)
    {u : TaskUpdate} (hu : τ.taskUpdate? = some (t.id, u)) (hg : u.guard t = true) :
    t.attempts ≤ (u.set o.now t).attempts ∧ ∀ attempts nextAt error,
      u = .retryTask attempts nextAt error →
        t.attempts < attempts ∧ (attempts : Int) ≤ cfg.settings.taskMaxRetries := by
  cases hcommit with
  | retryTask task error k' nextAt hbudget hnext =>
      obtain ⟨hid', rfl⟩ := Prod.mk.inj (Option.some.inj hu)
      have hle := attempts_le_of_fresh hpc hfresh ht hid'.symm (by simpa [TaskUpdate.guard] using hg)
      refine ⟨Nat.le_succ_of_le hle, fun attempts nextAt' error' heq => ?_⟩
      obtain ⟨rfl, -, -⟩ := TaskUpdate.retryTask.inj heq
      exact ⟨Nat.lt_succ_of_le hle, hbudget⟩
  | failTask task error k' hbudget =>
      obtain ⟨hid', rfl⟩ := Prod.mk.inj (Option.some.inj hu)
      have hle := attempts_le_of_fresh hpc hfresh ht hid'.symm (by simpa [TaskUpdate.guard] using hg)
      exact ⟨Nat.le_succ_of_le hle, fun _ _ _ heq => by cases heq⟩
  | taskClaim | taskStarted | taskStored | persist | persistUpdate | skipTask | markEnqueued =>
      obtain ⟨-, rfl⟩ := Prod.mk.inj (Option.some.inj hu)
      exact ⟨Nat.le_refl _, fun _ _ _ heq => by cases heq⟩
  | _ => cases hu

/-- `attempts` never decreases in a step without stale attempts. -/
theorem attempts_step (hfresh : staleAttempts s ev = false) (hs : s.step cfg ev = some s') {t t' : Task}
    (ht : t ∈ s.db.tasks) (ht' : t' ∈ s'.db.tasks) (hid' : t'.id = t.id) :
    t.attempts ≤ t'.attempts := by
  cases row_origin hs ht' with
  | kept hmem => rw [Table.eq_of_key_eq hmem ht hid']
  | planned o e i sub heq => exact absurd (heq ▸ hid') (Db.plannedTask_id_ne ht e i sub)
  | set hid o pc τ k t₀ u hev hpc hcommit hdb ht₀ hu hg heq =>
      subst hev heq
      obtain rfl := Table.eq_of_key_eq ht₀ ht ((u.set_id o.now t₀).symm.trans hid')
      exact (attempts_commit hpc hcommit hfresh ht hu hg).1

/-- A claim is the commit of `_claim_task`. -/
theorem Claims.step {tid : TaskId} (h : Claims s ev tid) (hs : s.step cfg ev = some s') :
    (∃ t ∈ s.db.tasks, t.id = tid ∧ TaskUpdate.claimTask.guard t = true) ∧
      ∃ now, s'.db = s.db.updateTask now tid .claimTask := by
  obtain ⟨hid, o, rfl, hpc, hn⟩ := h
  exact ⟨Table.rowcount_eq_one_iff.1 hn, o.now, db_of_claim hpc hs⟩

/-- The budget of every task, in a run that reads no stale attempts. -/
structure Budget (cfg : Config) (tid : TaskId) (trace : List (State × Event)) (s : State) : Prop where
  row : ∀ t ∈ s.db.tasks, t.id = tid →
    t.Within cfg.settings.taskMaxRetries (startBound tid trace s)
  noRow : (∀ t ∈ s.db.tasks, t.id ≠ tid) → startBound tid trace s = 0

theorem Budget.claim {tid : TaskId} {trace : List (State × Event)} (h : Budget cfg tid trace s)
    (hclaims : Claims s ev tid) (hs : s.step cfg ev = some s')
    (hbound : startBound tid (trace ++ [(s, ev)]) s' = startBound tid trace s + 1) :
    Budget cfg tid (trace ++ [(s, ev)]) s' := by
  obtain ⟨⟨t, ht, rfl, hg⟩, now, hdb⟩ := hclaims.step hs
  refine ⟨fun t' ht' hid' => ?_, fun hno => ?_⟩
  · rw [hdb] at ht'
    obtain rfl := Table.eq_of_key_eq ht' (Db.set_mem_updateTask ht rfl hg) hid'
    rw [hbound]
    exact ((h.row t ht rfl).set hg (fun _ _ _ => nofun)).2 rfl
  · rw [hdb] at hno
    exact absurd (TaskUpdate.set_id now .claimTask t) (hno _ (Db.set_mem_updateTask ht rfl hg))

theorem Budget.step (hmax : 0 ≤ cfg.settings.taskMaxRetries) {tid : TaskId}
    {trace : List (State × Event)} (hinv : Inv s) (h : Budget cfg tid trace s)
    (hfresh : staleAttempts s ev = false) (hs : s.step cfg ev = some s') :
    Budget cfg tid (trace ++ [(s, ev)]) s' := by
  rcases startBound_step tid trace hs with hle | ⟨hclaims, hbound⟩
  · have hnone : (∀ t ∈ s.db.tasks, t.id ≠ tid) →
        startBound tid (trace ++ [(s, ev)]) s' = 0 := by
      intro hno
      rw [h.noRow hno] at hle
      exact Nat.le_zero.1 hle
    refine ⟨fun t' ht' hid' => ?_, fun hno => hnone fun t ht hid' => ?_⟩
    · cases row_origin hs ht' with
      | kept hmem => exact (h.row t' hmem hid').mono hle
      | planned o e i sub heq =>
          subst heq
          rw [hnone fun t ht hid'' => Db.plannedTask_id_ne ht e i sub (hid'.trans hid''.symm)]
          exact ⟨Nat.zero_le _, by simpa [Db.plannedTask] using hmax⟩
      | set hid o pc τ k t u hev hpc hcommit hdb ht hu hg heq =>
          subst hev heq
          have hattempts := attempts_commit hpc hcommit hfresh ht hu hg
          exact ((h.row t ht ((u.set_id o.now t).symm.trans hid')).set hg hattempts.2).1.mono hle
    · obtain ⟨t', ht', hle'⟩ := (hinv.step hs).2.task t ht
      exact hno t' ht' (hle'.id.trans hid')
  · exact h.claim hclaims hs hbound

/-- In every run in which no update of `_retry_or_fail` writes stale attempts, the agent of a task is
    started at most `task_max_retries + 1` times and its attempts never decrease. -/
theorem retry_budget (hmax : 0 ≤ cfg.settings.taskMaxRetries) {trace : List (State × Event)}
    (h : (queueMode cfg).Run (fun s ev => staleAttempts s ev = false) trace s) :
    (∀ tid, (trace.countP (starts tid) : Int) ≤ cfg.settings.taskMaxRetries + 1) ∧
    ∀ u ev, (u, ev) ∈ trace → ∀ t ∈ u.db.tasks, ∃ t' ∈ s.db.tasks, t'.id = t.id ∧
      t.attempts ≤ t'.attempts := by
  constructor
  · intro tid
    have hbudget : Budget cfg tid trace s := by
      refine Lts.Run.invariant (I := Budget cfg tid) ?_ ?_ h
      · exact ⟨by simp [queueMode], fun _ => rfl⟩
      · intro trace s ev s' hrun hi hE hs
        exact hi.step hmax (reachable_inv hrun.reachable) hE hs
    have hle : trace.countP (starts tid) ≤ startBound tid trace s := Nat.le_add_right _ _
    by_cases hrow : ∃ t ∈ s.db.tasks, t.id = tid
    · obtain ⟨t, ht, hid⟩ := hrow
      have := (hbudget.row t ht hid).le
      omega
    · have := hbudget.noRow fun t ht hid => hrow ⟨t, ht, hid⟩
      omega
  · intro u ev hmem t ht
    refine Lts.Reachable.stable (R := fun u s => ∀ t ∈ u.db.tasks, ∃ t' ∈ s.db.tasks, t'.id = t.id ∧
      t.attempts ≤ t'.attempts) (h.mem_trace hmem).1 (fun t ht => ⟨t, ht, rfl, Nat.le_refl _⟩) ?_
      (h.path_of_mem hmem) t ht
    intro v ev' v' hr hi hE hs t ht
    obtain ⟨t', ht', hid', hle⟩ := hi t ht
    obtain ⟨t'', ht'', hle''⟩ := (step_le hr hs).task t' ht'
    exact ⟨t'', ht'', hle''.id.trans hid',
      Nat.le_trans hle (attempts_step hE hs ht' ht'' hle''.id)⟩

/-- One retry: the agent raises twice, and the second time the task is dead-lettered. -/
theorem retry_budget_one_retry :
    ∃ trace s, (queueMode (fallbackConfig (singleTask 1))).Run
        (fun s ev => staleAttempts s ev = false) trace s ∧
      trace.countP (starts 1) = 2 ∧ (trace.countP (starts 1) : Int) ≤ 1 + 1 := by
  obtain ⟨trace, s, hrun, hcheck⟩ := (queueMode (fallbackConfig (singleTask 1))).exists_run
    (E := fun s ev => staleAttempts s ev = false) (fun s ev => !staleAttempts s ev)
    (fun trace _ => trace.countP (starts 1) = 2)
    (.createExecution "q" 0 :: runs 0 1 { now := 0 } ++ .dequeue :: runs 1 16 { now := 0 } ++
      .dequeue :: runs 2 12 (raising 0) ++ .promoteDue :: runs 3 4 { now := 1000 } ++
      .dequeue :: runs 4 12 (raising 1000)) (by simp) (by decide +kernel)
  exact ⟨trace, s, hrun, by simpa using hcheck, (retry_budget (by decide) hrun).1 1⟩

/-- The reaper reads `attempts = 0` after the lease of the first claim expired; the task then fails
    twice and is claimed a third time before the reaper's update sets `attempts` back to 1. -/
def staleAttemptsSchedule : List Event :=
  .createExecution "q" 0 :: runs 0 1 { now := 0 } ++ .dequeue :: runs 1 16 { now := 0 } ++
    .dequeue :: runs 2 8 { now := 0 } ++ .recoverStaleTasks :: runs 3 1 { now := 100 } ++
    runs 2 4 (raising 100) ++
    .promoteDue :: runs 4 4 { now := 1000 } ++ .dequeue :: runs 5 12 (raising 1000) ++
    .promoteDue :: runs 6 4 { now := 2000 } ++ .dequeue :: runs 7 8 { now := 2000 } ++
    runs 3 2 { now := 2000 } ++
    .promoteDue :: runs 8 4 { now := 3000 } ++ .dequeue :: runs 9 8 { now := 3000 }

/-- With two retries an agent can be started four times, and `attempts` can decrease. -/
theorem retry_budget_exceeded :
    ∃ trace s, (queueMode (fallbackConfig (singleTask 2))).Run anyEvent trace s ∧
      ¬ (trace.countP (starts 1) : Int) ≤ 2 + 1 ∧
      ∃ u ev, (u, ev) ∈ trace ∧ ∃ t ∈ u.db.tasks, ∃ t' ∈ s.db.tasks, t'.id = t.id ∧
        t'.attempts < t.attempts := by
  obtain ⟨trace, s, hrun, hcheck⟩ := (queueMode (fallbackConfig (singleTask 2))).exists_run
    (E := anyEvent) (fun _ _ => true)
    (fun trace s => trace.countP (starts 1) = 4 && trace.any fun p => p.1.db.tasks.rows.any fun t =>
      s.db.tasks.rows.any fun t' => t'.id = t.id && t'.attempts < t.attempts)
    staleAttemptsSchedule (fun _ _ _ => trivial) (by decide +kernel)
  obtain ⟨hfour, ⟨u, ev⟩, hmem, t, ht, t', ht', hid, hlt⟩ :
      trace.countP (starts 1) = 4 ∧ ∃ p ∈ trace, ∃ t ∈ p.1.db.tasks.rows, ∃ t' ∈ s.db.tasks.rows,
        t'.id = t.id ∧ t'.attempts < t.attempts := by
    simpa only [Bool.and_eq_true, decide_eq_true_eq, List.any_eq_true] using hcheck
  exact ⟨trace, s, hrun, by omega, u, ev, hmem, t, ht, t', ht', hid, hlt⟩

end AgenticExecution
