import AgenticExecution.Obligations

set_option autoImplicit false

/-! # Outstanding jobs

How many jobs of one task are under way: in the main queue, in the delayed set, with a consumer that
has not tried its claim, with a promoter that has not pushed it, or with a handler that is about to
push or to schedule it. Without faults, and with each job delivered once, there is exactly one for a
task that waits for one. That there is one at all is `carried_step`; here is the other half, that
there are never two. -/

namespace AgenticExecution

variable {cfg : Config} {s s' : State} {ev : Event} {o : Oracle} {db : Db} {r : Redis} {pc pc' : Pc}
  {τ : Txn} {c : Command} {k : Nat → Pc} {tid : TaskId}

/-- No process stops, no call of a handler raises, and each job is delivered once. -/
def FaultFree (_ : State) : Event → Prop
  | .redeliver _ | .raise .. | .crash _ => False
  | _ => True

instance (s : State) (ev : Event) : Decidable (FaultFree s ev) :=
  match ev with
  | .redeliver _ | .raise .. | .crash _ => inferInstanceAs (Decidable False)
  | .createExecution .. | .run .. | .dequeue | .promoteDue | .recoverStaleTasks =>
    inferInstanceAs (Decidable True)

/-! ## Counting -/

/-- The jobs of the task Redis holds. -/
def Redis.outstanding (r : Redis) (tid : TaskId) : Nat :=
  r.queue.count (.task tid) + if (r.delayed.find? tid).isSome then 1 else 0

/-- The jobs of the task the handler holds. -/
def Pc.outstanding (tid : TaskId) (pc : Pc) : Nat := if pc.job? = some (.task tid) then 1 else 0

/-- The jobs of the task in the queue and in the handlers. -/
def State.outstanding (s : State) (tid : TaskId) : Nat :=
  s.redis.outstanding tid + s.weight (Pc.outstanding tid)

/-- The number of jobs a row allows. -/
def Task.maxJobs (t : Task) : Nat :=
  match t.status with
  | .pending => if t.enqueued then 1 else 0
  | .running => 0
  | .retrying | .completed | .failed => 1

theorem Task.maxJobs_le_one (t : Task) : t.maxJobs ≤ 1 := by
  unfold Task.maxJobs
  split
  · split_ifs <;> decide
  · exact Nat.zero_le 1
  · exact Nat.le_refl 1
  · exact Nat.le_refl 1
  · exact Nat.le_refl 1

theorem Pc.outstanding_of_ne (h : pc.job? ≠ some (.task tid)) : pc.outstanding tid = 0 := if_neg h

theorem Pc.outstanding_le_one : pc.outstanding tid ≤ 1 := by
  unfold Pc.outstanding
  split_ifs <;> decide

/-- A job somebody is in charge of is counted. -/
theorem State.Carried.outstanding_pos (h : s.Carried (.job (.task tid))) : 0 < s.outstanding tid := by
  unfold State.outstanding Redis.outstanding
  rcases h with (hq | ⟨entry, hentry, hid⟩) | ⟨pc, hpc, hj⟩
  · have := List.count_pos_iff.2 hq
    omega
  · rw [if_pos (Table.find?_isSome_iff.2 ⟨entry, hentry, hid⟩)]
    omega
  · obtain ⟨i, hi⟩ := List.mem_iff_getElem?.1 hpc
    have hle := Pool.le_sum (Pc.outstanding tid) hi
    have hone : pc.outstanding tid = 1 := if_pos hj
    simp only [State.weight]
    omega

/-- A counted job is in Redis or with a handler. -/
theorem State.carried_of_outstanding (h : 0 < s.outstanding tid) : s.Carried (.job (.task tid)) := by
  unfold State.outstanding Redis.outstanding at h
  by_cases hq : .task tid ∈ s.redis.queue
  · exact .stored (.inl hq)
  · rw [List.count_eq_zero_of_not_mem hq] at h
    split at h
    · next hd => exact .stored (.inr (Table.find?_isSome_iff.1 hd))
    · have hweight : 0 < s.weight (Pc.outstanding tid) := by simpa using h
      obtain ⟨pc, hpc, hpos⟩ := Pool.exists_of_sum_pos _ hweight
      refine .inr ⟨pc, hpc, ?_⟩
      by_contra hne
      rw [Pc.outstanding_of_ne hne] at hpos
      cases hpos

/-! ## Steps -/

@[simp ↓] theorem ScheduleCaller.resume_outstanding (k : ScheduleCaller) :
    k.resume.outstanding tid = 0 :=
  k.observe_resume (Pc.outstanding tid) rfl fun _ => rfl

@[simp ↓] theorem recoverNext_outstanding (stale : List Task) (affected : List ExecutionId) :
    (recoverNext stale affected).outstanding tid = 0 :=
  observe_recoverNext (Pc.outstanding tid) (fun _ => rfl) (fun _ _ _ _ _ => rfl) stale affected

@[simp ↓] theorem RetryCaller.resume_outstanding (k : RetryCaller) :
    k.resume.outstanding tid = 0 :=
  k.observe_resume (Pc.outstanding tid) (fun _ => rfl) (fun _ => rfl) fun _ _ _ _ _ => rfl

@[simp ↓] theorem finalizeTasks_outstanding (x : Execution) (k : ScheduleCaller) (tasks : List Task) :
    (finalizeTasks x k tasks).outstanding tid = 0 :=
  observe_finalizeTasks (Pc.outstanding tid) rfl (fun _ => rfl) (fun _ _ _ _ _ => rfl)
    (fun _ _ _ => rfl) x k tasks

theorem Pc.raised_outstanding (exc : Exn) (pc : Pc) : (pc.raised exc).outstanding tid = 0 := by
  rcases pc.raised_cases exc with h | ⟨e, error, h⟩ | ⟨task, h⟩ <;> rw [h] <;> rfl

theorem FaultFree.ne_redeliver (hE : FaultFree s ev) (job : Job) : ev ≠ .redeliver job := by
  rintro rfl
  exact hE

theorem Pc.Moves.outstanding_le (h : pc.Moves cfg o db r pc') :
    pc'.outstanding tid ≤ pc.outstanding tid := by
  cases h with
  | taskProvider | taskFound => exact Nat.le_refl _
  | _ => simp [Pc.outstanding, Pc.job?]

/-- Only `_mark_enqueued` and a retry take a job on, and only when they matched the row. -/
theorem Pc.Commits.takes_on (n : Nat) (h : pc.Commits cfg o db τ k)
    (hj : (k n).job? = some (.task tid)) :
    n ≠ 0 ∧ ∃ u, τ = .updateTask tid u ∧
      (u = .markEnqueued ∨ ∃ attempts nextAt error, u = .retryTask attempts nextAt error) := by
  have hresume : ∀ pc : Pc, pc.outstanding tid = 0 → pc.job? ≠ some (.task tid) := by
    intro pc hzero hj
    simp [Pc.outstanding, hj] at hzero
  cases h with
  | markEnqueued e' k' seen t rest changed =>
      by_cases hn : n = 1
      · simp only [hn, if_true, Pc.job?, Option.some.injEq, Job.task.injEq] at hj
        subst hj
        exact ⟨by omega, _, rfl, .inl rfl⟩
      · simp [hn, Pc.job?] at hj
  | retryTask task error k' nextAt =>
      by_cases hn : n = 0
      · simp only [hn, ne_eq, not_true, if_false] at hj
        exact absurd hj (hresume _ k'.resume_outstanding)
      · simp only [ne_eq, hn, not_false_eq_true, if_true, Pc.job?, Option.some.injEq,
          Job.task.injEq] at hj
        subst hj
        exact ⟨hn, _, rfl, .inr ⟨_, _, _, rfl⟩⟩
  | _ =>
      refine absurd hj (hresume _ ?_)
      simp [Pc.outstanding, Pc.job?, ↓apply_ite (Pc.outstanding tid)]

theorem Redis.outstanding_enqueue (r : Redis) (job : Job) :
    (r.send (.enqueue job)).outstanding tid =
      r.outstanding tid + if job = .task tid then 1 else 0 := by
  have hqueue : (r.send (.enqueue job)).queue = r.queue ++ [job] := rfl
  rw [Redis.outstanding, hqueue, List.count_append, List.count_singleton]
  simp only [beq_iff_eq]
  exact Nat.add_right_comm _ _ _

theorem Redis.outstanding_scheduleTask_le (r : Redis) (tid' : TaskId) (runAt : Time) :
    (r.send (.scheduleTask tid' runAt)).outstanding tid ≤
      r.outstanding tid + if tid' = tid then 1 else 0 := by
  have hqueue : (r.send (.scheduleTask tid' runAt)).queue = r.queue := rfl
  rw [Redis.outstanding, Redis.outstanding, hqueue]
  by_cases hid : tid' = tid
  · rw [if_pos hid]
    split_ifs <;> omega
  · rw [if_neg hid]
    split_ifs with hnew hold
    · exact Nat.le_refl _
    · obtain ⟨entry, hentry, rfl⟩ := Table.find?_isSome_iff.1 hnew
      rcases Table.mem_upsert.1 hentry with ⟨hmem, -⟩ | rfl
      · exact absurd (Table.find?_isSome_iff.2 ⟨entry, hmem, rfl⟩) hold
      · exact absurd rfl hid
    · omega
    · exact Nat.le_refl _

theorem Redis.outstanding_removeDelayed (r : Redis) (tid' : TaskId) :
    (r.send (.removeDelayed tid')).outstanding tid +
        (if tid' = tid then r.reply (.removeDelayed tid') else 0) = r.outstanding tid := by
  have hqueue : (r.send (.removeDelayed tid')).queue = r.queue := rfl
  have herase : ((r.send (.removeDelayed tid')).delayed.find? tid).isSome = true ↔
      (r.delayed.find? tid).isSome = true ∧ tid' ≠ tid := by
    rw [Table.find?_isSome_iff, Table.find?_isSome_iff]
    constructor
    · rintro ⟨entry, hentry, rfl⟩
      obtain ⟨hmem, hne⟩ := Table.mem_erase.1 hentry
      exact ⟨⟨entry, hmem, rfl⟩, Ne.symm hne⟩
    · rintro ⟨⟨entry, hmem, rfl⟩, hne⟩
      exact ⟨entry, Table.mem_erase.2 ⟨hmem, Ne.symm hne⟩, rfl⟩
  rw [Redis.outstanding, Redis.outstanding, hqueue, Nat.add_assoc, Redis.reply]
  congr 1
  by_cases hid : tid' = tid
  · subst hid
    rw [if_neg fun h => (herase.1 h).2 rfl, if_pos rfl, Nat.zero_add]
  · rw [if_neg hid, Nat.add_zero]
    simp only [herase, ne_eq, hid, not_false_eq_true, and_true]

/-- A command moves jobs between Redis and the handler, and never adds one. -/
theorem Pc.Sends.outstanding_le (h : pc.Sends c k) :
    (r.send c).outstanding tid + (k (r.reply c)).outstanding tid ≤
      r.outstanding tid + pc.outstanding tid := by
  cases h with
  | enqueuePlan e =>
      rw [Redis.outstanding_enqueue]
      simp [Pc.outstanding, Pc.job?]
  | schedulePush e k' seen rest tid' =>
      rw [Redis.outstanding_enqueue]
      simp [Pc.outstanding, Pc.job?]
  | promotePush tid' due =>
      rw [Redis.outstanding_enqueue]
      simp [Pc.outstanding, Pc.job?]
  | retrySchedule tid' nextAt k' =>
      rw [k'.resume_outstanding]
      simpa [Pc.outstanding, Pc.job?] using r.outstanding_scheduleTask_le tid' nextAt
  | retryDeadLetter entry k' =>
      rw [k'.resume_outstanding]
      exact Nat.le_add_right _ _
  | promoteNext tid' due =>
      have : _ = r.outstanding tid := r.outstanding_removeDelayed tid'
      by_cases hreply : r.reply (.removeDelayed tid') = 1
      · simp only [hreply, if_true, Pc.outstanding, Pc.job?, Option.some.injEq, Job.task.injEq] at this ⊢
        simp only [reduceCtorEq, if_false]
        omega
      · simp only [hreply, if_false, Pc.outstanding, Pc.job?] at this ⊢
        simp only [reduceCtorEq, if_false]
        omega

/-! ## At most one -/

/-- Every task has at most the jobs its row allows. -/
def WithinMax (s : State) : Prop := ∀ t ∈ s.db.tasks, s.outstanding t.id ≤ t.maxJobs

/-- A task without a row has no jobs. -/
theorem Inv.outstanding_eq_zero (h : Inv s) (hno : ∀ t ∈ s.db.tasks, t.id ≠ tid) :
    s.outstanding tid = 0 := by
  have hnone : ¬ s.db.Enqueued tid := by
    rintro ⟨t, ht, hid, -⟩
    exact hno t ht hid
  rw [← Nat.le_zero, ← Nat.not_lt]
  intro hpos
  rcases State.carried_of_outstanding hpos with (hq | ⟨entry, hentry, rfl⟩) | ⟨pc, hpc, hj⟩
  · exact hnone (h.redis.published _ (h.redis.queue _ hq))
  · exact hnone (h.redis.delayed entry hentry)
  · have hk := h.knows pc hpc
    cases pc with
    | taskProvider | taskGet | taskClaim | promotePush =>
        obtain rfl := Job.task.inj (Option.some.inj hj)
        exact hnone hk
    | schedulePush =>
        obtain rfl := Job.task.inj (Option.some.inj hj)
        exact hnone hk.2.2.1
    | retrySchedule =>
        obtain rfl := Job.task.inj (Option.some.inj hj)
        exact hnone hk.1
    | _ => cases hj

/-- A row an update has rewritten allows the jobs its handler leaves. -/
theorem Pc.Commits.within_set (h : pc.Commits cfg o db τ k) {t : Task} (hrow : db.RowOk t)
    {u : TaskUpdate} (hu : τ.taskUpdate? = some (t.id, u)) (hg : u.guard t = true) {n n' : Nat}
    (hn : n' + pc.outstanding t.id = n + (k (db.rowcount τ)).outstanding t.id)
    (hle : n ≤ t.maxJobs) : n' ≤ (u.set o.now t).maxJobs := by
  have hone := t.maxJobs_le_one
  have hnew : (k (db.rowcount τ)).outstanding t.id ≤ 1 := Pc.outstanding_le_one
  have hkeep : (u ≠ .markEnqueued ∧ ∀ attempts nextAt error, u ≠ .retryTask attempts nextAt error) →
      n' ≤ n := by
    intro hno
    have hzero : (k (db.rowcount τ)).outstanding t.id = 0 := by
      refine Pc.outstanding_of_ne fun hj => ?_
      obtain ⟨-, u', rfl, hu'⟩ := h.takes_on _ hj
      obtain rfl : u' = u := (Prod.mk.inj (Option.some.inj hu)).2
      rcases hu' with rfl | ⟨attempts, nextAt, error, rfl⟩
      · exact hno.1 rfl
      · exact hno.2 _ _ _ rfl
    omega
  cases u with
  | claimTask =>
      have hclaim : pc.outstanding t.id = 1 ∧ (k (db.rowcount τ)).outstanding t.id = 0 := by
        cases h with
        | taskClaim tid =>
            obtain ⟨rfl, -⟩ := Prod.mk.inj (Option.some.inj hu)
            refine ⟨by simp [Pc.outstanding, Pc.job?], ?_⟩
            simp [Pc.outstanding, Pc.job?, ↓apply_ite (Pc.outstanding t.id)]
        | taskStarted | taskStored | persist | persistUpdate | retryTask | failTask | skipTask
          | markEnqueued => cases (Prod.mk.inj (Option.some.inj hu)).2
        | _ => cases hu
      have : (TaskUpdate.claimTask.set o.now t).maxJobs = 0 := rfl
      omega
  | markStarted => exact Nat.le_trans (hkeep (by simp)) hle
  | markEnqueued =>
      have henq : t.enqueued = false := by simpa [TaskUpdate.guard] using hg
      have hpending : t.status = .pending := hrow.fresh henq
      have hzero : t.maxJobs = 0 := by simp [Task.maxJobs, hpending, henq]
      have : (TaskUpdate.markEnqueued.set o.now t).maxJobs = 1 := by
        simp [Task.maxJobs, TaskUpdate.set, hpending]
      omega
  | retryTask attempts nextAt error =>
      have hrunning : t.status = .running := by simpa [TaskUpdate.guard] using hg
      have hzero : t.maxJobs = 0 := by simp [Task.maxJobs, hrunning]
      have : (TaskUpdate.set o.now (.retryTask attempts nextAt error) t).maxJobs = 1 := rfl
      omega
  | skipTask | failTask | completeStored | completeTask =>
      exact Nat.le_trans (hkeep (by simp)) (Nat.le_trans hle hone)

theorem WithinMax.commit {hid : Nat} (h : WithinMax s) (hinv : Inv s)
    (hpc : s.handlers[hid]? = some pc) (hcommit : pc.Commits cfg o s.db τ k)
    (hdb : s'.db = s.db.commit o.now τ) (hredis : s'.redis = s.redis)
    (hs : s'.handlers = s.handlers.set hid (k (s.db.rowcount τ))) : WithinMax s' := by
  have hcount : ∀ tid, s'.outstanding tid + pc.outstanding tid =
      s.outstanding tid + (k (s.db.rowcount τ)).outstanding tid := by
    intro tid
    have := State.weight_set (Pc.outstanding tid) hpc hs
    simp only [State.outstanding, hredis]
    omega
  intro t' ht'
  rw [hdb] at ht'
  rcases Db.mem_commit ht' with ⟨hmem, hno⟩ | ⟨t, ht, u, hu, hg, rfl⟩ | ⟨e, plan, i, sub, rfl, -, rfl⟩
  · have hzero : (k (s.db.rowcount τ)).outstanding t'.id = 0 := by
      refine Pc.outstanding_of_ne fun hj => ?_
      obtain ⟨hn, u, rfl, -⟩ := hcommit.takes_on _ hj
      obtain ⟨t, ht, hid', hg⟩ := Table.rowcount_pos_iff.1 (Nat.pos_of_ne_zero hn)
      obtain rfl := Table.eq_of_key_eq ht hmem hid'
      simp [hno u rfl] at hg
    have := hcount t'.id
    have := h t' hmem
    omega
  · rw [u.set_id]
    exact hcommit.within_set (hinv.wellFormed.rows t ht) hu hg (hcount t.id) (h t ht)
  · have hzero : s.outstanding (s.db.plannedTask e o.now i sub).id = 0 :=
      hinv.outstanding_eq_zero fun t ht => (Db.plannedTask_id_ne ht e i sub).symm
    have hnew : (k (s.db.rowcount (.insertTasks e plan))).outstanding
        (s.db.plannedTask e o.now i sub).id = 0 := by
      refine Pc.outstanding_of_ne fun hj => ?_
      obtain ⟨-, u, hu, -⟩ := hcommit.takes_on _ hj
      cases hu
    have := hcount (s.db.plannedTask e o.now i sub).id
    omega

/-- Faults only lose jobs; a job that is delivered again is one more. -/
theorem WithinMax.step (h : WithinMax s) (hinv : Inv s) (hE : ∀ job, ev ≠ .redeliver job)
    (hs : s.step cfg ev = some s') : WithinMax s' := by
  have hmono : s'.db.tasks = s.db.tasks → (∀ tid, s'.outstanding tid ≤ s.outstanding tid) →
      WithinMax s' := by
    intro hdb hle t ht
    rw [hdb] at ht
    exact Nat.le_trans (hle t.id) (h t ht)
  have hspawn : ∀ {pc : Pc}, s'.handlers = s.handlers ++ [pc] → ∀ tid,
      s'.weight (Pc.outstanding tid) = s.weight (Pc.outstanding tid) + pc.outstanding tid :=
    fun hh tid => State.weight_spawn (Pc.outstanding tid) hh
  cases State.stepsTo hs with
  | createExecution | promoteDue | recoverStaleTasks =>
      refine hmono rfl fun tid => ?_
      rw [State.outstanding, hspawn rfl tid]
      exact Nat.le_refl _
  | dequeue job queue hqueue =>
      refine hmono rfl fun tid => ?_
      rw [State.outstanding, hspawn rfl tid]
      simp only [State.outstanding, Redis.outstanding, hqueue, List.count_cons, beq_iff_eq,
        Pc.outstanding, job.handler_job?, Option.some.injEq]
      omega
  | move hid o pc pc' hpc hlive hact =>
      refine hmono rfl fun tid => ?_
      have hle : pc'.outstanding tid ≤ pc.outstanding tid := (Pc.moves_of_act hact).outstanding_le
      have := Pool.sum_set (b := pc') (Pc.outstanding tid) hpc
      simp only [State.outstanding, State.weight]
      omega
  | commit hid o pc τ k hpc hlive hact =>
      exact h.commit hinv hpc (Pc.commits_of_act hact) rfl rfl rfl
  | send hid o pc c k hpc hlive hact =>
      refine hmono rfl fun tid => ?_
      have hle : (s.redis.send c).outstanding tid + (k (s.redis.reply c)).outstanding tid ≤
          s.redis.outstanding tid + pc.outstanding tid := (Pc.sends_of_act hact).outstanding_le
      have := Pool.sum_set (b := k (s.redis.reply c)) (Pc.outstanding tid) hpc
      simp only [State.outstanding, State.weight]
      omega
  | redeliver job => exact absurd rfl (hE job)
  | raise hid exc pc hpc hlive =>
      refine hmono rfl fun tid => ?_
      have hzero : (pc.raised exc).outstanding tid = 0 := pc.raised_outstanding exc
      have := Pool.sum_set (b := pc.raised exc) (Pc.outstanding tid) hpc
      simp only [State.outstanding, State.weight]
      omega
  | crash hid pc hpc hlive =>
      refine hmono rfl fun tid => ?_
      have hzero : Pc.done.outstanding tid = 0 := rfl
      have := Pool.sum_set (b := .done) (Pc.outstanding tid) hpc
      simp only [State.outstanding, State.weight]
      omega

theorem reachable_withinMax {E : State → Event → Prop}
    (hE : ∀ s ev, E s ev → ∀ job, ev ≠ .redeliver job) (h : (queueMode cfg).Reachable E s) :
    WithinMax s := by
  refine h.invariant (by simp [queueMode, WithinMax]) ?_
  intro s ev s' hr hi hadm hs
  exact hi.step (reachable_inv hr) (hE s ev hadm) hs

/-! ## Exactly one -/

/-- Without faults no handler drops a task job. -/
theorem FaultFree.keeps_job (hE : FaultFree s ev) (job : Job) : Keeps cfg (.job job) s ev := by
  cases ev with
  | run hid o =>
      intro pc hpc hover _ hc
      cases pc with
      | retryOrFail =>
          cases job with
          | plan e =>
              rcases hc with hj | ⟨error, herr⟩
              · cases hj
              · cases herr
          | task tid => cases hc
      | _ => cases hover
  | redeliver | raise | crash => cases hE
  | createExecution | dequeue | promoteDue | recoverStaleTasks => trivial

/-- Without faults, the outstanding jobs of a task are exactly one while it waits for its job, none
    before it is enqueued and while it is RUNNING, and at most one after it finished; and
    `schedule_task` never meets an entry of its task. -/
theorem one_outstanding_job (h : (queueMode cfg).Reachable FaultFree s) :
    (∀ t ∈ s.db.tasks,
      (t.status = .retrying ∨ t.status = .pending ∧ t.enqueued = true → s.outstanding t.id = 1) ∧
      (t.status = .running ∨ t.status = .pending ∧ t.enqueued = false → s.outstanding t.id = 0) ∧
      (t.status = .completed ∨ t.status = .failed → s.outstanding t.id ≤ 1)) ∧
    ∀ tid nextAt k, Pc.retrySchedule tid nextAt k ∈ s.handlers →
      ∀ entry ∈ s.redis.delayed, entry.1 ≠ tid := by
  have hmax := reachable_withinMax (fun _ _ hE => hE.ne_redeliver) h
  have hinv := reachable_inv h
  constructor
  · intro t ht
    have hle := hmax t ht
    refine ⟨fun hq => ?_, fun hnone => ?_, fun _ => Nat.le_trans hle t.maxJobs_le_one⟩
    · have hcarried : s.Carried (.job (.task t.id)) :=
        reachable_carried (fun _ _ hE => hE.keeps_job _) h ⟨t, ht, rfl, hq⟩
      have := hcarried.outstanding_pos
      have := t.maxJobs_le_one
      omega
    · have hzero : t.maxJobs = 0 := by
        rcases hnone with hs | ⟨hs, henq⟩
        · simp [Task.maxJobs, hs]
        · simp [Task.maxJobs, hs, henq]
      omega
  · rintro _ nextAt k hpc entry hentry rfl
    obtain ⟨⟨t, ht, hid, -⟩, -⟩ := hinv.knows _ hpc
    obtain ⟨i, hi⟩ := List.mem_iff_getElem?.1 hpc
    have hhandler := Pool.le_sum (Pc.outstanding t.id) hi
    have hone : (Pc.retrySchedule entry.1 nextAt k).outstanding t.id = 1 := by
      simp [Pc.outstanding, Pc.job?, hid]
    have hdelayed : 1 ≤ s.redis.outstanding t.id := by
      rw [Redis.outstanding, if_pos (Table.find?_isSome_iff.2 ⟨entry, hentry, hid.symm⟩)]
      exact Nat.le_add_left _ _
    have hle := hmax t ht
    have := t.maxJobs_le_one
    simp only [State.outstanding, State.weight] at hle
    omega

/-- A retry: the job of the RETRYING task is in the delayed set. -/
theorem one_outstanding_job_retry :
    ∃ s, (queueMode (fallbackConfig (singleTask 2))).Reachable FaultFree s ∧
      ∃ t ∈ s.db.tasks, t.status = .retrying ∧ s.outstanding t.id = 1 := by
  obtain ⟨s, hreach, hcheck⟩ := (queueMode (fallbackConfig (singleTask 2))).exists_reachable
    (E := FaultFree) (fun s ev => decide (FaultFree s ev))
    (fun s => s.db.tasks.rows.any fun t => t.status = .retrying)
    (.createExecution "q" 0 :: runs 0 1 { now := 0 } ++ .dequeue :: runs 1 16 { now := 0 } ++
      .dequeue :: runs 2 12 (raising 0))
    (fun _ _ hE => of_decide_eq_true hE) (by decide +kernel)
  obtain ⟨t, ht, hs⟩ := List.any_eq_true.1 hcheck
  have hretrying : t.status = .retrying := of_decide_eq_true hs
  exact ⟨s, hreach, t, ht, hretrying, ((one_outstanding_job hreach).1 t ht).1 (.inl hretrying)⟩

end AgenticExecution
