import AgenticExecution.Library.Potential
import AgenticExecution.PlanShape
import AgenticExecution.Planning
import AgenticExecution.Progress
import AgenticExecution.RetryBudget

set_option autoImplicit false

/-! # The work of a run

How many steps the handlers take altogether. A `Tariff` prices every row, job, delayed entry and
program point at the steps that may still come of it, so that a step pays for itself and for what it
leaves behind: a claim is paid by the row it is made on, a scheduling pass that starts over by the row
it changed, the loop of the reaper by the rows it read. What is not paid so is what the outside asks
for: an execution, a promoter or a reaper, a second delivery. -/

namespace AgenticExecution

variable {cfg : Config} {s s' : State} {ev : Event}

/-! ## Prices -/

/-- What an account rests on: how large a run may get, and how often a row may still be claimed. -/
structure Tariff where
  /-- Task rows of one execution. -/
  tasks : Nat
  /-- Task rows of all executions. -/
  rows : Nat
  /-- Dependencies of one row. -/
  depends : Nat
  /-- The claims a row may still see, by its status and its attempts. -/
  claims : TaskStatus → Nat → Nat
  /-- The claims `_retry_or_fail` may add to what the row allows. -/
  again : Nat
  /-- The price of a delayed entry. -/
  delayed : Nat
  claimed : ∀ status attempts, status.claimable = true →
    claims .running attempts + 1 ≤ claims status attempts
  finished : ∀ status attempts, status.isTerminal = true → claims status attempts = 0
  /-- A delayed entry becomes a job. -/
  promoted : 5 ≤ delayed

namespace Tariff

/-- `_finalize`, from its first read. -/
def finalize (L : Tariff) : Nat := L.tasks + 4

/-- A scheduling pass that finds nothing to change, with `_finalize` behind it. -/
def pass (L : Tariff) : Nat := L.tasks + 2 + L.finalize

/-- `schedule_execution`. -/
def schedule (L : Tariff) : Nat := L.pass + 1

/-- `execute_task` from a successful claim on. -/
def claim (L : Tariff) : Nat := L.depends + L.schedule + L.delayed + 10

/-- The job a pass pushes, and the pass that follows. -/
def enqueue (L : Tariff) : Nat := 4 + L.pass

/-- `_retry_or_fail`. -/
def release (L : Tariff) : Nat := L.delayed + 2 + L.again * L.claim

/-- One turn of the loop of `recover_stale_tasks`. -/
def stale (L : Tariff) : Nat := L.release + L.schedule + 1

/-- A new task row. -/
def row (L : Tariff) : Nat := L.claims .pending 0 * L.claim + L.enqueue

/-- An execution that is still to be planned. -/
def submission (L : Tariff) : Nat := L.schedule + 4 + L.tasks * L.row

/-- What the caller of `schedule_execution` still does. -/
def scheduleCaller (L : Tariff) : ScheduleCaller → Nat
  | .planExecution _ | .executeTask => 0
  | .recoverStaleTasks affected => affected.length * (L.schedule + 1) + 1

/-- What the caller of `_retry_or_fail` still does. -/
def retryCaller (L : Tariff) : RetryCaller → Nat
  | .executeTask _ => L.schedule
  | .recoverStaleTasks _ stale affected =>
    stale.length * L.stale + (affected.length + 1) * (L.schedule + 1) + 1

/-- The steps that may still come of a handler. -/
def pc (L : Tariff) : Pc → Nat
  | .done => 0
  | .enqueuePlan _ => 5
  | .planProvider _ | .taskProvider _ => 3
  | .planGet _ | .taskGet _ => 2
  | .planGuard .. | .taskClaim _ | .planFail .. => 1
  | .planLlm .. => L.submission
  | .planInsert .. => L.submission - 1
  | .planRunning _ => L.schedule + 2
  | .planStarted _ => L.schedule + 1
  | .taskStarted _ => L.claim
  | .taskRefresh _ => L.depends + L.schedule + L.delayed + 9
  | .taskCheck _ => L.depends + L.schedule + L.delayed + 8
  | .contextSelect _ => L.depends + L.schedule + L.delayed + 7
  | .contextLoad _ _ rest _ => rest.length + L.schedule + L.delayed + 6
  | .agentStart .. => L.schedule + L.delayed + 5
  | .agentRun .. => L.schedule + L.delayed + 4
  | .taskRollback .. => L.schedule + L.release + 1
  | .persist .. => L.schedule + 2
  | .taskStored _ | .persistUpdate .. => L.schedule + 1
  | .retryOrFail _ _ k => L.release + L.retryCaller k
  | .retrySchedule _ _ k => L.delayed + 1 + L.retryCaller k
  | .retryDeadLetter _ k => 1 + L.retryCaller k
  | .scheduleGet _ k => L.schedule + L.scheduleCaller k
  | .scheduleSelect _ k => L.pass + L.scheduleCaller k
  | .scheduleScan _ k _ rest changed =>
    rest.length + 1 + (if changed then L.pass else L.finalize) + L.scheduleCaller k
  | .schedulePush _ k _ rest _ => rest.length + 6 + L.pass + L.scheduleCaller k
  | .finalizeGet _ k => L.finalize + L.scheduleCaller k
  | .finalizeSelect _ k => L.tasks + 3 + L.scheduleCaller k
  | .finalizeLoad _ k _ rest _ => rest.length + 2 + L.scheduleCaller k
  | .finalizeComplete _ k .. | .finalizeFail _ k _ => 1 + L.scheduleCaller k
  | .promoteSelect => L.rows + 2
  | .promoteNext due => due.length + 1
  | .promotePush _ due => due.length + 6
  | .recoverSelect => L.rows * L.stale + 2
  | .recoverAffected affected => affected.length * (L.schedule + 1) + 1

/-- The enqueueing of a row, by whether it happened. -/
def marking (L : Tariff) : Bool → Nat
  | true => 0
  | false => L.enqueue

/-- What a task row may still cost. -/
def task (L : Tariff) (t : Task) : Nat := L.claims t.status t.attempts * L.claim + L.marking t.enqueued

/-- What an execution row may still cost. -/
def execution (L : Tariff) (x : Execution) : Nat :=
  if x.status = .pending then L.submission else 0

/-- What the rows may still cost. -/
def db (L : Tariff) (db : Db) : Nat := db.executions.sum L.execution + db.tasks.sum L.task

/-- What the queue may still cost. -/
def redis (L : Tariff) (r : Redis) : Nat := 4 * r.queue.length + L.delayed * r.delayed.rows.length

end Tariff

/-- The steps that may still come of a state. -/
def State.potential (L : Tariff) (s : State) : Nat := L.db s.db + L.redis s.redis + s.weight L.pc

/-- The state is no larger than the tariff assumes. -/
structure Tariff.Covers (L : Tariff) (s : State) : Prop where
  tasks : ∀ e, (s.db.tasksOf e).length ≤ L.tasks
  rows : s.db.tasks.rows.length ≤ L.rows
  delayed : s.redis.delayed.rows.length ≤ L.rows
  depends : ∀ t ∈ s.db.tasks, t.dependsOn.length ≤ L.depends

/-! ## Moves -/

namespace Tariff

variable {L : Tariff}

@[simp ↓] theorem pc_resume (k : ScheduleCaller) : L.pc k.resume = L.scheduleCaller k := by
  cases k <;> rfl

theorem pc_recoverNext (stale : List Task) (affected : List ExecutionId) :
    L.pc (recoverNext stale affected) =
      stale.length * L.stale + affected.length * (L.schedule + 1) + 1 := by
  cases stale with
  | nil => simp [recoverNext, pc]
  | cons t rest =>
      simp only [recoverNext, pc, retryCaller, List.length_cons, Nat.succ_mul, Tariff.stale]
      omega

theorem pc_retry_resume_le (k : RetryCaller) : L.pc k.resume ≤ L.retryCaller k := by
  cases k with
  | executeTask e => exact Nat.le_refl _
  | recoverStaleTasks e stale affected =>
      have hinsert : (affected.insert e).length ≤ affected.length + 1 := by
        by_cases hmem : e ∈ affected
        · rw [List.insert_of_mem hmem]
          exact Nat.le_succ _
        · rw [List.insert_of_not_mem hmem, List.length_cons]
      have hmul := Nat.mul_le_mul_right (L.schedule + 1) hinsert
      simp only [RetryCaller.resume, pc_recoverNext, retryCaller]
      omega

theorem pc_finalizeTasks_le (x : Execution) (k : ScheduleCaller) (tasks : List Task) :
    L.pc (finalizeTasks x k tasks) ≤ tasks.length + 2 + L.scheduleCaller k := by
  have hsort : (sortByIndex tasks).length = tasks.length := List.length_insertionSort _ _
  unfold finalizeTasks
  split_ifs
  · rw [pc_resume]
    omega
  · rw [pc_resume]
    omega
  · simp only [pc]
    omega
  · simp only [pc]
    omega

/-- The dependencies a worker looks at are those of its row. -/
theorem Covers.depends_of_works (h : L.Covers s) {t : Task} (hw : s.db.Works t) :
    t.dependsOn.length ≤ L.depends := by
  obtain ⟨-, t', ht', hle⟩ := hw
  exact hle.dependsOn ▸ h.depends t' ht'

/-- A step without an effect pays for itself. -/
theorem moves_pay {o : Oracle} {pc pc' : Pc} (hcov : L.Covers s) (hknows : pc.Knows s.db)
    (hlive : pc ≠ .done) (hagent : ∀ exc, o.agent = .error exc → L.again = 0)
    (h : pc.Moves cfg o s.db s.redis pc') : L.pc pc' + 1 ≤ L.pc pc := by
  have hsubmission : L.submission = L.schedule + 4 + L.tasks * L.row := rfl
  have hrelease : L.release = L.delayed + 2 + L.again * L.claim := rfl
  have hpass : L.pass = L.tasks + 2 + L.finalize := rfl
  have hschedule : L.schedule = L.pass + 1 := rfl
  have hfinalize : L.finalize = L.tasks + 4 := rfl
  cases h with
  | done => exact absurd rfl hlive
  | contextSelect task rows =>
      have := hcov.depends_of_works hknows
      simp only [Tariff.pc]
      omega
  | agentRaised task context exc hraised =>
      rw [hagent exc hraised, Nat.zero_mul] at hrelease
      simp only [Tariff.pc]
      omega
  | scheduleSelect e k =>
      have hrows := (Table.reorder_perm o.order (s.db.tasksOf e)).length_eq
      have := hcov.tasks e
      simp only [Tariff.pc, Bool.false_eq_true, if_false]
      omega
  | finalizeSelect x k =>
      have hrows := (Table.reorder_perm o.order (s.db.tasksOf x.id)).length_eq
      have := hcov.tasks x.id
      have := L.pc_finalizeTasks_le x k (Table.reorder o.order (s.db.tasksOf x.id))
      show _ ≤ L.tasks + 3 + L.scheduleCaller k
      omega
  | promoteSelect =>
      have hdue := (Table.reorder_perm o.order (s.redis.due o.now)).length_eq
      have hfilter := List.length_filter_le (fun entry => decide (entry.2 ≤ o.now))
        s.redis.delayed.rows
      have := hcov.delayed
      simp only [Redis.due, List.length_map] at hdue
      simp only [Tariff.pc, Redis.due]
      omega
  | recoverSelect =>
      have hstale := (Table.reorder_perm o.order (s.db.tasks.rows.filter (isStale cfg.settings o))).length_eq
      have hfilter := List.length_filter_le (isStale cfg.settings o) s.db.tasks.rows
      have hmul := Nat.mul_le_mul_right L.stale (Nat.le_trans (hstale ▸ hfilter) hcov.rows)
      rw [pc_recoverNext, List.length_nil, Nat.zero_mul]
      show _ ≤ L.rows * L.stale + 2
      omega
  | recoverAffected affected e rest hcons =>
      have hperm := (Table.reorder_perm o.order affected).length_eq
      rw [hcons, List.length_cons] at hperm
      simp only [Tariff.pc, scheduleCaller, ← hperm, Nat.succ_mul]
      omega
  | _ => simp [Tariff.pc, scheduleCaller, retryCaller] <;> omega

/-! ## Commits -/

/-- What a row pays for its update. -/
def paid (L : Tariff) : TaskUpdate → Nat
  | .claimTask => L.claim
  | .skipTask => L.pass
  | .markEnqueued => L.enqueue
  | _ => 0

/-- What a row gets back when it is released. -/
def credit (L : Tariff) : TaskUpdate → Nat
  | .retryTask .. => L.again * L.claim
  | _ => 0

theorem task_set_le (now : Time) {t : Task} {u : TaskUpdate} (hg : u.guard t = true)
    (hretry : ∀ attempts nextAt error, u = .retryTask attempts nextAt error →
      L.claims .retrying attempts ≤ L.claims .running t.attempts + L.again) :
    L.task (u.set now t) + L.paid u ≤ L.task t + L.credit u := by
  cases u with
  | claimTask =>
      have hclaimed := Nat.mul_le_mul_right L.claim (L.claimed t.status t.attempts hg)
      rw [Nat.succ_mul] at hclaimed
      simp only [task, TaskUpdate.set, paid, credit]
      omega
  | skipTask =>
      have hs : t.status = .pending := by simpa [TaskUpdate.guard] using hg
      have hclaimed := Nat.mul_le_mul_right L.claim (L.claimed .pending t.attempts rfl)
      have hfailed := L.finished .failed t.attempts rfl
      have hclaim : L.claim = L.depends + (L.pass + 1) + L.delayed + 10 := rfl
      rw [Nat.succ_mul] at hclaimed
      simp only [task, TaskUpdate.set, paid, credit, hs, hfailed, marking, Nat.zero_mul]
      omega
  | markEnqueued =>
      have henq : t.enqueued = false := by simpa [TaskUpdate.guard] using hg
      simp [task, TaskUpdate.set, paid, credit, henq, marking]
  | retryTask attempts nextAt error =>
      have hs : t.status = .running := by simpa [TaskUpdate.guard] using hg
      have hclaims := Nat.mul_le_mul_right L.claim (hretry attempts nextAt error rfl)
      rw [Nat.add_mul] at hclaims
      simp only [task, TaskUpdate.set, paid, credit, hs]
      omega
  | markStarted => exact Nat.le_refl _
  | failTask attempts error =>
      have hfailed := L.finished .failed attempts rfl
      simp [task, TaskUpdate.set, paid, credit, hfailed]
  | completeStored | completeTask =>
      have hcompleted := L.finished .completed t.attempts rfl
      simp [task, TaskUpdate.set, paid, credit, hcompleted]

theorem db_updateTask_le (db : Db) (now : Time) (tid : TaskId) (u : TaskUpdate)
    (hretry : ∀ t ∈ db.tasks, t.id = tid → u.guard t = true → ∀ attempts nextAt error,
      u = .retryTask attempts nextAt error →
        L.claims .retrying attempts ≤ L.claims .running t.attempts + L.again) :
    L.db (db.updateTask now tid u) + L.paid u * db.rowcount (.updateTask tid u) ≤
      L.db db + L.credit u * db.rowcount (.updateTask tid u) := by
  have hsum := Table.sum_update_le (T := db.tasks) (u.set_id now) fun t ht hid hg =>
    L.task_set_le now hg (hretry t ht hid hg)
  simp only [Tariff.db, Db.updateTask, Db.rowcount]
  omega

/-- The update writes a retry. -/
def retries : TaskUpdate → Bool
  | .retryTask .. => true
  | _ => false

/-- An update that writes no retry. -/
theorem db_updateTask_le_of_not (db : Db) (now : Time) (tid : TaskId) (u : TaskUpdate)
    (hnot : retries u = false) :
    L.db (db.updateTask now tid u) + L.paid u * db.rowcount (.updateTask tid u) ≤ L.db db := by
  have hcredit : L.credit u = 0 := by
    cases u with
    | retryTask attempts nextAt error => cases hnot
    | _ => rfl
  have hle := L.db_updateTask_le db now tid u fun t _ _ _ attempts nextAt error heq => by
    subst heq
    cases hnot
  rwa [hcredit, Nat.zero_mul] at hle

/-- Only the claim of an execution pays. -/
def executionPaid (L : Tariff) : ExecutionUpdate → Nat
  | .guardExecution .pending _ => L.submission
  | _ => 0

theorem db_updateExecution_le {db : Db} (now : Time) {e : ExecutionId} {u : ExecutionUpdate}
    (h : db.Respects (.updateExecution e u)) :
    L.db (db.updateExecution now e u) +
      L.executionPaid u * db.rowcount (.updateExecution e u) ≤ L.db db := by
  have hrow : ∀ x ∈ db.executions, x.id = e → u.guard x = true →
      L.execution (u.set now x) + L.executionPaid u ≤ L.execution x + 0 := by
    intro x _ _ hg
    cases u with
    | guardExecution expected new =>
        have hs : x.status = expected := by simpa [ExecutionUpdate.guard] using hg
        have hnew : new ≠ .pending := h
        cases expected <;> simp [execution, executionPaid, ExecutionUpdate.set, hs, hnew]
    | startExecution => exact Nat.le_refl _
    | failExecution | completeExecution | failFinished => exact Nat.zero_le _
  have hsum := Table.sum_update_le (T := db.executions) (u.set_id now) hrow
  simp only [Tariff.db, Db.updateExecution, Db.rowcount]
  omega

theorem db_insertTasks (db : Db) (now : Time) (e : ExecutionId) (plan : Plan) :
    L.db (db.insertTasks now e plan) = L.db db + plan.subtasks.length * L.row := by
  have hnew : ((plan.subtasks.mapIdx (db.plannedTask e now)).map L.task).sum =
      plan.subtasks.length * L.row := by
    have hrows : ∀ t ∈ plan.subtasks.mapIdx (db.plannedTask e now), L.task t = L.row := by
      intro t ht
      obtain ⟨i, sub, -, rfl⟩ := Db.mem_plannedRows.1 ht
      rfl
    rw [List.map_congr_left hrows, List.map_const', List.sum_replicate_nat, List.length_mapIdx]
  simp only [Tariff.db, Table.sum, Db.rows_insertTasks, List.map_append, List.sum_append, hnew]
  simp only [Db.insertTasks]
  omega

/-- The rows a retry is written to allow as many claims less, or the tariff grants them again. -/
def Releases (L : Tariff) (cfg : Config) (db : Db) (pc : Pc) : Prop :=
  ∀ task error k, pc = .retryOrFail task error k →
    (task.attempts + 1 : Nat) ≤ cfg.settings.taskMaxRetries →
    ∀ t ∈ db.tasks, t.id = task.id → t.status = .running →
      L.claims .retrying (task.attempts + 1) ≤ L.claims .running t.attempts + L.again

end Tariff

theorem Db.respects_guardExecution (db : Db) (e : ExecutionId) (expected new : ExecutionStatus)
    (h : new ≠ .pending) :
    db.Respects (.updateExecution e (.guardExecution expected new)) := h

namespace Tariff

variable {L : Tariff}

/-- A commit pays for itself and for what it leaves behind. -/
theorem commits_pay {o : Oracle} {db : Db} (now : Time) {pc : Pc} {τ : Txn} {k : Nat → Pc}
    (hplan : ∀ e plan, pc = .planInsert e plan → plan.subtasks.length ≤ L.tasks)
    (hreleases : L.Releases cfg db pc) (h : pc.Commits cfg o db τ k) :
    L.db (db.commit now τ) + L.pc (k (db.rowcount τ)) + 1 ≤ L.db db + L.pc pc := by
  have hsubmission : L.submission = L.schedule + 4 + L.tasks * L.row := rfl
  have hclaim : L.claim = L.depends + L.schedule + L.delayed + 10 := rfl
  have hrelease : L.release = L.delayed + 2 + L.again * L.claim := rfl
  have henqueue : L.enqueue = 4 + L.pass := rfl
  have hschedule : L.schedule = L.pass + 1 := rfl
  have hpass : L.pass = L.tasks + 2 + L.finalize := rfl
  have hfinalize : L.finalize = L.tasks + 4 := rfl
  have hone : ∀ tid u, db.rowcount (.updateTask tid u) ≤ 1 := fun tid u => Table.rowcount_le_one _ _ _
  cases h with
  | planGuard e userRequest =>
      have hle := L.db_updateExecution_le now
        (db.respects_guardExecution e .pending .planning (by decide))
      simp only [executionPaid] at hle
      simp only [Db.commit]
      split
      · next hn =>
          rw [hn] at hle
          simp only [Tariff.pc]
          omega
      · simp only [Tariff.pc]
        omega
  | planInsert e plan =>
      have hrows := Nat.mul_le_mul_right L.row (hplan e plan rfl)
      have hdb := L.db_insertTasks db now e plan
      simp only [Db.commit, Tariff.pc]
      omega
  | planRunning e =>
      have hle := L.db_updateExecution_le now
        (db.respects_guardExecution e .planning .running (by decide))
      simp only [Db.commit, Tariff.pc]
      omega
  | planStarted e =>
      have hle := L.db_updateExecution_le now
        (show db.Respects (.updateExecution e .startExecution) from trivial)
      simp only [Db.commit, Tariff.pc, scheduleCaller]
      omega
  | planFail e error =>
      have hle := L.db_updateExecution_le now
        (show db.Respects (.updateExecution e (.failExecution error)) from trivial)
      simp only [Db.commit, Tariff.pc]
      omega
  | finalizeComplete x k tasks outcomes =>
      have hle := L.db_updateExecution_le now (show db.Respects (.updateExecution x.id
        (.completeExecution (aggregate x.userRequest outcomes) (msBetween x.startedAt o.now)
          (sumTokens tasks) (sumCosts tasks))) from trivial)
      simp only [Db.commit, ↓pc_resume, Tariff.pc]
      omega
  | finalizeFail x k tasks =>
      have hle := L.db_updateExecution_le now (show db.Respects (.updateExecution x.id
        (.failFinished (failureSummary tasks) (msBetween x.startedAt o.now) (sumTokens tasks)
          (sumCosts tasks))) from trivial)
      simp only [Db.commit, ↓pc_resume, Tariff.pc]
      omega
  | taskClaim tid =>
      have hle := L.db_updateTask_le_of_not db now tid .claimTask rfl
      simp only [paid] at hle
      simp only [Db.commit]
      split
      · next hn =>
          rw [hn] at hle
          simp only [Tariff.pc]
          omega
      · simp only [Tariff.pc]
        omega
  | taskStarted tid =>
      have hle := L.db_updateTask_le_of_not db now tid .markStarted rfl
      simp only [Db.commit, Tariff.pc]
      omega
  | taskStored task =>
      have hle := L.db_updateTask_le_of_not db now task.id .completeStored rfl
      simp only [Db.commit, Tariff.pc, scheduleCaller]
      omega
  | persist task output hnew =>
      have hle := L.db_updateTask_le_of_not (db.insertResult ⟨task.id, output.text⟩) now task.id
        (.completeTask o.now (output.metrics task.startedAt o.now)) rfl
      have hresult : L.db (db.insertResult ⟨task.id, output.text⟩) = L.db db := rfl
      simp only [Db.commit, Tariff.pc, scheduleCaller]
      omega
  | persistUpdate task stamp metrics =>
      have hle := L.db_updateTask_le_of_not db now task.id (.completeTask stamp metrics) rfl
      simp only [Db.commit, Tariff.pc, scheduleCaller]
      omega
  | retryTask task error k nextAt hbudget hnext =>
      have hle := L.db_updateTask_le db now task.id (.retryTask (task.attempts + 1) nextAt error)
        fun t ht hid hg attempts nextAt' error' heq => by
          obtain ⟨rfl, -, -⟩ := TaskUpdate.retryTask.inj heq
          exact hreleases task error k rfl hbudget t ht hid (by simpa [TaskUpdate.guard] using hg)
      have hcount := Nat.mul_le_mul_left (L.again * L.claim)
        (hone task.id (.retryTask (task.attempts + 1) nextAt error))
      have hresume := L.pc_retry_resume_le k
      have hretry : L.pc (.retryOrFail task error k) = L.release + L.retryCaller k := rfl
      simp only [paid, credit] at hle
      simp only [Db.commit]
      split
      · simp only [Tariff.pc]
        omega
      · omega
  | failTask task error k hbudget =>
      have hle := L.db_updateTask_le_of_not db now task.id (.failTask (task.attempts + 1) error) rfl
      have hresume := L.pc_retry_resume_le k
      have hretry : L.pc (.retryOrFail task error k) = L.release + L.retryCaller k := rfl
      simp only [Db.commit]
      split
      · simp only [Tariff.pc]
        omega
      · omega
  | skipTask e k seen t rest changed hs henq hv =>
      have hle := L.db_updateTask_le_of_not db now t.id .skipTask rfl
      simp only [paid] at hle
      -- a second pass is paid by the row this one skipped
      have hchanged : (if (changed || decide (db.rowcount (.updateTask t.id .skipTask) ≠ 0)) = true
          then L.pass else L.finalize) ≤ (if changed = true then L.pass else L.finalize) +
            L.pass * db.rowcount (.updateTask t.id .skipTask) := by
        rcases Nat.le_one_iff_eq_zero_or_eq_one.1 (hone t.id .skipTask) with hn | hn
        · simp [hn]
        · simp [hn]
      simp only [Db.commit, Tariff.pc, List.length_cons]
      omega
  | markEnqueued e k seen t rest changed hs henq hv =>
      have hle := L.db_updateTask_le_of_not db now t.id .markEnqueued rfl
      simp only [paid] at hle
      have hchanged : L.finalize ≤ if changed = true then L.pass else L.finalize := by
        split <;> omega
      simp only [Db.commit]
      split
      · next hn =>
          rw [hn] at hle
          simp only [Tariff.pc, List.length_cons]
          omega
      · simp only [Tariff.pc, List.length_cons]
        omega

/-- A Redis command pays for itself and for what it leaves behind. -/
theorem sends_pay (r : Redis) {pc : Pc} {c : Command} {k : Nat → Pc} (h : pc.Sends c k) :
    L.redis (r.send c) + L.pc (k (r.reply c)) + 1 ≤ L.redis r + L.pc pc := by
  have henqueue : ∀ job, L.redis (r.enqueue job) = L.redis r + 4 := by
    intro job
    simp only [redis, Redis.enqueue, List.length_append, List.length_singleton]
    omega
  cases h with
  | enqueuePlan e =>
      simp only [Redis.send, henqueue, Tariff.pc]
      omega
  | schedulePush e k seen rest tid =>
      simp only [Redis.send, henqueue, Tariff.pc, if_true]
      omega
  | retrySchedule tid nextAt k =>
      have hentry := Nat.mul_le_mul_left L.delayed (r.delayed.length_upsert_le (tid, nextAt))
      have hresume := L.pc_retry_resume_le k
      have hpc : L.pc (.retrySchedule tid nextAt k) = L.delayed + 1 + L.retryCaller k := rfl
      rw [Nat.mul_succ] at hentry
      simp only [redis, Redis.send]
      omega
  | retryDeadLetter entry k =>
      have hresume := L.pc_retry_resume_le k
      have hpc : L.pc (.retryDeadLetter entry k) = 1 + L.retryCaller k := rfl
      simp only [redis, Redis.send]
      omega
  | promoteNext tid due =>
      simp only [redis, Redis.send, Redis.reply]
      by_cases hfound : (r.delayed.find? tid).isSome = true
      · have hentry := Nat.mul_le_mul_left L.delayed (Table.length_erase_of_mem hfound)
        have hpromoted := L.promoted
        rw [Nat.mul_succ] at hentry
        simp only [hfound, if_true, Tariff.pc, List.length_cons]
        omega
      · have hgone : L.delayed * (r.delayed.erase tid).rows.length ≤ L.delayed * r.delayed.rows.length :=
          Nat.mul_le_mul_left _ (List.length_filter_le _ _)
        simp only [hfound, Bool.false_eq_true, if_false, Nat.zero_ne_one, Tariff.pc, List.length_cons]
        omega
  | promotePush tid due =>
      simp only [Redis.send, henqueue, Tariff.pc]
      omega

/-- An exception costs nothing, where it brings no claim back. -/
theorem pc_raised_le (exc : Exn) (hagain : L.again = 0) (pc : Pc) : L.pc (pc.raised exc) ≤ L.pc pc := by
  have hrelease : L.release = L.delayed + 2 + L.again * L.claim := rfl
  have hsubmission : L.submission = L.schedule + 4 + L.tasks * L.row := rfl
  have hschedule : L.schedule = L.pass + 1 := rfl
  have hpass : L.pass = L.tasks + 2 + L.finalize := rfl
  have hfinalize : L.finalize = L.tasks + 4 := rfl
  have hcaller : ∀ k : ScheduleCaller, L.pc (k.raised exc) ≤ 1 := by
    intro k
    cases k with
    | planExecution => exact Nat.le_refl _
    | executeTask | recoverStaleTasks => exact Nat.zero_le _
  rw [hagain, Nat.zero_mul] at hrelease
  cases pc with
  | scheduleGet e k | scheduleSelect e k | scheduleScan e k | schedulePush e k | finalizeGet e k
    | finalizeSelect e k | finalizeLoad e k | finalizeComplete e k | finalizeFail e k =>
      refine Nat.le_trans (hcaller k) ?_
      simp only [Tariff.pc]
      omega
  | _ =>
      simp only [Pc.raised, Tariff.pc]
      omega

/-! ## Steps -/

/-- What an event asks for from outside. -/
def supply (L : Tariff) : Event → Nat
  | .createExecution .. => L.submission + 5
  | .promoteDue => L.rows + 2
  | .recoverStaleTasks => L.rows * L.stale + 2
  | .redeliver _ => 3
  | _ => 0

end Tariff

/-- A step of a handler or of a consumer. -/
def Event.works : Event → Bool
  | .run .. | .dequeue => true
  | _ => false

/-- What the account assumes about an event: a retry is written to rows that still allow it, and nothing
    fails that would bring a claim back. -/
structure Tariff.Accepts (L : Tariff) (cfg : Config) (s : State) (ev : Event) : Prop where
  releases : ∀ hid o pc, ev = .run hid o → s.handlers[hid]? = some pc → L.Releases cfg s.db pc
  agent : ∀ hid o exc, ev = .run hid o → o.agent = .error exc → L.again = 0
  raise : ∀ hid exc, ev = .raise hid exc → L.again = 0

namespace State

variable {L : Tariff}

/-- A new handler adds its price. -/
theorem potential_spawn (pc : Pc) (hh : s'.handlers = s.handlers ++ [pc]) :
    s'.potential L = L.db s'.db + L.redis s'.redis + s.weight L.pc + L.pc pc := by
  rw [potential, State.weight_spawn L.pc hh]
  omega

/-- A handler that goes on exchanges its price. -/
theorem potential_set {hid : Nat} {pc : Pc} (hpc : s.handlers[hid]? = some pc) (pc' : Pc) (db : Db)
    (r : Redis) (clock : Time) :
    State.potential L { db := db, redis := r, handlers := s.handlers.set hid pc', clock := clock } + L.pc pc =
      L.db db + L.redis r + s.weight L.pc + L.pc pc' := by
  have hweight := Pool.sum_set L.pc (b := pc') hpc
  simp only [potential, State.weight]
  omega

theorem rows_createExecution (s : State) (userRequest : String) (now : Time) :
    (s.createExecution userRequest now).db.executions.rows =
      s.db.executions.rows ++ [s.newExecution userRequest now] := by
  refine Table.rows_insertAll ?_ (by simp)
  intro r hr r' hr'
  obtain rfl := List.mem_singleton.1 hr
  exact Nat.ne_of_lt (Table.key_lt_fresh hr')

theorem db_createExecution (userRequest : String) (now : Time) :
    L.db (s.createExecution userRequest now).db = L.db s.db + L.submission := by
  have hrows := rows_createExecution s userRequest now
  have htasks : (s.createExecution userRequest now).db.tasks = s.db.tasks := rfl
  have hnew : L.execution (s.newExecution userRequest now) = L.submission := rfl
  simp only [Tariff.db, Table.sum, hrows, htasks, List.map_append, List.sum_append, List.map_singleton,
    List.sum_singleton, hnew]
  omega

/-- Every step is paid for: out of the potential, or by what the event asks for. -/
theorem potential_step (hinv : Inv s) (hcov : L.Covers s)
    (hplans : ∀ pc ∈ s.handlers, ∀ e plan, pc = .planInsert e plan → plan.subtasks.length ≤ L.tasks)
    (haccepts : L.Accepts cfg s ev) (hs : s.step cfg ev = some s') :
    s'.potential L + ev.works.toNat ≤ s.potential L + L.supply ev := by
  have hjob : ∀ job : Job, L.pc job.handler = 3 := by
    intro job
    cases job <;> rfl
  have hpotential : s.potential L = L.db s.db + L.redis s.redis + s.weight L.pc := rfl
  cases State.stepsTo hs with
  | createExecution userRequest now =>
      have hredis : (s.createExecution userRequest now).redis = s.redis := rfl
      rw [potential_spawn (s := s) (.enqueuePlan _) rfl, db_createExecution, hredis]
      simp only [Tariff.pc, Event.works, Tariff.supply, Bool.toNat_false]
      omega
  | dequeue job queue hqueue =>
      rw [potential_spawn (s := s) job.handler rfl, hjob, hpotential]
      simp only [Tariff.redis, hqueue, List.length_cons, Event.works, Tariff.supply, Bool.toNat_true]
      omega
  | promoteDue =>
      rw [potential_spawn (s := s) .promoteSelect rfl]
      simp only [Tariff.pc, Event.works, Tariff.supply, Bool.toNat_false]
      omega
  | recoverStaleTasks =>
      rw [potential_spawn (s := s) .recoverSelect rfl]
      simp only [Tariff.pc, Event.works, Tariff.supply, Bool.toNat_false]
      omega
  | redeliver job hpublished =>
      rw [potential_spawn (s := s) job.handler rfl, hjob]
      simp only [Event.works, Tariff.supply, Bool.toNat_false]
      omega
  | move hid o pc pc' hpc hlive hact =>
      have hpay := L.moves_pay hcov (hinv.knows pc (List.mem_of_getElem? hpc)) hlive
        (fun exc hexc => haccepts.agent hid o exc rfl hexc) (Pc.moves_of_act hact)
      have hset := potential_set (L := L) hpc pc' s.db s.redis o.now
      simp only [Event.works, Tariff.supply, Bool.toNat_true]
      omega
  | commit hid o pc τ k hpc hlive hact =>
      have hpay := L.commits_pay o.now (hplans pc (List.mem_of_getElem? hpc))
        (haccepts.releases hid o pc rfl hpc) (Pc.commits_of_act hact)
      have hset := potential_set (L := L) hpc (k (s.db.rowcount τ)) (s.db.commit o.now τ) s.redis o.now
      simp only [Event.works, Tariff.supply, Bool.toNat_true]
      omega
  | send hid o pc c k hpc hlive hact =>
      have hpay := L.sends_pay s.redis (Pc.sends_of_act hact)
      have hset := potential_set (L := L) hpc (k (s.redis.reply c)) s.db (s.redis.send c) o.now
      simp only [Event.works, Tariff.supply, Bool.toNat_true]
      omega
  | raise hid exc pc hpc hlive =>
      have hpay := L.pc_raised_le exc (haccepts.raise hid exc rfl) pc
      have hset := potential_set (L := L) hpc (pc.raised exc) s.db s.redis s.clock
      simp only [Event.works, Tariff.supply, Bool.toNat_false]
      omega
  | crash hid pc hpc hlive =>
      have hset := potential_set (L := L) hpc .done s.db s.redis s.clock
      have hdone : L.pc .done = 0 := rfl
      simp only [Event.works, Tariff.supply, Bool.toNat_false]
      omega

end State

/-! ## How large a run gets -/

/-- The most subtasks a plan has. -/
def Settings.maxTasks (settings : Settings) : Nat :=
  (Planner.init settings.plannerMinTasks settings.plannerMaxTasks).maxTasks.toNat

theorem length_planOf_le (cfg : Config) (userRequest text : String) :
    (planOf cfg userRequest text).subtasks.length ≤ cfg.settings.maxTasks := by
  have hsize := (Planner.init cfg.settings.plannerMinTasks cfg.settings.plannerMaxTasks).length_planSubtasks
    cfg.python userRequest text
  have hlength : (planOf cfg userRequest text).subtasks.length =
      ((Planner.init cfg.settings.plannerMinTasks cfg.settings.plannerMaxTasks).planSubtasks cfg.python
        userRequest text).length := rfl
  have hmin := Int.min_le_left
    (Planner.init cfg.settings.plannerMinTasks cfg.settings.plannerMaxTasks).maxTasks
    (Planner.supply cfg.python text)
  rw [Settings.maxTasks]
  omega

section Size

variable {E : State → Event → Prop}

theorem length_plan_le (h : (queueMode cfg).Reachable E s) {pc : Pc} (hpc : pc ∈ s.handlers)
    {e : ExecutionId} {plan : Plan} (heq : pc = .planInsert e plan) :
    plan.subtasks.length ≤ cfg.settings.maxTasks := by
  obtain ⟨userRequest, text, -, rfl⟩ := reachable_plansMade h pc hpc e plan heq
  exact length_planOf_le cfg userRequest text

theorem length_tasksOf_le (h : (queueMode cfg).Reachable E s) (e : ExecutionId) :
    (s.db.tasksOf e).length ≤ cfg.settings.maxTasks := by
  obtain ⟨trace, hrun⟩ := h
  rcases plannedOnce_run hrun e with ⟨-, hnil⟩ | ⟨plan, -, hplans, userRequest, text, -, rfl⟩
  · rw [hnil]
    exact Nat.zero_le _
  · rw [hplans.length_tasksOf]
    exact length_planOf_le cfg userRequest text

/-- Every execution has its rows, and no row is without one. -/
theorem length_tasks_le (h : (queueMode cfg).Reachable E s) :
    s.db.tasks.rows.length ≤ cfg.settings.maxTasks * s.db.executions.rows.length := by
  have hkeys : (s.db.executions.rows.map Execution.id).length = s.db.executions.rows.length :=
    List.length_map _
  rw [← hkeys]
  refine Table.length_le_mul Task.executionId (fun t ht => ?_) (length_tasksOf_le h)
  obtain ⟨x, hx, hid⟩ := (reachable_inv h).wellFormed.owner t ht
  exact List.mem_map.2 ⟨x, hx, hid⟩

/-- A task waits for its retry once. -/
theorem Inv.length_delayed_le (h : Inv s) : s.redis.delayed.rows.length ≤ s.db.tasks.rows.length := by
  have hsub : s.redis.delayed.rows.map Prod.fst ⊆ s.db.tasks.rows.map Task.id := by
    intro tid htid
    obtain ⟨entry, hentry, rfl⟩ := List.mem_map.1 htid
    obtain ⟨t, ht, hid, -⟩ := h.redis.delayed entry hentry
    exact List.mem_map.2 ⟨t, ht, hid⟩
  have hle := (List.subperm_of_subset s.redis.delayed.nodup hsub).length_le
  rwa [List.length_map, List.length_map] at hle

/-- No row disappears. -/
theorem Db.Le.length_tasks_le {db db' : Db} (h : db.Le db') :
    db.tasks.rows.length ≤ db'.tasks.rows.length := by
  have hsub : db.tasks.rows.map Task.id ⊆ db'.tasks.rows.map Task.id := by
    intro tid htid
    obtain ⟨t, ht, rfl⟩ := List.mem_map.1 htid
    obtain ⟨t', ht', hle⟩ := h.task t ht
    exact List.mem_map.2 ⟨t', ht', hle.id⟩
  have hle := (List.subperm_of_subset db.tasks.nodup hsub).length_le
  rwa [List.length_map, List.length_map] at hle

end Size

/-! ## The work of a run -/

/-- `POST /executions`. -/
def Event.submits : Event → Bool
  | .createExecution .. => true
  | _ => false

/-- The promoter starts. -/
def Event.promotes : Event → Bool
  | .promoteDue => true
  | _ => false

/-- The reaper starts. -/
def Event.recovers : Event → Bool
  | .recoverStaleTasks => true
  | _ => false

/-- A job is delivered a second time. -/
def Event.redelivers : Event → Bool
  | .redeliver _ => true
  | _ => false

/-- How many events of a run are of the kind. -/
def countEvents (kind : Event → Bool) (trace : List (State × Event)) : Nat :=
  trace.countP fun p => kind p.2

theorem countEvents_append (kind : Event → Bool) (trace : List (State × Event)) (s : State) (ev : Event) :
    countEvents kind (trace ++ [(s, ev)]) = countEvents kind trace + (kind ev).toNat := by
  rw [countEvents, List.countP_append, List.countP_singleton, countEvents]
  cases kind ev <;> rfl

/-- Executions are only ever submitted. -/
theorem length_executions_step (hs : s.step cfg ev = some s') :
    s'.db.executions.rows.length = s.db.executions.rows.length + ev.submits.toNat := by
  cases State.stepsTo hs with
  | createExecution userRequest now =>
      rw [State.rows_createExecution, List.length_append]
      rfl
  | commit hid o pc τ k =>
      cases τ with
      | updateExecution => exact List.length_map _
      | updateTask | insertTasks | persistSuccess => rfl
  | dequeue | promoteDue | recoverStaleTasks | move | send | redeliver | raise | crash => rfl

theorem length_executions_run {E : State → Event → Prop} {trace : List (State × Event)}
    (h : (queueMode cfg).Run E trace s) :
    s.db.executions.rows.length = countEvents Event.submits trace := by
  induction h with
  | nil => rfl
  | snoc _ _ hs ih => rw [countEvents_append, ← ih, length_executions_step hs]

/-- The tariff of a run: each row is claimed as often as its attempts allow. -/
def Settings.tariff (settings : Settings) (rows depends : Nat) : Tariff where
  tasks := settings.maxTasks
  rows := rows
  depends := depends
  claims status attempts :=
    match status with
    | .pending | .retrying => settings.taskMaxRetries.toNat - attempts + 1
    | .running => settings.taskMaxRetries.toNat - attempts
    | .completed | .failed => 0
  again := 0
  delayed := 5
  claimed status attempts h := by cases status <;> simp_all [TaskStatus.claimable]
  finished status attempts h := by cases status <;> simp_all [TaskStatus.isTerminal]
  promoted := Nat.le_refl 5

/-- A retry that is not stale uses up an attempt. -/
theorem Settings.tariff_accepts {rows depends : Nat} (hfresh : staleAttempts s ev = false) :
    (cfg.settings.tariff rows depends).Accepts cfg s ev where
  releases hid o pc hev hpc := by
    rintro task error k rfl hbudget t ht hid' hs
    subst hev
    have hle := attempts_le_of_fresh hpc hfresh ht hid' hs
    simp only [Settings.tariff]
    omega
  agent _ _ _ _ _ := rfl
  raise _ _ _ := rfl

section Run

variable {trace : List (State × Event)}

theorem sum_works (trace : List (State × Event)) :
    (trace.map fun p => p.2.works.toNat).sum = countEvents Event.works trace := by
  induction trace using List.reverseRecOn with
  | nil => rfl
  | append_singleton trace p ih =>
      rw [List.map_append, List.sum_append, ih, countEvents_append]
      rfl

/-- What the events of a run ask for, by kind. -/
theorem sum_supply (L : Tariff) (trace : List (State × Event)) :
    (trace.map fun p => L.supply p.2).sum =
      countEvents Event.submits trace * (L.submission + 5) +
        countEvents Event.promotes trace * (L.rows + 2) +
        countEvents Event.recovers trace * (L.rows * L.stale + 2) +
        countEvents Event.redelivers trace * 3 := by
  induction trace using List.reverseRecOn with
  | nil => simp [countEvents]
  | append_singleton trace p ih =>
      obtain ⟨s, ev⟩ := p
      rw [List.map_append, List.sum_append, ih]
      simp only [countEvents_append, Nat.add_mul, List.map_singleton, List.sum_singleton]
      cases ev <;> simp [Tariff.supply, Event.submits, Event.promotes, Event.recovers, Event.redelivers] <;>
        omega

/-- Every state of a run is within what its end and its number of executions say. -/
theorem covers_of_run {D : Nat} {E : State → Event → Prop} (h : (queueMode cfg).Run E trace s)
    (hD : ∀ t ∈ s.db.tasks, t.dependsOn.length ≤ D) {p : State × Event} (hp : p ∈ trace) :
    (cfg.settings.tariff (cfg.settings.maxTasks * countEvents Event.submits trace) D).Covers p.1 := by
  have hreach := (h.mem_trace hp).1
  have hle := path_le hreach (h.path_of_mem hp)
  have hrows : p.1.db.tasks.rows.length ≤
      cfg.settings.maxTasks * countEvents Event.submits trace := by
    rw [← length_executions_run h]
    exact Nat.le_trans hle.length_tasks_le (length_tasks_le h.reachable)
  refine ⟨length_tasksOf_le hreach, hrows, ?_, fun t ht => ?_⟩
  · exact Nat.le_trans (reachable_inv hreach).length_delayed_le hrows
  · obtain ⟨t', ht', hle'⟩ := hle.task t ht
    exact hle'.dependsOn ▸ hD t' ht'

/-- In every run in which no update of `_retry_or_fail` writes stale attempts, the handlers and the
    consumers take at most so many steps altogether, whatever raises or stops: a number for each
    execution submitted, with `n` subtasks at most and `D` dependencies of one task at most, and for each
    promoter, reaper and second delivery. -/
theorem work_bounded {D : Nat} (h : (queueMode cfg).Run (fun s ev => staleAttempts s ev = false) trace s)
    (hD : ∀ t ∈ s.db.tasks, t.dependsOn.length ≤ D) :
    let n := cfg.settings.maxTasks
    let submitted := countEvents Event.submits trace
    countEvents Event.works trace ≤
      submitted * (n * ((cfg.settings.taskMaxRetries.toNat + 1) * (D + 2 * n + 22) + 2 * n + 10) +
          2 * n + 16) +
        countEvents Event.promotes trace * (n * submitted + 2) +
        countEvents Event.recovers trace * (n * submitted * (2 * n + 15) + 2) +
        countEvents Event.redelivers trace * 3 := by
  intro n submitted
  have hsubmitted : countEvents Event.submits trace = submitted := rfl
  have hcovered := h.restrict (P := fun s _ => (cfg.settings.tariff (n * submitted) D).Covers s)
    fun p hp => covers_of_run h hD hp
  generalize hL : cfg.settings.tariff (n * submitted) D = L at hcovered
  have hpaid := hcovered.amortized (State.potential L) (fun _ ev => ev.works.toNat)
    (fun _ ev => L.supply ev) fun s ev s' hr hE hs => by
      refine State.potential_step (reachable_inv hr) hE.2 (fun pc hpc e plan heq => ?_) ?_ hs
      · exact hL ▸ length_plan_le hr hpc heq
      · exact hL ▸ Settings.tariff_accepts hE.1
  rw [sum_works, sum_supply] at hpaid
  have hinit : (queueMode cfg).init.potential L = 0 := rfl
  have hrows : L.rows = n * submitted := by
    subst hL
    rfl
  have hstale : L.stale = 2 * n + 15 := by
    subst hL
    simp only [Tariff.stale, Tariff.release, Tariff.schedule, Tariff.pass, Tariff.finalize,
      Settings.tariff, n]
    omega
  have hsubmission : L.submission + 5 = n * ((cfg.settings.taskMaxRetries.toNat + 1) *
      (D + 2 * n + 22) + 2 * n + 10) + 2 * n + 16 := by
    subst hL
    simp only [Tariff.submission, Tariff.row, Tariff.claim, Tariff.enqueue, Tariff.schedule, Tariff.pass,
      Tariff.finalize, Settings.tariff, Nat.sub_zero, n]
    ring
  rw [hinit, hsubmission, hrows, hstale, hsubmitted] at hpaid
  omega

/-- One task with one retry takes 62 steps; the bound allows for 81. -/
theorem work_bounded_retry :
    ∃ trace s, (queueMode (fallbackConfig (singleTask 1))).Run
        (fun s ev => staleAttempts s ev = false) trace s ∧ countEvents Event.works trace = 62 ∧
      countEvents Event.works trace ≤
        1 * (1 * (2 * (0 + 2 * 1 + 22) + 2 * 1 + 10) + 2 * 1 + 16) + 1 * (1 * 1 + 2) +
          0 * (1 * 1 * (2 * 1 + 15) + 2) + 0 * 3 := by
  obtain ⟨trace, s, hrun, hcheck⟩ := (queueMode (fallbackConfig (singleTask 1))).exists_run
    (E := fun s ev => staleAttempts s ev = false) (fun s ev => !staleAttempts s ev)
    (fun trace s => countEvents Event.works trace == 62 && countEvents Event.submits trace == 1 &&
      countEvents Event.promotes trace == 1 && countEvents Event.recovers trace == 0 &&
      countEvents Event.redelivers trace == 0 && s.db.tasks.rows.all fun t => t.dependsOn.isEmpty)
    retriedOnce (by simp) (by decide +kernel)
  simp only [Bool.and_eq_true, beq_iff_eq, List.all_eq_true, List.isEmpty_iff] at hcheck
  obtain ⟨⟨⟨⟨⟨hworks, hsubmits⟩, hpromotes⟩, hrecovers⟩, hredelivers⟩, hdeps⟩ := hcheck
  have hbound := work_bounded (D := 0) hrun fun t ht => by rw [hdeps t ht]; exact Nat.le_refl 0
  rw [hsubmits, hpromotes, hrecovers, hredelivers] at hbound
  exact ⟨trace, s, hrun, hworks, hbound⟩

end Run

end AgenticExecution
