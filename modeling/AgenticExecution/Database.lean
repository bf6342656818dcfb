import AgenticExecution.Models

set_option autoImplicit false

/-! # Database

The three tables and the write transactions of the scheduler. Every transaction commits at once. A
`TaskUpdate` or an `ExecutionUpdate` is one guarded `UPDATE`: `guard` is its `WHERE` clause beside
the key, `set` its `SET` clause. The primary keys and the UNIQUE constraint on
`task_results.task_id` are part of the table types. -/

namespace AgenticExecution

/-- The tables. -/
structure Db where
  executions : Table Execution.id := .empty
  tasks : Table Task.id := .empty
  results : Table TaskResult.taskId := .empty

/-! ## Guarded updates -/

/-- `_CLAIMABLE`. -/
def TaskStatus.claimable : TaskStatus → Bool
  | .pending | .retrying => true
  | .running | .completed | .failed => false

/-- The UPDATE statements on `tasks`, by where they stand. -/
inductive TaskUpdate
  /-- `_claim_task`. -/
  | claimTask
  /-- `_mark_started`. -/
  | markStarted
  /-- `_mark_enqueued`. -/
  | markEnqueued
  /-- The failure cascade of `schedule_execution`. -/
  | skipTask
  /-- The retry branch of `_retry_or_fail`. -/
  | retryTask (attempts : Nat) (nextAttemptAt : Time) (error : String)
  /-- The exhausted branch of `_retry_or_fail`. -/
  | failTask (attempts : Nat) (error : String)
  /-- The short cut of `execute_task` when a result is already stored. -/
  | completeStored
  /-- The update of `_persist_success`, stamped with its `now`. -/
  | completeTask (stamp : Time) (metrics : Metrics)

/-- The `WHERE` clause beside the task id. -/
def TaskUpdate.guard : TaskUpdate → Task → Bool
  | .claimTask, t => t.status.claimable
  | .markStarted, t => t.startedAt.isNone
  | .markEnqueued, t => !t.enqueued
  | .skipTask, t => t.status = .pending
  | .retryTask .., t => t.status = .running
  | .failTask .., t => t.status = .running
  | .completeStored, t => t.status = .running
  | .completeTask .., t => t.status = .running || t.status = .retrying

/-- The `SET` clause. `updated_at` has an `onupdate` default, so every update stamps it. -/
def TaskUpdate.set (now : Time) : TaskUpdate → Task → Task
  | .claimTask, t => { t with status := .running, updatedAt := now }
  | .markStarted, t => { t with startedAt := some now, updatedAt := now }
  | .markEnqueued, t => { t with enqueued := true, updatedAt := now }
  | .skipTask, t =>
    { t with status := .failed, enqueued := true, error := some "Skipped: a dependency failed",
             updatedAt := now }
  | .retryTask attempts nextAttemptAt error, t =>
    { t with status := .retrying, attempts := attempts, nextAttemptAt := some nextAttemptAt,
             error := some error, updatedAt := now }
  | .failTask attempts error, t =>
    { t with status := .failed, attempts := attempts, error := some error, updatedAt := now }
  | .completeStored, t => { t with status := .completed, updatedAt := now }
  | .completeTask stamp metrics, t =>
    { t with status := .completed, error := none, updatedAt := stamp, completedAt := some stamp,
             durationMs := metrics.durationMs, totalTokens := some metrics.totalTokens,
             costUsd := some metrics.costUsd, toolCalls := metrics.toolCalls }

/-- The UPDATE statements on `executions`, by where they stand. -/
inductive ExecutionUpdate
  /-- `_guard_execution`. -/
  | guardExecution (expected new : ExecutionStatus)
  /-- The `started_at` update of `plan_execution`. -/
  | startExecution
  /-- `_fail_execution`. -/
  | failExecution (error : String)
  /-- `_finalize`, every task COMPLETED. -/
  | completeExecution (finalResult : String) (durationMs : Option Int) (totalTokens : Int)
      (costUsd : ℚ)
  /-- `_finalize`, some task FAILED. -/
  | failFinished (error : String) (durationMs : Option Int) (totalTokens : Int) (costUsd : ℚ)

/-- The `WHERE` clause beside the execution id. -/
def ExecutionUpdate.guard : ExecutionUpdate → Execution → Bool
  | .guardExecution expected _, x => x.status = expected
  | .startExecution, x => x.startedAt.isNone
  | .failExecution _, _ => true
  | .completeExecution .., x => x.status = .running
  | .failFinished .., x => x.status = .running

/-- The `SET` clause. -/
def ExecutionUpdate.set (now : Time) : ExecutionUpdate → Execution → Execution
  | .guardExecution _ new, x => { x with status := new, updatedAt := now }
  | .startExecution, x => { x with startedAt := some now, updatedAt := now }
  | .failExecution error, x =>
    { x with status := .failed, error := some error, updatedAt := now }
  | .completeExecution finalResult durationMs totalTokens costUsd, x =>
    { x with status := .completed, finalResult := some finalResult, updatedAt := now,
             completedAt := some now, durationMs := durationMs, totalTokens := some totalTokens,
             costUsd := some costUsd }
  | .failFinished error durationMs totalTokens costUsd, x =>
    { x with status := .failed, error := some error, updatedAt := now, completedAt := some now,
             durationMs := durationMs, totalTokens := some totalTokens, costUsd := some costUsd }

theorem TaskUpdate.set_id (now : Time) (u : TaskUpdate) (t : Task) : (u.set now t).id = t.id := by
  cases u <;> rfl

theorem ExecutionUpdate.set_id (now : Time) (u : ExecutionUpdate) (x : Execution) :
    (u.set now x).id = x.id := by
  cases u <;> rfl

/-! ## Transactions -/

/-- A write transaction of the scheduler. -/
inductive Txn
  | updateExecution (executionId : ExecutionId) (u : ExecutionUpdate)
  | updateTask (taskId : TaskId) (u : TaskUpdate)
  /-- The batch insert of `plan_execution`. -/
  | insertTasks (executionId : ExecutionId) (plan : Plan)
  /-- `_persist_success` when the result is new: the insert and the update commit together. -/
  | persistSuccess (taskId : TaskId) (output : String) (stamp : Time) (metrics : Metrics)

namespace Db

/-- The row `plan_execution` adds for the subtask at position `index`. -/
def plannedTask (db : Db) (executionId : ExecutionId) (now : Time) (index : Nat)
    (subtask : PlannedSubtask) : Task where
  id := db.tasks.fresh + index
  executionId := executionId
  agentType := subtask.agentType
  description := subtask.description
  orderIndex := index
  dependsOn := subtask.dependsOn
  updatedAt := now

/-- An UPDATE of one task row; it hits only where the guard holds. -/
def updateTask (db : Db) (now : Time) (taskId : TaskId) (u : TaskUpdate) : Db :=
  { db with tasks := db.tasks.update taskId u.guard (u.set now) (u.set_id now) }

/-- An UPDATE of one execution row. -/
def updateExecution (db : Db) (now : Time) (executionId : ExecutionId) (u : ExecutionUpdate) : Db :=
  { db with executions := db.executions.update executionId u.guard (u.set now) (u.set_id now) }

/-- The INSERTs of `plan_execution`, one for each subtask of the plan. -/
def insertTasks (db : Db) (now : Time) (executionId : ExecutionId) (plan : Plan) : Db :=
  { db with tasks :=
      db.tasks.insertAll (plan.subtasks.mapIdx (db.plannedTask executionId now)) }

/-- The insert of a `TaskResult`; the UNIQUE constraint refuses a second one. -/
def insertResult (db : Db) (result : TaskResult) : Db :=
  { db with results := (db.results.insert? result).getD db.results }

/-- The database after `τ` committed at `now`. -/
def commit (db : Db) (now : Time) : Txn → Db
  | .updateExecution e u => db.updateExecution now e u
  | .updateTask tid u => db.updateTask now tid u
  | .insertTasks e plan => db.insertTasks now e plan
  | .persistSuccess tid output stamp metrics =>
    (db.insertResult ⟨tid, output⟩).updateTask now tid (.completeTask stamp metrics)

/-- The `rowcount` the transaction reports. -/
def rowcount (db : Db) : Txn → Nat
  | .updateExecution e u => db.executions.rowcount e u.guard
  | .updateTask tid u => db.tasks.rowcount tid u.guard
  | .insertTasks .. => 0
  | .persistSuccess tid _ stamp metrics =>
    db.tasks.rowcount tid (TaskUpdate.completeTask stamp metrics).guard

/-! ## Reads -/

/-- `SELECT … FROM tasks WHERE execution_id = e`. -/
def tasksOf (db : Db) (e : ExecutionId) : List Task := db.tasks.rows.filter (·.executionId = e)

theorem mem_tasksOf {db : Db} {e : ExecutionId} {t : Task} :
    t ∈ db.tasksOf e ↔ t ∈ db.tasks ∧ t.executionId = e := by
  simp [tasksOf, Table.mem_def]

theorem tasksOf_nodup (db : Db) (e : ExecutionId) : ((db.tasksOf e).map Task.id).Nodup :=
  (List.Sublist.map Task.id (List.filter_sublist)).nodup db.tasks.nodup

/-- An update of one task maps the rows of every execution. -/
theorem tasksOf_update (db : Db) {e : ExecutionId} {tid : TaskId} {p : Task → Bool} {f : Task → Task}
    (hid : ∀ t, (f t).id = t.id) (hexec : ∀ t, (f t).executionId = t.executionId) :
    ({ db with tasks := db.tasks.update tid p f hid } : Db).tasksOf e =
      (db.tasksOf e).map fun t => if t.id = tid ∧ p t then f t else t := by
  have hsame : ∀ t : Task, decide ((if t.id = tid ∧ p t then f t else t).executionId = e) =
      decide (t.executionId = e) := by
    intro t
    split
    · rw [hexec]
    · rfl
  show List.filter _ (List.map _ db.tasks.rows) = _
  rw [List.filter_map]
  congr 1
  exact List.filter_congr fun t _ => hsame t

end Db

end AgenticExecution
