import AgenticExecution.Aggregator
import AgenticExecution.Database
import AgenticExecution.JobQueue
import Mathlib.Data.List.Sort

set_option autoImplicit false

/-! # Handlers

The four handlers of queue mode (`plan_execution`, `execute_task`, `promote_due`,
`recover_stale_tasks`), the functions they share, and the API handler that submits an execution, as
one small-step machine. A `Pc` is the point a handler stands at, with the locals it still needs;
`act` is its next atomic effect: some reads, one committed transaction, or one Redis command, and
where it goes on. Every read of a handler is a statement of its own, so anything may commit between
two of them. -/

namespace AgenticExecution

/-- What the environment decides in one step of a handler. -/
structure Oracle where
  /-- `utcnow()` and `time.time()`. -/
  now : Time
  /-- The order in which an unordered read returns its rows. -/
  order : List Nat := []
  /-- RUNNING tasks a skewed clock makes the reaper see as expired, beside those that are. -/
  suspects : List TaskId := []
  /-- The planning model answers with a text or raises. -/
  llm : Except Exn String := .ok ""
  /-- The agent returns an output, raises, or times out. -/
  agent : Except Exn AgentOutput := .ok { text := "" }
  jitter : Jitter := ⟨1, Jitter.lower_one, Jitter.upper_one⟩

/-- The caller `schedule_execution` returns to. -/
inductive ScheduleCaller
  | planExecution (executionId : ExecutionId)
  | executeTask
  | recoverStaleTasks (affected : List ExecutionId)

/-- The caller `_retry_or_fail` returns to, with the execution of the task it was called for. -/
inductive RetryCaller
  | executeTask (executionId : ExecutionId)
  | recoverStaleTasks (executionId : ExecutionId) (stale : List Task) (affected : List ExecutionId)

/-- Where a handler stands, with what it has read. -/
inductive Pc
  | done
  -- create_execution, after its commit
  | enqueuePlan (e : ExecutionId)
  -- plan_execution
  | planProvider (e : ExecutionId)
  | planGet (e : ExecutionId)
  | planGuard (e : ExecutionId) (userRequest : String)
  | planLlm (e : ExecutionId) (userRequest : String)
  | planInsert (e : ExecutionId) (plan : Plan)
  | planRunning (e : ExecutionId)
  | planStarted (e : ExecutionId)
  | planFail (e : ExecutionId) (error : String)
  -- execute_task; `task` is the row as `db.refresh` read it after the claim
  | taskProvider (tid : TaskId)
  | taskGet (tid : TaskId)
  | taskClaim (tid : TaskId)
  | taskStarted (tid : TaskId)
  | taskRefresh (tid : TaskId)
  | taskCheck (task : Task)
  | taskStored (task : Task)
  | contextSelect (task : Task)
  | contextLoad (task : Task) (rows : List Task) (rest : List Int) (parts : List String)
  | agentStart (task : Task) (context : String)
  | agentRun (task : Task) (context : String)
  | taskRollback (task : Task) (error : String)
  | persist (task : Task) (output : AgentOutput)
  | persistUpdate (task : Task) (stamp : Time) (metrics : Metrics)
  -- _retry_or_fail; `task` is the row whose `attempts` it read
  | retryOrFail (task : Task) (error : String) (k : RetryCaller)
  | retrySchedule (tid : TaskId) (nextAt : Time) (k : RetryCaller)
  | retryDeadLetter (entry : DeadLetter) (k : RetryCaller)
  -- schedule_execution; the loaded rows are `seen ++ rest`, `rest` still to be looked at
  | scheduleGet (e : ExecutionId) (k : ScheduleCaller)
  | scheduleSelect (e : ExecutionId) (k : ScheduleCaller)
  | scheduleScan (e : ExecutionId) (k : ScheduleCaller) (seen rest : List Task) (changed : Bool)
  | schedulePush (e : ExecutionId) (k : ScheduleCaller) (seen rest : List Task) (tid : TaskId)
  -- _finalize
  | finalizeGet (e : ExecutionId) (k : ScheduleCaller)
  | finalizeSelect (execution : Execution) (k : ScheduleCaller)
  | finalizeLoad (execution : Execution) (k : ScheduleCaller) (tasks rest : List Task)
      (outcomes : List TaskOutcome)
  | finalizeComplete (execution : Execution) (k : ScheduleCaller) (tasks : List Task)
      (outcomes : List TaskOutcome)
  | finalizeFail (execution : Execution) (k : ScheduleCaller) (tasks : List Task)
  -- promote_due
  | promoteSelect
  | promoteNext (due : List TaskId)
  | promotePush (tid : TaskId) (due : List TaskId)
  -- recover_stale_tasks
  | recoverSelect
  | recoverAffected (affected : List ExecutionId)

/-- The next atomic effect of a handler and how it resumes. -/
inductive Act
  /-- Reads at most. -/
  | goto (pc : Pc)
  /-- Commits a transaction and resumes with its `rowcount`. -/
  | commit (τ : Txn) (k : Nat → Pc)
  /-- Sends a Redis command and resumes with its reply. -/
  | send (c : Command) (k : Nat → Pc)

/-! ## Calls and returns -/

/-- `schedule_execution` returns. -/
def ScheduleCaller.resume : ScheduleCaller → Pc
  | .planExecution _ => .done
  | .executeTask => .done
  | .recoverStaleTasks affected => .recoverAffected affected

/-- An exception leaves `schedule_execution`. -/
def ScheduleCaller.raised (exc : Exn) : ScheduleCaller → Pc
  | .planExecution e => .planFail e ("Planning failed: " ++ exc.describe)
  | .executeTask => .done
  | .recoverStaleTasks _ => .done

/-- The error `recover_stale_tasks` records. -/
def leaseExpired : String := "worker lease expired (possible crash)"

/-- The loop of `recover_stale_tasks` over the stale tasks. -/
def recoverNext (stale : List Task) (affected : List ExecutionId) : Pc :=
  match stale with
  | [] => .recoverAffected affected
  | t :: rest =>
    .retryOrFail t leaseExpired (.recoverStaleTasks t.executionId rest affected)

/-- `_retry_or_fail` returns. -/
def RetryCaller.resume : RetryCaller → Pc
  | .executeTask e => .scheduleGet e .executeTask
  | .recoverStaleTasks e stale affected => recoverNext stale (affected.insert e)

/-- Where a handler stands after the exception `exc` left its pending call. -/
def Pc.raised (exc : Exn) : Pc → Pc
  | .planProvider e | .planGet e | .planGuard e _ | .planLlm e _ | .planInsert e _
  | .planRunning e | .planStarted e => .planFail e ("Planning failed: " ++ exc.describe)
  -- the inner `try` of `execute_task`
  | .contextSelect task | .contextLoad task .. | .agentStart task _ | .agentRun task _ =>
    .taskRollback task exc.describe
  | .scheduleGet _ k | .scheduleSelect _ k | .scheduleScan _ k .. | .schedulePush _ k ..
  | .finalizeGet _ k | .finalizeSelect _ k | .finalizeLoad _ k .. | .finalizeComplete _ k ..
  | .finalizeFail _ k _ => k.raised exc
  -- logged and dropped: by `_fail_execution`, by the outer `try` of `execute_task`, or by a loop
  | _ => .done

/-! ## schedule_execution -/

/-- `by_index.get(i)`: of several rows with one `order_index` the last wins. -/
def byIndex (tasks : List Task) (i : Int) : Option Task :=
  tasks.reverse.find? fun t => t.orderIndex = i

/-- The loaded rows of the dependencies that exist. -/
def dependencies (tasks : List Task) (t : Task) : List Task := t.dependsOn.filterMap (byIndex tasks)

/-- What a pass decides about a task. -/
inductive Verdict
  | skip | enqueue | wait
  deriving DecidableEq

/-- What a pass does with a PENDING task it has not enqueued. -/
def verdict (tasks : List Task) (t : Task) : Verdict :=
  if (dependencies tasks t).any fun d => d.status = .failed then .skip
  else if (dependencies tasks t).all fun d => d.status = .completed then .enqueue
  else .wait

/-- One iteration of the loop of `schedule_execution` over the loaded rows. The ORM evaluates its
    updates on the loaded objects as well, so `seen` holds the row as this pass left it. -/
def scanAct (o : Oracle) (e : ExecutionId) (k : ScheduleCaller) (seen rest : List Task)
    (changed : Bool) : Act :=
  match rest with
  | [] => .goto (if changed then .scheduleSelect e k else .finalizeGet e k)
  | t :: rest =>
    if t.status ≠ .pending || t.enqueued then .goto (.scheduleScan e k (seen ++ [t]) rest changed)
    else
      match verdict (seen ++ t :: rest) t with
      | .skip =>
        .commit (.updateTask t.id .skipTask) fun n =>
          .scheduleScan e k (seen ++ [TaskUpdate.skipTask.set o.now t]) rest (changed || n ≠ 0)
      | .enqueue =>
        .commit (.updateTask t.id .markEnqueued) fun n =>
          let seen := seen ++ [TaskUpdate.markEnqueued.set o.now t]
          if n = 1 then .schedulePush e k seen rest t.id else .scheduleScan e k seen rest changed
      | .wait => .goto (.scheduleScan e k (seen ++ [t]) rest changed)

/-! ## _finalize -/

/-- `sorted(tasks, key=lambda t: t.order_index)`. -/
def sortByIndex (tasks : List Task) : List Task :=
  tasks.insertionSort fun t t' => t.orderIndex ≤ t'.orderIndex

/-- The outcome `_outcomes` builds from a task and the result it loads. -/
def Task.outcome (t : Task) (result : Option TaskResult) : TaskOutcome where
  agentType := t.agentType
  description := t.description
  status := t.status
  output := (result.map TaskResult.output).getD ""

/-- `sum((t.total_tokens or 0) for t in tasks)`. -/
def sumTokens (tasks : List Task) : Int := (tasks.map fun t => t.totalTokens.getD 0).sum

/-- `round(sum((t.cost_usd or 0.0) for t in tasks), 6)`; `sum` compensates its rounding errors, so its
    double is taken to be the one nearest to the sum. -/
def sumCosts (tasks : List Task) : ℚ :=
  Double.roundTo 6 (Double.round (tasks.map fun t => t.costUsd.getD 0).sum)

/-- The error `_finalize` records when some task failed. -/
def failureSummary (tasks : List Task) : String :=
  let failed := tasks.filter fun t => t.status = .failed
  let reason (t : Task) : String :=
    match t.error with
    | some error => if error = "" then "failed" else error
    | none => "failed"
  toString failed.length ++ " task(s) failed: " ++
    join "; " (failed.map fun t => t.agentType.value ++ ": " ++ reason t)

/-- What `_finalize` does with the task rows it loaded. -/
def finalizeTasks (x : Execution) (k : ScheduleCaller) (tasks : List Task) : Pc :=
  if tasks.isEmpty then k.resume
  else if tasks.any fun t => !t.status.isTerminal then k.resume
  else if tasks.all fun t => t.status = .completed then
    .finalizeLoad x k tasks (sortByIndex tasks) []
  else .finalizeFail x k tasks

/-! ## execute_task -/

/-- `f"[{dep.agent_type}] {dep.result.output}"`. -/
def contextPart (dep : Task) (result : TaskResult) : String :=
  "[" ++ dep.agentType.value ++ "] " ++ result.output

/-- One iteration of the loop of `_dependency_context`; `dep.result` is loaded here. -/
def contextStep (db : Db) (rows : List Task) (i : Int) (parts : List String) : List String :=
  match byIndex rows i with
  | none => parts
  | some dep =>
    if dep.status = .completed then
      match db.results.find? dep.id with
      | some result => parts ++ [contextPart dep result]
      | none => parts
    else parts

/-- The RUNNING tasks `recover_stale_tasks` selects. -/
def isStale (settings : Settings) (o : Oracle) (t : Task) : Bool :=
  t.status = .running &&
    (decide (t.updatedAt < o.now - settings.taskLeaseSeconds) || o.suspects.contains t.id)

/-- `_retry_or_fail` up to its commit. -/
def retryAct (settings : Settings) (o : Oracle) (task : Task) (error : String) (k : RetryCaller) :
    Act :=
  let attempts := task.attempts + 1
  if (attempts : Int) ≤ settings.taskMaxRetries then
    match nextAttemptAt settings attempts o.jitter o.now with
    | none => .goto .done
    | some nextAt =>
      .commit (.updateTask task.id (.retryTask attempts nextAt error)) fun n =>
        if n ≠ 0 then .retrySchedule task.id nextAt k else k.resume
  else
    .commit (.updateTask task.id (.failTask attempts error)) fun n =>
      if n ≠ 0 then
        .retryDeadLetter
          { taskId := task.id
            executionId := task.executionId
            agentType := task.agentType
            attempts := attempts
            error := error
            failedAt := o.now } k
      else k.resume

/-- The next atomic effect of a handler. -/
def Pc.act (cfg : Config) (o : Oracle) (db : Db) (r : Redis) : Pc → Act
  | .done => .goto .done
  | .enqueuePlan e => .send (.enqueue (.plan e)) fun _ => .done
  -- plan_execution
  | .planProvider e => .goto (.planGet e)
  | .planGet e =>
    match db.executions.find? e with
    | none => .goto .done
    | some x => .goto (.planGuard e x.userRequest)
  | .planGuard e userRequest =>
    .commit (.updateExecution e (.guardExecution .pending .planning)) fun n =>
      if n = 1 then .planLlm e userRequest else .done
  | .planLlm e userRequest =>
    match o.llm with
    | .error exc => .goto (.planFail e ("Planning failed: " ++ exc.describe))
    | .ok text =>
      let planner := Planner.init cfg.settings.plannerMinTasks cfg.settings.plannerMaxTasks
      .goto (.planInsert e (planner.plan cfg.python userRequest text))
  | .planInsert e plan => .commit (.insertTasks e plan) fun _ => .planRunning e
  | .planRunning e =>
    .commit (.updateExecution e (.guardExecution .planning .running)) fun _ => .planStarted e
  | .planStarted e =>
    .commit (.updateExecution e .startExecution) fun _ => .scheduleGet e (.planExecution e)
  | .planFail e error => .commit (.updateExecution e (.failExecution error)) fun _ => .done
  -- execute_task
  | .taskProvider tid => .goto (.taskGet tid)
  | .taskGet tid =>
    match db.tasks.find? tid with
    | none => .goto .done
    | some _ => .goto (.taskClaim tid)
  | .taskClaim tid =>
    .commit (.updateTask tid .claimTask) fun n => if n = 1 then .taskStarted tid else .done
  | .taskStarted tid => .commit (.updateTask tid .markStarted) fun _ => .taskRefresh tid
  | .taskRefresh tid =>
    match db.tasks.find? tid with
    | none => .goto .done
    | some task => .goto (.taskCheck task)
  | .taskCheck task =>
    match db.results.find? task.id with
    | some _ => .goto (.taskStored task)
    | none => .goto (.contextSelect task)
  | .taskStored task =>
    .commit (.updateTask task.id .completeStored) fun _ => .scheduleGet task.executionId .executeTask
  | .contextSelect task =>
    if task.dependsOn = [] then .goto (.agentStart task "")
    else
      .goto (.contextLoad task (Table.reorder o.order (db.tasksOf task.executionId)) task.dependsOn [])
  | .contextLoad task rows rest parts =>
    match rest with
    | [] => .goto (.agentStart task (join "\n\n" parts))
    | i :: rest => .goto (.contextLoad task rows rest (contextStep db rows i parts))
  | .agentStart task context => .goto (.agentRun task context)
  | .agentRun task _ =>
    match o.agent with
    | .ok output => .goto (.persist task output)
    | .error exc => .goto (.taskRollback task exc.describe)
  | .taskRollback task error =>
    match db.tasks.find? task.id with
    | some fresh => .goto (.retryOrFail fresh error (.executeTask task.executionId))
    | none => .goto (.scheduleGet task.executionId .executeTask)
  | .persist task output =>
    let metrics := output.metrics task.startedAt o.now
    match db.results.find? task.id with
    -- IntegrityError, rolled back
    | some _ => .goto (.persistUpdate task o.now metrics)
    | none =>
      .commit (.persistSuccess task.id output.text o.now metrics) fun _ =>
        .scheduleGet task.executionId .executeTask
  | .persistUpdate task stamp metrics =>
    .commit (.updateTask task.id (.completeTask stamp metrics)) fun _ =>
      .scheduleGet task.executionId .executeTask
  -- _retry_or_fail
  | .retryOrFail task error k => retryAct cfg.settings o task error k
  | .retrySchedule tid nextAt k => .send (.scheduleTask tid nextAt) fun _ => k.resume
  | .retryDeadLetter entry k => .send (.pushDeadLetter entry) fun _ => k.resume
  -- schedule_execution
  | .scheduleGet e k =>
    match db.executions.find? e with
    | none => .goto k.resume
    | some _ => .goto (.scheduleSelect e k)
  | .scheduleSelect e k =>
    .goto (.scheduleScan e k [] (Table.reorder o.order (db.tasksOf e)) false)
  | .scheduleScan e k seen rest changed => scanAct o e k seen rest changed
  | .schedulePush e k seen rest tid =>
    .send (.enqueue (.task tid)) fun _ => .scheduleScan e k seen rest true
  -- _finalize
  | .finalizeGet e k =>
    match db.executions.find? e with
    | none => .goto k.resume
    | some x => .goto (.finalizeSelect x k)
  | .finalizeSelect x k => .goto (finalizeTasks x k (Table.reorder o.order (db.tasksOf x.id)))
  | .finalizeLoad x k tasks rest outcomes =>
    match rest with
    | [] => .goto (.finalizeComplete x k tasks outcomes)
    | t :: rest =>
      .goto (.finalizeLoad x k tasks rest (outcomes ++ [t.outcome (db.results.find? t.id)]))
  | .finalizeComplete x k tasks outcomes =>
    .commit (.updateExecution x.id (.completeExecution (aggregate x.userRequest outcomes)
      (msBetween x.startedAt o.now) (sumTokens tasks) (sumCosts tasks))) fun _ => k.resume
  | .finalizeFail x k tasks =>
    .commit (.updateExecution x.id (.failFinished (failureSummary tasks)
      (msBetween x.startedAt o.now) (sumTokens tasks) (sumCosts tasks))) fun _ => k.resume
  -- promote_due
  | .promoteSelect => .goto (.promoteNext (Table.reorder o.order (r.due o.now)))
  | .promoteNext due =>
    match due with
    | [] => .goto .done
    | tid :: due =>
      .send (.removeDelayed tid) fun n => if n = 1 then .promotePush tid due else .promoteNext due
  | .promotePush tid due => .send (.enqueue (.task tid)) fun _ => .promoteNext due
  -- recover_stale_tasks
  | .recoverSelect =>
    .goto (recoverNext (Table.reorder o.order (db.tasks.rows.filter (isStale cfg.settings o))) [])
  | .recoverAffected affected =>
    match Table.reorder o.order affected with
    | [] => .goto .done
    | e :: rest => .goto (.scheduleGet e (.recoverStaleTasks rest))

end AgenticExecution
