import AgenticExecution.Planning

set_option autoImplicit false

/-! # Inline mode

`create_execution` when the mode is not `queue`, `run_execution` and `SequentialExecutor.execute`: one
process plans the execution and runs its tasks one after another, each with the outputs of all tasks
before it, and stops at the first failure. No other process writes these rows, so a run is a function
of the database and of the answers of the environment. The runs of the agents are recorded on the way;
the program does not keep them. -/

namespace AgenticExecution

/-! ## Rows as the session writes them -/

namespace Db

/-- The commit after attributes of a task were assigned: an `UPDATE` without a guard. -/
def saveTask (db : Db) (tid : TaskId) (f : Task → Task) (hf : ∀ t, (f t).id = t.id := by intro; rfl) :
    Db :=
  { db with tasks := db.tasks.update tid (fun _ => true) f hf }

/-- The commit after attributes of an execution were assigned. -/
def saveExecution (db : Db) (e : ExecutionId) (f : Execution → Execution)
    (hf : ∀ x, (f x).id = x.id := by intro; rfl) : Db :=
  { db with executions := db.executions.update e (fun _ => true) f hf }

end Db

namespace Inline

/-- What the environment decides while a task runs. -/
structure TaskOracle where
  /-- `started`. -/
  started : Time
  /-- `updated_at` of the change to RUNNING. -/
  runningAt : Time
  /-- `completed_at`. -/
  now : Time
  /-- `updated_at` of the change to COMPLETED or FAILED. -/
  finishedAt : Time
  /-- `get_agent(agent_type, llm).run(description, context)` returns an output or raises. -/
  agent : AgentType → String → String → Except Exn AgentOutput

/-- What the environment decides while an execution runs. -/
structure Oracle where
  /-- `updated_at` of the new execution. -/
  createdAt : Time
  /-- `updated_at` of the change to PLANNING. -/
  planningAt : Time
  /-- The planning model answers with a text or raises. -/
  llm : Except Exn String
  /-- `updated_at` of the inserted tasks. -/
  insertedAt : Time
  /-- `started_at`. -/
  started : Time
  /-- `updated_at` of the change to RUNNING. -/
  runningAt : Time
  /-- The task at each position. -/
  task : Nat → TaskOracle
  /-- The order in which the tasks are read back. -/
  order : List Nat
  /-- `completed_at`. -/
  now : Time
  /-- `updated_at` of the change to COMPLETED or FAILED. -/
  finishedAt : Time

/-! ## SequentialExecutor -/

/-- The locals of `SequentialExecutor.execute`, with the database and the agent runs so far: the
    position of the task and the context it got. -/
structure Progress where
  db : Db
  outcomes : List TaskOutcome := []
  contextParts : List String := []
  allCompleted : Bool := true
  calls : List (Int × String) := []

/-- `SequentialExecutor._set_status` up to its commit. -/
def setStatus (now : Time) (status : TaskStatus) (error : String) (t : Task) : Task :=
  { t with status := status, updatedAt := now,
           error := if error = "" then t.error else some error }

/-- The columns of a task that is about to run. -/
def started (o : TaskOracle) (t : Task) : Task :=
  setStatus o.runningAt .running "" { t with startedAt := some o.started }

/-- The columns of a task whose agent answered. -/
def completed (o : TaskOracle) (output : AgentOutput) (t : Task) : Task :=
  setStatus o.finishedAt .completed ""
    { t with
      completedAt := some o.now
      durationMs := msBetween (some o.started) o.now
      totalTokens := some output.totalTokens
      costUsd := some (estimateCost output.model output.promptTokens output.completionTokens)
      toolCalls := output.toolCalls }

/-- The columns of a task whose agent raised. -/
def failed (o : TaskOracle) (exc : Exn) (t : Task) : Task :=
  setStatus o.finishedAt .failed exc.describe { t with completedAt := some o.now }

/-- One iteration of the loop of `execute`. -/
def runTask (o : TaskOracle) (p : Progress) (task : Task) : Progress :=
  let db := p.db.saveTask task.id (started o)
  let context := join "\n\n" p.contextParts
  let calls := p.calls ++ [(task.orderIndex, context)]
  match o.agent task.agentType task.description context with
  -- the result and the columns of the task commit together
  | .ok output =>
    { db := (db.insertResult ⟨task.id, output.text⟩).saveTask task.id (completed o output)
      outcomes := p.outcomes ++
        [{ agentType := task.agentType
           description := task.description
           status := .completed
           output := output.text }]
      contextParts := p.contextParts ++ ["[" ++ task.agentType.value ++ "] " ++ output.text]
      allCompleted := p.allCompleted
      calls := calls }
  | .error exc =>
    { db := db.saveTask task.id (failed o exc)
      outcomes := p.outcomes ++
        [{ agentType := task.agentType
           description := task.description
           status := .failed
           error := exc.describe }]
      contextParts := p.contextParts
      allCompleted := false
      calls := calls }

/-- `SequentialExecutor.execute`, from position `i` on. -/
def execute (oracle : Nat → TaskOracle) (i : Nat) (p : Progress) : List Task → Progress
  | [] => p
  | task :: rest =>
    let p := runTask (oracle i) p task
    -- `break` after the first failure
    if p.allCompleted then execute oracle (i + 1) p rest else p

/-! ## run_execution -/

/-- What a run leaves: the database, and the agent runs. -/
structure Run where
  db : Db
  calls : List (Int × String) := []

/-- The aggregation step of `run_execution`. -/
def finish (o : Oracle) (result : Progress) (tasks : List Task) (x : Execution) : Execution :=
  let x :=
    { x with
      completedAt := some o.now
      durationMs := msBetween x.startedAt o.now
      totalTokens := some (sumTokens tasks)
      costUsd := some (sumCosts tasks)
      updatedAt := o.finishedAt }
  if result.allCompleted then
    { x with finalResult := some (aggregate x.userRequest result.outcomes), status := .completed }
  else
    let failed := result.outcomes.find? fun outcome => outcome.status = .failed
    { x with
      error := some ((failed.map TaskOutcome.error).getD "One or more tasks failed.")
      status := .failed }

theorem finish_id (o : Oracle) (result : Progress) (tasks : List Task) (x : Execution) :
    (finish o result tasks x).id = x.id := by
  unfold finish
  split <;> rfl

/-- The columns of an execution that is about to be planned. -/
def planning (o : Oracle) (x : Execution) : Execution :=
  { x with status := .planning, updatedAt := o.planningAt }

/-- The columns of an execution whose tasks are about to run. -/
def running (o : Oracle) (x : Execution) : Execution :=
  { x with startedAt := some o.started, status := .running, updatedAt := o.runningAt }

/-- `_fail_execution`. -/
def crashed (o : Oracle) (exc : Exn) (x : Execution) : Execution :=
  { x with status := .failed, error := some exc.describe, updatedAt := o.finishedAt }

/-- `run_execution` after the planner returned. -/
def runPlan (o : Oracle) (db : Db) (e : ExecutionId) (plan : Plan) : Run :=
  let tasks := plan.subtasks.mapIdx (db.plannedTask e o.insertedAt)
  let db := (db.insertTasks o.insertedAt e plan).saveExecution e (running o)
  let result := execute o.task 0 { db := db } tasks
  -- a SELECT without an order
  let freshTasks := Table.reorder o.order (result.db.tasksOf e)
  { db := result.db.saveExecution e (finish o result freshTasks) (finish_id o result freshTasks)
    calls := result.calls }

/-- `run_execution`. -/
def runExecution (cfg : Config) (o : Oracle) (db : Db) (e : ExecutionId) : Run :=
  match db.executions.find? e with
  | none => { db := db }
  | some execution =>
    let db := db.saveExecution e (planning o)
    match o.llm with
    | .error exc => { db := db.saveExecution e (crashed o exc) }
    | .ok text => runPlan o db e (planOf cfg execution.userRequest text)

/-- `create_execution` outside queue mode, its background task included. -/
def createExecution (cfg : Config) (o : Oracle) (db : Db) (userRequest : String) : Run :=
  let x := State.newExecution { db := db } userRequest o.createdAt
  runExecution cfg o { db with executions := db.executions.insertAll [x] } x.id

end Inline

end AgenticExecution
