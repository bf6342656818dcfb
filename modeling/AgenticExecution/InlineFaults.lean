import AgenticExecution.Inline
import AgenticExecution.Library.Raising

set_option autoImplicit false

/-! # Inline mode when commits raise

`run_execution` and `SequentialExecutor.execute` statement by statement, with the two nested handlers
and with a database whose commits may raise. The session keeps its changes until a commit writes
them; a commit that raises writes nothing, and only `_fail_execution` rolls the changes back. Whether
a session accepts a commit after one that raised is left to the environment. -/

namespace AgenticExecution

namespace Inline

namespace Faulty

/-- What the environment decides about the commits of one task. -/
structure TaskCommits where
  /-- The commit of RUNNING raises. -/
  running : Option Exn := none
  /-- The commit of the result and of COMPLETED raises. -/
  completed : Option Exn := none
  /-- The commit of FAILED in the handler raises. -/
  failed : Option Exn := none
  /-- `completed_at` in the handler. -/
  failedNow : Time
  /-- `updated_at` of the change to FAILED. -/
  failedAt : Time

/-- What the environment decides about the rest of a run. -/
structure Commits where
  /-- `get_llm_provider` raises. -/
  provider : Option Exn := none
  /-- The commit of PLANNING raises. -/
  planning : Option Exn := none
  /-- The commit of the planned tasks raises. -/
  inserted : Option Exn := none
  /-- The commit of RUNNING raises. -/
  running : Option Exn := none
  /-- The commit of COMPLETED or FAILED raises. -/
  finished : Option Exn := none
  /-- The task at each position. -/
  task : Nat → TaskCommits
  /-- `updated_at` in `_fail_execution`. -/
  crashedAt : Time

/-- The database as it is committed, and the locals of the run. Their `db` is what the session sees:
    the committed rows with its own changes. -/
structure Session where
  committed : Db
  locals : Progress

/-- A body of `SequentialExecutor`: it may raise, and the session keeps its changes. -/
abbrev Program := EStateM Exn Session

/-- The exception, if there is one. -/
def raiseIf : Option Exn → Program Unit
  | some exc => throw exc
  | none => pure ()

/-- Rows are added or attributes assigned: changes that the next commit writes. -/
def change (f : Db → Db) : Program Unit := modify fun s => { s with locals.db := f s.locals.db }

/-- `db.commit()`. -/
def commit (raises : Option Exn) : Program Unit := do
  raiseIf raises
  modify fun s => { s with committed := s.locals.db }

/-! The columns a run writes leave the key alone. -/

theorem started_id (o : TaskOracle) (t : Task) : (started o t).id = t.id := rfl

theorem completed_id (o : TaskOracle) (output : AgentOutput) (t : Task) :
    (completed o output t).id = t.id := rfl

theorem planning_id (o : Oracle) (x : Execution) : (planning o x).id = x.id := rfl

theorem running_id (o : Oracle) (x : Execution) : (running o x).id = x.id := rfl

section Rules

variable {s : Session} {Q : Unit → Session → Prop} {R : Exn → Session → Prop}

@[simp] theorem after_raiseIf_none : After (raiseIf none) s Q R ↔ Q () s := Iff.rfl

@[simp] theorem after_raiseIf_some (exc : Exn) : After (raiseIf (some exc)) s Q R ↔ R exc s := Iff.rfl

@[simp] theorem after_change (f : Db → Db) :
    After (change f) s Q R ↔ Q () { s with locals.db := f s.locals.db } := Iff.rfl

@[simp] theorem after_commit_none :
    After (commit none) s Q R ↔ Q () { s with committed := s.locals.db } := Iff.rfl

@[simp] theorem after_commit_some (exc : Exn) : After (commit (some exc)) s Q R ↔ R exc s := Iff.rfl

end Rules

/-- `get_agent(agent_type, llm).run(description, context)`. -/
def runAgent (o : TaskOracle) (task : Task) : Program AgentOutput := do
  let context := join "\n\n" (← get).locals.contextParts
  modify fun s => { s with locals.calls := s.locals.calls ++ [(task.orderIndex, context)] }
  match o.agent task.agentType task.description context with
  | .ok output => pure output
  | .error exc => throw exc

/-- The `try` block of `execute`. -/
def attempt (o : TaskOracle) (raises : Option Exn) (task : Task) : Program Unit := do
  let output ← runAgent o task
  change fun db => (db.insertResult ⟨task.id, output.text⟩).saveTask task.id (completed o output)
    (completed_id o output)
  commit raises
  modify fun s =>
    { s with
      locals.contextParts :=
        s.locals.contextParts ++ ["[" ++ task.agentType.value ++ "] " ++ output.text]
      locals.outcomes := s.locals.outcomes ++
        [{ agentType := task.agentType
           description := task.description
           status := .completed
           output := output.text }] }

/-- The `except` block of `execute`. The session is not rolled back first. -/
def recordFailure (o : TaskOracle) (c : TaskCommits) (task : Task) (exc : Exn) : Program Unit := do
  modify fun s => { s with locals.allCompleted := false }
  change fun db =>
    db.saveTask task.id (failed { o with now := c.failedNow, finishedAt := c.failedAt } exc)
  commit c.failed
  modify fun s =>
    { s with
      locals.outcomes := s.locals.outcomes ++
        [{ agentType := task.agentType
           description := task.description
           status := .failed
           error := exc.describe }] }

/-- One iteration of the loop of `execute`. The commit of RUNNING is outside the `try`. -/
def runTask (o : TaskOracle) (c : TaskCommits) (task : Task) : Program Unit := do
  change fun db => db.saveTask task.id (started o) (started_id o)
  commit c.running
  tryCatch (attempt o c.completed task) (recordFailure o c task)

/-- `SequentialExecutor.execute`, from position `i` on. -/
def execute (oracle : Nat → TaskOracle) (commits : Nat → TaskCommits) (i : Nat) :
    List Task → Program Unit
  | [] => pure ()
  | task :: rest => do
    runTask (oracle i) (commits i) task
    -- `break` after the first failure
    if (← get).locals.allCompleted then execute oracle commits (i + 1) rest

/-- `run_execution` after the planner returned. -/
def runPlan (o : Oracle) (c : Commits) (e : ExecutionId) (plan : Plan) : Program Unit := do
  let tasks := plan.subtasks.mapIdx ((← get).locals.db.plannedTask e o.insertedAt)
  change fun db => db.insertTasks o.insertedAt e plan
  commit c.inserted
  change fun db => db.saveExecution e (running o) (running_id o)
  commit c.running
  execute o.task c.task 0 tasks
  -- a SELECT without an order
  let result := (← get).locals
  let freshTasks := Table.reorder o.order (result.db.tasksOf e)
  change fun db => db.saveExecution e (finish o result freshTasks) (finish_id o result freshTasks)
  commit c.finished

/-- The `try` block of `run_execution`. -/
def pipeline (cfg : Config) (o : Oracle) (c : Commits) (e : ExecutionId) : Program Unit := do
  raiseIf c.provider
  match (← get).locals.db.executions.find? e with
  | none => pure ()
  | some execution =>
    change fun db => db.saveExecution e (planning o) (planning_id o)
    commit c.planning
    match o.llm with
    | .error exc => throw exc
    | .ok text => runPlan o c e (planOf cfg execution.userRequest text)

/-- `_fail_execution`: it rolls back, so nothing but its own change is committed. -/
def failExecution (o : Oracle) (c : Commits) (e : ExecutionId) (exc : Exn) (committed : Db) : Db :=
  committed.saveExecution e (crashed { o with finishedAt := c.crashedAt } exc)

/-- `run_execution`. -/
def runExecution (cfg : Config) (o : Oracle) (c : Commits) (db : Db) (e : ExecutionId) : Run :=
  match (pipeline cfg o c e).run { committed := db, locals := { db := db } } with
  | .ok _ s => { db := s.committed, calls := s.locals.calls }
  | .error exc s => { db := failExecution o c e exc s.committed, calls := s.locals.calls }

/-- A run has a property if the `try` block returns with it, or raises and `_fail_execution`
    establishes it. -/
theorem run_iff_after {cfg : Config} {o : Oracle} {c : Commits} {db : Db} {e : ExecutionId}
    (P : Run → Prop) :
    P (runExecution cfg o c db e) ↔
      After (pipeline cfg o c e) { committed := db, locals := { db := db } }
        (fun _ s => P { db := s.committed, calls := s.locals.calls })
        (fun exc s => P { db := failExecution o c e exc s.committed, calls := s.locals.calls }) := by
  unfold runExecution After
  cases (pipeline cfg o c e).run { committed := db, locals := { db := db } } with
  | ok _ s => exact Iff.rfl
  | error exc s => exact Iff.rfl

/-! ## When no commit raises

Then the run is the one of `Inline`. -/

section Succeeding

variable {s : Session}

/-- No commit raises; the clock of the handlers is that of the run. -/
def Commits.succeeding (o : Oracle) : Commits where
  task i := { failedNow := (o.task i).now, failedAt := (o.task i).finishedAt }
  crashedAt := o.finishedAt

theorem after_runTask_succeeding (o : Oracle) (i : Nat) (task : Task) :
    After (runTask (o.task i) ((Commits.succeeding o).task i) task) s
      (fun _ s' => s' = ⟨(Inline.runTask (o.task i) s.locals task).db,
        Inline.runTask (o.task i) s.locals task⟩)
      (fun _ _ => False) := by
  unfold runTask Inline.runTask
  simp only [Commits.succeeding, attempt, runAgent, recordFailure, after_bind, after_change,
    after_commit_none, after_tryCatch, after_get, after_modify]
  cases (o.task i).agent task.agentType task.description (join "\n\n" s.locals.contextParts) with
  | ok output => rfl
  | error exc => rfl

theorem after_execute_succeeding (o : Oracle) (i : Nat) (tasks : List Task)
    (hclean : s.committed = s.locals.db) :
    After (execute o.task (Commits.succeeding o).task i tasks) s
      (fun _ s' => s' = ⟨(Inline.execute o.task i s.locals tasks).db,
        Inline.execute o.task i s.locals tasks⟩)
      (fun _ _ => False) := by
  induction tasks generalizing i s with
  | nil =>
    show s = ⟨s.locals.db, s.locals⟩
    rw [← hclean]
  | cons task rest ih =>
    simp only [execute, Inline.execute, after_bind, after_get]
    refine (after_runTask_succeeding o i task).mono ?_ fun _ _ h => h
    rintro - s' rfl
    split
    · exact ih (i + 1) rfl
    · rfl

theorem after_runPlan_succeeding (o : Oracle) (e : ExecutionId) (plan : Plan)
    (hstart : s.locals = { db := s.committed }) :
    After (runPlan o (Commits.succeeding o) e plan) s
      (fun _ s' => Run.mk s'.committed s'.locals.calls = Inline.runPlan o s.committed e plan)
      (fun _ _ => False) := by
  simp only [runPlan, after_bind, after_get, after_change, hstart]
  refine (after_execute_succeeding o 0 _ rfl).mono ?_ fun _ _ h => h
  rintro - s' rfl
  rfl

/-- The model with commits that may raise refines the one without. -/
theorem runExecution_succeeding (cfg : Config) (o : Oracle) (db : Db) (e : ExecutionId) :
    runExecution cfg o (Commits.succeeding o) db e = Inline.runExecution cfg o db e := by
  rw [run_iff_after fun run => run = Inline.runExecution cfg o db e]
  have hprovider : (Commits.succeeding o).provider = none := rfl
  have hplanning : (Commits.succeeding o).planning = none := rfl
  simp only [pipeline, Inline.runExecution, hprovider, after_bind, after_raiseIf_none, after_get]
  cases db.executions.find? e with
  | none => rfl
  | some execution =>
    simp only [hplanning, after_bind, after_change, after_commit_none]
    cases o.llm with
    | error exc => rfl
    | ok text =>
      exact (after_runPlan_succeeding o e _ rfl).mono (fun _ _ h => h) fun _ _ h => h.elim

end Succeeding

end Faulty

end Inline

end AgenticExecution
