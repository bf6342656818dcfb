import AgenticExecution.Agreement
import AgenticExecution.InlineFaults

set_option autoImplicit false

/-! # What an inline run leaves when commits raise

A task that was started is RUNNING in the database until one of two commits ends it: that of its
result, or that of its failure in the handler. When neither goes through, the exception leaves the
loop and `_fail_execution` rolls back and touches the execution only, so the task stays RUNNING. This
is the only way for a task to stay in flight. -/

namespace AgenticExecution

namespace Inline

namespace Faulty

variable {e : ExecutionId} {task : Task} {ended rest : List Task} {s s' : Session}

/-! ## When every started task ends -/

/-- From position `i` on, in the context of the answers so far: each task whose commit of RUNNING
    succeeds is ended by a commit, that of the result after an answer, or else that of the failure. -/
def EndsTasks (oracle : Nat → TaskOracle) (commits : Nat → TaskCommits) :
    Nat → List String → List PlannedSubtask → Prop
  | _, _, [] => True
  | i, parts, subtask :: rest =>
    (commits i).running = none →
      match (oracle i).agent subtask.agentType subtask.description (join "\n\n" parts),
        (commits i).completed with
      | .ok output, none =>
        EndsTasks oracle commits (i + 1)
          (parts ++ ["[" ++ subtask.agentType.value ++ "] " ++ output.text]) rest
      | _, _ => (commits i).failed = none

/-- The tasks of the plan end, if the run comes to start them. -/
def EndsPlan (o : Oracle) (c : Commits) (plan : Plan) : Prop :=
  c.inserted = none → c.running = none → EndsTasks o.task c.task 0 [] plan.subtasks

/-- Every task that the run starts ends. -/
def EndsRun (cfg : Config) (o : Oracle) (c : Commits) (db : Db) (e : ExecutionId) : Prop :=
  c.provider = none → ∀ x, db.executions.find? e = some x → c.planning = none →
    ∀ text, o.llm = .ok text → EndsPlan o c (planOf cfg x.userRequest text)

/-! ## One task -/

/-- The rows of the execution at the start of an iteration: those behind it are COMPLETED, those from
    it on PENDING, and everything is committed. -/
structure Loop (e : ExecutionId) (ended rest : List Task) (s : Session) : Prop where
  rows : s.committed.tasksOf e = ended ++ rest
  clean : s.locals.db = s.committed
  completed : ∀ t ∈ ended, t.status = .completed
  waiting : ∀ t ∈ rest, t.status = .pending
  going : s.locals.allCompleted = true

/-- The agent's answer is not recorded: it raised, or the commit of its result did. -/
def Fails (o : TaskOracle) (c : TaskCommits) (task : Task) (parts : List String) : Prop :=
  ∀ output, o.agent task.agentType task.description (join "\n\n" parts) = .ok output →
    c.completed ≠ none

/-- How an iteration returns. -/
inductive Returns (e : ExecutionId) (o : TaskOracle) (c : TaskCommits) (task : Task)
    (ended rest : List Task) (s s' : Session) : Prop
  | answered (hrunning : c.running = none) (output : AgentOutput)
      (hagent : o.agent task.agentType task.description (join "\n\n" s.locals.contextParts) =
        .ok output)
      (hcompleted : c.completed = none)
      (hparts : s'.locals.contextParts =
        s.locals.contextParts ++ ["[" ++ task.agentType.value ++ "] " ++ output.text])
      (task' : Task) (hloop : Loop e (ended ++ [task']) rest s')
  | failed (hrunning : c.running = none) (hfails : Fails o c task s.locals.contextParts)
      (hfailed : c.failed = none)
      (hstop : s'.locals.allCompleted = false) (hclean : s'.locals.db = s'.committed)
      (task' : Task) (hstatus : task'.status = .failed)
      (hrows : s'.committed.tasksOf e = ended ++ task' :: rest)

/-- How an iteration raises. -/
inductive Raises (e : ExecutionId) (o : TaskOracle) (c : TaskCommits) (task : Task)
    (ended rest : List Task) (s s' : Session) : Prop
  | notStarted (hrunning : c.running ≠ none) (hrows : s'.committed = s.committed)
  | stuck (hrunning : c.running = none) (hfails : Fails o c task s.locals.contextParts)
      (hfailed : c.failed ≠ none) (task' : Task) (hstatus : task'.status = .running)
      (hrows : s'.committed.tasksOf e = ended ++ task' :: rest)

/-- The handler for a task that is RUNNING in the database: its commit ends the task, or the task
    stays as it is. -/
theorem after_recordFailure {o : TaskOracle} {c : TaskCommits} {exc : Exn} {s₁ : Session}
    {started seen : Task} (hrunning : c.running = none) (hfails : Fails o c task s.locals.contextParts)
    (hcommitted : s₁.committed.tasksOf e = ended ++ started :: rest) (hstatus : started.status = .running)
    (hseen : s₁.locals.db.tasksOf e = ended ++ seen :: rest) (hid : seen.id = task.id) :
    After (recordFailure o c task exc) s₁ (fun _ s' => Returns e o c task ended rest s s')
      (fun _ s' => Raises e o c task ended rest s s') := by
  let o' := { o with now := c.failedNow, finishedAt := c.failedAt }
  have hrows : (s₁.locals.db.saveTask task.id (failed o' exc)).tasksOf e =
      ended ++ failed o' exc seen :: rest :=
    s₁.locals.db.tasksOf_saveTask (f := failed o' exc) hseen (fun _ => rfl) (fun _ => rfl) hid
  cases hfailed : c.failed with
  | none =>
    simp only [recordFailure, hfailed, after_bind, after_modify, after_change, after_commit_none]
    exact .failed hrunning hfails hfailed rfl rfl (failed o' exc seen) rfl hrows
  | some exc' =>
    simp only [recordFailure, hfailed, after_bind, after_modify, after_change, after_commit_some]
    exact .stuck hrunning hfails (by simp [hfailed]) started hstatus hcommitted

/-- The step lemma of the loop: all that one iteration can do. -/
theorem after_runTask {o : TaskOracle} {c : TaskCommits} (h : Loop e ended (task :: rest) s) :
    After (runTask o c task) s (fun _ s' => Returns e o c task ended rest s s')
      (fun _ s' => Raises e o c task ended rest s s') := by
  have hseen : s.locals.db.tasksOf e = ended ++ task :: rest := h.clean ▸ h.rows
  have hstarted := s.locals.db.tasksOf_saveTask (f := started o) hseen (fun _ => rfl) (fun _ => rfl) rfl
  cases hrunning : c.running with
  | some exc =>
    simp only [runTask, hrunning, after_bind, after_change, after_commit_some]
    exact .notStarted (by simp [hrunning]) rfl
  | none =>
    simp only [runTask, hrunning, after_bind, after_change, after_commit_none, after_tryCatch]
    cases hagent : o.agent task.agentType task.description (join "\n\n" s.locals.contextParts) with
    | error exc =>
      have hfails : Fails o c task s.locals.contextParts := by
        intro output houtput
        cases hagent.symm.trans houtput
      simp only [attempt, runAgent, hagent, after_bind, after_get, after_modify, after_throw]
      exact after_recordFailure hrunning hfails hstarted rfl hstarted rfl
    | ok output =>
      have hrecorded : (((s.locals.db.saveTask task.id (started o)).insertResult
          ⟨task.id, output.text⟩).saveTask task.id (completed o output)).tasksOf e =
          ended ++ completed o output (started o task) :: rest :=
        Db.tasksOf_saveTask _ (f := completed o output) hstarted (fun _ => rfl) (fun _ => rfl) rfl
      simp only [attempt, runAgent, hagent, after_bind, after_get, after_modify, after_pure, after_change]
      cases hcompleted : c.completed with
      | none =>
        simp only [after_commit_none]
        refine .answered hrunning output hagent hcompleted rfl (completed o output (started o task)) ?_
        refine ⟨?_, rfl, ?_, fun t ht => h.waiting t (List.mem_cons_of_mem _ ht), h.going⟩
        · rw [List.append_assoc]
          exact hrecorded
        · rw [List.forall_mem_append, List.forall_mem_singleton]
          exact ⟨h.completed, rfl⟩
      | some exc =>
        have hfails : Fails o c task s.locals.contextParts := fun _ _ => by simp [hcompleted]
        simp only [after_commit_some]
        exact after_recordFailure hrunning hfails hstarted rfl hrecorded rfl

/-! ## The loop -/

section EndsTasks

variable {oracle : Nat → TaskOracle} {commits : Nat → TaskCommits} {i : Nat} {parts : List String}
  {subtasks : List PlannedSubtask}

theorem endsTasks_notStarted (h : (commits i).running ≠ none) :
    EndsTasks oracle commits i parts (task.subtask :: subtasks) := fun hrunning => absurd hrunning h

theorem endsTasks_answered {output : AgentOutput} (hrunning : (commits i).running = none)
    (hagent : (oracle i).agent task.agentType task.description (join "\n\n" parts) = .ok output)
    (hcompleted : (commits i).completed = none) :
    EndsTasks oracle commits i parts (task.subtask :: subtasks) ↔
      EndsTasks oracle commits (i + 1)
        (parts ++ ["[" ++ task.agentType.value ++ "] " ++ output.text]) subtasks := by
  simp only [EndsTasks, Task.subtask, hrunning, hagent, hcompleted, true_imp_iff]

theorem endsTasks_fails (hrunning : (commits i).running = none)
    (hfails : Fails (oracle i) (commits i) task parts) :
    EndsTasks oracle commits i parts (task.subtask :: subtasks) ↔ (commits i).failed = none := by
  simp only [EndsTasks, Task.subtask, hrunning, true_imp_iff]
  split
  · next output hagent hcompleted => exact absurd hcompleted (hfails output hagent)
  · exact Iff.rfl

/-- Where the commit in the handler always succeeds, every started task ends. -/
theorem endsTasks_of_failed (hfailed : ∀ i, (commits i).failed = none) (i : Nat) (parts : List String)
    (subtasks : List PlannedSubtask) : EndsTasks oracle commits i parts subtasks := by
  induction subtasks generalizing i parts with
  | nil => trivial
  | cons subtask rest ih =>
    intro _
    split
    · exact ih _ _
    · exact hfailed i

end EndsTasks

/-- No task of the execution is RUNNING. -/
def NoneRunning (db : Db) (e : ExecutionId) : Prop := ∀ t ∈ db.tasksOf e, t.status ≠ .running

/-- What the loop leaves when it returns. -/
structure Looped (e : ExecutionId) (s : Session) : Prop where
  idle : NoneRunning s.committed e
  clean : s.locals.db = s.committed
  completed : s.locals.allCompleted = true → ∀ t ∈ s.committed.tasksOf e, t.status = .completed

theorem Loop.noneRunning (h : Loop e ended rest s) : NoneRunning s.committed e := by
  rw [NoneRunning, h.rows, List.forall_mem_append]
  constructor
  · intro t hbehind
    simp [h.completed t hbehind]
  · intro t hahead
    simp [h.waiting t hahead]

theorem Loop.noneRunning_of_ended {db : Db} {task' : Task} (h : Loop e ended (task :: rest) s)
    (hrows : db.tasksOf e = ended ++ task' :: rest) (hstatus : task'.status = .failed) :
    NoneRunning db e := by
  rw [NoneRunning, hrows, List.forall_mem_append, List.forall_mem_cons]
  refine ⟨fun t hbehind => ?_, ?_, fun t hahead => ?_⟩
  · simp [h.completed t hbehind]
  · simp [hstatus]
  · simp [h.waiting t (List.mem_cons_of_mem _ hahead)]

/-- The run lemma: the loop returns only when every started task has ended, and when it raises, a task
    is RUNNING exactly if it has not. -/
theorem after_execute {oracle : Nat → TaskOracle} {commits : Nat → TaskCommits} (i : Nat)
    {tasks : List Task} (h : Loop e ended tasks s) :
    After (execute oracle commits i tasks) s
      (fun _ s' => EndsTasks oracle commits i s.locals.contextParts (tasks.map Task.subtask) ∧ Looped e s')
      (fun _ s' => NoneRunning s'.committed e ↔
        EndsTasks oracle commits i s.locals.contextParts (tasks.map Task.subtask)) := by
  induction tasks generalizing i ended s with
  | nil =>
    refine ⟨trivial, h.noneRunning, h.clean, fun _ t ht => ?_⟩
    rw [h.rows, List.append_nil] at ht
    exact h.completed t ht
  | cons task rest ih =>
    simp only [execute, after_bind, after_get]
    refine (after_runTask h).mono ?_ ?_
    · intro _ s' hreturns
      cases hreturns with
      | answered hrunning output hagent hcompleted hparts task' hloop =>
        rw [if_pos hloop.going, List.map_cons, endsTasks_answered hrunning hagent hcompleted, ← hparts]
        exact ih (i + 1) hloop
      | failed hrunning hfails hfailed hstop hclean task' hstatus hrows =>
        rw [if_neg (by simp [hstop]), List.map_cons]
        refine ⟨(endsTasks_fails hrunning hfails).2 hfailed, ?_, hclean, fun hall => ?_⟩
        · exact h.noneRunning_of_ended hrows hstatus
        · cases hstop.symm.trans hall
    · intro exc s' hraises
      rw [List.map_cons]
      cases hraises with
      | notStarted hrunning hrows =>
        refine iff_of_true ?_ (endsTasks_notStarted hrunning)
        rw [hrows]
        exact h.noneRunning
      | stuck hrunning hfails hfailed task' hstatus hrows =>
        rw [endsTasks_fails hrunning hfails]
        refine iff_of_false (fun hidle => ?_) hfailed
        exact hidle task' (by simp [hrows]) hstatus

/-! ## The whole run -/

/-- The execution is COMPLETED or FAILED, no task of it is RUNNING, and it is COMPLETED only if all of
    them are. -/
structure EndedWell (db : Db) (e : ExecutionId) : Prop where
  finished : ∀ x ∈ db.executions, x.id = e → x.status = .completed ∨ x.status = .failed
  idle : NoneRunning db e
  completed : ∀ x ∈ db.executions, x.id = e → x.status = .completed →
    ∀ t ∈ db.tasksOf e, t.status = .completed

theorem of_mem_saveExecution {db : Db} {f : Execution → Execution} (hf : ∀ x, (f x).id = x.id)
    {x : Execution} (hx : x ∈ (db.saveExecution e f hf).executions) (hid : x.id = e) :
    ∃ x₀, x = f x₀ := by
  obtain ⟨x₀, -, rfl⟩ := (Table.mem_update hf).1 hx
  split at hid
  · next h => exact ⟨x₀, if_pos h⟩
  · next h => exact absurd ⟨hid, rfl⟩ h

/-- `_fail_execution` settles the execution and leaves the tasks as they are. -/
theorem endedWell_failExecution {o : Oracle} {c : Commits} {exc : Exn} {db : Db} :
    EndedWell (failExecution o c e exc db) e ↔ NoneRunning db e := by
  have hfailed : ∀ x ∈ (failExecution o c e exc db).executions, x.id = e → x.status = .failed := by
    intro x hx hid
    obtain ⟨x₀, rfl⟩ := of_mem_saveExecution (f := crashed { o with finishedAt := c.crashedAt } exc)
      (fun _ => rfl) hx hid
    rfl
  refine ⟨fun h => h.idle, fun h => ⟨fun x hx hid => .inr (hfailed x hx hid), h, ?_⟩⟩
  intro x hx hid hcompleted
  cases (hfailed x hx hid).symm.trans hcompleted

/-- The last step settles the execution by what the loop returned. -/
theorem Looped.endedWell (h : Looped e s) (o : Oracle) (tasks : List Task) :
    EndedWell (s.committed.saveExecution e (finish o s.locals tasks) (finish_id o s.locals tasks)) e := by
  refine ⟨fun x hx hid => ?_, h.idle, fun x hx hid hcompleted => ?_⟩
  · obtain ⟨x₀, rfl⟩ := of_mem_saveExecution _ hx hid
    unfold finish
    split
    · exact .inl rfl
    · exact .inr rfl
  · obtain ⟨x₀, rfl⟩ := of_mem_saveExecution _ hx hid
    cases hall : s.locals.allCompleted with
    | true => exact h.completed hall
    | false => simp [finish, hall] at hcompleted

theorem noneRunning_of_nil {db : Db} (h : db.tasksOf e = []) : NoneRunning db e := by
  simp [NoneRunning, h]

/-- The rows the plan was stored with: all of them are ahead of the loop. -/
theorem loop_planned {db : Db} (o : Oracle) (plan : Plan) (htasks : db.tasksOf e = [])
    (hrows : s.committed.tasksOf e = (db.insertTasks o.insertedAt e plan).tasksOf e)
    (hclean : s.locals.db = s.committed) (hgoing : s.locals.allCompleted = true) :
    Loop e [] (plan.subtasks.mapIdx (db.plannedTask e o.insertedAt)) s := by
  refine ⟨?_, hclean, by simp, fun t ht => ?_, hgoing⟩
  · rw [hrows, Db.tasksOf_insertTasks, if_pos rfl, htasks]
  · obtain ⟨i, hi, rfl⟩ := List.mem_mapIdx.1 ht
    rfl

theorem after_runPlan {o : Oracle} {c : Commits} {plan : Plan} (htasks : s.committed.tasksOf e = [])
    (hstart : s.locals = { db := s.committed }) :
    After (runPlan o c e plan) s (fun _ s' => EndsPlan o c plan ∧ EndedWell s'.committed e)
      (fun _ s' => NoneRunning s'.committed e ↔ EndsPlan o c plan) := by
  let tasks := plan.subtasks.mapIdx (s.committed.plannedTask e o.insertedAt)
  have hsubtasks : tasks.map Task.subtask = plan.subtasks := Db.map_subtask_plannedTask plan
  simp only [runPlan, after_bind, after_get, after_change, hstart]
  cases hinserted : c.inserted with
  | some exc =>
    simp only [after_commit_some]
    exact iff_of_true (noneRunning_of_nil htasks) fun h => by simp [hinserted] at h
  | none =>
    simp only [after_commit_none]
    cases hrunning : c.running with
    | some exc =>
      simp only [after_commit_some]
      refine iff_of_true ?_ fun _ h => by simp [hrunning] at h
      let db' := s.committed.insertTasks o.insertedAt e plan
      have hloop : Loop e [] tasks { committed := db', locals := { db := db' } } :=
        loop_planned o plan htasks rfl rfl rfl
      exact hloop.noneRunning
    | none =>
      simp only [after_commit_none]
      refine (after_execute 0 (loop_planned o plan htasks rfl rfl rfl)).mono ?_ ?_
      · rintro - s' ⟨hends, hlooped⟩
        have hplan : EndsPlan o c plan := fun _ _ => hsubtasks ▸ hends
        cases hfinished : c.finished with
        | some exc =>
          simp only [after_commit_some]
          exact iff_of_true hlooped.idle hplan
        | none =>
          simp only [after_commit_none]
          refine ⟨hplan, ?_⟩
          rw [hlooped.clean]
          exact hlooped.endedWell o _
      · intro exc s' hiff
        rw [hiff]
        show EndsTasks o.task c.task 0 [] (tasks.map Task.subtask) ↔ _
        rw [hsubtasks]
        exact ⟨fun h _ _ => h, fun h => h hinserted hrunning⟩

theorem after_pipeline {cfg : Config} {o : Oracle} {c : Commits} {db : Db} (htasks : db.tasksOf e = []) :
    After (pipeline cfg o c e) { committed := db, locals := { db := db } }
      (fun _ s' => EndsRun cfg o c db e ∧ EndedWell s'.committed e)
      (fun _ s' => NoneRunning s'.committed e ↔ EndsRun cfg o c db e) := by
  simp only [pipeline, after_bind, after_get]
  cases hprovider : c.provider with
  | some exc =>
    simp only [after_raiseIf_some]
    exact iff_of_true (noneRunning_of_nil htasks) fun h => by simp [hprovider] at h
  | none =>
    simp only [after_raiseIf_none]
    cases hx : db.executions.find? e with
    | none =>
      simp only [after_pure]
      have hmissing : ∀ x ∈ db.executions, x.id ≠ e := Table.find?_eq_none_iff.1 hx
      refine ⟨fun _ x h => by simp [hx] at h, ⟨fun x hmem hid => ?_, noneRunning_of_nil htasks, ?_⟩⟩
      · exact absurd hid (hmissing x hmem)
      · exact fun x hmem hid => absurd hid (hmissing x hmem)
    | some execution =>
      simp only [after_bind, after_change]
      cases hplanning : c.planning with
      | some exc =>
        simp only [after_commit_some]
        exact iff_of_true (noneRunning_of_nil htasks) fun _ _ _ h => by simp [hplanning] at h
      | none =>
        simp only [after_commit_none]
        cases hllm : o.llm with
        | error exc =>
          simp only [after_throw]
          exact iff_of_true (noneRunning_of_nil htasks) fun _ _ _ _ _ h => by simp [hllm] at h
        | ok text =>
          have hplan : EndsRun cfg o c db e ↔ EndsPlan o c (planOf cfg execution.userRequest text) := by
            refine ⟨fun h => h hprovider execution hx hplanning text hllm, fun h _ x hx' _ text' htext' => ?_⟩
            cases hx.symm.trans hx'
            cases hllm.symm.trans htext'
            exact h
          rw [hplan]
          exact after_runPlan htasks rfl

/-- A run on an execution without tasks ends well exactly when every task that it starts is ended by one
    of the two commits meant to. -/
theorem endedWell_iff {db : Db} (htasks : db.tasksOf e = []) (cfg : Config) (o : Oracle) (c : Commits) :
    EndedWell (runExecution cfg o c db e).db e ↔ EndsRun cfg o c db e := by
  rw [run_iff_after fun run => EndedWell run.db e ↔ EndsRun cfg o c db e]
  refine (after_pipeline htasks).mono ?_ ?_
  · exact fun _ s' h => iff_of_true h.2 h.1
  · exact fun exc s' h => endedWell_failExecution.trans h

/-- A new execution and nothing else. -/
def newExecution : Db where
  executions := Table.empty.insertAll [{ id := 1, userRequest := "q", updatedAt := 0 }]

/-- What a commit raises without its connection. -/
def lostConnection : Exn := { typeName := "OperationalError", message := "connection lost" }

/-- The commit of every result raises, that of the failure is accepted. -/
def resultsLost : Commits where
  task _ := { completed := some lostConnection, failedNow := 0, failedAt := 0 }
  crashedAt := 0

theorem endedWell_resultsLost :
    EndedWell (runExecution (fallbackConfig (singleTask 0)) (answering readyAgents) resultsLost
      newExecution 1).db 1 := by
  refine (endedWell_iff rfl _ _ resultsLost).2 ?_
  intro _ x _ _ text _ _ _
  exact endsTasks_of_failed (fun _ => rfl) 0 [] _

/-- The commit of every result raises, and the session refuses the next one: it was not rolled back. -/
def resultsRefused : Commits where
  task _ :=
    { completed := some lostConnection
      failed := some { typeName := "PendingRollbackError", message := "" }
      failedNow := 0
      failedAt := 0 }
  crashedAt := 0

/-- The execution is FAILED and its task RUNNING. -/
theorem stuck_in_flight :
    newExecution.tasksOf 1 = [] ∧
      (∃ t ∈ (runExecution (fallbackConfig (singleTask 0)) (answering readyAgents) resultsRefused
        newExecution 1).db.tasksOf 1, t.status = .running) ∧
      ¬ EndedWell (runExecution (fallbackConfig (singleTask 0)) (answering readyAgents) resultsRefused
        newExecution 1).db 1 := by
  have hrunning : ((runExecution (fallbackConfig (singleTask 0)) (answering readyAgents) resultsRefused
      newExecution 1).db.tasksOf 1).any (fun t => t.status = .running) = true := by
    decide +kernel
  obtain ⟨t, ht, hstatus⟩ := List.any_eq_true.1 hrunning
  have hstatus : t.status = .running := by simpa using hstatus
  exact ⟨rfl, ⟨t, ht, hstatus⟩, fun h => h.idle t ht hstatus⟩

end Faulty

end Inline

end AgenticExecution
