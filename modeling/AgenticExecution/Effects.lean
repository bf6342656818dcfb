import AgenticExecution.Machine

set_option autoImplicit false

/-! # The effects of the handlers, site by site

`Pc.Commits` lists the write sites: which program point commits which transaction, under which
condition on what it read, and how it goes on. `Pc.Sends` does the same for Redis, and `Pc.Moves`
lists the steps without an effect. Every later argument about what a handler may do is a case
analysis over these lists and never unfolds `Pc.act`. -/

namespace AgenticExecution

/-- The handler at `pc` commits `τ` next and goes on as `k`. -/
inductive Pc.Commits (cfg : Config) (o : Oracle) (db : Db) : Pc → Txn → (Nat → Pc) → Prop
  | planGuard (e : ExecutionId) (userRequest : String) :
      Commits cfg o db (.planGuard e userRequest)
        (.updateExecution e (.guardExecution .pending .planning))
        fun n => if n = 1 then .planLlm e userRequest else .done
  | planInsert (e : ExecutionId) (plan : Plan) :
      Commits cfg o db (.planInsert e plan) (.insertTasks e plan) fun _ => .planRunning e
  | planRunning (e : ExecutionId) :
      Commits cfg o db (.planRunning e) (.updateExecution e (.guardExecution .planning .running))
        fun _ => .planStarted e
  | planStarted (e : ExecutionId) :
      Commits cfg o db (.planStarted e) (.updateExecution e .startExecution)
        fun _ => .scheduleGet e (.planExecution e)
  | planFail (e : ExecutionId) (error : String) :
      Commits cfg o db (.planFail e error) (.updateExecution e (.failExecution error))
        fun _ => .done
  | taskClaim (tid : TaskId) :
      Commits cfg o db (.taskClaim tid) (.updateTask tid .claimTask)
        fun n => if n = 1 then .taskStarted tid else .done
  | taskStarted (tid : TaskId) :
      Commits cfg o db (.taskStarted tid) (.updateTask tid .markStarted) fun _ => .taskRefresh tid
  | taskStored (task : Task) :
      Commits cfg o db (.taskStored task) (.updateTask task.id .completeStored)
        fun _ => .scheduleGet task.executionId .executeTask
  | persist (task : Task) (output : AgentOutput) (hnew : db.results.find? task.id = none) :
      Commits cfg o db (.persist task output)
        (.persistSuccess task.id output.text o.now (output.metrics task.startedAt o.now))
        fun _ => .scheduleGet task.executionId .executeTask
  | persistUpdate (task : Task) (stamp : Time) (metrics : Metrics) :
      Commits cfg o db (.persistUpdate task stamp metrics)
        (.updateTask task.id (.completeTask stamp metrics))
        fun _ => .scheduleGet task.executionId .executeTask
  | retryTask (task : Task) (error : String) (k : RetryCaller) (nextAt : Time)
      (hbudget : (task.attempts + 1 : Nat) ≤ cfg.settings.taskMaxRetries)
      (hnext : nextAttemptAt cfg.settings (task.attempts + 1) o.jitter o.now = some nextAt) :
      Commits cfg o db (.retryOrFail task error k)
        (.updateTask task.id (.retryTask (task.attempts + 1) nextAt error))
        fun n => if n ≠ 0 then .retrySchedule task.id nextAt k else k.resume
  | failTask (task : Task) (error : String) (k : RetryCaller)
      (hbudget : ¬ (task.attempts + 1 : Nat) ≤ cfg.settings.taskMaxRetries) :
      Commits cfg o db (.retryOrFail task error k)
        (.updateTask task.id (.failTask (task.attempts + 1) error))
        fun n =>
          if n ≠ 0 then
            .retryDeadLetter
              { taskId := task.id
                executionId := task.executionId
                agentType := task.agentType
                attempts := task.attempts + 1
                error := error
                failedAt := o.now } k
          else k.resume
  | skipTask (e : ExecutionId) (k : ScheduleCaller) (seen : List Task) (t : Task)
      (rest : List Task) (changed : Bool) (hs : t.status = .pending) (henq : t.enqueued = false)
      (hv : verdict (seen ++ t :: rest) t = .skip) :
      Commits cfg o db (.scheduleScan e k seen (t :: rest) changed) (.updateTask t.id .skipTask)
        fun n => .scheduleScan e k (seen ++ [TaskUpdate.skipTask.set o.now t]) rest
          (changed || n ≠ 0)
  | markEnqueued (e : ExecutionId) (k : ScheduleCaller) (seen : List Task) (t : Task)
      (rest : List Task) (changed : Bool) (hs : t.status = .pending) (henq : t.enqueued = false)
      (hv : verdict (seen ++ t :: rest) t = .enqueue) :
      Commits cfg o db (.scheduleScan e k seen (t :: rest) changed) (.updateTask t.id .markEnqueued)
        fun n =>
          if n = 1 then
            .schedulePush e k (seen ++ [TaskUpdate.markEnqueued.set o.now t]) rest t.id
          else .scheduleScan e k (seen ++ [TaskUpdate.markEnqueued.set o.now t]) rest changed
  | finalizeComplete (x : Execution) (k : ScheduleCaller) (tasks : List Task)
      (outcomes : List TaskOutcome) :
      Commits cfg o db (.finalizeComplete x k tasks outcomes)
        (.updateExecution x.id (.completeExecution (aggregate x.userRequest outcomes)
          (msBetween x.startedAt o.now) (sumTokens tasks) (sumCosts tasks)))
        fun _ => k.resume
  | finalizeFail (x : Execution) (k : ScheduleCaller) (tasks : List Task) :
      Commits cfg o db (.finalizeFail x k tasks)
        (.updateExecution x.id (.failFinished (failureSummary tasks)
          (msBetween x.startedAt o.now) (sumTokens tasks) (sumCosts tasks)))
        fun _ => k.resume

/-- The handler at `pc` sends `c` next and goes on as `k`. -/
inductive Pc.Sends : Pc → Command → (Nat → Pc) → Prop
  | enqueuePlan (e : ExecutionId) : Sends (.enqueuePlan e) (.enqueue (.plan e)) fun _ => .done
  | schedulePush (e : ExecutionId) (k : ScheduleCaller) (seen rest : List Task) (tid : TaskId) :
      Sends (.schedulePush e k seen rest tid) (.enqueue (.task tid))
        fun _ => .scheduleScan e k seen rest true
  | retrySchedule (tid : TaskId) (nextAt : Time) (k : RetryCaller) :
      Sends (.retrySchedule tid nextAt k) (.scheduleTask tid nextAt) fun _ => k.resume
  | retryDeadLetter (entry : DeadLetter) (k : RetryCaller) :
      Sends (.retryDeadLetter entry k) (.pushDeadLetter entry) fun _ => k.resume
  | promoteNext (tid : TaskId) (due : List TaskId) :
      Sends (.promoteNext (tid :: due)) (.removeDelayed tid)
        fun n => if n = 1 then .promotePush tid due else .promoteNext due
  | promotePush (tid : TaskId) (due : List TaskId) :
      Sends (.promotePush tid due) (.enqueue (.task tid)) fun _ => .promoteNext due

/-- The handler at `pc` goes on at `pc'` after at most some reads. -/
inductive Pc.Moves (cfg : Config) (o : Oracle) (db : Db) (r : Redis) : Pc → Pc → Prop
  | done : Moves cfg o db r .done .done
  | planProvider (e : ExecutionId) : Moves cfg o db r (.planProvider e) (.planGet e)
  | planNotFound (e : ExecutionId) (hfind : db.executions.find? e = none) :
      Moves cfg o db r (.planGet e) .done
  | planFound (e : ExecutionId) (x : Execution) (hfind : db.executions.find? e = some x) :
      Moves cfg o db r (.planGet e) (.planGuard e x.userRequest)
  | planLlmRaised (e : ExecutionId) (userRequest : String) (exc : Exn)
      (hllm : o.llm = .error exc) :
      Moves cfg o db r (.planLlm e userRequest) (.planFail e ("Planning failed: " ++ exc.describe))
  | planned (e : ExecutionId) (userRequest : String) (plan : Plan) :
      Moves cfg o db r (.planLlm e userRequest) (.planInsert e plan)
  | taskProvider (tid : TaskId) : Moves cfg o db r (.taskProvider tid) (.taskGet tid)
  | taskNotFound (tid : TaskId) (hfind : db.tasks.find? tid = none) :
      Moves cfg o db r (.taskGet tid) .done
  | taskFound (tid : TaskId) : Moves cfg o db r (.taskGet tid) (.taskClaim tid)
  | refreshNotFound (tid : TaskId) (hfind : db.tasks.find? tid = none) :
      Moves cfg o db r (.taskRefresh tid) .done
  | refreshed (tid : TaskId) (task : Task) (hfind : db.tasks.find? tid = some task) :
      Moves cfg o db r (.taskRefresh tid) (.taskCheck task)
  | resultStored (task : Task) (result : TaskResult)
      (hfind : db.results.find? task.id = some result) :
      Moves cfg o db r (.taskCheck task) (.taskStored task)
  | noResult (task : Task) : Moves cfg o db r (.taskCheck task) (.contextSelect task)
  | contextEmpty (task : Task) : Moves cfg o db r (.contextSelect task) (.agentStart task "")
  | contextSelect (task : Task) (rows : List Task) :
      Moves cfg o db r (.contextSelect task) (.contextLoad task rows task.dependsOn [])
  | contextDone (task : Task) (rows : List Task) (parts : List String) :
      Moves cfg o db r (.contextLoad task rows [] parts) (.agentStart task (join "\n\n" parts))
  | contextNext (task : Task) (rows : List Task) (i : Int) (rest : List Int)
      (parts : List String) :
      Moves cfg o db r (.contextLoad task rows (i :: rest) parts)
        (.contextLoad task rows rest (contextStep db rows i parts))
  | agentStart (task : Task) (context : String) :
      Moves cfg o db r (.agentStart task context) (.agentRun task context)
  | agentReturned (task : Task) (context : String) (output : AgentOutput)
      (hagent : o.agent = .ok output) :
      Moves cfg o db r (.agentRun task context) (.persist task output)
  | agentRaised (task : Task) (context : String) (exc : Exn) (hagent : o.agent = .error exc) :
      Moves cfg o db r (.agentRun task context) (.taskRollback task exc.describe)
  | rollbackFound (task : Task) (error : String) (fresh : Task)
      (hfind : db.tasks.find? task.id = some fresh) :
      Moves cfg o db r (.taskRollback task error)
        (.retryOrFail fresh error (.executeTask task.executionId))
  | rollbackNotFound (task : Task) (error : String) (hfind : db.tasks.find? task.id = none) :
      Moves cfg o db r (.taskRollback task error) (.scheduleGet task.executionId .executeTask)
  | integrityError (task : Task) (output : AgentOutput) (result : TaskResult)
      (hfind : db.results.find? task.id = some result) :
      Moves cfg o db r (.persist task output)
        (.persistUpdate task o.now (output.metrics task.startedAt o.now))
  | backoffOverflow (task : Task) (error : String) (k : RetryCaller)
      (hbudget : (task.attempts + 1 : Nat) ≤ cfg.settings.taskMaxRetries)
      (hnext : nextAttemptAt cfg.settings (task.attempts + 1) o.jitter o.now = none) :
      Moves cfg o db r (.retryOrFail task error k) .done
  | scheduleNotFound (e : ExecutionId) (k : ScheduleCaller)
      (hfind : db.executions.find? e = none) : Moves cfg o db r (.scheduleGet e k) k.resume
  | scheduleFound (e : ExecutionId) (k : ScheduleCaller) :
      Moves cfg o db r (.scheduleGet e k) (.scheduleSelect e k)
  | scheduleSelect (e : ExecutionId) (k : ScheduleCaller) :
      Moves cfg o db r (.scheduleSelect e k)
        (.scheduleScan e k [] (Table.reorder o.order (db.tasksOf e)) false)
  | scanAgain (e : ExecutionId) (k : ScheduleCaller) (seen : List Task) :
      Moves cfg o db r (.scheduleScan e k seen [] true) (.scheduleSelect e k)
  | scanDone (e : ExecutionId) (k : ScheduleCaller) (seen : List Task) :
      Moves cfg o db r (.scheduleScan e k seen [] false) (.finalizeGet e k)
  | scanPass (e : ExecutionId) (k : ScheduleCaller) (seen : List Task) (t : Task)
      (rest : List Task) (changed : Bool)
      (hpass : t.status ≠ .pending ∨ t.enqueued = true ∨ verdict (seen ++ t :: rest) t = .wait) :
      Moves cfg o db r (.scheduleScan e k seen (t :: rest) changed)
        (.scheduleScan e k (seen ++ [t]) rest changed)
  | finalizeNotFound (e : ExecutionId) (k : ScheduleCaller)
      (hfind : db.executions.find? e = none) : Moves cfg o db r (.finalizeGet e k) k.resume
  | finalizeFound (e : ExecutionId) (k : ScheduleCaller) (x : Execution)
      (hfind : db.executions.find? e = some x) :
      Moves cfg o db r (.finalizeGet e k) (.finalizeSelect x k)
  | finalizeSelect (x : Execution) (k : ScheduleCaller) :
      Moves cfg o db r (.finalizeSelect x k)
        (finalizeTasks x k (Table.reorder o.order (db.tasksOf x.id)))
  | outcomesDone (x : Execution) (k : ScheduleCaller) (tasks : List Task)
      (outcomes : List TaskOutcome) :
      Moves cfg o db r (.finalizeLoad x k tasks [] outcomes) (.finalizeComplete x k tasks outcomes)
  | outcomeNext (x : Execution) (k : ScheduleCaller) (tasks : List Task) (t : Task)
      (rest : List Task) (outcomes : List TaskOutcome) :
      Moves cfg o db r (.finalizeLoad x k tasks (t :: rest) outcomes)
        (.finalizeLoad x k tasks rest (outcomes ++ [t.outcome (db.results.find? t.id)]))
  | promoteSelect :
      Moves cfg o db r .promoteSelect (.promoteNext (Table.reorder o.order (r.due o.now)))
  | promoteDone : Moves cfg o db r (.promoteNext []) .done
  | recoverSelect :
      Moves cfg o db r .recoverSelect
        (recoverNext (Table.reorder o.order (db.tasks.rows.filter (isStale cfg.settings o))) [])
  | recoverDone (affected : List ExecutionId) (hnil : affected = []) :
      Moves cfg o db r (.recoverAffected affected) .done
  | recoverAffected (affected : List ExecutionId) (e : ExecutionId) (rest : List ExecutionId)
      (hcons : Table.reorder o.order affected = e :: rest) :
      Moves cfg o db r (.recoverAffected affected) (.scheduleGet e (.recoverStaleTasks rest))

variable {cfg : Config} {o : Oracle} {db : Db} {r : Redis} {pc pc' : Pc} {τ : Txn} {c : Command}
  {k : Nat → Pc}

theorem commits_of_scanAct {e : ExecutionId} {k' : ScheduleCaller} {seen rest : List Task}
    {changed : Bool} (h : scanAct o e k' seen rest changed = .commit τ k) :
    (Pc.scheduleScan e k' seen rest changed).Commits cfg o db τ k := by
  cases rest with
  | nil => simp [scanAct] at h
  | cons t rest =>
      rw [scanAct] at h
      split at h
      · simp at h
      · next hcond =>
          have hs : t.status = .pending ∧ t.enqueued = false := by simpa using hcond
          split at h
          · next hv =>
              obtain ⟨rfl, rfl⟩ := Act.commit.inj h
              exact .skipTask e k' seen t rest changed hs.1 hs.2 hv
          · next hv =>
              obtain ⟨rfl, rfl⟩ := Act.commit.inj h
              exact .markEnqueued e k' seen t rest changed hs.1 hs.2 hv
          · simp at h

theorem moves_of_scanAct {e : ExecutionId} {k' : ScheduleCaller} {seen rest : List Task}
    {changed : Bool} (h : scanAct o e k' seen rest changed = .goto pc') :
    (Pc.scheduleScan e k' seen rest changed).Moves cfg o db r pc' := by
  cases rest with
  | nil =>
      obtain rfl := Act.goto.inj h
      cases changed with
      | true => exact .scanAgain e k' seen
      | false => exact .scanDone e k' seen
  | cons t rest =>
      rw [scanAct] at h
      split at h
      · next hcond =>
          obtain rfl := Act.goto.inj h
          have hpass : t.status ≠ .pending ∨ t.enqueued = true := by simpa using hcond
          exact .scanPass e k' seen t rest changed (hpass.imp_right .inl)
      · split at h
        · simp at h
        · simp at h
        · next hv =>
            obtain rfl := Act.goto.inj h
            exact .scanPass e k' seen t rest changed (.inr (.inr hv))

theorem commits_of_retryAct {task : Task} {error : String} {k' : RetryCaller}
    (h : retryAct cfg.settings o task error k' = .commit τ k) :
    (Pc.retryOrFail task error k').Commits cfg o db τ k := by
  unfold retryAct at h
  dsimp only at h
  split at h
  · next hbudget =>
      split at h
      · simp at h
      · next nextAt hnext =>
          obtain ⟨rfl, rfl⟩ := Act.commit.inj h
          exact .retryTask task error k' nextAt hbudget hnext
  · next hbudget =>
      obtain ⟨rfl, rfl⟩ := Act.commit.inj h
      exact .failTask task error k' hbudget

/-- Every commit of a handler is at one of the write sites. -/
theorem Pc.commits_of_act (h : pc.act cfg o db r = .commit τ k) : pc.Commits cfg o db τ k := by
  cases pc with
  | planGuard e userRequest =>
      obtain ⟨rfl, rfl⟩ := Act.commit.inj h
      exact .planGuard e userRequest
  | planInsert e plan =>
      obtain ⟨rfl, rfl⟩ := Act.commit.inj h
      exact .planInsert e plan
  | planRunning e =>
      obtain ⟨rfl, rfl⟩ := Act.commit.inj h
      exact .planRunning e
  | planStarted e =>
      obtain ⟨rfl, rfl⟩ := Act.commit.inj h
      exact .planStarted e
  | planFail e error =>
      obtain ⟨rfl, rfl⟩ := Act.commit.inj h
      exact .planFail e error
  | taskClaim tid =>
      obtain ⟨rfl, rfl⟩ := Act.commit.inj h
      exact .taskClaim tid
  | taskStarted tid =>
      obtain ⟨rfl, rfl⟩ := Act.commit.inj h
      exact .taskStarted tid
  | taskStored task =>
      obtain ⟨rfl, rfl⟩ := Act.commit.inj h
      exact .taskStored task
  | persist task output =>
      simp only [act] at h
      split at h
      · simp at h
      · next hnew =>
          obtain ⟨rfl, rfl⟩ := Act.commit.inj h
          exact .persist task output hnew
  | persistUpdate task stamp metrics =>
      obtain ⟨rfl, rfl⟩ := Act.commit.inj h
      exact .persistUpdate task stamp metrics
  | retryOrFail task error k' => exact commits_of_retryAct h
  | scheduleScan e k' seen rest changed => exact commits_of_scanAct h
  | finalizeComplete x k' tasks outcomes =>
      obtain ⟨rfl, rfl⟩ := Act.commit.inj h
      exact .finalizeComplete x k' tasks outcomes
  | finalizeFail x k' tasks =>
      obtain ⟨rfl, rfl⟩ := Act.commit.inj h
      exact .finalizeFail x k' tasks
  | planGet | planLlm | taskGet | taskRefresh | taskCheck | contextSelect | contextLoad | agentRun
    | taskRollback | scheduleGet | finalizeLoad | finalizeGet | promoteNext | recoverAffected =>
      simp only [act] at h
      split at h <;> simp at h
  | _ => simp [act] at h

/-- Every command a handler sends is at one of the Redis sites. -/
theorem Pc.sends_of_act (h : pc.act cfg o db r = .send c k) : pc.Sends c k := by
  cases pc with
  | enqueuePlan e =>
      obtain ⟨rfl, rfl⟩ := Act.send.inj h
      exact .enqueuePlan e
  | schedulePush e k' seen rest tid =>
      obtain ⟨rfl, rfl⟩ := Act.send.inj h
      exact .schedulePush e k' seen rest tid
  | retrySchedule tid nextAt k' =>
      obtain ⟨rfl, rfl⟩ := Act.send.inj h
      exact .retrySchedule tid nextAt k'
  | retryDeadLetter entry k' =>
      obtain ⟨rfl, rfl⟩ := Act.send.inj h
      exact .retryDeadLetter entry k'
  | promoteNext due =>
      cases due with
      | nil => simp [act] at h
      | cons tid due =>
          obtain ⟨rfl, rfl⟩ := Act.send.inj h
          exact .promoteNext tid due
  | promotePush tid due =>
      obtain ⟨rfl, rfl⟩ := Act.send.inj h
      exact .promotePush tid due
  | scheduleScan e k' seen rest changed =>
      simp only [act, scanAct] at h
      split at h
      · simp at h
      · split at h
        · simp at h
        · split at h <;> simp at h
  | retryOrFail task error k' =>
      simp only [act, retryAct] at h
      split at h
      · split at h <;> simp at h
      · simp at h
  | planGet | planLlm | taskGet | taskRefresh | taskCheck | contextSelect | contextLoad | agentRun
    | taskRollback | persist | scheduleGet | finalizeLoad | finalizeGet | recoverAffected =>
      simp only [act] at h
      split at h <;> simp at h
  | _ => simp [act] at h

/-- Every step without an effect is one of the listed moves. -/
theorem Pc.moves_of_act (h : pc.act cfg o db r = .goto pc') : pc.Moves cfg o db r pc' := by
  cases pc with
  | done =>
      obtain rfl := Act.goto.inj h
      exact .done
  | planProvider e =>
      obtain rfl := Act.goto.inj h
      exact .planProvider e
  | planGet e =>
      simp only [act] at h
      split at h
      · next hfind =>
          obtain rfl := Act.goto.inj h
          exact .planNotFound e hfind
      · next x hfind =>
          obtain rfl := Act.goto.inj h
          exact .planFound e x hfind
  | planLlm e userRequest =>
      simp only [act] at h
      split at h
      · next exc hllm =>
          obtain rfl := Act.goto.inj h
          exact .planLlmRaised e userRequest exc hllm
      · obtain rfl := Act.goto.inj h
        exact .planned e userRequest _
  | taskProvider tid =>
      obtain rfl := Act.goto.inj h
      exact .taskProvider tid
  | taskGet tid =>
      simp only [act] at h
      split at h
      · next hfind =>
          obtain rfl := Act.goto.inj h
          exact .taskNotFound tid hfind
      · obtain rfl := Act.goto.inj h
        exact .taskFound tid
  | taskRefresh tid =>
      simp only [act] at h
      split at h
      · next hfind =>
          obtain rfl := Act.goto.inj h
          exact .refreshNotFound tid hfind
      · next task hfind =>
          obtain rfl := Act.goto.inj h
          exact .refreshed tid task hfind
  | taskCheck task =>
      simp only [act] at h
      split at h
      · next result hfind =>
          obtain rfl := Act.goto.inj h
          exact .resultStored task result hfind
      · obtain rfl := Act.goto.inj h
        exact .noResult task
  | contextSelect task =>
      simp only [act] at h
      split at h
      · obtain rfl := Act.goto.inj h
        exact .contextEmpty task
      · obtain rfl := Act.goto.inj h
        exact .contextSelect task _
  | contextLoad task rows rest parts =>
      cases rest with
      | nil =>
          obtain rfl := Act.goto.inj h
          exact .contextDone task rows parts
      | cons i rest =>
          obtain rfl := Act.goto.inj h
          exact .contextNext task rows i rest parts
  | agentStart task context =>
      obtain rfl := Act.goto.inj h
      exact .agentStart task context
  | agentRun task context =>
      simp only [act] at h
      split at h
      · next output hagent =>
          obtain rfl := Act.goto.inj h
          exact .agentReturned task context output hagent
      · next exc hagent =>
          obtain rfl := Act.goto.inj h
          exact .agentRaised task context exc hagent
  | taskRollback task error =>
      simp only [act] at h
      split at h
      · next fresh hfind =>
          obtain rfl := Act.goto.inj h
          exact .rollbackFound task error fresh hfind
      · next hfind =>
          obtain rfl := Act.goto.inj h
          exact .rollbackNotFound task error hfind
  | persist task output =>
      simp only [act] at h
      split at h
      · next result hfind =>
          obtain rfl := Act.goto.inj h
          exact .integrityError task output result hfind
      · simp at h
  | retryOrFail task error k' =>
      simp only [act, retryAct] at h
      split at h
      · next hbudget =>
          split at h
          · next hnext =>
              obtain rfl := Act.goto.inj h
              exact .backoffOverflow task error k' hbudget hnext
          · simp at h
      · simp at h
  | scheduleGet e k' =>
      simp only [act] at h
      split at h
      · next hfind =>
          obtain rfl := Act.goto.inj h
          exact .scheduleNotFound e k' hfind
      · obtain rfl := Act.goto.inj h
        exact .scheduleFound e k'
  | scheduleSelect e k' =>
      obtain rfl := Act.goto.inj h
      exact .scheduleSelect e k'
  | scheduleScan e k' seen rest changed => exact moves_of_scanAct h
  | finalizeGet e k' =>
      simp only [act] at h
      split at h
      · next hfind =>
          obtain rfl := Act.goto.inj h
          exact .finalizeNotFound e k' hfind
      · next x hfind =>
          obtain rfl := Act.goto.inj h
          exact .finalizeFound e k' x hfind
  | finalizeSelect x k' =>
      obtain rfl := Act.goto.inj h
      exact .finalizeSelect x k'
  | finalizeLoad x k' tasks rest outcomes =>
      cases rest with
      | nil =>
          obtain rfl := Act.goto.inj h
          exact .outcomesDone x k' tasks outcomes
      | cons t rest =>
          obtain rfl := Act.goto.inj h
          exact .outcomeNext x k' tasks t rest outcomes
  | promoteSelect =>
      obtain rfl := Act.goto.inj h
      exact .promoteSelect
  | promoteNext due =>
      cases due with
      | nil =>
          obtain rfl := Act.goto.inj h
          exact .promoteDone
      | cons tid due => simp [act] at h
  | recoverSelect =>
      obtain rfl := Act.goto.inj h
      exact .recoverSelect
  | recoverAffected affected =>
      simp only [act] at h
      split at h
      · next hnil =>
          obtain rfl := Act.goto.inj h
          refine .recoverDone affected ?_
          have := (Table.reorder_perm o.order affected).length_eq
          rwa [hnil, List.length_nil, eq_comm, List.length_eq_zero_iff] at this
      · next e rest hcons =>
          obtain rfl := Act.goto.inj h
          exact .recoverAffected affected e rest hcons
  | _ => simp [act] at h

/-- Where an exception leads: to the error path of `plan_execution`, to the inner `except` of
    `execute_task`, or out of the handler. -/
theorem Pc.raised_cases (exc : Exn) (pc : Pc) :
    pc.raised exc = .done ∨ (∃ e error, pc.raised exc = .planFail e error) ∨
      ∃ task, pc.raised exc = .taskRollback task exc.describe := by
  have hraised : ∀ k : ScheduleCaller,
      k.raised exc = .done ∨ ∃ e error, k.raised exc = .planFail e error := by
    intro k
    cases k with
    | planExecution e => exact .inr ⟨e, _, rfl⟩
    | executeTask | recoverStaleTasks => exact .inl rfl
  cases pc with
  | planProvider e | planGet e | planGuard e | planLlm e | planInsert e | planRunning e
    | planStarted e => exact .inr (.inl ⟨e, _, rfl⟩)
  | contextSelect task | contextLoad task | agentStart task | agentRun task =>
      exact .inr (.inr ⟨task, rfl⟩)
  | scheduleGet | scheduleSelect | scheduleScan | schedulePush | finalizeGet | finalizeSelect
    | finalizeLoad | finalizeComplete | finalizeFail => exact (hraised _).imp_right .inl
  | _ => exact .inl rfl

/-! ## Observers

What is read off a program point, and is the same for all points a call can return to. -/

section Observe

variable {α : Type*} (f : Pc → α) {v : α}

theorem ScheduleCaller.observe_resume (hdone : f .done = v)
    (haffected : ∀ affected, f (.recoverAffected affected) = v) (k : ScheduleCaller) :
    f k.resume = v := by
  cases k with
  | planExecution | executeTask => exact hdone
  | recoverStaleTasks affected => exact haffected affected

theorem observe_recoverNext (haffected : ∀ affected, f (.recoverAffected affected) = v)
    (hretry : ∀ t error e stale affected,
      f (.retryOrFail t error (.recoverStaleTasks e stale affected)) = v)
    (stale : List Task) (affected : List ExecutionId) : f (recoverNext stale affected) = v := by
  cases stale with
  | nil => exact haffected affected
  | cons t rest => exact hretry t leaseExpired t.executionId rest affected

theorem RetryCaller.observe_resume (hget : ∀ e, f (.scheduleGet e .executeTask) = v)
    (haffected : ∀ affected, f (.recoverAffected affected) = v)
    (hretry : ∀ t error e stale affected,
      f (.retryOrFail t error (.recoverStaleTasks e stale affected)) = v) (k : RetryCaller) :
    f k.resume = v := by
  cases k with
  | executeTask e => exact hget e
  | recoverStaleTasks e stale affected => exact observe_recoverNext f haffected hretry stale _

theorem observe_finalizeTasks (hdone : f .done = v)
    (haffected : ∀ affected, f (.recoverAffected affected) = v)
    (hload : ∀ x k tasks rest outcomes, f (.finalizeLoad x k tasks rest outcomes) = v)
    (hfail : ∀ x k tasks, f (.finalizeFail x k tasks) = v) (x : Execution) (k : ScheduleCaller)
    (tasks : List Task) : f (finalizeTasks x k tasks) = v := by
  unfold finalizeTasks
  split_ifs
  · exact k.observe_resume f hdone haffected
  · exact k.observe_resume f hdone haffected
  · exact hload x k tasks _ []
  · exact hfail x k tasks

end Observe

end AgenticExecution
