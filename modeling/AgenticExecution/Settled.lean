import AgenticExecution.Executions

set_option autoImplicit false

/-! # No unfinished work

Whether the tasks of a COMPLETED or FAILED execution are all finished. `_finalize` ends an execution
only after it has seen every task finished. `_fail_execution` does not look at the tasks, and the batch
insert of `plan_execution` does not look at the execution: an exception in the scheduling pass, or one
raised by a copy of the plan job while the planning model still answers, leaves a FAILED execution with
tasks to run. -/

namespace AgenticExecution

variable {cfg : Config} {s s' : State} {ev : Event}

/-- The tasks of a finished execution are finished. -/
def Db.Settled (db : Db) : Prop :=
  ∀ x ∈ db.executions, x.status.isTerminal = true → ∀ t ∈ db.tasks, t.executionId = x.id →
    t.status.isTerminal = true

/-- The step ends an execution that has an unfinished task, or plans one that has ended. -/
def unsettles (s : State) : Event → Bool
  | .run hid _ =>
    match s.live? hid with
    | some (.planFail e _) => s.db.tasks.rows.any fun t => t.executionId = e && !t.status.isTerminal
    | some (.planInsert e _) => s.db.executions.rows.any fun x => x.id = e && x.status.isTerminal
    | _ => false
  | _ => false

/-- A worker starts its agent although its task has ended meanwhile. -/
def startsFinished (s : State) : Event → Bool
  | .run hid _ =>
    match s.live? hid with
    | some (.agentStart task _) => s.db.tasks.rows.any fun t => t.id = task.id && t.status.isTerminal
    | _ => false
  | _ => false

/-! ## Updates of one table -/

namespace Db

variable {db : Db} {now : Time}

/-- An update of an execution keeps the database settled if the tasks are finished wherever it ends the
    execution. -/
theorem Settled.updateExecution (h : db.Settled) {e : ExecutionId} {u : ExecutionUpdate}
    (hu : ∀ x ∈ db.executions, x.id = e → u.guard x = true →
      (u.set now x).status.isTerminal = true → x.status.isTerminal = false →
        ∀ t ∈ db.tasks, t.executionId = e → t.status.isTerminal = true) :
    (db.updateExecution now e u).Settled := by
  intro x' hx' hs t ht he
  obtain ⟨x, hx, rfl⟩ := mem_updateExecution.1 hx'
  split at hs
  · next hg =>
      rw [if_pos hg, u.set_id] at he
      cases hold : x.status.isTerminal with
      | true => exact h x hx hold t ht he
      | false => exact hu x hx hg.1 hg.2 hs hold t ht (he.trans hg.1)
  · next hg =>
      rw [if_neg hg] at he
      exact h x hx hs t ht he

/-- Finished tasks stay finished, and no row is added. -/
theorem Settled.updateTask (h : db.Settled) {db' : Db} (hexec : db'.executions = db.executions)
    {tid : TaskId} {u : TaskUpdate} (htasks : db'.tasks = (db.updateTask now tid u).tasks) :
    db'.Settled := by
  intro x hx hs t' ht' he
  rw [hexec] at hx
  rw [htasks] at ht'
  obtain ⟨t, ht, hle⟩ : ∃ t ∈ db.tasks, Task.Le t t' := by
    obtain ⟨t, ht, rfl⟩ := mem_updateTask.1 ht'
    refine ⟨t, ht, ?_⟩
    split
    · next hg => exact TaskUpdate.le hg.2
    · exact .refl t
  have hfin := h x hx hs t ht (hle.executionId.symm.trans he)
  rw [hle.terminal hfin]
  exact hfin

theorem Settled.insertTasks (h : db.Settled) {e : ExecutionId} {plan : Plan}
    (hlive : ∀ x ∈ db.executions, x.id = e → x.status.isTerminal = false) :
    (db.insertTasks now e plan).Settled := by
  intro x hx hs t ht he
  rcases mem_insertTasks.1 ht with ht | ⟨i, sub, -, rfl⟩
  · exact h x hx hs t ht he
  · rw [hlive x hx he.symm] at hs
    cases hs

/-- A complete read that shows every task finished. -/
theorem Loaded.finished {e : ExecutionId} {tasks : List Task} (h : db.Loaded e tasks)
    (hfin : ∀ t ∈ tasks, t.status.isTerminal = true) :
    ∀ t ∈ db.tasks, t.executionId = e → t.status.isTerminal = true := by
  intro t' ht' he
  obtain ⟨t, ht, hle⟩ := h.complete t' ht' he
  rw [hle.terminal (hfin t ht)]
  exact hfin t ht

end Db

/-! ## Steps -/

theorem settled_commit {o : Oracle} {db : Db} {pc : Pc} {τ : Txn} {k : Nat → Pc} (h : db.Settled)
    (hk : pc.Knows db) (hcommit : pc.Commits cfg o db τ k)
    (hfail : ∀ e error, pc = .planFail e error → ∀ t ∈ db.tasks, t.executionId = e →
      t.status.isTerminal = true)
    (hinsert : ∀ e plan, pc = .planInsert e plan → ∀ x ∈ db.executions, x.id = e →
      x.status.isTerminal = false) :
    (db.commit o.now τ).Settled := by
  cases hcommit with
  | planFail e error => exact h.updateExecution fun _ _ _ _ _ _ => hfail e error rfl
  | planInsert e plan => exact h.insertTasks (hinsert e plan rfl)
  | planGuard | planRunning =>
      refine h.updateExecution fun x _ _ _ hs => ?_
      simp [ExecutionUpdate.set, ExecutionStatus.isTerminal] at hs
  | planStarted =>
      refine h.updateExecution fun x _ _ _ hs hold => ?_
      have hsame : x.status.isTerminal = true := hs
      rw [hold] at hsame
      cases hsame
  | finalizeComplete x k tasks outcomes =>
      obtain ⟨hf, -, -⟩ := hk
      exact h.updateExecution fun _ _ _ _ _ _ => hf.loaded.finished fun t ht => by
        rw [hf.completed t ht]
        rfl
  | finalizeFail x k tasks =>
      obtain ⟨-, hl, hfin, -⟩ := hk
      exact h.updateExecution fun _ _ _ _ _ _ => hl.finished hfin
  | taskClaim | taskStarted | taskStored | persist | persistUpdate | retryTask | failTask | skipTask
    | markEnqueued => exact h.updateTask rfl rfl

theorem settled_step (hinv : Inv s) (h : s.db.Settled) (hok : unsettles s ev = false)
    (hs : s.step cfg ev = some s') : s'.db.Settled := by
  cases State.stepsTo hs with
  | createExecution userRequest now =>
      intro x hx hst t ht he
      rcases State.mem_createExecution.1 hx with hx | rfl
      · exact h x hx hst t ht he
      · simp [State.newExecution, ExecutionStatus.isTerminal] at hst
  | commit hid o pc τ k hpc hlive hact =>
      refine settled_commit h (hinv.knows pc (List.mem_of_getElem? hpc)) (Pc.commits_of_act hact) ?_ ?_
      · rintro e error rfl t ht he
        simp only [unsettles, State.live?, hpc, List.any_eq_false] at hok
        simpa [he] using hok t ht
      · rintro e plan rfl x hx hid'
        simp only [unsettles, State.live?, hpc, List.any_eq_false] at hok
        simpa [hid'] using hok x hx
  | dequeue | promoteDue | recoverStaleTasks | move | send | redeliver | raise | crash => exact h

/-- Where the step is such a one, the database is not settled afterwards. -/
theorem not_settled_step (hinv : Inv s) (hbad : unsettles s ev = true)
    (hs : s.step cfg ev = some s') : ¬ s'.db.Settled := by
  unfold unsettles at hbad
  split at hbad
  · next hid o =>
      split at hbad
      · next e error hlive =>
          obtain ⟨t, ht, hcond⟩ := List.any_eq_true.1 hbad
          obtain ⟨rfl, hopen⟩ : t.executionId = e ∧ t.status.isTerminal = false := by simpa using hcond
          obtain ⟨x, hx, hid'⟩ := hinv.wellFormed.owner t ht
          rw [State.eq_perform hlive hs]
          intro hsettled
          have hmem := Table.update_mem ((ExecutionUpdate.failExecution error).set_id o.now)
            (p := (ExecutionUpdate.failExecution error).guard) (k := t.executionId) hx
          rw [if_pos ⟨hid', rfl⟩] at hmem
          have hfin : t.status.isTerminal = true := hsettled _ hmem rfl t ht hid'.symm
          rw [hopen] at hfin
          cases hfin
      · next e plan hlive =>
          obtain ⟨x, hx, hcond⟩ := List.any_eq_true.1 hbad
          obtain ⟨rfl, hfin⟩ : x.id = e ∧ x.status.isTerminal = true := by simpa using hcond
          rw [State.eq_perform hlive hs]
          intro hsettled
          obtain ⟨sub, hsub⟩ := List.exists_mem_of_ne_nil _ plan.ne_nil
          obtain ⟨i, hi⟩ := List.mem_iff_getElem?.1 hsub
          have hmem : s.db.plannedTask x.id o.now i sub ∈ (s.db.insertTasks o.now x.id plan).tasks :=
            Db.mem_insertTasks.2 (.inr ⟨i, sub, hi, rfl⟩)
          have hopen := hsettled x hx hfin _ hmem rfl
          simp [Db.plannedTask, TaskStatus.isTerminal] at hopen
      · cases hbad
  · cases hbad

/-- While the database is settled, an agent that is started for an unfinished task works for an
    unfinished execution. -/
theorem execution_unfinished (hinv : Inv s) (h : s.db.Settled) {hid : Nat} {o : Oracle} {task : Task}
    {context : String} (hpc : s.handlers[hid]? = some (.agentStart task context))
    (hstart : startsFinished s (.run hid o) = false) {x : Execution} (hx : x ∈ s.db.executions)
    (hid' : x.id = task.executionId) : x.status.isTerminal = false := by
  have hknows := hinv.knows _ (List.mem_of_getElem? hpc)
  obtain ⟨⟨-, t, ht, hle⟩, -⟩ := hknows
  have hopen : t.status.isTerminal = false := by
    simp only [startsFinished, State.live?, hpc, List.any_eq_false] at hstart
    simpa [hle.id] using hstart t ht
  cases hfin : x.status.isTerminal with
  | false => rfl
  | true =>
      have := h x hx hfin t ht (hle.executionId.trans hid'.symm)
      rw [hopen] at this
      cases this

/-- In every run in which no exception handler ends an execution with an unfinished task and no batch
    insert plans an ended one, the tasks of a finished execution are finished in the state reached, and
    an agent is only started for an execution in progress, unless its own task had ended before. A step
    from a settled database keeps it settled exactly when it is neither of the two. -/
theorem finished_settled {E : State → Event → Prop} {trace : List (State × Event)}
    (h : (queueMode cfg).Run E trace s) :
    ((∀ p ∈ trace, unsettles p.1 p.2 = false) → s.db.Settled ∧
      ∀ u hid o task context, (u, .run hid o) ∈ trace →
        u.handlers[hid]? = some (.agentStart task context) → startsFinished u (.run hid o) = false →
          ∀ x ∈ u.db.executions, x.id = task.executionId → x.status.isTerminal = false) ∧
    ∀ ev s', (queueMode cfg).step s ev = some s' → s.db.Settled →
      (s'.db.Settled ↔ unsettles s ev = false) := by
  constructor
  · have hrun : (∀ p ∈ trace, unsettles p.1 p.2 = false) → s.db.Settled ∧
        ∀ p ∈ trace, p.1.db.Settled ∧ Inv p.1 := by
      refine Lts.Run.invariant (I := fun trace s => (∀ p ∈ trace, unsettles p.1 p.2 = false) →
        s.db.Settled ∧ ∀ p ∈ trace, p.1.db.Settled ∧ Inv p.1) ?_ ?_ h
      · exact fun _ => ⟨by simp [queueMode, Db.Settled], by simp⟩
      · intro trace s ev s' hr ih _ hs hok
        have hinv := reachable_inv hr.reachable
        obtain ⟨hsettled, hpast⟩ := ih fun p hp => hok p (List.mem_append_left _ hp)
        refine ⟨settled_step hinv hsettled (hok (s, ev) (by simp)) hs, fun p hp => ?_⟩
        rcases List.mem_append.1 hp with hp | hp
        · exact hpast p hp
        · obtain rfl := List.mem_singleton.1 hp
          exact ⟨hsettled, hinv⟩
    intro hok
    obtain ⟨hsettled, hpast⟩ := hrun hok
    refine ⟨hsettled, fun u hid o task context hmem hpc hstart x hx hid' => ?_⟩
    obtain ⟨hu, hinv⟩ := hpast _ hmem
    exact execution_unfinished hinv hu hpc hstart hx hid'
  · intro ev s' hs hsettled
    have hinv := reachable_inv h.reachable
    refine ⟨fun hs' => ?_, fun hok => settled_step hinv hsettled hok hs⟩
    by_contra hne
    exact not_settled_step hinv (by simpa using hne) hs hs'

/-- A run to the end of an execution that meets neither. -/
theorem finished_settled_fallback :
    ∃ trace s, (queueMode (fallbackConfig {})).Run anyEvent trace s ∧
      (∃ x ∈ s.db.executions, x.status = .completed) ∧ s.db.Settled := by
  obtain ⟨trace, s, hrun, hcheck⟩ := (queueMode (fallbackConfig {})).exists_run (E := anyEvent)
    (fun _ _ => true)
    (fun trace s => (trace.all fun p => !unsettles p.1 p.2) &&
      s.db.executions.rows.any fun x => x.status = .completed)
    completionSchedule (fun _ _ _ => trivial) (by decide +kernel)
  obtain ⟨hok, hx⟩ : (∀ p ∈ trace, unsettles p.1 p.2 = false) ∧
      ∃ x ∈ s.db.executions.rows, x.status = .completed := by
    simpa using hcheck
  exact ⟨trace, s, hrun, hx, ((finished_settled hrun).1 hok).1⟩

/-- The scheduling pass of the planner has published the first task when its next update raises. -/
def failedPass : List Event :=
  .createExecution "q" 0 :: runs 0 1 { now := 0 } ++ .dequeue :: runs 1 11 { now := 0 } ++
    [.raise 1 ⟨"ConnectionError", "redis"⟩, .run 1 { now := 0 }, .dequeue] ++ runs 2 7 { now := 0 }

/-- Handler `hid` is about to start an agent for a FAILED execution with an unfinished task. -/
def startsForFailed (hid : Nat) (s : State) : Bool :=
  match s.live? hid with
  | some (.agentStart task _) =>
    (s.db.executions.rows.any fun x => x.id = task.executionId && x.status = .failed) &&
      s.db.tasks.rows.any fun t => t.executionId = task.executionId && !t.status.isTerminal
  | _ => false

/-- An agent is about to be started for an execution that was reported FAILED. -/
theorem finished_execution_unsettled :
    ∃ (s : State) (hid : Nat) (task : Task) (context : String),
      (queueMode (fallbackConfig {})).Reachable anyEvent s ∧ ¬ s.db.Settled ∧
      s.handlers[hid]? = some (.agentStart task context) ∧
      ∃ x ∈ s.db.executions, x.id = task.executionId ∧ x.status = .failed := by
  obtain ⟨trace, s, hrun, hcheck⟩ := (queueMode (fallbackConfig {})).exists_run (E := anyEvent)
    (fun _ _ => true) (fun _ s => startsForFailed 2 s) failedPass (fun _ _ _ => trivial)
    (by decide +kernel)
  unfold startsForFailed at hcheck
  split at hcheck
  · next task context hlive =>
      obtain ⟨⟨x, hx, hid, hfailed⟩, t, ht, he, hopen⟩ :
          (∃ x ∈ s.db.executions.rows, x.id = task.executionId ∧ x.status = .failed) ∧
            ∃ t ∈ s.db.tasks.rows, t.executionId = task.executionId ∧
              t.status.isTerminal = false := by
        simpa using hcheck
      refine ⟨s, 2, task, context, hrun.reachable, fun hsettled => ?_,
        (State.live?_eq_some hlive).1, x, hx, hid, hfailed⟩
      have hfin := hsettled x hx (by rw [hfailed]; rfl) t ht (he.trans hid.symm)
      rw [hopen] at hfin
      cases hfin
  · cases hcheck

end AgenticExecution
