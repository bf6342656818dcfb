import AgenticExecution.Workers

set_option autoImplicit false

/-! # Results

How the stored results and the task rows agree. `_persist_success` inserts the result and updates the
row in one transaction, so a COMPLETED task comes from one agent run; but it inserts the result
whatever the status, so a task that was dead-lettered meanwhile gets one too. -/

namespace AgenticExecution

variable {cfg : Config} {s s' : State} {ev : Event}

/-! ## One agent run behind every COMPLETED task -/

/-- In the run so far, an agent run for the task returned `output`. -/
def Returned (trace : List (State × Event)) (tid : TaskId) (output : AgentOutput) : Prop :=
  ∃ u hid o task context, (u, .run hid o) ∈ trace ∧
    u.live? hid = some (.agentRun task context) ∧ task.id = tid ∧ o.agent = .ok output

theorem Returned.mono {trace rest : List (State × Event)} {tid : TaskId} {output : AgentOutput}
    (h : Returned trace tid output) : Returned (trace ++ rest) tid output := by
  obtain ⟨u, hid, o, task, context, hmem, hrest⟩ := h
  exact ⟨u, hid, o, task, context, List.mem_append_left _ hmem, hrest⟩

/-- The stored result of the row and its metrics are what `output` gave. -/
structure Db.ComesFrom (db : Db) (t : Task) (output : AgentOutput) : Prop where
  result : (⟨t.id, output.text⟩ : TaskResult) ∈ db.results
  totalTokens : t.totalTokens = some output.totalTokens
  costUsd : t.costUsd = some (estimateCost output.model output.promptTokens output.completionTokens)
  toolCalls : t.toolCalls = output.toolCalls

/-- What is known about the agent runs of a run of the system: the output a handler is about to
    persist was returned, and so was the one behind each COMPLETED task. -/
structure Provenance (trace : List (State × Event)) (s : State) : Prop where
  returned : ∀ pc ∈ s.handlers, ∀ tid output, pc.work = some (tid, .returned output) →
    Returned trace tid output
  completed : ∀ t ∈ s.db.tasks, t.status = .completed →
    ∃ output, Returned trace t.id output ∧ s.db.ComesFrom t output

/-- A task with a stored result is finished. -/
theorem Inv.stored_terminal (h : Inv s) {t : Task} (ht : t ∈ s.db.tasks)
    (hr : s.db.Stored t.id) : t.status.isTerminal = true := by
  obtain ⟨r, hr, hid⟩ := hr
  obtain ⟨t', ht', hid', hs⟩ := h.wellFormed.result r hr
  rwa [Table.eq_of_key_eq ht ht' (hid.symm.trans hid'.symm)]

theorem Provenance.returned_step {trace : List (State × Event)} (h : Provenance trace s)
    (hs : s.step cfg ev = some s') {pc : Pc} (hmem : pc ∈ s'.handlers) {tid : TaskId}
    {output : AgentOutput} (hw : pc.work = some (tid, .returned output)) :
    Returned (trace ++ [(s, ev)]) tid output := by
  obtain ⟨hid, hpc⟩ := List.mem_iff_getElem?.1 hmem
  generalize hst : Stage.returned output = st at hw
  cases work_origin hs hpc hw with
  | kept pc₀ _ hpc₀ hwork =>
      exact (h.returned pc₀ (List.mem_of_getElem? hpc₀) tid output (hst ▸ hwork)).mono
  | moved o pc₀ st₀ _ hev hpc₀ hwork hnext =>
      cases hnext with
      | stay =>
          exact (h.returned pc₀ (List.mem_of_getElem? hpc₀) tid output (hst ▸ hwork)).mono
      | returns output' hagent =>
          obtain rfl := Stage.returned.inj hst
          obtain ⟨task, context, rfl, hid'⟩ := Pc.work_running hwork
          refine ⟨s, hid, o, task, context, by simp [hev], ?_, hid', hagent⟩
          rw [State.live?, hpc₀]
      | start | claimedStored | raises | returnedStored => simp at hst
  | claimed => simp at hst
  | raised => simp at hst

/-- A commit that completes a task persists the output of one agent run. -/
theorem Inv.completed_commit (h : Inv s) {hid : Nat} {o : Oracle} {pc : Pc} {τ : Txn}
    {k : Nat → Pc} (hpc : s.handlers[hid]? = some pc) (hcommit : pc.Commits cfg o s.db τ k)
    {t : Task} (ht : t ∈ s.db.tasks) {u : TaskUpdate} (hu : τ.taskUpdate? = some (t.id, u))
    (hg : u.guard t = true) (hold : t.status ≠ .completed)
    (hnew : (u.set o.now t).status = .completed) :
    ∃ output, pc.work = some (t.id, .returned output) ∧
      (s.db.commit o.now τ).ComesFrom (u.set o.now t) output := by
  have hk := h.knows pc (List.mem_of_getElem? hpc)
  have hstored : u.guard t = true → s.db.Stored t.id → False := by
    intro hg hr
    have := h.stored_terminal ht hr
    cases u <;> cases hst : t.status <;>
      simp_all [TaskUpdate.guard, TaskUpdate.set, TaskStatus.isTerminal, TaskStatus.claimable]
  cases hcommit with
  | taskClaim | taskStarted | retryTask | failTask | skipTask | markEnqueued =>
      obtain ⟨-, rfl⟩ := Prod.mk.inj (Option.some.inj hu)
      exact absurd hnew (by simp [TaskUpdate.set, hold])
  | taskStored task =>
      obtain ⟨hid', rfl⟩ := Prod.mk.inj (Option.some.inj hu)
      exact (hstored hg (hid' ▸ hk.2)).elim
  | persistUpdate task stamp metrics =>
      obtain ⟨hid', rfl⟩ := Prod.mk.inj (Option.some.inj hu)
      exact (hstored hg (hid' ▸ hk.2)).elim
  | persist task output hfind =>
      obtain ⟨hid', rfl⟩ := Prod.mk.inj (Option.some.inj hu)
      refine ⟨output, by rw [Pc.work, hid'], ?_, rfl, rfl, rfl⟩
      exact (Db.mem_insertResult hfind).2 (.inr (by rw [TaskUpdate.set_id, hid']))
  | _ => cases hu

theorem Provenance.completed_step {trace : List (State × Event)} (hinv : Inv s)
    (h : Provenance trace s) (hs : s.step cfg ev = some s') {t' : Task} (ht' : t' ∈ s'.db.tasks)
    (hcompleted : t'.status = .completed) :
    ∃ output, Returned (trace ++ [(s, ev)]) t'.id output ∧ s'.db.ComesFrom t' output := by
  have hle := (hinv.step hs).2
  have hkept : ∀ {t : Task}, t ∈ s.db.tasks → t.status = .completed → Task.Le t t' →
      ∃ output, Returned (trace ++ [(s, ev)]) t'.id output ∧ s'.db.ComesFrom t' output := by
    intro t ht hst hlet
    obtain ⟨output, hret, hfrom⟩ := h.completed t ht hst
    obtain ⟨-, htok, hcost, hcalls⟩ := hlet.completed hst
    refine ⟨output, hlet.id ▸ hret.mono, ?_, htok.trans hfrom.totalTokens,
      hcost.trans hfrom.costUsd, hcalls.trans hfrom.toolCalls⟩
    exact hlet.id ▸ hle.result _ hfrom.result
  cases row_origin hs ht' with
  | kept hmem => exact hkept hmem hcompleted (.refl t')
  | planned o e i sub heq => simp [heq, Db.plannedTask] at hcompleted
  | set hid o pc τ k t u hev hpc hcommit hdb ht hu hg heq =>
      subst heq
      by_cases hst : t.status = .completed
      · exact hkept ht hst (TaskUpdate.le hg)
      · obtain ⟨output, hwork, hfrom⟩ := hinv.completed_commit hpc hcommit ht hu hg hst hcompleted
        refine ⟨output, ?_, hdb ▸ hfrom⟩
        rw [u.set_id]
        exact (h.returned pc (List.mem_of_getElem? hpc) t.id output hwork).mono

theorem run_provenance {E : State → Event → Prop} {trace : List (State × Event)}
    (h : (queueMode cfg).Run E trace s) : Provenance trace s := by
  refine Lts.Run.invariant (I := Provenance) ⟨by simp [queueMode], by simp [queueMode]⟩ ?_ h
  intro trace s ev s' hrun hprov _ hs
  have hinv := reachable_inv hrun.reachable
  exact ⟨fun pc hmem tid output hw => hprov.returned_step hs hmem hw,
    fun t' ht' hst => hprov.completed_step hinv hs ht' hst⟩

/-- Terminal tasks are permanent, a task has one result at most, which never changes, and a COMPLETED
    task stores the output and the metrics of one and the same agent run. -/
theorem terminal_tasks_permanent {E : State → Event → Prop} {trace : List (State × Event)}
    (h : (queueMode cfg).Run E trace s) :
    (∀ u ev u', (u, ev) ∈ trace → (queueMode cfg).step u ev = some u' →
      ∀ t ∈ u.db.tasks, t.status.isTerminal = true →
        ∃ t' ∈ u'.db.tasks, t'.id = t.id ∧ t'.status = t.status) ∧
    (∀ r ∈ s.db.results, ∀ r' ∈ s.db.results, r'.taskId = r.taskId → r' = r) ∧
    (∀ u ev, (u, ev) ∈ trace → ∀ r ∈ u.db.results, r ∈ s.db.results) ∧
    ∀ t ∈ s.db.tasks, t.status = .completed →
      ∃ output, Returned trace t.id output ∧ s.db.ComesFrom t output := by
  refine ⟨fun u ev u' hmem hs t ht hterm => ?_, fun r hr r' hr' hid => ?_, fun u ev hmem r hr => ?_,
    (run_provenance h).completed⟩
  · obtain ⟨t', ht', hle⟩ := (step_le (h.mem_trace hmem).1 hs).task t ht
    exact ⟨t', ht', hle.id, hle.terminal hterm⟩
  · exact Table.eq_of_key_eq hr' hr hid
  · exact (path_le (h.mem_trace hmem).1 (h.path_of_mem hmem)).result r hr

theorem terminal_tasks_permanent_fallback :
    ∃ trace s, (queueMode (fallbackConfig {})).Run anyEvent trace s ∧
      ∃ t ∈ s.db.tasks, t.status = .completed ∧
        ∃ output, Returned trace t.id output ∧ s.db.ComesFrom t output := by
  obtain ⟨trace, s, hrun, hcheck⟩ := (queueMode (fallbackConfig {})).exists_run (E := anyEvent)
    (fun _ _ => true) (fun _ s => s.db.tasks.rows.any fun t => t.status = .completed)
    completionSchedule (fun _ _ _ => trivial) (by decide +kernel)
  obtain ⟨t, ht, hs⟩ : ∃ t ∈ s.db.tasks.rows, t.status = .completed := by
    simpa using hcheck
  exact ⟨trace, s, hrun, t, ht, hs, (terminal_tasks_permanent hrun).2.2.2 t ht hs⟩

/-! ## Results and statuses -/

/-- Exactly the COMPLETED tasks have a result. -/
def Db.Agrees (db : Db) : Prop := ∀ t ∈ db.tasks, db.Stored t.id ↔ t.status = .completed

/-- `_persist_success` is about to insert the result of a task that is FAILED. -/
def lateSuccess (s : State) : Event → Bool
  | .run hid _ =>
    match s.live? hid with
    | some (.persist task _) => (s.db.results.find? task.id).isNone &&
        s.db.tasks.rows.any fun t => t.id = task.id && t.status = .failed
    | _ => false
  | _ => false

/-- Only `_persist_success` stores a result. -/
theorem Db.mem_results_commit {db : Db} {now : Time} {τ : Txn} {r : TaskResult}
    (h : r ∈ (db.commit now τ).results) :
    r ∈ db.results ∨ ∃ tid output stamp metrics,
      τ = .persistSuccess tid output stamp metrics ∧ r = ⟨tid, output⟩ := by
  cases τ with
  | updateExecution | updateTask | insertTasks => exact .inl h
  | persistSuccess tid output stamp metrics =>
      have h : r ∈ (db.insertResult ⟨tid, output⟩).results := h
      exact (Db.mem_of_insertResult h).imp_right fun hr => ⟨tid, output, stamp, metrics, rfl, hr⟩

/-- The task `_persist_success` stores a result for is COMPLETED afterwards, unless it is late. -/
theorem Inv.persist_completed (hinv : Inv s) {hid : Nat} {o : Oracle} {task : Task}
    {output : AgentOutput} {stamp : Time} {metrics : Metrics}
    (hpc : s.handlers[hid]? = some (.persist task output))
    (hfind : s.db.results.find? task.id = none) (hlate : lateSuccess s (.run hid o) = false)
    {t' : Task} (ht' : t' ∈ (s.db.commit o.now
      (.persistSuccess task.id output.text stamp metrics)).tasks) (hid' : t'.id = task.id) :
    t'.status = .completed := by
  obtain ⟨t, ht, rfl⟩ := Db.mem_updateTask.1 ht'
  split
  · rfl
  · next hguard =>
      rw [if_neg hguard] at hid'
      obtain ⟨t₁, ht₁, hid₁, hclaimed⟩ :=
        (hinv.knows _ (List.mem_of_getElem? hpc) : s.db.Works task).1.claimed
      obtain rfl := Table.eq_of_key_eq ht ht₁ (hid'.trans hid₁.symm)
      cases hst : t.status with
      | pending => exact absurd hst hclaimed
      | running | retrying => simp [TaskUpdate.guard, hid', hst] at hguard
      | completed => rfl
      | failed =>
          simp only [lateSuccess, State.live?, hpc, hfind, Option.isNone_none, Bool.true_and,
            List.any_eq_false] at hlate
          exact absurd (hlate t ht) (by simp [hid', hst])

/-- A commit keeps results and statuses in agreement, unless it is a late success. -/
theorem Inv.agrees_commit (hinv : Inv s) {hid : Nat} {o : Oracle} {pc : Pc} {τ : Txn} {k : Nat → Pc}
    (h : s.db.Agrees) (hpc : s.handlers[hid]? = some pc)
    (hact : pc.act cfg o s.db s.redis = .commit τ k)
    (hlate : lateSuccess s (.run hid o) = false) : (s.db.commit o.now τ).Agrees := by
  have hok : (Act.commit τ k).Ok o.now s.db s.redis := hact ▸ hinv.act_ok hpc
  have hle : s.db.Le (s.db.commit o.now τ) := Db.le_commit hok.allowed.respects
  have hwf' : (s.db.commit o.now τ).WellFormed := hinv.wellFormed.commit hok.allowed
  refine fun t' ht' => ⟨fun hr => ?_, (hwf'.rows t' ht').stored⟩
  obtain ⟨r, hr, hid'⟩ := hr
  rcases Db.mem_results_commit hr with hr | ⟨tid, output, stamp, metrics, rfl, rfl⟩
  · obtain ⟨t, ht, htid, -⟩ := hinv.wellFormed.result r hr
    have hs : t.status = .completed := (h t ht).1 ⟨r, hr, htid.symm⟩
    obtain ⟨t₁, ht₁, hle₁⟩ := hle.task t ht
    obtain rfl := Table.eq_of_key_eq ht' ht₁ (hid'.symm.trans (htid.symm.trans hle₁.id.symm))
    exact (hle₁.completed hs).1
  · cases Pc.commits_of_act hact with
    | persist task output hfind => exact hinv.persist_completed hpc hfind hlate ht' hid'.symm

theorem agrees_step (hinv : Inv s) (h : s.db.Agrees) (hlate : lateSuccess s ev = false)
    (hs : s.step cfg ev = some s') : s'.db.Agrees := by
  cases State.stepsTo hs with
  | commit hid o pc τ k hpc hlive hact => exact hinv.agrees_commit h hpc hact hlate
  | createExecution | dequeue | promoteDue | recoverStaleTasks | move | send | redeliver | raise
    | crash => exact h

/-- After a late success the FAILED task has a result. -/
theorem not_agrees_step (hlate : lateSuccess s ev = true) (hs : s.step cfg ev = some s') :
    ¬ s'.db.Agrees := by
  intro h
  unfold lateSuccess at hlate
  split at hlate
  · next hid o =>
      split at hlate
      · next task output hlive =>
          obtain ⟨hnone, hany⟩ := Bool.and_eq_true_iff.1 hlate
          obtain ⟨t, ht, hcond⟩ := List.any_eq_true.1 hany
          obtain ⟨hid', hst⟩ : t.id = task.id ∧ t.status = .failed := by simpa using hcond
          have hfind : s.db.results.find? task.id = none := by simpa using hnone
          have hact : (Pc.persist task output).act cfg o s.db s.redis = .commit (.persistSuccess
              task.id output.text o.now (output.metrics task.startedAt o.now))
                fun _ => .scheduleGet task.executionId .executeTask := by
            simp [Pc.act, hfind]
          have hs' := State.eq_perform hlive hs
          rw [hact] at hs'
          have hkept : t ∈ s'.db.tasks := by
            rw [hs']
            exact Db.mem_updateTask_of_not ht fun _ => by simp [TaskUpdate.guard, hst]
          have hstored : s'.db.Stored t.id := by
            rw [hs', hid']
            exact ⟨_, (Db.mem_insertResult hfind).2 (.inr rfl), rfl⟩
          rw [(h t hkept).1 hstored] at hst
          cases hst
      · simp at hlate
  · simp at hlate

/-- Results and statuses agree in every run without a late success; and a step from a reachable
    state where they agree keeps them in agreement exactly when it is no late success. -/
theorem result_iff_completed :
    (∀ s, (queueMode cfg).Reachable (fun s ev => lateSuccess s ev = false) s → s.db.Agrees) ∧
    ∀ s ev s', (queueMode cfg).Reachable anyEvent s → s.db.Agrees →
      (queueMode cfg).step s ev = some s' → (s'.db.Agrees ↔ lateSuccess s ev = false) := by
  refine ⟨fun s h => ?_, fun s ev s' hr h hs => ⟨fun h' => ?_, fun hlate => ?_⟩⟩
  · exact h.invariant (I := fun s => s.db.Agrees) (by simp [Db.Agrees, queueMode])
      fun s ev s' hr hi hE hs => agrees_step (reachable_inv hr) hi hE hs
  · by_contra hne
    exact not_agrees_step (by simpa using hne) hs h'
  · exact agrees_step (reachable_inv hr) h hlate hs

theorem result_iff_completed_fallback :
    ∃ s, (queueMode (fallbackConfig {})).Reachable (fun s ev => lateSuccess s ev = false) s ∧
      s.db.Agrees ∧ ∃ t ∈ s.db.tasks, t.status = .completed := by
  obtain ⟨s, hs, hcheck⟩ := (queueMode (fallbackConfig {})).exists_reachable
    (E := fun s ev => lateSuccess s ev = false) (fun s ev => !lateSuccess s ev)
    (fun s => s.db.tasks.rows.any fun t => t.status = .completed) completionSchedule (by simp)
    (by decide +kernel)
  exact ⟨s, hs, result_iff_completed.1 s hs, by simpa [Table.mem_def] using hcheck⟩

/-- A worker claims a task and its agent runs; its lease expires, and without retries the reaper
    dead-letters the task; then the agent returns. -/
def lateSuccessSchedule : List Event :=
  .createExecution "q" 0 :: runs 0 1 { now := 0 } ++ .dequeue :: runs 1 16 { now := 0 } ++
    .dequeue :: runs 2 8 { now := 0 } ++ .recoverStaleTasks :: runs 3 3 { now := 100 } ++
    runs 2 2 { now := 101 }

/-- A FAILED task can carry a result. -/
theorem failed_task_with_result :
    ∃ s, (queueMode (fallbackConfig (singleTask 0))).Reachable anyEvent s ∧
      (∃ t ∈ s.db.tasks, t.status = .failed ∧ s.db.Stored t.id) ∧ ¬ s.db.Agrees := by
  obtain ⟨s, hs, hcheck⟩ := (queueMode (fallbackConfig (singleTask 0))).exists_reachable
    (E := anyEvent) (fun _ _ => true)
    (fun s => s.db.tasks.rows.any fun t =>
      t.status = .failed && s.db.results.rows.any fun r => r.taskId = t.id)
    lateSuccessSchedule (fun _ _ _ => trivial) (by decide +kernel)
  obtain ⟨t, ht, hst, hr⟩ : ∃ t ∈ s.db.tasks.rows, t.status = .failed ∧
      ∃ r ∈ s.db.results.rows, r.taskId = t.id := by
    simpa using hcheck
  refine ⟨s, hs, ⟨t, ht, hst, hr⟩, fun h => ?_⟩
  rw [(h t ht).1 hr] at hst
  cases hst

end AgenticExecution
