import AgenticExecution.InlineRuns

set_option autoImplicit false

/-! # Inline mode and queue mode agree

Both modes come to what `Modes` compares: an inline run leaves the answers of the agents one after
another, and an orderly run of the queue leaves the fates of the plan. The queue reports a task FAILED
where inline mode leaves it PENDING, and counts attempts, but outputs, tokens and the outcome of the
execution are read off the answers alone. -/

namespace AgenticExecution

variable {cfg : Config} {g : Answering} {e : ExecutionId} {s : State} {plan : Plan}
  {trace : List (State × Event)}

/-- The stored outputs of the execution's tasks, in their order. -/
def Db.outputs (db : Db) (e : ExecutionId) : List (Option String) :=
  (db.tasksOf e).map fun t => (db.results.find? t.id).map TaskResult.output

theorem Db.outputs_eq (db : Db) (e : ExecutionId) :
    db.outputs e = (db.reports e).map fun p => p.2.output := by
  rw [outputs, reports, List.map_map]
  rfl

/-- The event runs the agent of the execution's task at the position, with the context. -/
def calls (e : ExecutionId) (p : State × Event) : Option (Int × String) :=
  match p.2 with
  | .run hid _ =>
    match p.1.live? hid with
    | some (.agentRun task context) =>
      if task.executionId = e then some (task.orderIndex, context) else none
    | _ => none
  | _ => none

theorem calls_eq_some {p : State × Event} {c : Int × String} (h : calls e p = some c) :
    ∃ task context, (.agentRun task context : Pc) ∈ p.1.handlers ∧ task.executionId = e ∧
      c = (task.orderIndex, context) := by
  unfold calls at h
  split at h
  · next hid o hev =>
      split at h
      · next task context hlive =>
          split at h
          · next he =>
              obtain rfl := Option.some.inj h
              exact ⟨task, context, List.mem_of_getElem? (State.live?_eq_some hlive).1, he, rfl⟩
          · cases h
      · cases h
  · cases h

/-- In an orderly run that finishes the execution, every agent gets the context the fates of the earlier
    tasks give. -/
theorem orderly_calls {agent : Agents} (h : (queueMode cfg).Run (Orderly cfg agent e) trace s)
    (hplans : s.db.Plans e plan) {x : Execution} (hx : x ∈ s.db.executions) (hid : x.id = e)
    (hfin : x.status.isTerminal = true) {c : Int × String} (hc : c ∈ trace.filterMap (calls e)) :
    ∃ (i : Nat) (subtask : PlannedSubtask), c.1 = i ∧ plan.subtasks[i]? = some subtask ∧
      contextOf? ((fates agent cfg.settings.taskMaxRetries.toNat plan.subtasks).take i)
        subtask.dependsOn = some c.2 := by
  obtain ⟨⟨u, ev⟩, hmem, hcall⟩ := List.mem_filterMap.1 hc
  obtain ⟨task, context, hpc, he, rfl⟩ := calls_eq_some hcall
  have hreach := (h.mem_trace hmem).1
  have hle := path_le hreach (h.path_of_mem hmem)
  obtain ⟨⟨-, hread⟩, hcontext⟩ := (reachable_inv hreach).knows _ hpc
  obtain ⟨t, ht, htask⟩ := hread.mono hle
  -- the row of the task at the end of the run
  have hconcluded := (orderly_concluded h hplans hx hid hfin).1
  obtain ⟨i, hi⟩ := List.mem_iff_getElem?.1 (Db.mem_tasksOf.2 ⟨ht, htask.executionId.trans he⟩)
  obtain ⟨hidx, hsub⟩ := hplans.row hi
  have hrow : s.db.IsContext t context := by
    obtain ⟨parts, rfl, hparts⟩ := hcontext.mono hle
    refine ⟨parts, rfl, ?_⟩
    rw [htask.executionId, htask.dependsOn]
    exact hparts
  exact ⟨i, t.subtask, htask.orderIndex ▸ hidx, hsub, (hconcluded.contextOf?_fates hi).2 hrow⟩

/-- Agents that ignore the context all answer in queue mode when they do in inline mode. -/
theorem Answering.Ignores.all_eq (h : g.Ignores) (plan : Plan) (retries : Nat) :
    (((fates g.agents retries plan.subtasks).map answerOf).all fun q => q.2.isSome) =
      (answers g plan.subtasks).all fun q => q.2.isSome := by
  rw [Bool.eq_iff_iff, List.all_eq_true, List.all_eq_true, h.all_fates plan.backward, h.all_answers]

/-- And then the answers are the same. -/
theorem Answering.Ignores.fates_eq_answers (h : g.Ignores) {plan : Plan} {retries : Nat}
    (hall : (((fates g.agents retries plan.subtasks).map answerOf).all fun q => q.2.isSome) = true) :
    (fates g.agents retries plan.subtasks).map answerOf = answers g plan.subtasks := by
  have hanswered := (h.all_fates plan.backward).1 (List.all_eq_true.1 hall)
  rw [h.fates_eq plan.backward hanswered, h.answers_eq hanswered]

/-- With the same agents, an inline run and a queue run of one plan agree: in everything that is recorded
    and in the contexts if every task depends on all earlier ones; in the status, and if it is COMPLETED in
    everything that is recorded, if the agents ignore the context. The queue run is any orderly one that
    finishes the execution; the inline run, which may have other settings, is on any database that
    respects the foreign keys. -/
theorem modes_agree (hqueue : (queueMode cfg).Run (Orderly cfg g.agents e) trace s)
    (hplans : s.db.Plans e plan) {x : Execution} (hx : x ∈ s.db.executions) (hid : x.id = e)
    (hfin : x.status.isTerminal = true) {cfg' : Config} {o : Inline.Oracle} {db : Db}
    {userRequest text : String} (hkeys : db.ForeignKeys) (hllm : o.llm = .ok text)
    (hplan : planOf cfg' (strip userRequest) text = plan) (hanswers : o.Answers g) {r : Inline.Run}
    (hinline : Inline.createExecution cfg' o db userRequest = r) {y : Execution}
    (hy : y ∈ r.db.executions) (hyid : y.id = db.executions.fresh) :
    (Chained plan.subtasks → x.status = y.status ∧ x.finalResult = y.finalResult ∧
      x.totalTokens = y.totalTokens ∧ s.db.outputs e = r.db.outputs y.id ∧
      ∀ c ∈ trace.filterMap (calls e), ∀ c' ∈ r.calls, c.1 = c'.1 → c.2 = c'.2) ∧
    (g.Ignores → x.status = y.status ∧ (x.status = .completed → x.finalResult = y.finalResult ∧
      x.totalTokens = y.totalTokens ∧ s.db.outputs e = r.db.outputs y.id)) := by
  obtain ⟨hreports, hout⟩ := orderly_outcome hqueue hplans hx hid hfin
  have hleft : Inline.Left g db.executions.fresh plan.subtasks r :=
    hplan ▸ hinline ▸ Inline.createExecution_left hkeys hllm hanswers
  -- both modes record the outcome and the outputs of some answers
  have hqueueTells : Tell (s.db.reports e)
      ((fates g.agents cfg.settings.taskMaxRetries.toNat plan.subtasks).map answerOf) :=
    hreports ▸ tell_fates _
  have hqueueOutcome := hout.trans (hqueueTells.outcome_eq x.userRequest)
  have hqueueOutputs := (s.db.outputs_eq e).trans hqueueTells.outputs_eq
  have hinlineOutcome : y.outcome = answersOutcome y.userRequest (answers g plan.subtasks) := by
    obtain ⟨y', hy', hyid', hout'⟩ := hleft.outcome
    rw [Table.eq_of_key_eq hy hy' (hyid.trans hyid'.symm), hout']
  have hinlineOutputs : r.db.outputs y.id =
      (answers g plan.subtasks).map fun q => q.2.map AgentResult.text := by
    rw [hyid, Db.outputs_eq, hleft.tells.outputs_eq]
  -- so it is enough to compare the answers
  have hsame : (fates g.agents cfg.settings.taskMaxRetries.toNat plan.subtasks).map answerOf =
      answers g plan.subtasks → x.outcome = y.outcome ∧ s.db.outputs e = r.db.outputs y.id := by
    intro heq
    rw [hqueueOutcome, hinlineOutcome, hqueueOutputs, hinlineOutputs, heq]
    exact ⟨rfl, rfl⟩
  refine ⟨fun hchained => ?_, fun hignores => ?_⟩
  · obtain ⟨houtcome, houtputs⟩ := hsame hchained.fates_eq
    refine ⟨congrArg Outcome.status houtcome, congrArg Outcome.finalResult houtcome,
      congrArg Outcome.totalTokens houtcome, houtputs, fun c hc c' hc' hidx => ?_⟩
    obtain ⟨i, subtask, hi, hsub, hcontext⟩ := orderly_calls hqueue hplans hx hid hfin hc
    obtain ⟨j, -, hj, hcontext'⟩ := hleft.calls c' hc'
    obtain rfl : i = j := by omega
    rw [hchained.contextOf?_take hsub, hcontext', Option.some.injEq] at hcontext
    exact hcontext.symm
  · have hstatus : x.status = y.status := by
      have hx' := congrArg Outcome.status hqueueOutcome
      have hy' := congrArg Outcome.status hinlineOutcome
      rw [answersOutcome, hignores.all_eq] at hx'
      exact hx'.trans hy'.symm
    refine ⟨hstatus, fun hcompleted => ?_⟩
    -- a COMPLETED execution has an answer for every task
    have hall : (((fates g.agents cfg.settings.taskMaxRetries.toNat plan.subtasks).map answerOf).all
        fun q => q.2.isSome) = true := by
      by_contra hsome
      have hx' := congrArg Outcome.status hqueueOutcome
      rw [answersOutcome, if_neg hsome] at hx'
      cases hcompleted.symm.trans hx'
    obtain ⟨houtcome, houtputs⟩ := hsame (hignores.fates_eq_answers hall)
    exact ⟨congrArg Outcome.finalResult houtcome, congrArg Outcome.totalTokens houtcome, houtputs⟩

/-! ## A chain of two tasks -/

/-- The planning model always answers with two subtasks, the second one after the first. -/
def chainConfig : Config where
  settings := {}
  python :=
    { loads := fun _ => some (.arr
        [.obj [("agent_type", .str "research"), ("description", .str "a")],
          .obj [("agent_type", .str "analysis"), ("description", .str "b"),
            ("depends_on", .arr [.int 0])]])
      repr := fun _ => "" }

/-- Every answer extends the context. -/
def extendingAgents : Answering := fun _ _ context => some ⟨context ++ "+", 1, 0⟩

/-- An inline run at time 0 whose agents answer as `g` says. -/
def Inline.answering (g : Answering) : Inline.Oracle where
  createdAt := 0
  planningAt := 0
  llm := .ok "plan"
  insertedAt := 0
  started := 0
  runningAt := 0
  task := fun _ =>
    { started := 0
      runningAt := 0
      now := 0
      finishedAt := 0
      agent := fun agentType description context =>
        match g agentType description context with
        | some result =>
          .ok { text := result.text, totalTokens := result.totalTokens, toolCalls := result.toolCalls }
        | none => .error { typeName := "E", message := "" } }
  order := []
  now := 0
  finishedAt := 0

theorem Inline.answering_answers (g : Answering) : (Inline.answering g).Answers g := by
  intro i agentType description context
  simp only [Inline.answering]
  cases g agentType description context <;> rfl

theorem Db.foreignKeys_empty : ({} : Db).ForeignKeys := ⟨by simp, by simp⟩

/-- Three tasks in a row, taken to the end. -/
def chainSchedule : List Event :=
  .createExecution "q" 0 :: runs 0 1 { now := 0 } ++
    .dequeue :: runs 1 19 { now := 0, llm := .ok "plan" } ++ .dequeue :: runs 2 22 (answering 0 "+" 1) ++
    .dequeue :: runs 3 23 (answering 0 "[research] ++" 1)

theorem modes_agree_chain :
    ∃ trace s x y, (queueMode chainConfig).Run (Orderly chainConfig extendingAgents.agents 1) trace s ∧
      x ∈ s.db.executions ∧ x.status = .completed ∧
      y ∈ (Inline.createExecution chainConfig (Inline.answering extendingAgents) {} "q").db.executions ∧
      (Inline.createExecution chainConfig (Inline.answering extendingAgents) {} "q").calls =
        [(0, ""), (1, "[research] +")] ∧
      x.status = y.status ∧ x.finalResult = y.finalResult ∧ x.totalTokens = y.totalTokens := by
  let plan := planOf chainConfig (strip "q") "plan"
  obtain ⟨trace, s, hrun, hcheck⟩ := (queueMode chainConfig).exists_run
    (E := Orderly chainConfig extendingAgents.agents 1) (orderly extendingAgents.agents 1)
    (fun _ s => finishedPlan plan s && s.db.executions.rows.all fun x => x.status = .completed)
    chainSchedule (fun _ _ hE => orderly_of_check hE) (by decide +kernel)
  obtain ⟨hfinished, hcompleted⟩ := Bool.and_eq_true_iff.1 hcheck
  obtain ⟨hplans, x, hx, hid, hfin⟩ := finishedPlan_spec hfinished
  have hchained : Chained plan.subtasks := by decide +kernel
  have hleft : Inline.Left extendingAgents _ plan.subtasks
      (Inline.createExecution chainConfig (Inline.answering extendingAgents) {} "q") :=
    Inline.createExecution_left Db.foreignKeys_empty rfl (Inline.answering_answers extendingAgents)
  obtain ⟨y, hy, hyid, -⟩ := hleft.outcome
  obtain ⟨hstatus, hresult, htokens, -⟩ := (modes_agree hrun hplans hx hid hfin Db.foreignKeys_empty
    rfl rfl (Inline.answering_answers extendingAgents) rfl hy hyid).1 hchained
  exact ⟨trace, s, x, y, hrun, hx, by simpa using List.all_eq_true.1 hcompleted x hx, hy,
    by decide +kernel, hstatus, hresult, htokens⟩

/-! ## An expired lease counts as a failed attempt -/

/-- Every agent answers at once. -/
def readyAgents : Answering := fun _ _ _ => some ⟨"+", 1, 0⟩

/-- A worker has claimed the only task when the reaper takes it for lost; then its agent answers. -/
def expiredLease : List Event :=
  .createExecution "q" 0 :: runs 0 1 { now := 0 } ++ .dequeue :: runs 1 16 { now := 0 } ++
    .dequeue :: runs 2 8 { now := 0 } ++ .recoverStaleTasks :: runs 3 12 { now := 100 } ++
    runs 2 9 (answering 101 "+" 1)

/-- Without retries, an expired lease makes the modes differ though the agents always answer. -/
theorem modes_differ_after_expiry :
    ∃ trace s x y, (queueMode (fallbackConfig (singleTask 0))).Run
        (fun s ev => Uninterrupted s ev ∧ Answers readyAgents.agents 1 s ev) trace s ∧
      s.db.Plans 1 (planOf (fallbackConfig (singleTask 0)) (strip "q") "plan") ∧
      Chained (planOf (fallbackConfig (singleTask 0)) (strip "q") "plan").subtasks ∧
      x ∈ s.db.executions ∧ x.id = 1 ∧ x.status = .failed ∧
      (Inline.answering readyAgents).Answers readyAgents ∧
      y ∈ (Inline.createExecution (fallbackConfig (singleTask 0)) (Inline.answering readyAgents) {}
        "q").db.executions ∧ y.id = 1 ∧ y.status = .completed := by
  let plan := planOf (fallbackConfig (singleTask 0)) (strip "q") "plan"
  obtain ⟨trace, s, hrun, hcheck⟩ := (queueMode (fallbackConfig (singleTask 0))).exists_run
    (E := fun s ev => Uninterrupted s ev ∧ Answers readyAgents.agents 1 s ev)
    (answersAs readyAgents.agents 1)
    (fun _ s => finishedPlan plan s && s.db.executions.rows.all fun x => x.status = .failed)
    expiredLease (fun _ _ hE => answersAs_spec hE) (by decide +kernel)
  obtain ⟨hfinished, hfailed⟩ := Bool.and_eq_true_iff.1 hcheck
  obtain ⟨hplans, x, hx, hid, -⟩ := finishedPlan_spec hfinished
  have hinline : (Inline.createExecution (fallbackConfig (singleTask 0)) (Inline.answering readyAgents) {}
      "q").db.executions.rows.any (fun y => y.id = 1 && y.status = .completed) = true := by
    decide +kernel
  obtain ⟨y, hy, hcompleted⟩ := List.any_eq_true.1 hinline
  obtain ⟨hyid, hyst⟩ : y.id = 1 ∧ y.status = .completed := by simpa using hcompleted
  exact ⟨trace, s, x, y, hrun, hplans, by decide +kernel, hx, hid,
    by simpa using List.all_eq_true.1 hfailed x hx, Inline.answering_answers readyAgents, hy, hyid, hyst⟩

end AgenticExecution
