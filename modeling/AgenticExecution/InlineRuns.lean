import AgenticExecution.Confluence
import AgenticExecution.Inline
import AgenticExecution.Modes

set_option autoImplicit false

/-! # What an inline run leaves

The loop of `SequentialExecutor.execute` runs the tasks in the order of the plan, so after some tasks
the rows of these tell the answers of their agents, and the others are as they were planned. After a
failure the rest stays that way: an answer that was never asked for. -/

namespace AgenticExecution

variable {g : Answering} {e : ExecutionId} {db db' : Db}
  {done : List (PlannedSubtask × Option AgentResult)}

/-! ## Rows -/

namespace Db

/-- The task has a row. -/
def HasTask (db : Db) (tid : TaskId) : Prop := ∃ t ∈ db.tasks, t.id = tid

/-- The foreign keys of the schema. -/
structure ForeignKeys (db : Db) : Prop where
  execution : ∀ t ∈ db.tasks, db.Submitted t.executionId
  task : ∀ r ∈ db.results, db.HasTask r.taskId

/-- The row has this subtask, and tells this answer of its agent. -/
def RowTells (db : Db) (t : Task) (q : PlannedSubtask × Option AgentResult) : Prop :=
  t.subtask = q.1 ∧ (db.report t).Tells q.2

/-- Only the results of the task matter. -/
theorem RowTells.congr {t : Task} {q : PlannedSubtask × Option AgentResult} (h : db.RowTells t q)
    (hresults : db'.results.find? t.id = db.results.find? t.id) : db'.RowTells t q := by
  have hreport : db'.report t = db.report t := by rw [report, report, hresults]
  exact ⟨h.1, hreport ▸ h.2⟩

theorem find?_insertResult (db : Db) {result : TaskResult} {tid : TaskId}
    (hnew : db.results.find? result.taskId = none) :
    (db.insertResult result).results.find? tid =
      if tid = result.taskId then some result else db.results.find? tid := by
  split
  · next h => exact Table.find?_eq_some_iff.2 ⟨(mem_insertResult hnew).2 (.inr rfl), h.symm⟩
  · next h =>
      refine Option.ext fun r => ?_
      rw [Table.find?_eq_some_iff, Table.find?_eq_some_iff, mem_insertResult hnew]
      constructor
      · rintro ⟨hr | rfl, hid⟩
        · exact ⟨hr, hid⟩
        · exact absurd hid.symm h
      · rintro ⟨hr, hid⟩
        exact ⟨.inl hr, hid⟩

theorem mem_saveExecution {x : Execution} {f : Execution → Execution} (hf : ∀ x, (f x).id = x.id)
    (hx : x ∈ db.executions) (hid : x.id = e) : f x ∈ (db.saveExecution e f hf).executions := by
  have hmem := Table.update_mem (p := fun _ => true) hf (k := e) hx
  rw [if_pos ⟨hid, rfl⟩] at hmem
  exact hmem

/-- The row of the task at hand is rewritten in its place. -/
theorem tasksOf_saveTask (db : Db) {ended rest : List Task} {task : Task} {f : Task → Task}
    (h : db.tasksOf e = ended ++ task :: rest) (hid : ∀ t, (f t).id = t.id)
    (hexec : ∀ t, (f t).executionId = t.executionId) {tid : TaskId} (htid : task.id = tid) :
    (db.saveTask tid f hid).tasksOf e = ended ++ f task :: rest := by
  have hnodup := db.tasksOf_nodup e
  rw [h] at hnodup
  rw [saveTask, db.tasksOf_update hid hexec, h]
  exact Table.map_update_middle hnodup htid rfl

end Db

namespace Inline

variable {p : Progress} {rest : List Task} {task : Task} {o : TaskOracle}

/-- The agents of the run answer as `g` says. -/
def Oracle.Answers (o : Oracle) (g : Answering) : Prop :=
  ∀ i agentType description context,
    agentResult? ((o.task i).agent agentType description context) = g agentType description context

/-- The loop has run the tasks up to `rest`, with the answers `done`. -/
structure Running (e : ExecutionId) (done : List (PlannedSubtask × Option AgentResult))
    (rest : List Task) (p : Progress) : Prop where
  rows : ∃ ended, p.db.tasksOf e = ended ++ rest ∧ List.Forall₂ p.db.RowTells ended done
  planned : ∀ t ∈ rest, p.db.RowTells t (t.subtask, none)
  positions : ∀ (i : Nat) t, rest[i]? = some t → t.orderIndex = done.length + i
  completed : p.allCompleted = done.all fun q => q.2.isSome
  outcomes : p.allCompleted = true → p.outcomes = done.map answerOutcome
  contextParts : p.allCompleted = true → done.mapM answerPart? = some p.contextParts
  calls : ∀ c ∈ p.calls, ∃ i < done.length, c.1 = i ∧ contextAfter? (done.take i) = some c.2

/-- The answer of the task's agent in the context so far. -/
def answer (o : TaskOracle) (p : Progress) (task : Task) : Option AgentResult :=
  agentResult? (o.agent task.agentType task.description (join "\n\n" p.contextParts))

/-- One iteration rewrites the row of its task, which then tells the answer, and stores no result of
    another task. -/
theorem runTask_db {ended : List Task} (hrows : p.db.tasksOf e = ended ++ task :: rest)
    (hplanned : p.db.RowTells task (task.subtask, none)) :
    (∃ task', (runTask o p task).db.tasksOf e = ended ++ task' :: rest ∧
      (runTask o p task).db.RowTells task' (task.subtask, answer o p task)) ∧
      ∀ tid, tid ≠ task.id → (runTask o p task).db.results.find? tid = p.db.results.find? tid := by
  obtain ⟨-, -, houtput, htokens⟩ := hplanned
  have hnew : p.db.results.find? task.id = none := by simpa [Db.report] using houtput
  have hstarted := p.db.tasksOf_saveTask (f := started o) hrows (fun _ => rfl) (fun _ => rfl) rfl
  cases hagent : o.agent task.agentType task.description (join "\n\n" p.contextParts) with
  | ok output =>
      -- the row is written twice, with the insert in between
      have hdb : (runTask o p task).db = ((p.db.saveTask task.id (started o)).insertResult
          ⟨task.id, output.text⟩).saveTask task.id (completed o output) := by
        simp only [runTask, hagent]
      have hfind : ∀ tid, (runTask o p task).db.results.find? tid =
          if tid = task.id then some ⟨task.id, output.text⟩ else p.db.results.find? tid := by
        intro tid
        rw [hdb]
        exact (p.db.saveTask task.id (started o)).find?_insertResult hnew
      refine ⟨⟨completed o output (started o task), ?_, rfl, ?_⟩, fun tid hne => ?_⟩
      · rw [hdb]
        exact Db.tasksOf_saveTask _ (f := completed o output) hstarted (fun _ => rfl) (fun _ => rfl) rfl
      · rw [answer, hagent]
        refine ⟨rfl, ?_, rfl⟩
        show ((runTask o p task).db.results.find? task.id).map TaskResult.output = _
        rw [hfind, if_pos rfl]
        rfl
      · rw [hfind, if_neg hne]
  | error exc =>
      have hdb : (runTask o p task).db =
          (p.db.saveTask task.id (started o)).saveTask task.id (failed o exc) := by
        simp only [runTask, hagent]
      rw [hdb, answer, hagent]
      have hrows' := Db.tasksOf_saveTask _ (f := failed o exc) hstarted (fun _ => rfl) (fun _ => rfl) rfl
      refine ⟨⟨failed o exc (started o task), hrows', rfl, ?_, houtput, htokens⟩, fun tid _ => rfl⟩
      show TaskStatus.failed ≠ .completed
      simp

theorem runTask_calls :
    (runTask o p task).calls = p.calls ++ [(task.orderIndex, join "\n\n" p.contextParts)] := by
  unfold runTask
  dsimp only
  split <;> rfl

theorem runTask_allCompleted (h : p.allCompleted = true) :
    (runTask o p task).allCompleted = (answer o p task).isSome := by
  rw [answer]
  cases hagent : o.agent task.agentType task.description (join "\n\n" p.contextParts) with
  | ok output =>
      simp only [runTask, hagent, h]
      rfl
  | error exc =>
      simp only [runTask, hagent]
      rfl

/-- The locals of an iteration whose agent answered. -/
theorem runTask_answered {result : AgentResult} (h : answer o p task = some result) :
    (runTask o p task).outcomes = p.outcomes ++ [answerOutcome (task.subtask, some result)] ∧
      (runTask o p task).contextParts =
        p.contextParts ++ ["[" ++ task.agentType.value ++ "] " ++ result.text] := by
  rw [answer] at h
  cases hagent : o.agent task.agentType task.description (join "\n\n" p.contextParts) with
  | ok output =>
      rw [hagent] at h
      obtain rfl := Option.some.inj h
      simp only [runTask, hagent, and_true]
      rfl
  | error exc =>
      rw [hagent] at h
      cases h

namespace Running

/-- As long as no task failed, the context is made of all outputs. -/
theorem contextAfter?_eq (h : Running e done rest p) (hgoing : p.allCompleted = true) :
    contextAfter? done = some (join "\n\n" p.contextParts) := by
  rw [contextAfter?, h.contextParts hgoing, Option.map_some]

theorem answer_eq (h : Running e done rest p) (hgoing : p.allCompleted = true)
    (hanswers : ∀ agentType description context,
      agentResult? (o.agent agentType description context) = g agentType description context) :
    answer o p task = answerAfter g done task.subtask := by
  rw [answer, hanswers, answerAfter, h.contextAfter?_eq hgoing]
  rfl

/-- One iteration. -/
theorem step (h : Running e done (task :: rest) p) (hgoing : p.allCompleted = true)
    (hanswers : ∀ agentType description context,
      agentResult? (o.agent agentType description context) = g agentType description context) :
    Running e (done ++ [(task.subtask, answerAfter g done task.subtask)]) rest (runTask o p task) := by
  obtain ⟨ended, hrows, htells⟩ := h.rows
  obtain ⟨⟨task', hrows', htask'⟩, hresults⟩ :=
    runTask_db (o := o) hrows (h.planned task List.mem_cons_self)
  have hanswer : answer o p task = answerAfter g done task.subtask := h.answer_eq hgoing hanswers
  have hnodup := p.db.tasksOf_nodup e
  rw [hrows, List.map_append, List.map_cons] at hnodup
  -- the other rows tell what they told
  have hother : ∀ t q, t ∈ ended ++ rest → p.db.RowTells t q → (runTask o p task).db.RowTells t q := by
    intro t q ht hq
    refine hq.congr (hresults t.id fun hid => ?_)
    have hmiddle := List.nodup_middle.1 hnodup
    rw [List.nodup_cons, ← List.map_append] at hmiddle
    exact hmiddle.1 (List.mem_map.2 ⟨t, ht, hid⟩)
  constructor
  case rows =>
    refine ⟨ended ++ [task'], by rw [hrows', List.append_assoc, List.singleton_append], ?_⟩
    refine List.rel_append ?_ (List.Forall₂.cons (hanswer ▸ htask') .nil)
    have hboth := (List.forall₂_and_left _ _).2 ⟨fun t ht => ht, htells⟩
    exact hboth.imp fun t q ⟨ht, hq⟩ => hother t q (List.mem_append_left _ ht) hq
  case planned =>
    intro t ht
    exact hother t _ (List.mem_append_right _ ht) (h.planned t (List.mem_cons_of_mem _ ht))
  case positions =>
    intro i t hi
    have := h.positions (i + 1) t hi
    rw [this, List.length_append, List.length_singleton]
    omega
  case completed =>
    rw [runTask_allCompleted hgoing, hanswer, List.all_append, ← h.completed, hgoing]
    simp
  case outcomes =>
    intro hall
    rw [runTask_allCompleted hgoing] at hall
    obtain ⟨result, hresult⟩ := Option.isSome_iff_exists.1 hall
    rw [(runTask_answered hresult).1, h.outcomes hgoing, List.map_append, List.map_singleton, ← hanswer,
      hresult]
  case contextParts =>
    intro hall
    rw [runTask_allCompleted hgoing] at hall
    obtain ⟨result, hresult⟩ := Option.isSome_iff_exists.1 hall
    rw [(runTask_answered hresult).2, List.mapM_append, h.contextParts hgoing, ← hanswer, hresult]
    rfl
  case calls =>
    intro c hc
    rw [runTask_calls, List.mem_append, List.mem_singleton] at hc
    rw [List.length_append, List.length_singleton]
    rcases hc with hc | rfl
    · obtain ⟨i, hi, hidx, hcontext⟩ := h.calls c hc
      refine ⟨i, by omega, hidx, ?_⟩
      rw [List.take_append_of_le_length (Nat.le_of_lt hi), hcontext]
    · -- the call of this iteration, in the context made of all of `done`
      refine ⟨done.length, by omega, by simpa using h.positions 0 task rfl, ?_⟩
      rw [List.take_append_of_le_length (Nat.le_refl _), List.take_length, h.contextAfter?_eq hgoing]

/-- Once a task failed, no agent answers. -/
theorem answerAfter_eq_none (h : Running e done rest p) (hfailed : p.allCompleted = false)
    (subtask : PlannedSubtask) : answerAfter g done subtask = none := by
  have hnone : done.mapM answerPart? = none := by
    by_contra hsome
    have hall := InOrder.isSome_mapM.1 (Option.isSome_iff_ne_none.2 hsome)
    have htrue : (done.all fun q => q.2.isSome) = true :=
      List.all_eq_true.2 fun q hq => by simpa [answerPart?] using hall q hq
    rw [← h.completed, hfailed] at htrue
    cases htrue
  rw [answerAfter, contextAfter?, hnone]
  rfl

/-- A task after the failed one stays as it was planned. -/
theorem skip (h : Running e done (task :: rest) p) (hfailed : p.allCompleted = false) :
    Running e (done ++ [(task.subtask, none)]) rest p := by
  obtain ⟨ended, hrows, htells⟩ := h.rows
  constructor
  case rows =>
    refine ⟨ended ++ [task], by rw [hrows, List.append_assoc, List.singleton_append], ?_⟩
    exact List.rel_append htells (.cons (h.planned task List.mem_cons_self) .nil)
  case planned =>
    intro t ht
    exact h.planned t (List.mem_cons_of_mem _ ht)
  case positions =>
    intro i t hi
    have := h.positions (i + 1) t hi
    rw [this, List.length_append, List.length_singleton]
    omega
  case completed => simp [hfailed]
  case outcomes =>
    intro hall
    simp [hfailed] at hall
  case contextParts =>
    intro hall
    simp [hfailed] at hall
  case calls =>
    intro c hc
    obtain ⟨i, hi, hidx, hcontext⟩ := h.calls c hc
    refine ⟨i, by rw [List.length_append, List.length_singleton]; omega, hidx, ?_⟩
    rw [List.take_append_of_le_length (Nat.le_of_lt hi), hcontext]

/-- The loop stops at a failure: the other tasks have no answer. -/
theorem stop (h : Running e done rest p) (hfailed : p.allCompleted = false) :
    Running e (InOrder.evalFrom (fun done subtask => (subtask, answerAfter g done subtask)) done
      (rest.map Task.subtask)) [] p := by
  induction rest generalizing done with
  | nil => exact h
  | cons task rest ih =>
      rw [List.map_cons, InOrder.evalFrom_cons, h.answerAfter_eq_none hfailed]
      exact ih (h.skip hfailed)

/-- The whole loop. -/
theorem execute {oracle : Nat → TaskOracle} (hanswers : ∀ i agentType description context,
      agentResult? ((oracle i).agent agentType description context) = g agentType description context)
    (i : Nat) (h : Running e done rest p) (hgoing : p.allCompleted = true) :
    Running e (InOrder.evalFrom (fun done subtask => (subtask, answerAfter g done subtask)) done
      (rest.map Task.subtask)) [] (execute oracle i p rest) := by
  -- on the tasks that are left; `done` and the locals grow with every iteration
  induction rest generalizing done p i with
  | nil => exact h
  | cons task rest ih =>
      have hstep := h.step hgoing (hanswers i)
      rw [Inline.execute, List.map_cons, InOrder.evalFrom_cons]
      split
      · next hnext => exact ih (i + 1) hstep hnext
      · next hnext => exact hstep.stop (by simpa using hnext)

end Running

theorem runTask_executions : (runTask o p task).db.executions = p.db.executions := by
  unfold runTask
  dsimp only
  split <;> rfl

theorem execute_executions {oracle : Nat → TaskOracle} (i : Nat) :
    (execute oracle i p rest).db.executions = p.db.executions := by
  induction rest generalizing p i with
  | nil => rfl
  | cons task rest ih =>
      rw [execute]
      split
      · rw [ih, runTask_executions]
      · exact runTask_executions

/-! ## The whole run -/

/-- The run left the answers of the agents, the outcome they give, and called each agent with the outputs
    of all tasks before it. -/
structure Left (g : Answering) (e : ExecutionId) (subtasks : List PlannedSubtask) (r : Run) : Prop where
  tells : Tell (r.db.reports e) (answers g subtasks)
  outcome : ∃ x ∈ r.db.executions, x.id = e ∧
    x.outcome = answersOutcome x.userRequest (answers g subtasks)
  calls : ∀ c ∈ r.calls, ∃ i < subtasks.length, c.1 = i ∧
    contextAfter? ((answers g subtasks).take i) = some c.2

theorem length_answers (subtasks : List PlannedSubtask) :
    (answers g subtasks).length = subtasks.length := InOrder.length_eval subtasks

theorem Running.tells {subtasks : List PlannedSubtask} (h : Running e (answers g subtasks) [] p) :
    Tell (p.db.reports e) (answers g subtasks) := by
  obtain ⟨ended, hrows, htells⟩ := h.rows
  rw [List.append_nil] at hrows
  rw [Tell, Db.reports, hrows, List.forall₂_map_left_iff]
  exact htells

theorem finish_userRequest (o : Oracle) (result : Progress) (tasks : List Task) (x : Execution) :
    (finish o result tasks x).userRequest = x.userRequest := by
  unfold finish
  split <;> rfl

/-- `run_execution` records the outcome of the answers. -/
theorem Running.finish_outcome {subtasks : List PlannedSubtask} {order : List Nat} {x : Execution}
    {o : Oracle} (h : Running e (answers g subtasks) [] p) (hx : x.finalResult = none) :
    (finish o p (Table.reorder order (p.db.tasksOf e)) x).outcome =
      answersOutcome x.userRequest (answers g subtasks) := by
  have htokens : sumTokens (Table.reorder order (p.db.tasksOf e)) =
      ((answers g subtasks).map fun q => (q.2.map AgentResult.totalTokens).getD 0).sum := by
    have hperm := (Table.reorder_perm order (p.db.tasksOf e)).map fun t => t.totalTokens.getD 0
    have hsum := h.tells.sum_tokens
    rw [← Db.sumTokens_tasksOf] at hsum
    exact hperm.sum_eq.trans hsum
  rw [answersOutcome, ← h.completed, ← htokens]
  unfold finish
  split
  · next hall => simp [Execution.outcome, h.outcomes hall]
  · next hall => simp [Execution.outcome, hx]

/-- The planned rows are those of an execution that is about to run its first task. -/
theorem running_planned (plan : Plan) (now : Time) (htasks : ¬ db.Planned e)
    (hresults : ∀ r ∈ db.results, db.HasTask r.taskId)
    (hdb : db'.tasksOf e = (db.insertTasks now e plan).tasksOf e) (hres : db'.results = db.results) :
    Running e [] (plan.subtasks.mapIdx (db.plannedTask e now)) { db := db' } := by
  have hrow : ∀ t ∈ plan.subtasks.mapIdx (db.plannedTask e now), db.results.find? t.id = none := by
    intro t ht
    obtain ⟨i, subtask, -, rfl⟩ := Db.mem_plannedRows.1 ht
    refine Table.find?_eq_none_iff.2 fun r hr hid => ?_
    obtain ⟨t, ht, hid'⟩ := hresults r hr
    exact Db.plannedTask_id_ne ht e i subtask (hid.symm.trans hid'.symm)
  constructor
  case rows =>
    refine ⟨[], ?_, .nil⟩
    show db'.tasksOf e = _
    rw [hdb, Db.tasksOf_insertTasks, Db.not_planned_iff.1 htasks, if_pos rfl]
  case planned =>
    intro t ht
    have hfind := hrow t ht
    obtain ⟨i, subtask, -, rfl⟩ := Db.mem_plannedRows.1 ht
    refine ⟨rfl, by simp [Db.report, Db.plannedTask], ?_, rfl⟩
    show (db'.results.find? _).map TaskResult.output = none
    rw [hres, hfind]
    rfl
  case positions =>
    intro i t hi
    rw [List.getElem?_mapIdx, Option.map_eq_some_iff] at hi
    obtain ⟨subtask, -, rfl⟩ := hi
    simp [Db.plannedTask]
  case completed => rfl
  case outcomes => exact fun _ => rfl
  case contextParts => exact fun _ => rfl
  case calls => simp

/-- What a run of a plan leaves of an execution that has no tasks yet. -/
theorem runPlan_left {o : Oracle} {x : Execution} (hmem : x ∈ db.executions) (hid : x.id = e)
    (hfinal : x.finalResult = none) (htasks : ¬ db.Planned e)
    (hresults : ∀ r ∈ db.results, db.HasTask r.taskId) (hanswers : o.Answers g)
    (plan : Plan) : Left g e plan.subtasks (runPlan o db e plan) := by
  let tasks := plan.subtasks.mapIdx (db.plannedTask e o.insertedAt)
  let db' := (db.insertTasks o.insertedAt e plan).saveExecution e (running o)
  let result := execute o.task 0 { db := db' } tasks
  let freshTasks := Table.reorder o.order (result.db.tasksOf e)
  -- the loop
  have hstart : Running e [] tasks { db := db' } :=
    running_planned plan o.insertedAt htasks hresults rfl rfl
  have hsubtasks : tasks.map Task.subtask = plan.subtasks := Db.map_subtask_plannedTask plan
  have hend : Running e (answers g plan.subtasks) [] result := by
    have hloop := hstart.execute hanswers 0 rfl
    rw [hsubtasks, ← InOrder.eval_eq_evalFrom] at hloop
    exact hloop
  -- the row of the execution
  have hrow : running o x ∈ result.db.executions := by
    show _ ∈ (execute o.task 0 { db := db' } tasks).db.executions
    rw [execute_executions]
    exact Db.mem_saveExecution (f := running o) (fun _ => rfl) hmem hid
  have hfinish := Db.mem_saveExecution (finish_id o result freshTasks) hrow hid
  have houtcome : (finish o result freshTasks (running o x)).outcome =
      answersOutcome x.userRequest (answers g plan.subtasks) := hend.finish_outcome hfinal
  refine ⟨hend.tells, ⟨_, hfinish, (finish_id o result freshTasks _).trans hid, ?_⟩, fun c hc => ?_⟩
  · rw [finish_userRequest]
    exact houtcome
  · obtain ⟨i, hi, hc⟩ := hend.calls c hc
    rw [length_answers] at hi
    exact ⟨i, hi, hc⟩

/-- What `run_execution` leaves of an execution that has no tasks yet, once the planner returns. -/
theorem runExecution_left {cfg : Config} {o : Oracle} {x : Execution} {text : String}
    (hx : db.executions.find? e = some x) (hfinal : x.finalResult = none) (htasks : ¬ db.Planned e)
    (hresults : ∀ r ∈ db.results, db.HasTask r.taskId) (hllm : o.llm = .ok text)
    (hanswers : o.Answers g) :
    Left g e (planOf cfg x.userRequest text).subtasks (runExecution cfg o db e) := by
  obtain ⟨hmem, hid⟩ := Table.find?_eq_some_iff.1 hx
  have hplanning := Db.mem_saveExecution (f := planning o) (fun _ => rfl) hmem hid
  have hrun : runExecution cfg o db e =
      runPlan o (db.saveExecution e (planning o)) e (planOf cfg x.userRequest text) := by
    simp only [runExecution, hx, hllm]
  rw [hrun]
  exact runPlan_left hplanning hid hfinal htasks hresults hanswers _

/-- What `create_execution` leaves outside queue mode. -/
theorem createExecution_left {cfg : Config} {o : Oracle} {userRequest text : String}
    (hkeys : db.ForeignKeys) (hllm : o.llm = .ok text) (hanswers : o.Answers g) :
    Left g db.executions.fresh (planOf cfg (strip userRequest) text).subtasks
      (createExecution cfg o db userRequest) := by
  let x := State.newExecution { db := db } userRequest o.createdAt
  have hfind : (db.executions.insertAll [x]).find? x.id = some x :=
    Table.find?_eq_some_iff.2 ⟨(State.mem_createExecution (s := { db := db })).2 (.inr rfl), rfl⟩
  have hempty : ¬ ({ db with executions := db.executions.insertAll [x] } : Db).Planned x.id := by
    rintro ⟨t, ht, he⟩
    obtain ⟨x', hx', hid⟩ := hkeys.execution t ht
    exact Nat.ne_of_lt (Table.key_lt_fresh hx') (hid.trans he)
  have hleft : Left g x.id (planOf cfg x.userRequest text).subtasks
      (runExecution cfg o { db with executions := db.executions.insertAll [x] } x.id) :=
    runExecution_left hfind rfl hempty hkeys.task hllm hanswers
  have hrequest : x.userRequest = strip userRequest := rfl
  rw [hrequest] at hleft
  exact hleft

end Inline

/-! ## Foreign keys

No transaction of inline mode removes a row that another one names, and a database queue mode comes to
is well formed. So the foreign keys hold in every database the program works on. -/

theorem reachable_foreignKeys {cfg : Config} {E : State → Event → Prop} {s : State}
    (h : (queueMode cfg).Reachable E s) : s.db.ForeignKeys where
  execution := (reachable_inv h).wellFormed.owner
  task r hr := ((reachable_inv h).wellFormed.result r hr).imp fun _ ht => ⟨ht.1, ht.2.1⟩

namespace Db

/-- The rows that can be named are still there, and the foreign keys hold if they held. -/
structure KeepsKeys (db db' : Db) : Prop where
  execution : ∀ e, db.Submitted e → db'.Submitted e
  task : ∀ tid, db.HasTask tid → db'.HasTask tid
  keys : db.ForeignKeys → db'.ForeignKeys

theorem KeepsKeys.refl (db : Db) : db.KeepsKeys db := ⟨fun _ h => h, fun _ h => h, fun h => h⟩

theorem KeepsKeys.trans {db₁ db₂ db₃ : Db} (h : db₁.KeepsKeys db₂) (h' : db₂.KeepsKeys db₃) :
    db₁.KeepsKeys db₃ :=
  ⟨fun e he => h'.execution e (h.execution e he), fun tid ht => h'.task tid (h.task tid ht),
    fun hk => h'.keys (h.keys hk)⟩

theorem keepsKeys_saveExecution (db : Db) (e : ExecutionId) {f : Execution → Execution}
    (hid : ∀ x, (f x).id = x.id) : db.KeepsKeys (db.saveExecution e f hid) := by
  have hexecution : ∀ e', db.Submitted e' → (db.saveExecution e f hid).Submitted e' := by
    rintro e' ⟨x, hx, rfl⟩
    refine ⟨_, Table.update_mem hid hx, ?_⟩
    split
    · exact hid x
    · rfl
  exact ⟨hexecution, fun _ h => h, fun h => ⟨fun t ht => hexecution _ (h.execution t ht), h.task⟩⟩

theorem keepsKeys_saveTask (db : Db) (tid : TaskId) {f : Task → Task} (hid : ∀ t, (f t).id = t.id)
    (hexec : ∀ t, (f t).executionId = t.executionId) : db.KeepsKeys (db.saveTask tid f hid) := by
  have htask : ∀ tid', db.HasTask tid' → (db.saveTask tid f hid).HasTask tid' := by
    rintro tid' ⟨t, ht, rfl⟩
    refine ⟨_, Table.update_mem hid ht, ?_⟩
    split
    · exact hid t
    · rfl
  refine ⟨fun _ h => h, htask, fun h => ⟨fun t' ht' => ?_, fun r hr => htask _ (h.task r hr)⟩⟩
  obtain ⟨t, ht, rfl⟩ := (Table.mem_update hid).1 ht'
  show db.Submitted _
  split
  · rw [hexec]
    exact h.execution t ht
  · exact h.execution t ht

theorem keepsKeys_insertResult (result : TaskResult) (h : db.HasTask result.taskId) :
    db.KeepsKeys (db.insertResult result) := by
  refine ⟨fun _ h => h, fun _ h => h, fun hk => ⟨hk.execution, fun r hr => ?_⟩⟩
  rcases mem_of_insertResult hr with hr | rfl
  · exact hk.task r hr
  · exact h

theorem keepsKeys_insertTasks (now : Time) (plan : Plan) (h : db.Submitted e) :
    db.KeepsKeys (db.insertTasks now e plan) where
  execution _ h := h
  task := by
    rintro tid ⟨t, ht, hid⟩
    exact ⟨t, mem_insertTasks.2 (.inl ht), hid⟩
  keys hk := by
    refine ⟨fun t ht => ?_, fun r hr => ?_⟩
    · rcases mem_insertTasks.1 ht with ht | ⟨i, subtask, -, rfl⟩
      · exact hk.execution t ht
      · exact h
    · obtain ⟨t, ht, hid⟩ := hk.task r hr
      exact ⟨t, mem_insertTasks.2 (.inl ht), hid⟩

end Db

namespace Inline

variable {p : Progress} {rest : List Task} {task : Task} {o : TaskOracle}

theorem keepsKeys_runTask (h : p.db.HasTask task.id) : p.db.KeepsKeys (runTask o p task).db := by
  have hstarted := p.db.keepsKeys_saveTask task.id (f := started o) (fun _ => rfl) fun _ => rfl
  cases hagent : o.agent task.agentType task.description (join "\n\n" p.contextParts) with
  | ok output =>
      have hstored := Db.keepsKeys_insertResult ⟨task.id, output.text⟩ (hstarted.task _ h)
      simp only [runTask, hagent]
      exact (hstarted.trans hstored).trans
        (Db.keepsKeys_saveTask _ task.id (f := completed o output) (fun _ => rfl) fun _ => rfl)
  | error exc =>
      simp only [runTask, hagent]
      exact hstarted.trans
        (Db.keepsKeys_saveTask _ task.id (f := failed o exc) (fun _ => rfl) fun _ => rfl)

theorem keepsKeys_execute {oracle : Nat → TaskOracle} (i : Nat) (h : ∀ t ∈ rest, p.db.HasTask t.id) :
    p.db.KeepsKeys (execute oracle i p rest).db := by
  induction rest generalizing p i with
  | nil => exact .refl _
  | cons task rest ih =>
      have hstep := keepsKeys_runTask (o := oracle i) (h task List.mem_cons_self)
      rw [execute]
      split
      · exact hstep.trans (ih (i + 1) fun t ht => hstep.task _ (h t (List.mem_cons_of_mem _ ht)))
      · exact hstep

theorem keepsKeys_runPlan (o : Oracle) (h : db.Submitted e) (plan : Plan) :
    db.KeepsKeys (runPlan o db e plan).db := by
  let tasks := plan.subtasks.mapIdx (db.plannedTask e o.insertedAt)
  let db' := (db.insertTasks o.insertedAt e plan).saveExecution e (running o)
  have hstart : db.KeepsKeys db' := (Db.keepsKeys_insertTasks o.insertedAt plan h).trans
    (Db.keepsKeys_saveExecution _ e (f := running o) fun _ => rfl)
  have hloop : db'.KeepsKeys (execute o.task 0 { db := db' } tasks).db := by
    refine keepsKeys_execute (p := { db := db' }) 0 fun t ht => ?_
    exact ⟨t, Db.mem_insertTasks.2 (.inr (Db.mem_plannedRows.1 ht)), rfl⟩
  exact (hstart.trans hloop).trans (Db.keepsKeys_saveExecution _ e (finish_id o _ _))

theorem keepsKeys_runExecution (cfg : Config) (o : Oracle) (e : ExecutionId) :
    db.KeepsKeys (runExecution cfg o db e).db := by
  have hplanning := db.keepsKeys_saveExecution e (f := planning o) fun _ => rfl
  unfold runExecution
  split
  · exact .refl db
  · next x hx =>
      dsimp only
      split
      · next exc hllm =>
          exact hplanning.trans (Db.keepsKeys_saveExecution _ e (f := crashed o exc) fun _ => rfl)
      · obtain ⟨hmem, hid⟩ := Table.find?_eq_some_iff.1 hx
        exact hplanning.trans (keepsKeys_runPlan o (hplanning.execution e ⟨x, hmem, hid⟩) _)

/-- `create_execution` keeps the foreign keys. -/
theorem foreignKeys_createExecution (h : db.ForeignKeys) (cfg : Config) (o : Oracle)
    (userRequest : String) : (createExecution cfg o db userRequest).db.ForeignKeys := by
  refine (keepsKeys_runExecution cfg o _).keys ⟨fun t ht => ?_, h.task⟩
  obtain ⟨x, hx, hid⟩ := h.execution t ht
  exact ⟨x, (State.mem_createExecution (s := { db := db })).2 (.inl hx), hid⟩

end Inline

end AgenticExecution
