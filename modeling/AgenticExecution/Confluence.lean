import AgenticExecution.Outcomes
import AgenticExecution.Settled

set_option autoImplicit false

/-! # The schedule does not matter

In an orderly run the rows of a finished execution record the fates of its tasks, and its own row the
outcome they give. Both are functions of the plan and of the agents: by induction on the position, the
dependencies of a task met their fates, so its context is the one the fates give, and it was tried in
that context until it was answered or given up. How many workers there were, in which order they ran
and which pass found a failed dependency plays no part. -/

namespace AgenticExecution

variable {cfg : Config} {agent : Agents} {e : ExecutionId} {s s' : State} {ev : Event} {db : Db}
  {plan : Plan} {retries : Nat} {trace : List (State × Event)}

/-- What the tables record of a task. -/
def Db.report (db : Db) (t : Task) : Report where
  status := t.status
  attempts := t.attempts
  output := (db.results.find? t.id).map TaskResult.output
  totalTokens := t.totalTokens
  toolCalls := t.toolCalls

/-- The tasks of an execution with what the tables record of them. -/
def Db.reports (db : Db) (e : ExecutionId) : List (PlannedSubtask × Report) :=
  (db.tasksOf e).map fun t => (t.subtask, db.report t)

/-- What the row of an execution records. -/
def Execution.outcome (x : Execution) : Outcome where
  status := x.status
  finalResult := x.finalResult
  totalTokens := x.totalTokens

/-! ## The rows of a finished execution -/

namespace Db

/-- The execution is finished, and its rows account for the answers of the agents. -/
structure Concluded (agent : Agents) (retries : Nat) (e : ExecutionId) (plan : Plan) (db : Db) :
    Prop where
  wellFormed : db.WellFormed
  plans : db.Plans e plan
  accounted : ∀ t ∈ db.tasks, t.executionId = e → db.Accounted agent retries t
  agrees : db.Agrees
  finished : ∀ t ∈ db.tasks, t.executionId = e → t.status.isTerminal = true

/-- A task leaves the context entry of its fate. -/
theorem contextPart?_iff {d : Task} {fate : Fate} (hreport : db.report d = fate.report)
    {part : String} : contextPart? (d.subtask, fate) = some part ↔
      d.status = .completed ∧ ∃ r ∈ db.results, r.taskId = d.id ∧ part = contextPart d r := by
  have hstatus : d.status = fate.report.status := congrArg Report.status hreport
  have houtput : (db.results.find? d.id).map TaskResult.output = fate.report.output :=
    congrArg Report.output hreport
  cases fate with
  | skipped | failed => simp [contextPart?, hstatus, Fate.report]
  | completed attempts result =>
      obtain ⟨r, hfind, hout⟩ := Option.map_eq_some_iff.1 houtput
      obtain ⟨hr, hid⟩ := Table.find?_eq_some_iff.1 hfind
      rw [contextPart?, Option.some.injEq, ← hout]
      constructor
      · rintro rfl
        exact ⟨hstatus, r, hr, hid, rfl⟩
      · rintro ⟨-, r', hr', hid', rfl⟩
        rw [Table.eq_of_key_eq hr' hr (hid'.trans hid.symm)]
        rfl

namespace Concluded

/-- Once the earlier tasks met their fates, the context of a task is the one the fates give. -/
theorem isContext_iff (h : Concluded agent retries e plan db) {done : List (PlannedSubtask × Fate)}
    {i : Nat} {t : Task} (ht : (db.tasksOf e)[i]? = some t)
    (hdone : ∀ j < i, ∀ d, (db.tasksOf e)[j]? = some d → ∃ fate, done[j]? = some (d.subtask, fate) ∧
      db.report d = fate.report) {context : String} :
    contextOf? done t.dependsOn = some context ↔ db.IsContext t context := by
  obtain ⟨hmem, hte⟩ := mem_tasksOf.1 (List.mem_of_getElem? ht)
  have hentry : ∀ k ∈ t.dependsOn, ∀ part,
      (done[k.toNat]?).bind contextPart? = some part ↔ db.IsContextPart t.executionId k part := by
    intro k hk part
    obtain ⟨-, d, hd, hde, rfl⟩ := h.wellFormed.depends t hmem k hk
    obtain ⟨j, hj, hdj, hidx⟩ := h.plans.dependency ht hd ⟨hde, hk⟩
    obtain ⟨fate, hfate, hreport⟩ := hdone j hj d hdj
    have hnat : d.orderIndex.toNat = j := by omega
    rw [hnat, hfate, Option.bind_some, contextPart?_iff hreport]
    constructor
    · rintro ⟨hst, r, hr, hid, rfl⟩
      exact ⟨d, hd, hde, rfl, hst, r, hr, hid, rfl⟩
    · rintro ⟨d', hd', hde', hidx', hst, r, hr, hid, rfl⟩
      obtain rfl := h.wellFormed.index d' hd' d hd (hde'.trans hde.symm) hidx'
      exact ⟨hst, r, hr, hid, rfl⟩
  rw [contextOf?_eq_some_iff]
  constructor
  · rintro ⟨parts, hparts, rfl⟩
    have hboth := (List.forall₂_and_left _ _).2 ⟨fun k hk => hk, hparts⟩
    exact ⟨parts, rfl, hboth.imp fun k part ⟨hk, hp⟩ => (hentry k hk part).1 hp⟩
  · rintro ⟨parts, rfl, hparts⟩
    have hboth := (List.forall₂_and_left _ _).2 ⟨fun k hk => hk, hparts⟩
    exact ⟨parts, hboth.imp fun k part ⟨hk, hp⟩ => (hentry k hk part).2 hp, rfl⟩

/-- A row that accounts for its agent records the fate of its task. -/
theorem report_eq (h : Concluded agent retries e plan db) {done : List (PlannedSubtask × Fate)}
    {i : Nat} {t : Task} (ht : (db.tasksOf e)[i]? = some t) (hlen : done.length = i)
    (hcontext : ∀ context, contextOf? done t.dependsOn = some context ↔ db.IsContext t context) :
    db.report t = (fateOf agent retries done t.subtask).report := by
  obtain ⟨hmem, hte⟩ := mem_tasksOf.1 (List.mem_of_getElem? ht)
  have hrow := h.accounted t hmem hte
  have hidx : t.orderIndex = done.length := by rw [(h.plans.row ht).1, hlen]
  have hdeps : t.subtask.dependsOn = t.dependsOn := rfl
  -- all runs of the task had one context
  have hanswer : ∀ {context : String} {n : Nat} {result : Option AgentResult},
      db.IsContext t context → db.Answered agent t n result →
        agent done.length t.subtask n context = result := by
    rintro context n result hctx ⟨context', hctx', rfl⟩
    have hsame := (hcontext context).2 hctx
    rw [(hcontext context').2 hctx', Option.some.injEq] at hsame
    rw [← hsame, hidx]
  have hunstored : t.status ≠ .completed → db.results.find? t.id = none := by
    intro hne
    rw [Table.find?_eq_none_iff]
    intro r hr hid
    exact hne ((h.agrees t hmem).1 ⟨r, hr, hid⟩)
  have hfin := h.finished t hmem hte
  cases hst : t.status with
  | completed =>
      -- `attempts` runs failed, and the next one answered
      obtain ⟨r, hr, hid, tokens, htok, context, hctx, hans⟩ := hrow.completed hst
      have hfate : attemptsFrom (fun n => agent done.length t.subtask n context) retries 0 =
          .completed t.attempts ⟨r.output, tokens, t.toolCalls⟩ :=
        attemptsFrom_completed (Nat.zero_le _)
          (by simpa using hrow.budget (by simp [hst]))
          (fun m _ hm => hanswer hctx (hrow.tried m hm)) (hanswer hctx ⟨context, hctx, hans⟩)
      rw [fateOf, hdeps, (hcontext context).2 hctx]
      simp only [hfate, Fate.report, report, hst, htok, Table.find?_eq_some_iff.2 ⟨hr, hid⟩,
        Option.map_some]
  | failed =>
      have hne : t.status ≠ .completed := by simp [hst]
      obtain ⟨htok, hcalls⟩ := hrow.unanswered hne
      rcases hrow.failed hst with hattempts | ⟨hzero, d, hd, hdep, hds⟩
      · -- the retries are used up
        obtain ⟨context, hctx, -⟩ := hrow.tried 0 (by omega)
        have hfate : attemptsFrom (fun n => agent done.length t.subtask n context) retries 0 =
            .failed (0 + retries + 1) :=
          attemptsFrom_failed fun m _ hm => hanswer hctx (hrow.tried m (by omega))
        rw [fateOf, hdeps, (hcontext context).2 hctx]
        simp only [hfate, Fate.report, report, hst, htok, hcalls, hunstored hne, hattempts,
          Option.map_none, Nat.zero_add]
      · -- the task was skipped: one of its dependencies has no entry in the context
        have hnone : contextOf? done t.dependsOn = none := by
          rw [Option.eq_none_iff_forall_ne_some]
          intro context hsome
          obtain ⟨parts, -, hparts⟩ := (hcontext context).1 hsome
          obtain ⟨part, -, d', hd', hde', hidx', hst', -⟩ := InOrder.exists_of_forall₂ hparts hdep.2
          obtain rfl := h.wellFormed.index d' hd' d hd (hde'.trans hdep.1.symm) hidx'
          simp [hds] at hst'
        rw [fateOf, hdeps, hnone]
        simp only [Fate.report, report, hst, htok, hcalls, hunstored hne, hzero, Option.map_none]
  | pending | running | retrying => simp [hst, TaskStatus.isTerminal] at hfin

/-- Every task of the execution met its fate. -/
theorem row_fate (h : Concluded agent retries e plan db) (i : Nat) :
    ∀ t, (db.tasksOf e)[i]? = some t → ∃ fate,
      (fates agent retries plan.subtasks)[i]? = some (t.subtask, fate) ∧
        db.report t = fate.report := by
  induction i using Nat.strong_induction_on with
  | _ i ih =>
    intro t ht
    obtain ⟨-, hsub⟩ := h.plans.row ht
    refine ⟨_, getElem?_fates hsub, h.report_eq ht ?_ fun context => h.isContext_iff ht ?_⟩
    · rw [List.length_take, length_fates]
      exact Nat.min_eq_left (Nat.le_of_lt (List.getElem?_eq_some_iff.1 hsub).1)
    · intro j hj d hd
      obtain ⟨fate, hfate, hreport⟩ := ih j hj d hd
      exact ⟨fate, by rw [List.getElem?_take_of_lt hj, hfate], hreport⟩

/-- The context of a task is the one the fates of the earlier tasks give. -/
theorem contextOf?_fates (h : Concluded agent retries e plan db) {i : Nat} {t : Task}
    (ht : (db.tasksOf e)[i]? = some t) {context : String} :
    contextOf? ((fates agent retries plan.subtasks).take i) t.dependsOn = some context ↔
      db.IsContext t context := by
  refine h.isContext_iff ht fun j hj d hd => ?_
  obtain ⟨fate, hfate, hreport⟩ := h.row_fate j d hd
  exact ⟨fate, by rw [List.getElem?_take_of_lt hj, hfate], hreport⟩

/-- The tables record the fates of the plan. -/
theorem reports_eq (h : Concluded agent retries e plan db) :
    db.reports e = (fates agent retries plan.subtasks).map fun p => (p.1, p.2.report) := by
  refine List.ext_getElem? fun i => ?_
  rw [reports, List.getElem?_map, List.getElem?_map]
  cases ht : (db.tasksOf e)[i]? with
  | none =>
      have hlen : (fates agent retries plan.subtasks).length ≤ i := by
        rw [length_fates, ← h.plans.length_tasksOf]
        exact List.getElem?_eq_none_iff.1 ht
      rw [List.getElem?_eq_none_iff.2 hlen]
      rfl
  | some t =>
      obtain ⟨fate, hfate, hreport⟩ := h.row_fate i t ht
      rw [hfate, Option.map_some, Option.map_some, hreport]

end Concluded

/-! ## The outcome of the execution -/

theorem Plans.sorted (h : db.Plans e plan) : sortByIndex (db.tasksOf e) = db.tasksOf e := by
  refine List.Pairwise.insertionSort_eq ?_
  have hpos : ((db.tasksOf e).map Task.orderIndex).Pairwise (· ≤ ·) := by
    rw [h.positions, List.pairwise_map]
    refine List.pairwise_lt_range.imp fun hlt => ?_
    simp only [Int.ofNat_eq_natCast]
    omega
  exact List.pairwise_map.1 hpos

/-- The outcomes the aggregator gets are read off the reports. -/
theorem Plans.outcomes_eq (h : db.Plans e plan) :
    db.outcomes e = (db.reports e).map taskOutcome := by
  rw [outcomes, h.sorted, reports, List.map_map]
  rfl

theorem sumTokens_tasksOf (db : Db) (e : ExecutionId) :
    sumTokens (db.tasksOf e) = ((db.reports e).map fun p => p.2.totalTokens.getD 0).sum := by
  rw [sumTokens, reports, List.map_map]
  rfl

theorem all_reports {p : TaskStatus → Bool} :
    ((db.reports e).all fun q => p q.2.status) = true ↔
      ∀ t ∈ db.tasks, t.executionId = e → p t.status = true := by
  rw [reports, List.all_map, List.all_eq_true]
  constructor
  · intro h t ht he
    exact h t (mem_tasksOf.2 ⟨ht, he⟩)
  · intro h t ht
    obtain ⟨hmem, he⟩ := mem_tasksOf.1 ht
    exact h t hmem he

/-- A COMPLETED execution records the outcome its tasks give. -/
theorem Sealed.outcome_eq {x : Execution} (hwf : db.WellFormed) (hplans : db.Plans x.id plan)
    (hst : x.status = .completed) (h : db.Sealed x) :
    x.outcome = outcomeOf x.userRequest (db.reports x.id) := by
  have hall : ((db.reports x.id).all fun q => decide (q.2.status = .completed)) = true :=
    (all_reports (p := fun st => decide (st = .completed))).2 fun t ht he => by
      simpa using h.task ht he
  obtain ⟨tasks, outcomes, hf, hout, hres, htok⟩ := h
  rw [Execution.outcome, outcomeOf, if_pos hall, if_pos hall, hst, hres, htok, hf.sumTokens_eq,
    hf.outcomes_eq hwf hout, hplans.outcomes_eq, sumTokens_tasksOf]

/-- The tokens of a complete read are the tokens of the current rows. -/
theorem Unsuccessful.sumTokens_eq {x : Execution} {tasks : List Task} (h : db.Unsuccessful x tasks)
    (hunanswered : ∀ t ∈ db.tasks, t.executionId = x.id → t.status ≠ .completed →
      t.totalTokens = none) : sumTokens tasks = sumTokens (db.tasksOf x.id) := by
  have hcongr : sumTokens tasks = sumTokens (tasks.map db.current) := by
    rw [sumTokens, sumTokens, List.map_map]
    refine congrArg List.sum (List.map_congr_left fun t ht => ?_)
    obtain ⟨he, hread⟩ := h.loaded.read t ht
    obtain ⟨hmem, hle⟩ := hread.current
    rw [Function.comp_apply]
    by_cases hst : t.status = .completed
    · rw [(hle.completed hst).2.1]
    · have hst' : (db.current t).status ≠ .completed := by
        rw [hle.terminal (h.finished t ht)]
        exact hst
      rw [h.tokens t ht hst, hunanswered _ hmem (hle.executionId.trans he) hst']
  rw [hcongr]
  exact (h.loaded.perm.map _).sum_eq

/-- And so does a FAILED execution a finalizer ended. -/
theorem Unsuccessful.outcome_eq {x : Execution} {tasks : List Task} (h : db.Unsuccessful x tasks)
    (hst : x.status = .failed) (hres : x.finalResult = none)
    (hunanswered : ∀ t ∈ db.tasks, t.executionId = x.id → t.status ≠ .completed →
      t.totalTokens = none) : x.outcome = outcomeOf x.userRequest (db.reports x.id) := by
  have hall : ¬ ((db.reports x.id).all fun q => decide (q.2.status = .completed)) = true := by
    rw [all_reports (p := fun st => decide (st = .completed))]
    intro hcompleted
    obtain ⟨t, ht, hne⟩ := h.unsuccessful
    obtain ⟨he, hread⟩ := h.loaded.read t ht
    obtain ⟨hmem, hle⟩ := hread.current
    have hdone := of_decide_eq_true (hcompleted _ hmem (hle.executionId.trans he))
    rw [hle.terminal (h.finished t ht)] at hdone
    exact hne hdone
  rw [Execution.outcome, outcomeOf, if_neg hall, if_neg hall, hst, hres, h.recorded,
    h.sumTokens_eq hunanswered, sumTokens_tasksOf]

end Db

/-! ## Orderly runs -/

/-- The rows of an execution that is finished after an orderly run. -/
theorem orderly_concluded (h : (queueMode cfg).Run (Orderly cfg agent e) trace s)
    (hplans : s.db.Plans e plan) {x : Execution} (hx : x ∈ s.db.executions) (hid : x.id = e)
    (hfin : x.status.isTerminal = true) :
    s.db.Concluded agent cfg.settings.taskMaxRetries.toNat e plan ∧
      x.outcome = outcomeOf x.userRequest (s.db.reports e) := by
  subst hid
  have haccounts := accounts_run h
  have hwf := (reachable_inv h.reachable).wellFormed
  have hrecorded := (recording_run h).execution x hx rfl
  have hplanned : s.db.Planned x.id := by
    by_contra hnot
    exact hplans.tasksOf_ne_nil (Db.not_planned_iff.1 hnot)
  have hunanswered : ∀ t ∈ s.db.tasks, t.executionId = x.id → t.status ≠ .completed →
      t.totalTokens = none := fun t ht he hne => ((haccounts.row t ht he).unanswered hne).1
  have hended : (∀ t ∈ s.db.tasks, t.executionId = x.id → t.status.isTerminal = true) ∧
      x.outcome = outcomeOf x.userRequest (s.db.reports x.id) := by
    cases hst : x.status with
    | completed =>
        have hsealed := reachable_allSealed h.reachable x hx hst
        refine ⟨fun t ht he => ?_, hsealed.outcome_eq hwf hplans hst⟩
        rw [hsealed.task ht he]
        rfl
    | failed =>
        -- it was not given up before it was planned: it has tasks
        rcases hrecorded.failed hst with hgiven | ⟨tasks, hu⟩
        · exact absurd hplanned hgiven.unplanned
        · exact ⟨hu.loaded.finished hu.finished, hu.outcome_eq hst
            (hrecorded.finalResult (by simp [hst])) hunanswered⟩
    | pending | planning | running => simp [hst, ExecutionStatus.isTerminal] at hfin
  exact ⟨⟨hwf, hplans, haccounts.row, haccounts.agrees, hended.1⟩, hended.2⟩

/-- Whatever the schedule, the tables of a finished execution record the fates of its plan and the
    outcome they give. -/
theorem orderly_outcome (h : (queueMode cfg).Run (Orderly cfg agent e) trace s)
    (hplans : s.db.Plans e plan) {x : Execution} (hx : x ∈ s.db.executions) (hid : x.id = e)
    (hfin : x.status.isTerminal = true) :
    s.db.reports e =
        (fates agent cfg.settings.taskMaxRetries.toNat plan.subtasks).map
          (fun p => (p.1, p.2.report)) ∧
      x.outcome = outcomeOf x.userRequest (s.db.reports e) := by
  obtain ⟨hconcluded, hout⟩ := orderly_concluded h hplans hx hid hfin
  exact ⟨hconcluded.reports_eq, hout⟩

/-- The outcome does not depend on the schedule: two orderly runs of one plan with the same agents, in
    which the execution is finished, end with the same rows, up to times, costs and error texts. -/
theorem schedule_independent {agent : Int → Nat → String → Option AgentResult}
    {e₁ e₂ : ExecutionId} {trace₁ trace₂ : List (State × Event)} {s₁ s₂ : State}
    (h₁ : (queueMode cfg).Run (Orderly cfg (fun i _ => agent i) e₁) trace₁ s₁)
    (h₂ : (queueMode cfg).Run (Orderly cfg (fun i _ => agent i) e₂) trace₂ s₂)
    (hplans₁ : s₁.db.Plans e₁ plan) (hplans₂ : s₂.db.Plans e₂ plan) {x₁ x₂ : Execution}
    (hx₁ : x₁ ∈ s₁.db.executions) (hid₁ : x₁.id = e₁) (hfin₁ : x₁.status.isTerminal = true)
    (hx₂ : x₂ ∈ s₂.db.executions) (hid₂ : x₂.id = e₂) (hfin₂ : x₂.status.isTerminal = true) :
    (s₁.db.tasksOf e₁).map (fun t => (t.status, t.attempts,
        (s₁.db.results.find? t.id).map TaskResult.output, t.totalTokens, t.toolCalls)) =
      (s₂.db.tasksOf e₂).map (fun t => (t.status, t.attempts,
        (s₂.db.results.find? t.id).map TaskResult.output, t.totalTokens, t.toolCalls)) ∧
      x₁.status = x₂.status ∧ x₁.finalResult = x₂.finalResult ∧ x₁.totalTokens = x₂.totalTokens := by
  obtain ⟨hrows₁, hout₁⟩ := orderly_outcome h₁ hplans₁ hx₁ hid₁ hfin₁
  obtain ⟨hrows₂, hout₂⟩ := orderly_outcome h₂ hplans₂ hx₂ hid₂ hfin₂
  have hrows : s₁.db.reports e₁ = s₂.db.reports e₂ := hrows₁.trans hrows₂.symm
  have hout : x₁.outcome = x₂.outcome := by
    rw [hout₁, hout₂, hrows]
    rfl
  refine ⟨?_, congrArg Outcome.status hout, congrArg Outcome.finalResult hout,
    congrArg Outcome.totalTokens hout⟩
  have hcolumns := congrArg (List.map fun p : PlannedSubtask × Report =>
    (p.2.status, p.2.attempts, p.2.output, p.2.totalTokens, p.2.toolCalls)) hrows
  rwa [Db.reports, Db.reports, List.map_map, List.map_map] at hcolumns

/-! ## Two schedules of one plan -/

/-- Whether nothing is interrupted and the agents of the execution answer as `agent` says. -/
def answersAs (agent : Agents) (e : ExecutionId) (s : State) : Event → Bool
  | .raise .. | .crash _ => false
  | .run hid o =>
    match s.live? hid with
    | some (.agentRun task context) => task.executionId ≠ e || decide (agentResult? o.agent =
        agent task.orderIndex task.subtask (task.attempts + 1) context)
    | _ => true
  | _ => true

/-- Whether the reaper reports on a task it selected. -/
def reaping (s : State) : Event → Bool
  | .run hid _ =>
    match s.live? hid with
    | some (.retryOrFail _ _ (.recoverStaleTasks ..)) => true
    | _ => false
  | _ => false

theorem answersAs_spec (h : answersAs agent e s ev = true) : Uninterrupted s ev ∧ Answers agent e s ev := by
  cases ev with
  | run hid o =>
      refine ⟨trivial, fun task context hlive he => ?_⟩
      simpa [answersAs, hlive, he] using h
  | raise | crash => cases h
  | createExecution | dequeue | promoteDue | recoverStaleTasks | redeliver => exact ⟨trivial, trivial⟩

/-- `Orderly` as a check that forbids the reaper to report on any task. -/
def orderly (agent : Agents) (e : ExecutionId) (s : State) (ev : Event) : Bool :=
  answersAs agent e s ev && !reaping s ev

theorem orderly_of_check (h : orderly agent e s ev = true) : Orderly cfg agent e s ev := by
  obtain ⟨hanswers, hreaping⟩ := Bool.and_eq_true_iff.1 h
  obtain ⟨huninterrupted, hanswers⟩ := answersAs_spec hanswers
  refine ⟨huninterrupted, fun tid => ?_, hanswers⟩
  unfold reaps
  split
  · next hid o =>
      split
      · next hlive => simp [reaping, hlive] at hreaping
      · rfl
  · rfl

/-- The first run of the first task fails; every answer extends the context. -/
def exampleAgents (i : Int) (n : Nat) (context : String) : Option AgentResult :=
  if i = 0 ∧ n = 1 then none else some ⟨context ++ "+", n, 0⟩

/-- An agent that returns the text. -/
def answering (now : Time) (text : String) (totalTokens : Int) : Oracle where
  now := now
  agent := .ok { text := text, totalTokens := totalTokens }

/-- The tasks run one after another, the retry after the second task. -/
def oneWorker : List Event :=
  .createExecution "q" 0 :: runs 0 1 { now := 0 } ++ .dequeue :: runs 1 22 { now := 0 } ++
    .dequeue :: runs 2 20 (raising 0) ++ .dequeue :: runs 3 18 (answering 0 "+" 1) ++
    .promoteDue :: runs 4 4 { now := 1000 } ++ .dequeue :: runs 5 24 (answering 1000 "+" 2) ++
    .dequeue :: runs 6 26 (answering 1000 "[research] +\n\n[analysis] ++" 1)

/-- The second task runs while the first one fails, is retried and completes. -/
def twoWorkers : List Event :=
  .createExecution "q" 0 :: runs 0 1 { now := 0 } ++ .dequeue :: runs 1 22 { now := 0 } ++
    .dequeue :: runs 2 8 { now := 0 } ++ .dequeue :: runs 3 8 { now := 0 } ++ runs 2 12 (raising 0) ++
    .promoteDue :: runs 4 4 { now := 1000 } ++ .dequeue :: runs 5 18 (answering 1000 "+" 2) ++
    runs 3 16 (answering 1000 "+" 1) ++
    .dequeue :: runs 6 26 (answering 1000 "[research] +\n\n[analysis] ++" 1)

/-- Execution 1 is finished, and its rows are those of the plan. -/
def finishedPlan (plan : Plan) (s : State) : Bool :=
  (s.db.executions.rows.any fun x => x.id = 1 && x.status.isTerminal) &&
    decide ((s.db.tasksOf 1).map Task.orderIndex = (List.range plan.subtasks.length).map Int.ofNat) &&
    decide ((s.db.tasksOf 1).map Task.subtask = plan.subtasks)

theorem finishedPlan_spec (h : finishedPlan plan s = true) :
    s.db.Plans 1 plan ∧ ∃ x ∈ s.db.executions, x.id = 1 ∧ x.status.isTerminal = true := by
  obtain ⟨⟨hx, hpos⟩, hsub⟩ : ((∃ x ∈ s.db.executions.rows, x.id = 1 ∧ x.status.isTerminal = true) ∧
      (s.db.tasksOf 1).map Task.orderIndex = (List.range plan.subtasks.length).map Int.ofNat) ∧
        (s.db.tasksOf 1).map Task.subtask = plan.subtasks := by
    simpa only [finishedPlan, Bool.and_eq_true, List.any_eq_true, decide_eq_true_eq] using h
  exact ⟨⟨hpos, hsub⟩, hx⟩

/-- How many agents run. -/
def State.agentRuns (s : State) : Nat :=
  s.handlers.countP fun
    | .agentRun .. => true
    | _ => false

theorem schedule_independent_workers :
    ∃ trace₁ s₁ trace₂ s₂, (∀ p ∈ trace₁, p.1.agentRuns ≤ 1) ∧ (∃ p ∈ trace₂, p.1.agentRuns = 2) ∧
      (queueMode (fallbackConfig {})).Run (Orderly (fallbackConfig {}) (fun i _ => exampleAgents i) 1)
        trace₁ s₁ ∧
      (queueMode (fallbackConfig {})).Run (Orderly (fallbackConfig {}) (fun i _ => exampleAgents i) 1)
        trace₂ s₂ ∧
      (s₁.db.tasksOf 1).map (fun t => (t.status, t.attempts,
          (s₁.db.results.find? t.id).map TaskResult.output, t.totalTokens, t.toolCalls)) =
        (s₂.db.tasksOf 1).map fun t => (t.status, t.attempts,
          (s₂.db.results.find? t.id).map TaskResult.output, t.totalTokens, t.toolCalls) := by
  obtain ⟨trace₁, s₁, h₁, hcheck₁⟩ := (queueMode (fallbackConfig {})).exists_run
    (E := Orderly (fallbackConfig {}) (fun i _ => exampleAgents i) 1)
    (orderly (fun i _ => exampleAgents i) 1)
    (fun trace s => finishedPlan (planOf (fallbackConfig {}) "q" "") s &&
      trace.all fun p => p.1.agentRuns ≤ 1) oneWorker
    (fun _ _ hE => orderly_of_check hE) (by decide +kernel)
  obtain ⟨trace₂, s₂, h₂, hcheck₂⟩ := (queueMode (fallbackConfig {})).exists_run
    (E := Orderly (fallbackConfig {}) (fun i _ => exampleAgents i) 1)
    (orderly (fun i _ => exampleAgents i) 1)
    (fun trace s => finishedPlan (planOf (fallbackConfig {}) "q" "") s &&
      trace.any fun p => p.1.agentRuns = 2) twoWorkers
    (fun _ _ hE => orderly_of_check hE) (by decide +kernel)
  obtain ⟨hfinished₁, hone⟩ := Bool.and_eq_true_iff.1 hcheck₁
  obtain ⟨hfinished₂, htwo⟩ := Bool.and_eq_true_iff.1 hcheck₂
  obtain ⟨hplans₁, x₁, hx₁, hid₁, hfin₁⟩ := finishedPlan_spec hfinished₁
  obtain ⟨hplans₂, x₂, hx₂, hid₂, hfin₂⟩ := finishedPlan_spec hfinished₂
  refine ⟨trace₁, s₁, trace₂, s₂, by simpa using hone, ?_, h₁, h₂,
    (schedule_independent h₁ h₂ hplans₁ hplans₂ hx₁ hid₁ hfin₁ hx₂ hid₂ hfin₂).1⟩
  obtain ⟨p, hp, hruns⟩ := List.any_eq_true.1 htwo
  exact ⟨p, hp, of_decide_eq_true hruns⟩

end AgenticExecution
