import AgenticExecution.Fates

set_option autoImplicit false

/-! # One task after another

What inline mode is for: the tasks of a plan run in order, each with the outputs of all tasks before it,
and none runs after a failure. With agents that only look at their type, description and context, this
is what the fates of a plan come to in two cases. When every task depends on all earlier ones, a task
has the same context both ways. When the agents ignore the context, all tasks complete both ways or
some task fails both ways. -/

namespace AgenticExecution

/-- Agents whose answer only depends on the type of the task, its description and the context. -/
abbrev Answering := AgentType → String → String → Option AgentResult

/-- They answer alike in every attempt and at every position. -/
def Answering.agents (g : Answering) : Agents := fun _ subtask _ context =>
  g subtask.agentType subtask.description context

/-- The entry of a task in the context of the later tasks. -/
def answerPart? (q : PlannedSubtask × Option AgentResult) : Option String :=
  q.2.map fun result => "[" ++ q.1.agentType.value ++ "] " ++ result.text

/-- The outputs so far, if all agents answered. -/
def contextAfter? (done : List (PlannedSubtask × Option AgentResult)) : Option String :=
  (done.mapM answerPart?).map (join "\n\n")

/-- The answer of the next agent, if it runs. -/
def answerAfter (g : Answering) (done : List (PlannedSubtask × Option AgentResult))
    (subtask : PlannedSubtask) : Option AgentResult :=
  (contextAfter? done).bind (g subtask.agentType subtask.description)

/-- The subtasks of a plan with the answers of their agents. -/
def answers (g : Answering) (subtasks : List PlannedSubtask) :
    List (PlannedSubtask × Option AgentResult) :=
  InOrder.eval (fun done subtask => (subtask, answerAfter g done subtask)) subtasks

/-- The result of a task that completed. -/
def Fate.result? : Fate → Option AgentResult
  | .skipped | .failed _ => none
  | .completed _ result => some result

/-- What is left of a fate when attempts do not count. -/
def answerOf (p : PlannedSubtask × Fate) : PlannedSubtask × Option AgentResult := (p.1, p.2.result?)

variable {g : Answering} {retries : Nat} {subtasks : List PlannedSubtask}
  {done : List (PlannedSubtask × Fate)} {reports : List (PlannedSubtask × Report)}
  {answered : List (PlannedSubtask × Option AgentResult)}

/-! ## Fates and answers -/

/-- An agent that answers alike in every attempt answers in the first one or not at all. -/
theorem attemptsFrom_const (answer : Option AgentResult) (retries attempts : Nat) :
    (attemptsFrom (fun _ => answer) retries attempts).result? = answer := by
  induction retries generalizing attempts with
  | zero => cases answer <;> rfl
  | succ retries ih =>
      cases answer with
      | none => exact ih (attempts + 1)
      | some result => rfl

theorem fateOf_result (subtask : PlannedSubtask) :
    (fateOf g.agents retries done subtask).result? =
      (contextOf? done subtask.dependsOn).bind (g subtask.agentType subtask.description) := by
  rw [fateOf]
  cases contextOf? done subtask.dependsOn with
  | none => rfl
  | some context => exact attemptsFrom_const _ retries 0

theorem contextPart?_eq (p : PlannedSubtask × Fate) : contextPart? p = answerPart? (answerOf p) := by
  obtain ⟨subtask, fate⟩ := p
  cases fate <;> rfl

/-- A task that depends on all earlier ones gets all their outputs. -/
theorem contextOf?_range : contextOf? done ((List.range done.length).map Int.ofNat) =
    contextAfter? (done.map answerOf) := by
  have hentry : (fun i : Int => (done[i.toNat]?).bind contextPart?) ∘ Int.ofNat =
      fun i => (done[i]?).bind contextPart? := rfl
  rw [contextOf?, contextAfter?, List.mapM_map, List.mapM_map, hentry, InOrder.mapM_range]
  congr 2
  exact funext contextPart?_eq

theorem fates_concat (subtask : PlannedSubtask) :
    fates g.agents retries (subtasks ++ [subtask]) = fates g.agents retries subtasks ++
      [(subtask, fateOf g.agents retries (fates g.agents retries subtasks) subtask)] :=
  InOrder.eval_concat subtasks subtask

theorem answers_concat (subtask : PlannedSubtask) :
    answers g (subtasks ++ [subtask]) =
      answers g subtasks ++ [(subtask, answerAfter g (answers g subtasks) subtask)] :=
  InOrder.eval_concat subtasks subtask

/-! ## Plans in which every task depends on all earlier ones -/

/-- `depends_on` of the task at position `i` is `[0 .. i-1]`. -/
def Chained (subtasks : List PlannedSubtask) : Prop :=
  ∀ i subtask, subtasks[i]? = some subtask → subtask.dependsOn = (List.range i).map Int.ofNat

theorem chained_iff : Chained subtasks ↔ subtasks.map PlannedSubtask.dependsOn =
    (List.range subtasks.length).map fun i => (List.range i).map Int.ofNat := by
  constructor
  · intro h
    refine List.ext_getElem (by simp) fun i hi _ => ?_
    rw [List.length_map] at hi
    simp [h i subtasks[i] (List.getElem?_eq_getElem hi)]
  · intro h i subtask hi
    obtain ⟨hlt, rfl⟩ := List.getElem?_eq_some_iff.1 hi
    simpa [hlt] using congrArg (fun l => l[i]?) h

instance : Decidable (Chained subtasks) := decidable_of_iff _ chained_iff.symm

theorem Chained.fates_eq (h : Chained subtasks) :
    (fates g.agents retries subtasks).map answerOf = answers g subtasks := by
  induction subtasks using List.reverseRecOn with
  | nil => rfl
  | append_singleton subtasks subtask ih =>
      have hinit : Chained subtasks := by
        intro i subtask' hi
        refine h i subtask' ?_
        rw [List.getElem?_append_left (List.getElem?_eq_some_iff.1 hi).1, hi]
      have hlast : subtask.dependsOn =
          (List.range (fates g.agents retries subtasks).length).map Int.ofNat := by
        rw [length_fates]
        exact h subtasks.length subtask (by simp)
      have hanswer : (fateOf g.agents retries (fates g.agents retries subtasks) subtask).result? =
          answerAfter g (answers g subtasks) subtask := by
        rw [fateOf_result, hlast, contextOf?_range, ih hinit, answerAfter]
      rw [fates_concat, answers_concat, List.map_append, ih hinit, List.map_singleton, answerOf, hanswer]

/-- The context of a task is the one it has in inline mode. -/
theorem Chained.contextOf?_take (h : Chained subtasks) {i : Nat} {subtask : PlannedSubtask}
    (hi : subtasks[i]? = some subtask) :
    contextOf? ((fates g.agents retries subtasks).take i) subtask.dependsOn =
      contextAfter? ((answers g subtasks).take i) := by
  have hlen : ((fates g.agents retries subtasks).take i).length = i := by
    rw [List.length_take, length_fates]
    exact Nat.min_eq_left (Nat.le_of_lt (List.getElem?_eq_some_iff.1 hi).1)
  have hanswers : (fates g.agents retries subtasks).map answerOf = answers g subtasks := h.fates_eq
  rw [h i subtask hi, ← hanswers, ← List.map_take, ← contextOf?_range, hlen]

/-! ## Agents that ignore the context -/

/-- The context does not matter. -/
def Answering.Ignores (g : Answering) : Prop :=
  ∀ agentType description context context', g agentType description context =
    g agentType description context'

/-- The answer of an agent that ignores its context. -/
def Answering.answer (g : Answering) (subtask : PlannedSubtask) : PlannedSubtask × Option AgentResult :=
  (subtask, g subtask.agentType subtask.description "")

namespace Answering.Ignores

/-- An agent that answers in some context answers. -/
theorem isSome_of_bind (h : g.Ignores) {context? : Option String} {subtask : PlannedSubtask}
    (hsome : (context?.bind (g subtask.agentType subtask.description)).isSome = true) :
    (g.answer subtask).2.isSome = true := by
  obtain ⟨result, hresult⟩ := Option.isSome_iff_exists.1 hsome
  obtain ⟨context, -, hg⟩ := Option.bind_eq_some_iff.1 hresult
  rw [Answering.answer, h subtask.agentType subtask.description "" context, hg]
  rfl

/-- When all agents answer, inline mode runs them all. -/
theorem answers_eq (h : g.Ignores)
    (hall : ∀ subtask ∈ subtasks, (g.answer subtask).2.isSome = true) :
    answers g subtasks = subtasks.map g.answer := by
  induction subtasks using List.reverseRecOn with
  | nil => rfl
  | append_singleton subtasks subtask ih =>
      have hinit := ih fun subtask' hmem => hall subtask' (List.mem_append_left _ hmem)
      have hcontext : ((subtasks.map g.answer).mapM answerPart?).isSome = true := by
        refine InOrder.isSome_mapM.2 fun q hq => ?_
        obtain ⟨subtask', hmem, rfl⟩ := List.mem_map.1 hq
        simpa [answerPart?] using hall subtask' (List.mem_append_left _ hmem)
      obtain ⟨parts, hparts⟩ := Option.isSome_iff_exists.1 hcontext
      rw [answers_concat, hinit, List.map_append, List.map_singleton, answerAfter, contextAfter?, hparts]
      show _ ++ [(subtask, g subtask.agentType subtask.description (join "\n\n" parts))] = _
      rw [h subtask.agentType subtask.description _ "", Answering.answer]

/-- And so does the queue, since no dependency fails. -/
theorem fates_eq (h : g.Ignores)
    (hbackward : ∀ (i : Nat) subtask, subtasks[i]? = some subtask →
      ∀ d ∈ subtask.dependsOn, 0 ≤ d ∧ d < (i : Int))
    (hall : ∀ subtask ∈ subtasks, (g.answer subtask).2.isSome = true) :
    (fates g.agents retries subtasks).map answerOf = subtasks.map g.answer := by
  induction subtasks using List.reverseRecOn with
  | nil => rfl
  | append_singleton subtasks subtask ih =>
      have hinit : (fates g.agents retries subtasks).map answerOf = subtasks.map g.answer := by
        refine ih (fun i subtask' hi => hbackward i subtask' ?_)
          fun subtask' hmem => hall subtask' (List.mem_append_left _ hmem)
        rw [List.getElem?_append_left (List.getElem?_eq_some_iff.1 hi).1, hi]
      have hcontext : (contextOf? (fates g.agents retries subtasks) subtask.dependsOn).isSome = true := by
        rw [contextOf?, Option.isSome_map]
        refine InOrder.isSome_mapM.2 fun d hd => ?_
        obtain ⟨hnonneg, hlt⟩ := hbackward subtasks.length subtask (by simp) d hd
        have hpos : d.toNat < (fates g.agents retries subtasks).length := by
          rw [length_fates]
          omega
        have hmem := List.mem_map_of_mem (f := answerOf) (List.getElem_mem hpos)
        rw [hinit] at hmem
        obtain ⟨subtask', hsub, heq⟩ := List.mem_map.1 hmem
        rw [List.getElem?_eq_getElem hpos, Option.bind_some, contextPart?_eq, ← heq]
        simpa [answerPart?] using hall subtask' (List.mem_append_left _ hsub)
      obtain ⟨context, hsome⟩ := Option.isSome_iff_exists.1 hcontext
      have hanswer : (fateOf g.agents retries (fates g.agents retries subtasks) subtask).result? =
          (g.answer subtask).2 := by
        rw [fateOf_result, hsome]
        exact h subtask.agentType subtask.description context ""
      rw [fates_concat, List.map_append, hinit, List.map_append, List.map_singleton, List.map_singleton,
        answerOf, hanswer]
      rfl

/-- All tasks complete in inline mode when every agent answers. -/
theorem all_answers (h : g.Ignores) : (∀ q ∈ answers g subtasks, q.2.isSome = true) ↔
    ∀ subtask ∈ subtasks, (g.answer subtask).2.isSome = true := by
  constructor
  · intro hall subtask hmem
    obtain ⟨done, hdone⟩ := InOrder.exists_mem_eval
      (f := fun done subtask => (subtask, answerAfter g done subtask)) hmem
    exact h.isSome_of_bind (hall _ hdone)
  · intro hall q hq
    rw [h.answers_eq hall] at hq
    obtain ⟨subtask, hmem, rfl⟩ := List.mem_map.1 hq
    exact hall subtask hmem

/-- And so in queue mode. -/
theorem all_fates (h : g.Ignores)
    (hbackward : ∀ (i : Nat) subtask, subtasks[i]? = some subtask →
      ∀ d ∈ subtask.dependsOn, 0 ≤ d ∧ d < (i : Int)) :
    (∀ q ∈ (fates g.agents retries subtasks).map answerOf, q.2.isSome = true) ↔
      ∀ subtask ∈ subtasks, (g.answer subtask).2.isSome = true := by
  constructor
  · intro hall subtask hmem
    obtain ⟨done, hdone⟩ := InOrder.exists_mem_eval
      (f := fun done subtask => (subtask, fateOf g.agents retries done subtask)) hmem
    have hsome := hall _ (List.mem_map_of_mem hdone)
    rw [answerOf, fateOf_result] at hsome
    exact h.isSome_of_bind hsome
  · intro hall q hq
    rw [h.fates_eq hbackward hall] at hq
    obtain ⟨subtask, hmem, rfl⟩ := List.mem_map.1 hq
    exact hall subtask hmem

end Answering.Ignores

/-! ## Reports -/

/-- The row of a task tells whether its agent answered, and what. -/
def Report.Tells (report : Report) : Option AgentResult → Prop
  | some result => report.status = .completed ∧ report.output = some result.text ∧
      report.totalTokens = some result.totalTokens
  | none => report.status ≠ .completed ∧ report.output = none ∧ report.totalTokens = none

theorem Fate.report_tells (fate : Fate) : fate.report.Tells fate.result? := by
  cases fate with
  | skipped | failed => exact ⟨by simp [Fate.report], rfl, rfl⟩
  | completed => exact ⟨rfl, rfl, rfl⟩

/-- The rows of an execution tell the answers of the agents. -/
def Tell (reports : List (PlannedSubtask × Report))
    (answered : List (PlannedSubtask × Option AgentResult)) : Prop :=
  List.Forall₂ (fun p q => p.1 = q.1 ∧ p.2.Tells q.2) reports answered

theorem tell_fates (l : List (PlannedSubtask × Fate)) :
    Tell (l.map fun p => (p.1, p.2.report)) (l.map answerOf) := by
  rw [Tell, List.forall₂_map_left_iff, List.forall₂_map_right_iff, List.forall₂_same]
  exact fun p _ => ⟨rfl, p.2.report_tells⟩

/-- What the aggregator gets of a task whose agent answered. -/
def answerOutcome (q : PlannedSubtask × Option AgentResult) : TaskOutcome where
  agentType := q.1.agentType
  description := q.1.description
  status := .completed
  output := (q.2.map AgentResult.text).getD ""

/-- The outcome of an execution whose agents gave these answers. -/
def answersOutcome (userRequest : String) (answered : List (PlannedSubtask × Option AgentResult)) :
    Outcome where
  status := if answered.all fun q => q.2.isSome then .completed else .failed
  finalResult :=
    if answered.all fun q => q.2.isSome then
      some (aggregate userRequest (answered.map answerOutcome))
    else none
  totalTokens := some (answered.map fun q => (q.2.map AgentResult.totalTokens).getD 0).sum

namespace Tell

theorem outputs_eq (h : Tell reports answered) :
    reports.map (fun p => p.2.output) = answered.map fun q => q.2.map AgentResult.text := by
  induction h with
  | nil => rfl
  | @cons p q _ _ hpq _ ih =>
      have hout : p.2.output = q.2.map AgentResult.text := by
        obtain ⟨-, htells⟩ := hpq
        cases hq : q.2 <;> exact (hq ▸ htells).2.1
      rw [List.map_cons, List.map_cons, ih, hout]

theorem tokens_eq (h : Tell reports answered) :
    reports.map (fun p => p.2.totalTokens) = answered.map fun q => q.2.map AgentResult.totalTokens := by
  induction h with
  | nil => rfl
  | @cons p q _ _ hpq _ ih =>
      have htok : p.2.totalTokens = q.2.map AgentResult.totalTokens := by
        obtain ⟨-, htells⟩ := hpq
        cases hq : q.2 <;> exact (hq ▸ htells).2.2
      rw [List.map_cons, List.map_cons, ih, htok]

theorem completed_eq (h : Tell reports answered) :
    (reports.all fun p => decide (p.2.status = .completed)) = answered.all fun q => q.2.isSome := by
  induction h with
  | nil => rfl
  | @cons p q _ _ hpq _ ih =>
      have hstatus : decide (p.2.status = .completed) = q.2.isSome := by
        obtain ⟨-, htells⟩ := hpq
        cases hq : q.2 with
        | none => exact decide_eq_false (hq ▸ htells).1
        | some result => exact decide_eq_true (hq ▸ htells).1
      rw [List.all_cons, List.all_cons, ih, hstatus]

theorem outcomes_eq (h : Tell reports answered) (hall : ∀ q ∈ answered, q.2.isSome = true) :
    reports.map taskOutcome = answered.map answerOutcome := by
  induction h with
  | nil => rfl
  | @cons p q _ _ hpq _ ih =>
      obtain ⟨result, hq⟩ := Option.isSome_iff_exists.1 (hall q List.mem_cons_self)
      obtain ⟨hsub, htells⟩ := hpq
      rw [hq] at htells
      obtain ⟨hstatus, hout, -⟩ := htells
      rw [List.map_cons, List.map_cons, ih fun q' hq' => hall q' (List.mem_cons_of_mem _ hq'),
        taskOutcome, answerOutcome, hsub, hstatus, hout, hq]
      rfl

theorem sum_tokens (h : Tell reports answered) :
    (reports.map fun p => p.2.totalTokens.getD 0).sum =
      (answered.map fun q => (q.2.map AgentResult.totalTokens).getD 0).sum := by
  have htokens := congrArg (List.map fun n : Option Int => n.getD 0) h.tokens_eq
  rw [List.map_map, List.map_map] at htokens
  exact congrArg List.sum htokens

/-- Rows that tell the answers give the outcome of the answers. -/
theorem outcome_eq (h : Tell reports answered) (userRequest : String) :
    outcomeOf userRequest reports = answersOutcome userRequest answered := by
  rw [outcomeOf, answersOutcome, h.completed_eq, h.sum_tokens]
  by_cases hall : (answered.all fun q => q.2.isSome) = true
  · simp only [if_pos hall, h.outcomes_eq (List.all_eq_true.1 hall)]
  · simp only [if_neg hall]

end Tell

end AgenticExecution
