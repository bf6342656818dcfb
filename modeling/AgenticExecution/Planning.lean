import AgenticExecution.Safety

set_option autoImplicit false

/-! # One plan for each execution

The only transaction that adds task rows is the batch insert of `plan_execution`, and the handler that
commits it is the one that took the execution from PENDING to PLANNING. So an execution has no rows, or
those of the one plan that was inserted, and what the planner fixed in them never changes. -/

namespace AgenticExecution

variable {cfg : Config} {s s' : State} {ev : Event} {e : ExecutionId} {trace : List (State × Event)}

/-- The plan made of the answer `text` of the planning model. -/
def planOf (cfg : Config) (userRequest text : String) : Plan :=
  (Planner.init cfg.settings.plannerMinTasks cfg.settings.plannerMaxTasks).plan cfg.python
    userRequest text

/-- The plan the event inserts for the execution. -/
def insertion (e : ExecutionId) (p : State × Event) : Option Plan :=
  match p.2 with
  | .run hid _ =>
    match p.1.live? hid with
    | some (.planInsert e' plan) => if e' = e then some plan else none
    | _ => none
  | _ => none

/-- What the row keeps of its subtask. -/
def Task.subtask (t : Task) : PlannedSubtask where
  agentType := t.agentType
  description := t.description
  dependsOn := t.dependsOn

/-- The task rows of the execution are the subtasks of the plan, at the positions `0 .. n-1`. -/
structure Db.Plans (db : Db) (e : ExecutionId) (plan : Plan) : Prop where
  positions : (db.tasksOf e).map Task.orderIndex = (List.range plan.subtasks.length).map Int.ofNat
  subtasks : (db.tasksOf e).map Task.subtask = plan.subtasks

theorem insertion_eq_some {plan : Plan} (h : insertion e (s, ev) = some plan) :
    ∃ hid o, ev = .run hid o ∧ s.handlers[hid]? = some (.planInsert e plan) := by
  unfold insertion at h
  split at h
  · next hid o hev =>
      split at h
      · next e' plan' hlive =>
          split at h
          · next he =>
              obtain rfl := Option.some.inj h
              exact ⟨hid, o, hev, he ▸ (State.live?_eq_some hlive).1⟩
          · cases h
      · cases h
  · cases h

/-! ## What a step does to the rows of an execution -/

/-- The planner's columns of the execution's rows. -/
def Db.plannedColumns (db : Db) (e : ExecutionId) :
    List (TaskId × ExecutionId × AgentType × String × Int × List Int) :=
  (db.tasksOf e).map Task.fixed

namespace Db

variable {db : Db} {now : Time}

theorem plannedColumns_updateTask (tid : TaskId) (u : TaskUpdate) :
    (db.updateTask now tid u).plannedColumns e = db.plannedColumns e := by
  have hexec : ∀ t : Task, (u.set now t).executionId = t.executionId :=
    fun t => congrArg (·.2.1) (u.set_fixed now t)
  rw [plannedColumns, updateTask, db.tasksOf_update (u.set_id now) hexec, List.map_map]
  refine List.map_congr_left fun t _ => ?_
  rw [Function.comp_apply]
  split
  · exact u.set_fixed now t
  · rfl

theorem tasksOf_insertTasks (e' : ExecutionId) (plan : Plan) :
    (db.insertTasks now e' plan).tasksOf e =
      db.tasksOf e ++ if e' = e then plan.subtasks.mapIdx (db.plannedTask e' now) else [] := by
  have hrows : (plan.subtasks.mapIdx (db.plannedTask e' now)).filter (·.executionId = e) =
      if e' = e then plan.subtasks.mapIdx (db.plannedTask e' now) else [] := by
    split
    · next he =>
        refine List.filter_eq_self.2 fun t ht => ?_
        obtain ⟨i, sub, -, rfl⟩ := mem_plannedRows.1 ht
        exact decide_eq_true he
    · next he =>
        refine List.filter_eq_nil_iff.2 fun t ht => ?_
        obtain ⟨i, sub, -, rfl⟩ := mem_plannedRows.1 ht
        exact fun hmem => he (of_decide_eq_true hmem)
  rw [tasksOf, rows_insertTasks, List.filter_append, hrows, tasksOf]

/-- Only the batch insert for an execution touches the planner's columns of its rows. -/
theorem plannedColumns_commit {τ : Txn} (hτ : ∀ plan, τ ≠ .insertTasks e plan) :
    (db.commit now τ).plannedColumns e = db.plannedColumns e := by
  cases τ with
  | updateExecution => rfl
  | updateTask tid u => exact plannedColumns_updateTask tid u
  | persistSuccess tid output stamp metrics =>
      show ((db.insertResult ⟨tid, output⟩).updateTask now tid _).plannedColumns e = _
      exact plannedColumns_updateTask tid _
  | insertTasks e' plan =>
      have hne : e' ≠ e := by
        rintro rfl
        exact hτ plan rfl
      rw [plannedColumns, commit, tasksOf_insertTasks, if_neg hne, List.append_nil, plannedColumns]

theorem not_planned_iff : ¬ db.Planned e ↔ db.tasksOf e = [] := by
  rw [List.eq_nil_iff_forall_not_mem]
  constructor
  · intro h t ht
    exact h ⟨t, mem_tasksOf.1 ht⟩
  · rintro h ⟨t, ht, he⟩
    exact h t (mem_tasksOf.2 ⟨ht, he⟩)

theorem plannedColumns_eq_nil : db.plannedColumns e = [] ↔ db.tasksOf e = [] := List.map_eq_nil_iff

/-- The rows of a plan hold its subtasks. -/
theorem map_subtask_plannedTask (plan : Plan) :
    (plan.subtasks.mapIdx (db.plannedTask e now)).map Task.subtask = plan.subtasks := by
  refine List.ext_getElem? fun i => ?_
  rw [List.getElem?_map, List.getElem?_mapIdx, Option.map_map]
  exact Option.map_id'

/-- The rows right after the batch insert are those of the plan. -/
theorem plans_insertTasks (h : db.tasksOf e = []) (plan : Plan) :
    (db.insertTasks now e plan).Plans e plan := by
  have hrows : (db.insertTasks now e plan).tasksOf e =
      plan.subtasks.mapIdx (db.plannedTask e now) := by
    rw [tasksOf_insertTasks, if_pos rfl, h, List.nil_append]
  constructor
  case positions =>
    rw [hrows]
    refine List.ext_getElem (by simp) fun i h₁ h₂ => ?_
    simp [plannedTask]
  case subtasks =>
    rw [hrows]
    exact map_subtask_plannedTask plan

/-- Whether the rows are those of a plan only depends on the planner's columns. -/
theorem Plans.congr {db' : Db} {plan : Plan} (h : db.Plans e plan)
    (hcols : db'.plannedColumns e = db.plannedColumns e) : db'.Plans e plan := by
  have hmap : ∀ {β : Type} (f : TaskId × ExecutionId × AgentType × String × Int × List Int → β),
      (db'.tasksOf e).map (fun t => f t.fixed) = (db.tasksOf e).map fun t => f t.fixed := by
    intro β f
    have := congrArg (List.map f) hcols
    rwa [plannedColumns, plannedColumns, List.map_map, List.map_map] at this
  exact ⟨(hmap fun c => c.2.2.2.2.1).trans h.positions,
    (hmap fun c => PlannedSubtask.mk c.2.2.1 c.2.2.2.1 c.2.2.2.2.2).trans h.subtasks⟩

/-- The row at a position of the plan. -/
theorem Plans.row {plan : Plan} (h : db.Plans e plan) {i : Nat} {t : Task}
    (ht : (db.tasksOf e)[i]? = some t) :
    t.orderIndex = i ∧ plan.subtasks[i]? = some t.subtask := by
  have hpos := congrArg (fun l => l[i]?) h.positions
  have hsub := congrArg (fun l => l[i]?) h.subtasks
  simp only [List.getElem?_map, ht, Option.map_some] at hpos hsub
  obtain ⟨n, hn, hidx⟩ := Option.map_eq_some_iff.1 hpos.symm
  obtain ⟨hi, rfl⟩ := List.getElem?_eq_some_iff.1 hn
  exact ⟨by simpa using hidx.symm, hsub.symm⟩

/-- A dependency stands at the earlier position it is named by. -/
theorem Plans.dependency {plan : Plan} (h : db.Plans e plan) {i : Nat} {t d : Task}
    (ht : (db.tasksOf e)[i]? = some t) (hd : d ∈ db.tasks) (hdep : t.DependsOn d) :
    ∃ j < i, (db.tasksOf e)[j]? = some d ∧ d.orderIndex = j := by
  have hte : t.executionId = e := (mem_tasksOf.1 (List.mem_of_getElem? ht)).2
  obtain ⟨j, hj⟩ := List.mem_iff_getElem?.1 (mem_tasksOf.2 ⟨hd, hdep.1.trans hte⟩)
  have hidx := (h.row hj).1
  have hlt := (plan.backward i t.subtask (h.row ht).2 d.orderIndex hdep.2).2
  exact ⟨j, by omega, hj, hidx⟩

theorem Plans.length_tasksOf {plan : Plan} (h : db.Plans e plan) :
    (db.tasksOf e).length = plan.subtasks.length := by
  rw [← h.subtasks, List.length_map]

end Db

/-- What an event does to the planner's columns of an execution's rows. -/
theorem plannedColumns_step (hinv : Inv s) (hs : s.step cfg ev = some s') :
    (insertion e (s, ev) = none ∧ s'.db.plannedColumns e = s.db.plannedColumns e) ∨
      ∃ plan, insertion e (s, ev) = some plan ∧ s.db.tasksOf e = [] ∧ s'.db.Plans e plan := by
  have hnone : ∀ {hid : Nat} {o : Oracle} {pc : Pc}, s.handlers[hid]? = some pc →
      (∀ plan, pc ≠ .planInsert e plan) → insertion e (s, .run hid o) = none := by
    intro hid o pc hpc hne
    cases pc with
    | planInsert e' plan =>
        have : e' ≠ e := by
          rintro rfl
          exact hne plan rfl
        simp [insertion, State.live?, hpc, this]
    | _ => simp [insertion, State.live?, hpc]
  cases State.stepsTo hs with
  | createExecution | dequeue | promoteDue | recoverStaleTasks | redeliver | raise | crash =>
      exact .inl ⟨rfl, rfl⟩
  | move hid o pc pc' hpc hlive hact =>
      refine .inl ⟨hnone hpc fun plan heq => ?_, rfl⟩
      subst heq
      simp [Pc.act] at hact
  | send hid o pc c k hpc hlive hact =>
      refine .inl ⟨hnone hpc fun plan heq => ?_, rfl⟩
      subst heq
      simp [Pc.act] at hact
  | commit hid o pc τ k hpc hlive hact =>
      by_cases hinsert : ∃ plan, pc = .planInsert e plan
      · obtain ⟨plan, rfl⟩ := hinsert
        obtain ⟨rfl, -⟩ := Act.commit.inj hact
        have hnil := Db.not_planned_iff.1 (hinv.not_planned hpc)
        exact .inr ⟨plan, by simp [insertion, State.live?, hpc], hnil, Db.plans_insertTasks hnil plan⟩
      · have hne : ∀ plan, pc ≠ .planInsert e plan := fun plan heq => hinsert ⟨plan, heq⟩
        refine .inl ⟨hnone hpc hne, Db.plannedColumns_commit ?_⟩
        rintro plan rfl
        cases Pc.commits_of_act hact
        exact hne plan rfl

/-! ## Where the plan comes from -/

theorem planned_of_act {o : Oracle} {db : Db} {r : Redis} {pc : Pc} {plan : Plan}
    (h : pc.act cfg o db r = .goto (.planInsert e plan)) :
    ∃ userRequest text, pc = .planLlm e userRequest ∧ o.llm = .ok text ∧
      plan = planOf cfg userRequest text := by
  have hplans := (Pc.moves_of_act h).plans_le e
  cases pc with
  | planLlm e' userRequest =>
      simp only [Pc.act] at h
      split at h
      · simp at h
      · next text hllm =>
          obtain ⟨rfl, rfl⟩ := Pc.planInsert.inj (Act.goto.inj h)
          exact ⟨userRequest, text, rfl, hllm, rfl⟩
  | planInsert => simp [Pc.act] at h
  | _ => simp [Pc.plans] at hplans

theorem Pc.Commits.ne_planInsert {o : Oracle} {db : Db} {pc : Pc} {τ : Txn} {k : Nat → Pc}
    (e : ExecutionId) (plan : Plan) (n : Nat) (h : pc.Commits cfg o db τ k) :
    k n ≠ .planInsert e plan := by
  intro heq
  have hplans : (k n).plans e = 1 := by rw [heq, Pc.plans, if_pos rfl]
  cases h with
  | planGuard =>
      dsimp only at heq
      split at heq <;> cases heq
  | _ => simp [Pc.plans, ↓apply_ite (Pc.plans e)] at hplans

/-- Every plan about to be inserted was made of the execution's request. -/
def PlansMade (cfg : Config) (s : State) : Prop :=
  ∀ pc ∈ s.handlers, ∀ e plan, pc = .planInsert e plan →
    ∃ userRequest text, s.db.Requested e userRequest ∧ plan = planOf cfg userRequest text

theorem PlansMade.step (hinv : Inv s) (h : PlansMade cfg s) (hs : s.step cfg ev = some s') :
    PlansMade cfg s' := by
  have hzero : ∀ {pc : Pc}, (∀ e, pc.plans e = 0) → ∀ e plan, pc ≠ .planInsert e plan := by
    rintro pc hz e plan rfl
    simpa [Pc.plans] using hz e
  refine State.forall_handlers (P := fun pc => ∀ e plan, pc = .planInsert e plan →
    ∃ userRequest text, s.db.Requested e userRequest ∧ plan = planOf cfg userRequest text)
    hs h ?_ ?_ ?_ ?_ ?_ ?_ fun _ _ hdone => by cases hdone
  · intro pc _ hmade e plan heq
    obtain ⟨userRequest, text, hreq, hplan⟩ := hmade e plan heq
    exact ⟨userRequest, text, hreq.mono (hinv.step hs).2, hplan⟩
  · intro pc hstart e plan heq
    refine absurd heq (hzero (fun e => ?_) e plan)
    cases hstart with
    | dequeue job | redeliver job => exact Job.handler_plans e job
    | createExecution | promoteDue | recoverStaleTasks => rfl
  · rintro hid o pc pc' rfl hpc hact hdb - e plan rfl
    obtain ⟨userRequest, text, rfl, -, rfl⟩ := planned_of_act hact
    exact ⟨userRequest, text, hdb ▸ hinv.knows _ (List.mem_of_getElem? hpc), rfl⟩
  · intro hid o pc τ k _ _ hcommit _ _ e plan heq
    exact absurd heq (hcommit.ne_planInsert e plan _)
  · intro hid o pc c k _ _ hsend _ _ e plan heq
    exact absurd heq (hzero (fun e => hsend.plans_eq e _) e plan)
  · intro hid exc pc _ _ _ e plan heq
    exact absurd heq (hzero (fun e => Pc.raised_plans e exc pc) e plan)

theorem reachable_plansMade {E : State → Event → Prop} (h : (queueMode cfg).Reachable E s) :
    PlansMade cfg s := by
  refine h.invariant (by simp [queueMode, PlansMade]) ?_
  intro s ev s' hr hi _ hs
  exact hi.step (reachable_inv hr) hs

/-! ## Planned once and all at once -/

/-- The history of an execution's planning: nothing was inserted, or one plan. -/
def PlannedOnce (cfg : Config) (e : ExecutionId) (trace : List (State × Event)) (s : State) : Prop :=
  (trace.filterMap (insertion e) = [] ∧ s.db.tasksOf e = []) ∨
    ∃ plan, trace.filterMap (insertion e) = [plan] ∧ s.db.Plans e plan ∧
      ∃ userRequest text, s.db.Requested e userRequest ∧ plan = planOf cfg userRequest text

theorem Db.Plans.tasksOf_ne_nil {db : Db} {plan : Plan} (h : db.Plans e plan) : db.tasksOf e ≠ [] := by
  intro hnil
  have := h.subtasks
  rw [hnil] at this
  exact plan.ne_nil this.symm

theorem PlannedOnce.step (hinv : Inv s) (hmade : PlansMade cfg s) (h : PlannedOnce cfg e trace s)
    (hs : s.step cfg ev = some s') : PlannedOnce cfg e (trace ++ [(s, ev)]) s' := by
  have hle := (hinv.step hs).2
  rw [PlannedOnce, List.filterMap_append]
  rcases plannedColumns_step (e := e) hinv hs with ⟨hnone, hcols⟩ | ⟨plan, hsome, hnil, hplans⟩
  · have hsingle : [(s, ev)].filterMap (insertion e) = [] := by simp [hnone]
    rw [hsingle, List.append_nil]
    rcases h with ⟨hempty, hrows⟩ | ⟨plan, hone, hplans, userRequest, text, hreq, hplan⟩
    · refine .inl ⟨hempty, ?_⟩
      rw [← Db.plannedColumns_eq_nil, hcols, Db.plannedColumns_eq_nil, hrows]
    · exact .inr ⟨plan, hone, hplans.congr hcols, userRequest, text, hreq.mono hle, hplan⟩
  · have hsingle : [(s, ev)].filterMap (insertion e) = [plan] := by simp [hsome]
    rw [hsingle]
    rcases h with ⟨hempty, -⟩ | ⟨plan', -, hplans', -⟩
    · obtain ⟨hid, o, rfl, hpc⟩ := insertion_eq_some hsome
      obtain ⟨userRequest, text, hreq, hplan⟩ := hmade _ (List.mem_of_getElem? hpc) e plan rfl
      exact .inr ⟨plan, by rw [hempty, List.nil_append], hplans, userRequest, text, hreq.mono hle, hplan⟩
    · exact absurd hnil hplans'.tasksOf_ne_nil

theorem plannedOnce_run {E : State → Event → Prop} (h : (queueMode cfg).Run E trace s)
    (e : ExecutionId) : PlannedOnce cfg e trace s := by
  refine Lts.Run.invariant (I := PlannedOnce cfg e) (.inl ⟨rfl, rfl⟩) ?_ h
  intro trace s ev s' hrun hi _ hs
  exact hi.step (reachable_inv hrun.reachable) (reachable_plansMade hrun.reachable) hs

/-- Once an execution has rows, no step changes the planner's columns of them. -/
theorem plannedColumns_path {E : State → Event → Prop} (h : (queueMode cfg).Reachable E s)
    (hplanned : s.db.Planned e) (hp : (queueMode cfg).Path E s s') :
    s'.db.plannedColumns e = s.db.plannedColumns e := by
  refine h.stable (R := fun s s' => s'.db.plannedColumns e = s.db.plannedColumns e) rfl ?_ hp
  intro u ev u' hr heq _ hs
  rcases plannedColumns_step (e := e) (reachable_inv hr) hs with ⟨-, hcols⟩ | ⟨plan, -, hnil, -⟩
  · rw [hcols, heq]
  · have hempty : s.db.tasksOf e = [] := by
      rw [← Db.plannedColumns_eq_nil, ← heq, Db.plannedColumns_eq_nil, hnil]
    exact absurd hplanned (Db.not_planned_iff.2 hempty)

/-- In every run, whatever is delivered again, raises or stops: nothing was inserted for the execution
    and it has no rows, or one plan was, which the planner made of its request, and its rows are that
    plan's, at the positions `0 .. n-1` with dependencies on earlier ones; and once it has rows, every
    later state has the same rows with the same columns. -/
theorem planned_once {E : State → Event → Prop} (h : (queueMode cfg).Run E trace s)
    (e : ExecutionId) :
    ((trace.filterMap (insertion e) = [] ∧ s.db.tasksOf e = []) ∨
      ∃ plan, trace.filterMap (insertion e) = [plan] ∧
        (∃ x ∈ s.db.executions, x.id = e ∧ ∃ text, plan = planOf cfg x.userRequest text) ∧
        1 ≤ plan.subtasks.length ∧ (s.db.tasksOf e).map Task.subtask = plan.subtasks ∧
        (s.db.tasksOf e).map Task.orderIndex = (List.range plan.subtasks.length).map Int.ofNat ∧
        ∀ t ∈ s.db.tasksOf e, ∀ i ∈ t.dependsOn, 0 ≤ i ∧ i < t.orderIndex) ∧
    (s.db.tasksOf e ≠ [] → ∀ s', (queueMode cfg).Path E s s' →
      s'.db.plannedColumns e = s.db.plannedColumns e) := by
  refine ⟨?_, fun hne s' hp => ?_⟩
  · rcases plannedOnce_run h e with hnone | ⟨plan, hone, hplans, userRequest, text, hreq, hplan⟩
    · exact .inl hnone
    · obtain ⟨x, hx, hid, rfl⟩ := hreq
      have hwf := (reachable_inv h.reachable).wellFormed
      refine .inr ⟨plan, hone, ⟨x, hx, hid, text, hplan⟩, List.length_pos_iff.2 plan.ne_nil,
        hplans.subtasks, hplans.positions, fun t ht i hi => ?_⟩
      obtain ⟨hmem, -⟩ := Db.mem_tasksOf.1 ht
      obtain ⟨hlt, d, hd, -, rfl⟩ := hwf.depends t hmem i hi
      exact ⟨hwf.nonneg d hd, hlt⟩
  · refine plannedColumns_path h.reachable ?_ hp
    by_contra hnot
    exact hne (Db.not_planned_iff.1 hnot)

/-- A second plan job for the same execution, delivered while the first is planning. -/
def duplicatePlanning : List Event :=
  .createExecution "q" 0 :: runs 0 1 { now := 0 } ++ .dequeue :: runs 1 3 { now := 0 } ++
    .redeliver (.plan 1) :: runs 2 3 { now := 0 } ++ runs 1 19 { now := 0 }

theorem planned_once_duplicates :
    ∃ trace s, (queueMode (fallbackConfig {})).Run anyEvent trace s ∧
      (trace.filterMap (insertion 1)).length = 1 ∧
      ∀ s', (queueMode (fallbackConfig {})).Path anyEvent s s' →
        s'.db.plannedColumns 1 = s.db.plannedColumns 1 := by
  obtain ⟨trace, s, hrun, hcheck⟩ := (queueMode (fallbackConfig {})).exists_run (E := anyEvent)
    (fun _ _ => true)
    (fun trace s => (trace.filterMap (insertion 1)).length == 1 && !(s.db.tasksOf 1).isEmpty)
    duplicatePlanning (fun _ _ _ => trivial) (by decide +kernel)
  obtain ⟨hone, hne⟩ : (trace.filterMap (insertion 1)).length = 1 ∧ s.db.tasksOf 1 ≠ [] := by
    simpa using hcheck
  exact ⟨trace, s, hrun, hone, (planned_once hrun 1).2 hne⟩

end AgenticExecution
