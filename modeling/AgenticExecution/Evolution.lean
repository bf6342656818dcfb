import AgenticExecution.Database

set_option autoImplicit false

/-! # How the database evolves

`Task.Le t t'` relates a row to what it may have become: the planner's columns never change, a
finished task stays as it finished, and a task that was picked up is never PENDING again. `Db.Le`
lifts it to the tables: no row disappears, and no row is added to an execution that has rows. Every
read a handler acted on stays true in this sense, so this is the order along which all knowledge of
a handler persists. -/

namespace AgenticExecution

/-! ## Task rows -/

/-- The columns `plan_execution` fixes when it inserts the row. -/
def Task.fixed (t : Task) : TaskId × ExecutionId × AgentType × String × Int × List Int :=
  (t.id, t.executionId, t.agentType, t.description, t.orderIndex, t.dependsOn)

/-- How a row may change while the platform runs. -/
structure Task.Le (t t' : Task) : Prop where
  fixed : t'.fixed = t.fixed
  enqueued : t.enqueued = true → t'.enqueued = true
  claimed : t.status ≠ .pending → t'.status ≠ .pending
  failed : t.status = .failed → t'.status = .failed
  completed : t.status = .completed → t'.status = .completed ∧ t'.totalTokens = t.totalTokens ∧
    t'.costUsd = t.costUsd ∧ t'.toolCalls = t.toolCalls

namespace Task.Le

variable {t t' t'' : Task}

theorem refl (t : Task) : Task.Le t t :=
  ⟨rfl, fun h => h, fun h => h, fun h => h, fun h => ⟨h, rfl, rfl, rfl⟩⟩

theorem trans (h : Task.Le t t') (h' : Task.Le t' t'') : Task.Le t t'' where
  fixed := h'.fixed.trans h.fixed
  enqueued he := h'.enqueued (h.enqueued he)
  claimed hc := h'.claimed (h.claimed hc)
  failed hf := h'.failed (h.failed hf)
  completed hc := by
    obtain ⟨hs, htok, hcost, hcalls⟩ := h.completed hc
    obtain ⟨hs', htok', hcost', hcalls'⟩ := h'.completed hs
    exact ⟨hs', htok'.trans htok, hcost'.trans hcost, hcalls'.trans hcalls⟩

theorem id (h : Task.Le t t') : t'.id = t.id := congrArg (·.1) h.fixed
theorem executionId (h : Task.Le t t') : t'.executionId = t.executionId := congrArg (·.2.1) h.fixed
theorem agentType (h : Task.Le t t') : t'.agentType = t.agentType := congrArg (·.2.2.1) h.fixed
theorem description (h : Task.Le t t') : t'.description = t.description :=
  congrArg (·.2.2.2.1) h.fixed
theorem orderIndex (h : Task.Le t t') : t'.orderIndex = t.orderIndex :=
  congrArg (·.2.2.2.2.1) h.fixed
theorem dependsOn (h : Task.Le t t') : t'.dependsOn = t.dependsOn := congrArg (·.2.2.2.2.2) h.fixed

/-- A finished task keeps its status. -/
theorem terminal (h : Task.Le t t') (ht : t.status.isTerminal = true) : t'.status = t.status := by
  cases hs : t.status with
  | completed => exact (h.completed hs).1
  | failed => exact h.failed hs
  | pending | running | retrying => simp [hs, TaskStatus.isTerminal] at ht

end Task.Le

@[simp] theorem TaskUpdate.set_fixed (now : Time) (u : TaskUpdate) (t : Task) :
    (u.set now t).fixed = t.fixed := by
  cases u <;> rfl

/-- Every guarded update of the scheduler moves a row forward. -/
theorem TaskUpdate.le {now : Time} {u : TaskUpdate} {t : Task} (hg : u.guard t = true) :
    Task.Le t (u.set now t) := by
  cases u
  all_goals
    refine ⟨rfl, ?_, ?_, ?_, ?_⟩ <;> cases hs : t.status <;>
      simp_all [TaskUpdate.guard, TaskUpdate.set, TaskStatus.claimable]

/-! ## The tables -/

/-- The guarded task update a transaction contains. -/
def Txn.taskUpdate? : Txn → Option (TaskId × TaskUpdate)
  | .updateTask tid u => some (tid, u)
  | .persistSuccess tid _ stamp metrics => some (tid, .completeTask stamp metrics)
  | .updateExecution .. | .insertTasks .. => none

namespace Db

/-- A transaction that respects the life cycle: it plans an execution at most once and never makes
    one PENDING again. -/
def Respects (db : Db) : Txn → Prop
  | .updateExecution _ (.guardExecution _ new) => new ≠ .pending
  | .insertTasks e _ => ∀ t ∈ db.tasks, t.executionId ≠ e
  | _ => True

/-- How the tables may change while the platform runs. -/
structure Le (db db' : Db) : Prop where
  execution : ∀ x ∈ db.executions, ∃ x' ∈ db'.executions, x'.id = x.id ∧
    x'.userRequest = x.userRequest ∧ (x.status ≠ .pending → x'.status ≠ .pending)
  task : ∀ t ∈ db.tasks, ∃ t' ∈ db'.tasks, Task.Le t t'
  noNewTask : ∀ t' ∈ db'.tasks,
    (∃ t ∈ db.tasks, Task.Le t t') ∨ ∀ t ∈ db.tasks, t.executionId ≠ t'.executionId
  result : ∀ r ∈ db.results, r ∈ db'.results

theorem Le.refl (db : Db) : db.Le db where
  execution x hx := ⟨x, hx, rfl, rfl, fun h => h⟩
  task t ht := ⟨t, ht, .refl t⟩
  noNewTask t ht := .inl ⟨t, ht, .refl t⟩
  result _ hr := hr

theorem Le.trans {db db' db'' : Db} (h : db.Le db') (h' : db'.Le db'') : db.Le db'' where
  execution x hx := by
    obtain ⟨x', hx', hid, hreq, hs⟩ := h.execution x hx
    obtain ⟨x'', hx'', hid', hreq', hs'⟩ := h'.execution x' hx'
    exact ⟨x'', hx'', hid'.trans hid, hreq'.trans hreq, fun hne => hs' (hs hne)⟩
  task t ht := by
    obtain ⟨t', ht', hle⟩ := h.task t ht
    obtain ⟨t'', ht'', hle'⟩ := h'.task t' ht'
    exact ⟨t'', ht'', hle.trans hle'⟩
  noNewTask t'' ht'' := by
    rcases h'.noNewTask t'' ht'' with ⟨t', ht', hle'⟩ | hnew
    · rcases h.noNewTask t' ht' with ⟨t, ht, hle⟩ | hnew
      · exact .inl ⟨t, ht, hle.trans hle'⟩
      · exact .inr fun t ht => hle'.executionId ▸ hnew t ht
    · refine .inr fun t ht => ?_
      obtain ⟨t', ht', hle⟩ := h.task t ht
      exact hle.executionId ▸ hnew t' ht'
  result r hr := h'.result r (h.result r hr)

variable {db db' : Db} {now : Time}

/-- The rows after a guarded task update: the old ones, each updated or not. -/
theorem mem_updateTask {tid : TaskId} {u : TaskUpdate} {t' : Task} :
    t' ∈ (db.updateTask now tid u).tasks ↔
      ∃ t ∈ db.tasks, t' = if t.id = tid ∧ u.guard t then u.set now t else t :=
  Table.mem_update (u.set_id now)

/-- A row that passes the guard is rewritten. -/
theorem set_mem_updateTask {t : Task} (ht : t ∈ db.tasks) {tid : TaskId} {u : TaskUpdate}
    (hid : t.id = tid) (hg : u.guard t = true) : u.set now t ∈ (db.updateTask now tid u).tasks :=
  mem_updateTask.2 ⟨t, ht, by rw [if_pos ⟨hid, hg⟩]⟩

/-- Any other row stays. -/
theorem mem_updateTask_of_not {t : Task} (ht : t ∈ db.tasks) {tid : TaskId} {u : TaskUpdate}
    (hg : t.id = tid → u.guard t = false) : t ∈ (db.updateTask now tid u).tasks :=
  mem_updateTask.2 ⟨t, ht, by rw [if_neg fun h => by simp [hg h.1] at h]⟩

/-- The update of a row that passes the guard reports one row. -/
theorem rowcount_updateTask {t : Task} (ht : t ∈ db.tasks) {tid : TaskId} {u : TaskUpdate}
    (hid : t.id = tid) (hg : u.guard t = true) : db.rowcount (.updateTask tid u) = 1 :=
  Table.rowcount_eq_one_iff.2 ⟨t, ht, hid, hg⟩

theorem mem_updateExecution {e : ExecutionId} {u : ExecutionUpdate} {x' : Execution} :
    x' ∈ (db.updateExecution now e u).executions ↔
      ∃ x ∈ db.executions, x' = if x.id = e ∧ u.guard x then u.set now x else x :=
  Table.mem_update (u.set_id now)

theorem le_updateTask (db : Db) (now : Time) (tid : TaskId) (u : TaskUpdate) :
    db.Le (db.updateTask now tid u) where
  execution x hx := ⟨x, hx, rfl, rfl, fun h => h⟩
  task t ht := by
    refine ⟨_, Table.update_mem (u.set_id now) ht, ?_⟩
    split
    · next h => exact TaskUpdate.le h.2
    · exact .refl t
  noNewTask t' ht' := by
    obtain ⟨t, ht, rfl⟩ := mem_updateTask.1 ht'
    refine .inl ⟨t, ht, ?_⟩
    split
    · next h => exact TaskUpdate.le h.2
    · exact .refl t
  result _ hr := hr

theorem le_updateExecution {e : ExecutionId} {u : ExecutionUpdate}
    (h : db.Respects (.updateExecution e u)) : db.Le (db.updateExecution now e u) where
  execution x hx := by
    refine ⟨_, Table.update_mem (u.set_id now) hx, ?_⟩
    split
    · next hg => cases u <;> simp_all [ExecutionUpdate.set, Respects]
    · exact ⟨rfl, rfl, fun h => h⟩
  task t ht := ⟨t, ht, .refl t⟩
  noNewTask t ht := .inl ⟨t, ht, .refl t⟩
  result _ hr := hr

theorem le_insertResult (db : Db) (result : TaskResult) : db.Le (db.insertResult result) where
  execution x hx := ⟨x, hx, rfl, rfl, fun h => h⟩
  task t ht := ⟨t, ht, .refl t⟩
  noNewTask t ht := .inl ⟨t, ht, .refl t⟩
  result r hr := by
    cases hins : db.results.insert? result with
    | none => simpa [insertResult, hins] using hr
    | some results => simpa [insertResult, hins] using (Table.mem_insert? hins).2 (.inl hr)

theorem mem_plannedRows {e : ExecutionId} {plan : Plan} {r : Task} :
    r ∈ plan.subtasks.mapIdx (db.plannedTask e now) ↔
      ∃ i s, plan.subtasks[i]? = some s ∧ r = db.plannedTask e now i s := by
  simp only [List.mem_iff_getElem?, List.getElem?_mapIdx, Option.map_eq_some_iff]
  constructor
  · rintro ⟨i, s, hs, rfl⟩
    exact ⟨i, s, hs, rfl⟩
  · rintro ⟨i, s, hs, rfl⟩
    exact ⟨i, s, hs, rfl⟩

/-- The batch insert of `plan_execution` adds its rows behind the old ones. -/
theorem rows_insertTasks (db : Db) (now : Time) (e : ExecutionId) (plan : Plan) :
    (db.insertTasks now e plan).tasks.rows =
      db.tasks.rows ++ plan.subtasks.mapIdx (db.plannedTask e now) := by
  refine Table.rows_insertAll ?_ ?_
  · intro r hr r' hr'
    obtain ⟨i, s, -, rfl⟩ := mem_plannedRows.1 hr
    exact Nat.ne_of_lt (Nat.lt_add_right i (Table.key_lt_fresh hr'))
  · rw [List.nodup_iff_getElem?_ne_getElem?]
    intro i j hij hj
    simp only [List.length_map, List.length_mapIdx, List.getElem?_map, List.getElem?_mapIdx] at hj ⊢
    rw [List.getElem?_eq_getElem hj, List.getElem?_eq_getElem (hij.trans hj)]
    simp only [Option.map_some, plannedTask, ne_eq, Option.some.injEq, Nat.add_left_cancel_iff]
    exact Nat.ne_of_lt hij

/-- The rows after the batch insert of `plan_execution`. -/
theorem mem_insertTasks {e : ExecutionId} {plan : Plan} {t : Task} :
    t ∈ (db.insertTasks now e plan).tasks ↔
      t ∈ db.tasks ∨ ∃ i s, plan.subtasks[i]? = some s ∧ t = db.plannedTask e now i s := by
  rw [Table.mem_def, rows_insertTasks, List.mem_append, mem_plannedRows, Table.mem_def]

theorem le_insertTasks {e : ExecutionId} {plan : Plan} (h : ∀ t ∈ db.tasks, t.executionId ≠ e) :
    db.Le (db.insertTasks now e plan) where
  execution x hx := ⟨x, hx, rfl, rfl, fun h => h⟩
  task t ht := ⟨t, mem_insertTasks.2 (.inl ht), .refl t⟩
  noNewTask t' ht' := by
    rcases mem_insertTasks.1 ht' with ht | ⟨i, s, -, rfl⟩
    · exact .inl ⟨t', ht, .refl t'⟩
    · exact .inr h
  result _ hr := hr

/-- Every transaction that respects the life cycle moves the database forward. -/
theorem le_commit {τ : Txn} (h : db.Respects τ) : db.Le (db.commit now τ) := by
  cases τ with
  | updateExecution e u => exact le_updateExecution h
  | updateTask tid u => exact le_updateTask db now tid u
  | insertTasks e plan => exact le_insertTasks h
  | persistSuccess tid output stamp metrics =>
      exact (le_insertResult db _).trans (le_updateTask _ now tid _)

/-! ## The change of one row -/

/-- A planned row gets a key no row has. -/
theorem plannedTask_id_ne {t : Task} (ht : t ∈ db.tasks) (e : ExecutionId) (i : Nat)
    (s : PlannedSubtask) : (db.plannedTask e now i s).id ≠ t.id :=
  Nat.ne_of_gt (Nat.lt_of_lt_of_le (Table.key_lt_fresh ht) (Nat.le_add_right _ _))

/-- A row after a commit was there before and passed no guard, was rewritten by an update whose guard
    it passed, or was planned. -/
theorem mem_commit {τ : Txn} {t' : Task} (h : t' ∈ (db.commit now τ).tasks) :
    (t' ∈ db.tasks ∧ ∀ u, τ.taskUpdate? = some (t'.id, u) → u.guard t' = false) ∨
      (∃ t ∈ db.tasks, ∃ u, τ.taskUpdate? = some (t.id, u) ∧ u.guard t = true ∧
        t' = u.set now t) ∨
      ∃ e plan i s, τ = .insertTasks e plan ∧ plan.subtasks[i]? = some s ∧
        t' = db.plannedTask e now i s := by
  have hupdate : ∀ {db' : Db} {tid : TaskId} {u : TaskUpdate}, db'.tasks = db.tasks →
      τ.taskUpdate? = some (tid, u) → t' ∈ (db'.updateTask now tid u).tasks →
      (t' ∈ db.tasks ∧ ∀ u, τ.taskUpdate? = some (t'.id, u) → u.guard t' = false) ∨
        ∃ t ∈ db.tasks, ∃ u, τ.taskUpdate? = some (t.id, u) ∧ u.guard t = true ∧
          t' = u.set now t := by
    intro db' tid u hdb hu ht'
    obtain ⟨t, ht, rfl⟩ := mem_updateTask.1 ht'
    rw [hdb] at ht
    split
    · next hg => exact .inr ⟨t, ht, u, hg.1 ▸ hu, hg.2, rfl⟩
    · next hg =>
        refine .inl ⟨ht, fun u' hu' => ?_⟩
        obtain ⟨rfl, rfl⟩ := Prod.mk.inj (Option.some.inj (hu.symm.trans hu'))
        simpa using hg
  cases τ with
  | updateExecution => exact .inl ⟨h, nofun⟩
  | updateTask tid u => exact (hupdate rfl rfl h).imp_right .inl
  | insertTasks e plan =>
      rcases mem_insertTasks.1 h with h | ⟨i, s, hs, rfl⟩
      · exact .inl ⟨h, nofun⟩
      · exact .inr (.inr ⟨e, plan, i, s, rfl, hs, rfl⟩)
  | persistSuccess tid output stamp metrics => exact (hupdate rfl rfl h).imp_right .inl

/-- An execution row after a commit passed no guard, or was rewritten by an update it passed. -/
theorem mem_commit_executions {τ : Txn} {x' : Execution} (hx' : x' ∈ (db.commit now τ).executions) :
    (x' ∈ db.executions ∧ ∀ u, τ = .updateExecution x'.id u → u.guard x' = false) ∨
      ∃ x ∈ db.executions, ∃ u, τ = .updateExecution x.id u ∧ u.guard x = true ∧
        x' = u.set now x := by
  cases τ with
  | updateExecution e u =>
      obtain ⟨x, hx, rfl⟩ := mem_updateExecution.1 hx'
      split
      · next hg =>
          obtain ⟨rfl, hg⟩ := hg
          exact .inr ⟨x, hx, u, rfl, hg, rfl⟩
      · next hg =>
          refine .inl ⟨hx, fun u' hu' => ?_⟩
          obtain ⟨rfl, rfl⟩ := Txn.updateExecution.inj hu'
          simpa using hg
  | updateTask | insertTasks | persistSuccess => exact .inl ⟨hx', nofun⟩

/-! ## Knowledge that persists

What a handler learns from one read or one successful transaction, and keeps knowing. -/

/-- The execution exists. -/
def Submitted (db : Db) (e : ExecutionId) : Prop := ∃ x ∈ db.executions, x.id = e

/-- The execution exists and asks for `userRequest`. -/
def Requested (db : Db) (e : ExecutionId) (userRequest : String) : Prop :=
  ∃ x ∈ db.executions, x.id = e ∧ x.userRequest = userRequest

/-- The execution has task rows. -/
def Planned (db : Db) (e : ExecutionId) : Prop := ∃ t ∈ db.tasks, t.executionId = e

/-- The task was marked as enqueued. -/
def Enqueued (db : Db) (tid : TaskId) : Prop := ∃ t ∈ db.tasks, t.id = tid ∧ t.enqueued = true

/-- The task left PENDING. -/
def Claimed (db : Db) (tid : TaskId) : Prop := ∃ t ∈ db.tasks, t.id = tid ∧ t.status ≠ .pending

/-- The row was read: the task has evolved from it. -/
def Read (db : Db) (t : Task) : Prop := ∃ t' ∈ db.tasks, Task.Le t t'

/-- A result of the task is stored. -/
def Stored (db : Db) (tid : TaskId) : Prop := ∃ r ∈ db.results, r.taskId = tid

/-- The rows are a complete read of the execution's tasks. -/
structure Loaded (db : Db) (e : ExecutionId) (rows : List Task) : Prop where
  nodup : (rows.map Task.id).Nodup
  read : ∀ t ∈ rows, t.executionId = e ∧ db.Read t
  complete : ∀ t' ∈ db.tasks, t'.executionId = e → ∃ t ∈ rows, Task.Le t t'

section Mono

variable (h : db.Le db')
include h

theorem Submitted.mono {e : ExecutionId} (hx : db.Submitted e) : db'.Submitted e := by
  obtain ⟨x, hx, rfl⟩ := hx
  obtain ⟨x', hx', hid, -, -⟩ := h.execution x hx
  exact ⟨x', hx', hid⟩

theorem Requested.mono {e : ExecutionId} {req : String} (hx : db.Requested e req) :
    db'.Requested e req := by
  obtain ⟨x, hx, rfl, rfl⟩ := hx
  obtain ⟨x', hx', hid, hreq, -⟩ := h.execution x hx
  exact ⟨x', hx', hid, hreq⟩

theorem Planned.mono {e : ExecutionId} (ht : db.Planned e) : db'.Planned e := by
  obtain ⟨t, ht, rfl⟩ := ht
  obtain ⟨t', ht', hle⟩ := h.task t ht
  exact ⟨t', ht', hle.executionId⟩

theorem Enqueued.mono {tid : TaskId} (ht : db.Enqueued tid) : db'.Enqueued tid := by
  obtain ⟨t, ht, rfl, henq⟩ := ht
  obtain ⟨t', ht', hle⟩ := h.task t ht
  exact ⟨t', ht', hle.id, hle.enqueued henq⟩

theorem Claimed.mono {tid : TaskId} (ht : db.Claimed tid) : db'.Claimed tid := by
  obtain ⟨t, ht, rfl, hs⟩ := ht
  obtain ⟨t', ht', hle⟩ := h.task t ht
  exact ⟨t', ht', hle.id, hle.claimed hs⟩

theorem Read.mono {t : Task} (ht : db.Read t) : db'.Read t := by
  obtain ⟨u, hu, hle⟩ := ht
  obtain ⟨u', hu', hle'⟩ := h.task u hu
  exact ⟨u', hu', hle.trans hle'⟩

theorem Stored.mono {tid : TaskId} (hr : db.Stored tid) : db'.Stored tid := by
  obtain ⟨r, hr, rfl⟩ := hr
  exact ⟨r, h.result r hr, rfl⟩

theorem Loaded.mono {e : ExecutionId} {rows : List Task} (hp : db.Planned e)
    (hl : db.Loaded e rows) : db'.Loaded e rows where
  nodup := hl.nodup
  read t ht := ⟨(hl.read t ht).1, (hl.read t ht).2.mono h⟩
  complete t' ht' he := by
    rcases h.noNewTask t' ht' with ⟨u, hu, hle⟩ | hnew
    · obtain ⟨t, ht, hle'⟩ := hl.complete u hu (hle.executionId ▸ he)
      exact ⟨t, ht, hle'.trans hle⟩
    · obtain ⟨u, hu, rfl⟩ := hp
      exact absurd he.symm (hnew u hu)

end Mono

/-- A task row of a planned execution was there before. -/
theorem Le.task_origin {e : ExecutionId} (h : db.Le db') (hplanned : db.Planned e) {t' : Task}
    (ht' : t' ∈ db'.tasks) (he : t'.executionId = e) : ∃ t ∈ db.tasks, Task.Le t t' := by
  rcases h.noNewTask t' ht' with hold | hnew
  · exact hold
  · obtain ⟨t, ht, hte⟩ := hplanned
    exact absurd (hte.trans he.symm) (hnew t ht)

theorem read_of_mem {t : Task} (h : t ∈ db.tasks) : db.Read t := ⟨t, h, .refl t⟩

/-- A read row and a stored one with the same id belong together. -/
theorem Read.le_of_mem {t t' : Task} (h : db.Read t) (ht' : t' ∈ db.tasks) (hid : t'.id = t.id) :
    Task.Le t t' := by
  obtain ⟨u, hu, hle⟩ := h
  rwa [Table.eq_of_key_eq hu ht' (hle.id.trans hid.symm)] at hle

theorem loaded_reorder (db : Db) (e : ExecutionId) (order : List Nat) :
    db.Loaded e (Table.reorder order (db.tasksOf e)) where
  nodup := ((Table.reorder_perm order _).map Task.id).nodup_iff.2 (db.tasksOf_nodup e)
  read t ht := by
    rw [Table.mem_reorder, mem_tasksOf] at ht
    exact ⟨ht.2, read_of_mem ht.1⟩
  complete t' ht' he :=
    ⟨t', Table.mem_reorder.2 (mem_tasksOf.2 ⟨ht', he⟩), .refl t'⟩

end Db

end AgenticExecution
