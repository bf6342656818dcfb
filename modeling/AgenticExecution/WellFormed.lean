import AgenticExecution.Evolution

set_option autoImplicit false

/-! # Well-formed databases

The invariant of the tables. Positions are unique within an execution and dependencies point to
earlier ones (the planner's work); a task that is not enqueued is PENDING, and one that is enqueued
and not FAILED has every dependency COMPLETED (the scheduling pass's work); a COMPLETED task has a
result, and a result belongs to a finished task (`_persist_success`'s work). `Admits` is what a
handler has to know before it may commit a transaction. -/

namespace AgenticExecution

/-- `d` is one of the tasks `t` depends on. -/
def Task.DependsOn (t d : Task) : Prop := d.executionId = t.executionId ∧ d.orderIndex ∈ t.dependsOn

theorem Task.DependsOn.of_le {t t' d d' : Task} (ht : Task.Le t t') (hd : Task.Le d d')
    (h : t'.DependsOn d') : t.DependsOn d := by
  obtain ⟨he, hi⟩ := h
  exact ⟨hd.executionId ▸ ht.executionId ▸ he, hd.orderIndex ▸ ht.dependsOn ▸ hi⟩

theorem Task.DependsOn.to_le {t t' d d' : Task} (ht : Task.Le t t') (hd : Task.Le d d')
    (h : t.DependsOn d) : t'.DependsOn d' := by
  obtain ⟨he, hi⟩ := h
  exact ⟨by rw [hd.executionId, ht.executionId, he], by rw [hd.orderIndex, ht.dependsOn]; exact hi⟩

/-- A FAILED dependency stays FAILED. -/
theorem Db.Le.failed_dependency {db db' : Db} (hle : db.Le db') {t t' : Task} (htt' : Task.Le t t')
    (h : ∃ d ∈ db.tasks, t.DependsOn d ∧ d.status = .failed) :
    ∃ d ∈ db'.tasks, t'.DependsOn d ∧ d.status = .failed := by
  obtain ⟨d, hd, hdep, hds⟩ := h
  obtain ⟨d', hd', hled⟩ := hle.task d hd
  exact ⟨d', hd', hdep.to_le htt' hled, hled.failed hds⟩

namespace Db

/-- What holds of a task row. -/
structure RowOk (db : Db) (t : Task) : Prop where
  fresh : t.enqueued = false → t.status = .pending
  ready : t.enqueued = true → t.status ≠ .failed →
    ∀ d ∈ db.tasks, t.DependsOn d → d.status = .completed
  stored : t.status = .completed → db.Stored t.id

/-- The part of the invariant about the task rows. -/
structure TasksOk (db : Db) : Prop where
  owner : ∀ t ∈ db.tasks, db.Submitted t.executionId
  index : ∀ t ∈ db.tasks, ∀ t' ∈ db.tasks, t.executionId = t'.executionId →
    t.orderIndex = t'.orderIndex → t = t'
  depends : ∀ t ∈ db.tasks, ∀ i ∈ t.dependsOn, i < t.orderIndex ∧
    ∃ d ∈ db.tasks, d.executionId = t.executionId ∧ d.orderIndex = i
  nonneg : ∀ t ∈ db.tasks, 0 ≤ t.orderIndex
  rows : ∀ t ∈ db.tasks, db.RowOk t

/-- What holds of the tables. -/
structure WellFormed (db : Db) : Prop extends TasksOk db where
  result : ∀ r ∈ db.results, ∃ t ∈ db.tasks, t.id = r.taskId ∧ t.status.isTerminal = true

/-- What a handler knows when it commits the transaction. -/
def Admits (db : Db) : Txn → Prop
  | .updateExecution _ (.guardExecution _ new) => new ≠ .pending
  | .updateExecution .. => True
  | .updateTask tid .claimTask => db.Enqueued tid
  | .updateTask tid .markEnqueued =>
    ∀ t ∈ db.tasks, t.id = tid → ∀ d ∈ db.tasks, t.DependsOn d → d.status = .completed
  | .updateTask tid .completeStored => db.Stored tid
  | .updateTask tid (.completeTask ..) => db.Stored tid
  | .updateTask .. => True
  | .insertTasks e _ => db.Submitted e ∧ ¬ db.Planned e
  | .persistSuccess tid .. => db.Claimed tid ∧ db.results.find? tid = none

variable {db db' : Db} {now : Time}

theorem Admits.respects {τ : Txn} (h : db.Admits τ) : db.Respects τ := by
  cases τ with
  | updateExecution e u => cases u <;> simp_all [Admits, Respects]
  | insertTasks e plan => exact fun t ht he => h.2 ⟨t, ht, he⟩
  | updateTask | persistSuccess => trivial

theorem wellFormed_empty : WellFormed {} where
  owner := by simp
  index := by simp
  depends := by simp
  nonneg := by simp
  rows := by simp
  result := by simp

theorem RowOk.mono (h : db.Le db') {t : Task} (hp : db.Planned t.executionId)
    (ht : db.RowOk t) : db'.RowOk t where
  fresh := ht.fresh
  ready henq hs d' hd' hdep := by
    rcases h.noNewTask d' hd' with ⟨d, hd, hle⟩ | hnew
    · exact (hle.completed (ht.ready henq hs d hd (hdep.of_le (.refl t) hle))).1
    · obtain ⟨u, hu, he⟩ := hp
      exact absurd (he.trans hdep.1.symm) (hnew u hu)
  stored hs := (ht.stored hs).mono h

theorem RowOk.planned {t : Task} (h : t ∈ db.tasks) : db.Planned t.executionId := ⟨t, h, rfl⟩

/-! ## Guarded task updates -/

/-- A task update keeps the task rows in order once the row it writes is. -/
theorem TasksOk.updateTask (h : db.TasksOk) {tid : TaskId} {u : TaskUpdate}
    (hrow : ∀ t ∈ db.tasks, t.id = tid → u.guard t = true → db.RowOk (u.set now t)) :
    (db.updateTask now tid u).TasksOk := by
  have hle := le_updateTask db now tid u
  have hold : ∀ t' ∈ (db.updateTask now tid u).tasks, ∃ t ∈ db.tasks, Task.Le t t' ∧
      db.RowOk t' := by
    intro t' ht'
    obtain ⟨t, ht, rfl⟩ := mem_updateTask.1 ht'
    refine ⟨t, ht, ?_⟩
    split
    · next hg => exact ⟨TaskUpdate.le hg.2, hrow t ht hg.1 hg.2⟩
    · exact ⟨.refl t, h.rows t ht⟩
  constructor
  case owner =>
    intro t' ht'
    obtain ⟨t, ht, hle', -⟩ := hold t' ht'
    exact hle'.executionId ▸ h.owner t ht
  case index =>
    intro t₁ h₁ t₂ h₂ he hi
    obtain ⟨u₁, hu₁, hle₁, -⟩ := hold t₁ h₁
    obtain ⟨u₂, hu₂, hle₂, -⟩ := hold t₂ h₂
    rw [hle₁.executionId, hle₂.executionId] at he
    rw [hle₁.orderIndex, hle₂.orderIndex] at hi
    have hu : u₁ = u₂ := h.index u₁ hu₁ u₂ hu₂ he hi
    exact Table.eq_of_key_eq h₁ h₂ (by rw [hle₁.id, hle₂.id, hu])
  case depends =>
    intro t' ht' i hi
    obtain ⟨t, ht, hle', -⟩ := hold t' ht'
    rw [hle'.dependsOn] at hi
    obtain ⟨hlt, d, hd, hde, hdi⟩ := h.depends t ht i hi
    obtain ⟨d', hd', hled⟩ := hle.task d hd
    exact ⟨hle'.orderIndex ▸ hlt, d', hd', by rw [hled.executionId, hle'.executionId, hde],
      by rw [hled.orderIndex, hdi]⟩
  case nonneg =>
    intro t' ht'
    obtain ⟨t, ht, hle', -⟩ := hold t' ht'
    exact hle'.orderIndex ▸ h.nonneg t ht
  case rows =>
    intro t' ht'
    obtain ⟨t, ht, hle', hok⟩ := hold t' ht'
    exact hok.mono hle ⟨t, ht, hle'.executionId.symm⟩

/-- Finished tasks stay finished, so old results keep their task. -/
theorem result_mono (h : db.Le db') {r : TaskResult}
    (hr : ∃ t ∈ db.tasks, t.id = r.taskId ∧ t.status.isTerminal = true) :
    ∃ t ∈ db'.tasks, t.id = r.taskId ∧ t.status.isTerminal = true := by
  obtain ⟨t, ht, hid, hs⟩ := hr
  obtain ⟨t', ht', hle⟩ := h.task t ht
  exact ⟨t', ht', hle.id.trans hid, by rw [hle.terminal hs]; exact hs⟩

/-- An active row was enqueued, and its dependencies are COMPLETED. -/
theorem RowOk.active {t : Task} (h : db.RowOk t) (hs : t.status ≠ .pending) : t.enqueued = true := by
  cases henq : t.enqueued with
  | true => rfl
  | false => exact absurd (h.fresh henq) hs

/-- The rows the admitted task updates write are in order. -/
theorem RowOk.set {t : Task} (h : db.RowOk t) (ht : t ∈ db.tasks) {u : TaskUpdate}
    (hg : u.guard t = true) (ha : db.Admits (.updateTask t.id u)) : db.RowOk (u.set now t) := by
  have hdeps : ∀ {d : Task}, (u.set now t).DependsOn d → t.DependsOn d :=
    fun hd => hd.of_le (TaskUpdate.le hg) (.refl _)
  have hrun : t.status = .running ∨ t.status = .retrying →
      t.enqueued = true ∧ ∀ d ∈ db.tasks, t.DependsOn d → d.status = .completed := by
    intro hs
    have henq : t.enqueued = true := h.active (by rcases hs with hs | hs <;> simp [hs])
    exact ⟨henq, h.ready henq (by rcases hs with hs | hs <;> simp [hs])⟩
  cases u with
  | claimTask =>
      obtain ⟨t₁, ht₁, hid, henq⟩ := ha
      obtain rfl := Table.eq_of_key_eq ht₁ ht hid
      have hs : t₁.status ≠ .failed := by
        rintro hs
        simp [TaskUpdate.guard, TaskStatus.claimable, hs] at hg
      exact ⟨by simp [TaskUpdate.set, henq], fun _ _ d hd hdep => h.ready henq hs d hd (hdeps hdep),
        by simp [TaskUpdate.set]⟩
  | markStarted =>
      exact ⟨h.fresh, fun henq hs d hd hdep => h.ready henq hs d hd (hdeps hdep), h.stored⟩
  | markEnqueued =>
      exact ⟨by simp [TaskUpdate.set], fun _ _ d hd hdep => ha t ht rfl d hd (hdeps hdep), h.stored⟩
  | skipTask => exact ⟨by simp [TaskUpdate.set], by simp [TaskUpdate.set], by simp [TaskUpdate.set]⟩
  | retryTask attempts nextAt error =>
      obtain ⟨henq, hready⟩ := hrun (.inl (by simpa [TaskUpdate.guard] using hg))
      exact ⟨by simp [TaskUpdate.set, henq], fun _ _ d hd hdep => hready d hd (hdeps hdep),
        by simp [TaskUpdate.set]⟩
  | failTask attempts error =>
      obtain ⟨henq, -⟩ := hrun (.inl (by simpa [TaskUpdate.guard] using hg))
      exact ⟨by simp [TaskUpdate.set, henq], by simp [TaskUpdate.set], by simp [TaskUpdate.set]⟩
  | completeStored =>
      obtain ⟨henq, hready⟩ := hrun (.inl (by simpa [TaskUpdate.guard] using hg))
      exact ⟨by simp [TaskUpdate.set, henq], fun _ _ d hd hdep => hready d hd (hdeps hdep), fun _ => ha⟩
  | completeTask stamp metrics =>
      obtain ⟨henq, hready⟩ := hrun (by simpa [TaskUpdate.guard] using hg)
      exact ⟨by simp [TaskUpdate.set, henq], fun _ _ d hd hdep => hready d hd (hdeps hdep), fun _ => ha⟩

theorem WellFormed.commit_updateTask (h : db.WellFormed) {tid : TaskId} {u : TaskUpdate}
    (ha : db.Admits (.updateTask tid u)) : (db.updateTask now tid u).WellFormed where
  toTasksOk := h.toTasksOk.updateTask fun t ht hid hg => (h.rows t ht).set ht hg (hid ▸ ha)
  result r hr := result_mono (le_updateTask db now tid u) (h.result r hr)

/-! ## Inserts -/

theorem WellFormed.commit_updateExecution (h : db.WellFormed) {e : ExecutionId} {u : ExecutionUpdate}
    (ha : db.Admits (.updateExecution e u)) : (db.updateExecution now e u).WellFormed := by
  have hle : db.Le (db.updateExecution now e u) := le_updateExecution ha.respects
  exact ⟨⟨fun t ht => (h.owner t ht).mono hle, h.index, h.depends, h.nonneg,
    fun t ht => (h.rows t ht).mono hle (RowOk.planned ht)⟩, h.result⟩

theorem WellFormed.insertTasks (h : db.WellFormed) {e : ExecutionId} {plan : Plan}
    (ha : db.Admits (.insertTasks e plan)) : (db.insertTasks now e plan).WellFormed := by
  obtain ⟨hsub, hnew⟩ := ha
  have hne : ∀ t ∈ db.tasks, t.executionId ≠ e := fun t ht he => hnew ⟨t, ht, he⟩
  have hle : db.Le (db.insertTasks now e plan) := le_insertTasks hne
  refine ⟨?_, fun r hr => result_mono hle (h.result r hr)⟩
  constructor
  case owner =>
    intro t ht
    rcases mem_insertTasks.1 ht with ht | ⟨i, s, -, rfl⟩
    · exact (h.owner t ht).mono hle
    · exact hsub.mono hle
  case index =>
    intro t ht t' ht' he hi
    rcases mem_insertTasks.1 ht with ht | ⟨i, s, hs, rfl⟩ <;>
      rcases mem_insertTasks.1 ht' with ht' | ⟨j, s', hs', rfl⟩
    · exact h.index t ht t' ht' he hi
    · exact absurd he (hne t ht)
    · exact absurd he.symm (hne t' ht')
    · obtain rfl : i = j := by simpa [plannedTask] using hi
      obtain rfl : s = s' := Option.some.inj (hs.symm.trans hs')
      rfl
  case depends =>
    intro t ht i hi
    rcases mem_insertTasks.1 ht with ht | ⟨j, s, hs, rfl⟩
    · obtain ⟨hlt, d, hd, hd'⟩ := h.depends t ht i hi
      exact ⟨hlt, d, mem_insertTasks.2 (.inl hd), hd'⟩
    · obtain ⟨h0, hlt⟩ := plan.backward j s hs i hi
      obtain ⟨n, rfl⟩ := Int.eq_ofNat_of_zero_le h0
      have hn : n < plan.subtasks.length := by
        obtain ⟨hj, -⟩ := List.getElem?_eq_some_iff.1 hs
        omega
      refine ⟨hlt, db.plannedTask e now n plan.subtasks[n], mem_insertTasks.2 (.inr ?_), rfl, rfl⟩
      exact ⟨n, plan.subtasks[n], List.getElem?_eq_getElem hn, rfl⟩
  case nonneg =>
    intro t ht
    rcases mem_insertTasks.1 ht with ht | ⟨i, s, -, rfl⟩
    · exact h.nonneg t ht
    · exact Int.natCast_nonneg i
  case rows =>
    intro t ht
    rcases mem_insertTasks.1 ht with ht | ⟨i, s, -, rfl⟩
    · exact (h.rows t ht).mono hle (RowOk.planned ht)
    · exact ⟨fun _ => rfl, by simp [plannedTask], by simp [plannedTask]⟩

/-- A new result changes nothing about the task rows. -/
theorem TasksOk.insertResult (h : db.TasksOk) (result : TaskResult) :
    (db.insertResult result).TasksOk := by
  have hle := le_insertResult db result
  exact ⟨h.owner, h.index, h.depends, h.nonneg,
    fun t ht => (h.rows t ht).mono hle (RowOk.planned ht)⟩

theorem mem_of_insertResult {result r : TaskResult} (h : r ∈ (db.insertResult result).results) :
    r ∈ db.results ∨ r = result := by
  cases hins : db.results.insert? result with
  | none => exact .inl (by simpa [Db.insertResult, hins] using h)
  | some results =>
      simp only [Db.insertResult, hins, Option.getD_some] at h
      exact (Table.mem_insert? hins).1 h

/-- A result the UNIQUE constraint accepts is stored beside the old ones. -/
theorem mem_insertResult {result r : TaskResult} (hnew : db.results.find? result.taskId = none) :
    r ∈ (db.insertResult result).results ↔ r ∈ db.results ∨ r = result := by
  cases hins : db.results.insert? result with
  | none =>
      obtain ⟨r', hr', hk⟩ := Table.insert?_eq_none_iff.1 hins
      exact absurd hk (Table.find?_eq_none_iff.1 hnew r' hr')
  | some results =>
      simp only [Db.insertResult, hins, Option.getD_some]
      exact Table.mem_insert? hins

/-- `_persist_success` on a new result: the task is finished afterwards, whether the update found it
    RUNNING or RETRYING, or another handler had finished it before. -/
theorem WellFormed.persistSuccess (h : db.WellFormed) {tid : TaskId} {output : String} {stamp : Time}
    {metrics : Metrics} (ha : db.Admits (.persistSuccess tid output stamp metrics)) :
    (db.commit now (.persistSuccess tid output stamp metrics)).WellFormed := by
  obtain ⟨⟨t, ht, hid, hs⟩, hnew⟩ := ha
  have hok := h.toTasksOk.insertResult ⟨tid, output⟩
  have hstored : (db.insertResult ⟨tid, output⟩).Stored tid :=
    ⟨⟨tid, output⟩, (mem_insertResult hnew).2 (.inr rfl), rfl⟩
  have hle := le_updateTask (db.insertResult ⟨tid, output⟩) now tid (.completeTask stamp metrics)
  refine ⟨hok.updateTask fun t ht hid hg => (hok.rows t ht).set ht hg (hid ▸ hstored), ?_⟩
  intro r hr
  rcases (mem_insertResult hnew).1 hr with hr | rfl
  · exact result_mono hle (h.result r hr)
  · refine ⟨_, mem_updateTask.2 ⟨t, ht, rfl⟩, ?_⟩
    split
    · next hg => exact ⟨hid, rfl⟩
    · next hg =>
        refine ⟨hid, ?_⟩
        cases hst : t.status <;> simp_all [TaskUpdate.guard, TaskStatus.isTerminal]

/-- Every admitted transaction keeps the database well formed. -/
theorem WellFormed.commit (h : db.WellFormed) {τ : Txn} (ha : db.Admits τ) :
    (db.commit now τ).WellFormed := by
  cases τ with
  | updateExecution e u => exact h.commit_updateExecution ha
  | updateTask tid u => exact h.commit_updateTask ha
  | insertTasks e plan => exact h.insertTasks ha
  | persistSuccess tid output stamp metrics => exact h.persistSuccess ha

end Db

end AgenticExecution
