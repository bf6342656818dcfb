import AgenticExecution.SchedulingPass
import AgenticExecution.Planning
import AgenticExecution.PlanShape

set_option autoImplicit false

/-! # Repeated calls of schedule_execution

A history of the tables in which calls of `schedule_execution` come again and again, everyone else does
whatever the platform can do to the rows, and each task that was enqueued or claimed ends up finished.
The dependencies of a plan point to earlier positions, so by induction on the position every task ends
up finished: once those it depends on are, the next call skips or enqueues it. -/

namespace AgenticExecution

variable {cfg : Config} {e : ExecutionId} {db db' db'' : Db} {plan : Plan} {t t₀ : Task} {n m : Nat}

/-- A call of `schedule_execution` that nobody disturbs, from its first statement to its return, takes
    the tables from `db` to `db'`. -/
def Called (cfg : Config) (e : ExecutionId) (db db' : Db) : Prop :=
  ∃ (s s' : State) (hid n : Nat) (os : Nat → Oracle),
    s.db = db ∧ s.handlers[hid]? = some (.scheduleGet e .executeTask) ∧
      (queueMode cfg).follow (Event.run hid) os n s = some s' ∧ s'.handlers[hid]? = some .done ∧
      s'.db = db'

/-- A worker claimed the task at some time, or the scheduler finished it. -/
def Task.Claimed (t : Task) : Prop := t.status ≠ .pending

/-- The task was claimed, or its job was enqueued. -/
def Task.Dispatched (t : Task) : Prop := t.status ≠ .pending ∨ t.enqueued = true

/-- A history with repeated calls for `e`. Between them the rows may change in every way the platform
    changes them, and the tasks that `ends` speaks of end up finished. -/
structure Passes (cfg : Config) (e : ExecutionId) (ends : Task → Prop) (db : Nat → Db) : Prop where
  execution : ∀ n, ∃ x ∈ (db n).executions, x.id = e
  step : ∀ n, Called cfg e (db n) (db (n + 1)) ∨ (db n).Le (db (n + 1))
  again : ∀ n, ∃ m, n ≤ m ∧ Called cfg e (db m) (db (m + 1))
  finishes : ∀ n, ∀ t ∈ (db n).tasksOf e, ends t →
    ∃ m, n ≤ m ∧ ∃ t' ∈ (db m).tasks, t'.id = t.id ∧ t'.status.isTerminal = true

/-! ## What stays -/

/-- A row may become another: the planner's columns are the same, a finished task stays finished, and one
    that is no longer waiting does not wait again. -/
structure Task.Keeps (t t' : Task) : Prop where
  fixed : t'.fixed = t.fixed
  terminal : t.status.isTerminal = true → t'.status.isTerminal = true
  decided : ¬ t.Undecided → ¬ t'.Undecided

/-- The rows of `e` are the same tasks, moved forward. -/
structure Db.Keeps (e : ExecutionId) (db db' : Db) : Prop where
  row : ∀ t ∈ db.tasksOf e, ∃ t' ∈ db'.tasksOf e, Task.Keeps t t'
  noNew : db.tasksOf e ≠ [] → ∀ t' ∈ db'.tasksOf e, ∃ t ∈ db.tasksOf e, t'.fixed = t.fixed

theorem Task.id_eq_of_fixed {t t' : Task} (h : t'.fixed = t.fixed) : t'.id = t.id :=
  congrArg (·.1) h

theorem Task.executionId_eq_of_fixed {t t' : Task} (h : t'.fixed = t.fixed) :
    t'.executionId = t.executionId :=
  congrArg (·.2.1) h

theorem Task.orderIndex_eq_of_fixed {t t' : Task} (h : t'.fixed = t.fixed) :
    t'.orderIndex = t.orderIndex :=
  congrArg (·.2.2.2.2.1) h

theorem Task.dependsOn_eq_of_fixed {t t' : Task} (h : t'.fixed = t.fixed) :
    t'.dependsOn = t.dependsOn :=
  congrArg (·.2.2.2.2.2) h

theorem Task.not_undecided_iff {t : Task} :
    ¬ t.Undecided ↔ t.status ≠ .pending ∨ t.enqueued = true := by
  rw [Task.Undecided, not_and_or, Bool.not_eq_false]

namespace Task.Keeps

theorem refl (t : Task) : Task.Keeps t t := ⟨rfl, fun h => h, fun h => h⟩

theorem trans {t t' t'' : Task} (h : Task.Keeps t t') (h' : Task.Keeps t' t'') : Task.Keeps t t'' :=
  ⟨h'.fixed.trans h.fixed, fun hs => h'.terminal (h.terminal hs), fun hd => h'.decided (h.decided hd)⟩

theorem of_le {t t' : Task} (h : Task.Le t t') : Task.Keeps t t' where
  fixed := h.fixed
  terminal hs := (h.terminal hs).symm ▸ hs
  decided hd := Task.not_undecided_iff.2 ((Task.not_undecided_iff.1 hd).imp h.claimed h.enqueued)

/-- What a call does to a row. -/
theorem of_passed {marked : List TaskId} {t t' : Task} (h : Passed db e marked t t') :
    Task.Keeps t t' := by
  cases h with
  | kept => exact refl t
  | skipped now => exact ⟨TaskUpdate.set_fixed now .skipTask t, fun _ => rfl, fun _ hund => nomatch hund.1⟩
  | marked now =>
      exact ⟨TaskUpdate.set_fixed now .markEnqueued t, fun hs => hs, fun _ hund => nomatch hund.2⟩

end Task.Keeps

namespace Db.Keeps

theorem refl (e : ExecutionId) (db : Db) : db.Keeps e db where
  row t ht := ⟨t, ht, .refl t⟩
  noNew _ t ht := ⟨t, ht, rfl⟩

theorem trans (h : db.Keeps e db') (h' : db'.Keeps e db'') : db.Keeps e db'' where
  row t ht := by
    obtain ⟨t', ht', hkeeps⟩ := h.row t ht
    obtain ⟨t'', ht'', hkeeps'⟩ := h'.row t' ht'
    exact ⟨t'', ht'', hkeeps.trans hkeeps'⟩
  noNew hne t'' ht'' := by
    have hne' : db'.tasksOf e ≠ [] := by
      obtain ⟨t, ht⟩ := List.exists_mem_of_ne_nil _ hne
      obtain ⟨t', ht', -⟩ := h.row t ht
      exact List.ne_nil_of_mem ht'
    obtain ⟨t', ht', hfixed'⟩ := h'.noNew hne' t'' ht''
    obtain ⟨t, ht, hfixed⟩ := h.noNew hne t' ht'
    exact ⟨t, ht, hfixed'.trans hfixed⟩

/-- What the platform does keeps the rows. -/
theorem of_le (h : db.Le db') : db.Keeps e db' where
  row t ht := by
    obtain ⟨hmem, he⟩ := Db.mem_tasksOf.1 ht
    obtain ⟨t', ht', hle⟩ := h.task t hmem
    exact ⟨t', Db.mem_tasksOf.2 ⟨ht', hle.executionId.trans he⟩, .of_le hle⟩
  noNew hne t' ht' := by
    obtain ⟨hmem', he'⟩ := Db.mem_tasksOf.1 ht'
    rcases h.noNewTask t' hmem' with ⟨t, ht, hle⟩ | hnew
    · exact ⟨t, Db.mem_tasksOf.2 ⟨ht, hle.executionId.symm.trans he'⟩, hle.fixed⟩
    · obtain ⟨t, ht⟩ := List.exists_mem_of_ne_nil _ hne
      obtain ⟨hmem, he⟩ := Db.mem_tasksOf.1 ht
      exact absurd (he.trans he'.symm) (hnew t hmem)

/-- A call keeps them as well. -/
theorem of_passing {marked : List TaskId} (h : Passing db db' e marked) : db.Keeps e db' where
  row t ht := by
    obtain ⟨hmem, he⟩ := Db.mem_tasksOf.1 ht
    obtain ⟨t', ht', hp⟩ := h.rows t hmem
    have hkeeps := Task.Keeps.of_passed hp
    exact ⟨t', Db.mem_tasksOf.2 ⟨ht', (Task.executionId_eq_of_fixed hkeeps.fixed).trans he⟩, hkeeps⟩
  noNew _ t' ht' := by
    obtain ⟨hmem', he'⟩ := Db.mem_tasksOf.1 ht'
    obtain ⟨t, ht, hp⟩ := h.origin t' hmem'
    have hfixed := (Task.Keeps.of_passed hp).fixed
    exact ⟨t, Db.mem_tasksOf.2 ⟨ht, (Task.executionId_eq_of_fixed hfixed).symm.trans he'⟩, hfixed⟩

theorem congr {db₁ : Db} (h : db.Keeps e db₁) (htasks : db'.tasks = db₁.tasks) : db.Keeps e db' := by
  have hrows : db'.tasksOf e = db₁.tasksOf e := by
    rw [Db.tasksOf, Db.tasksOf, htasks]
  constructor
  · rw [hrows]
    exact h.row
  · rw [hrows]
    exact h.noNew

/-- Rows with different positions keep them. -/
theorem nodup_orderIndex (h : db.Keeps e db') (hne : db.tasksOf e ≠ [])
    (hindex : ((db.tasksOf e).map Task.orderIndex).Nodup) :
    ((db'.tasksOf e).map Task.orderIndex).Nodup := by
  refine List.Nodup.map_on ?_ (List.Nodup.of_map _ (db'.tasksOf_nodup e))
  intro t₁ ht₁ t₂ ht₂ hidx
  obtain ⟨u₁, hu₁, hfixed₁⟩ := h.noNew hne t₁ ht₁
  obtain ⟨u₂, hu₂, hfixed₂⟩ := h.noNew hne t₂ ht₂
  have hidx' : u₁.orderIndex = u₂.orderIndex := by
    rw [← Task.orderIndex_eq_of_fixed hfixed₁, ← Task.orderIndex_eq_of_fixed hfixed₂, hidx]
  obtain rfl := List.inj_on_of_nodup_map hindex hu₁ hu₂ hidx'
  exact Table.eq_of_key_eq (Db.mem_tasksOf.1 ht₁).1 (Db.mem_tasksOf.1 ht₂).1
    ((Task.id_eq_of_fixed hfixed₁).trans (Task.id_eq_of_fixed hfixed₂).symm)

end Db.Keeps

theorem Db.Plans.nodup_orderIndex (h : db.Plans e plan) :
    ((db.tasksOf e).map Task.orderIndex).Nodup := by
  rw [h.positions]
  exact List.Nodup.map Int.ofNat_injective List.nodup_range

/-- A call leaves nothing to decide. -/
theorem Called.stable (h : Called cfg e db db') (hx : ∃ x ∈ db.executions, x.id = e)
    (hindex : ((db.tasksOf e).map Task.orderIndex).Nodup) : db'.Stable e ∧ db.Keeps e db' := by
  obtain ⟨s, s', hid, n, os, rfl, hpc, hfollow, hdone, rfl⟩ := h
  have hstop : ∀ {u : State}, u.handlers[hid]? = some .done →
      ∀ o, (queueMode cfg).step u (Event.run hid o) = none := by
    intro u hu o
    show (u.live? hid).map _ = none
    rw [State.live?, hu]
    rfl
  have hcall : (queueMode cfg).Reaches (Event.run hid) (fun s' => ∃ s₁,
      Looped s hid e .executeTask s₁ ∧ FinalizeReturned s₁ hid e .executeTask s') s :=
    call_reaches hx hindex hpc
  have hend : ∀ u, (∃ s₁, Looped s hid e .executeTask s₁ ∧ FinalizeReturned s₁ hid e .executeTask u) →
      ∀ o, (queueMode cfg).step u (Event.run hid o) = none := by
    rintro u ⟨_, _, hu⟩
    exact hstop hu.pc
  obtain ⟨s₁, ⟨-, hstable, marked, hpassing, -⟩, hreturned⟩ :=
    hcall.of_follow hend hfollow (hstop hdone)
  refine ⟨?_, (Db.Keeps.of_passing hpassing).congr hreturned.tasks⟩
  rw [Db.Stable, Db.tasksOf, hreturned.tasks]
  exact hstable

/-! ## Every task ends up finished -/

/-- The row of `t₀` at time `n` is finished. -/
def FinishedAt (e : ExecutionId) (db : Nat → Db) (t₀ : Task) (n : Nat) : Prop :=
  ∃ t ∈ (db n).tasksOf e, t.fixed = t₀.fixed ∧ t.status.isTerminal = true

/-- What holds from some time on of each entry of a list holds of all from some time on. -/
theorem exists_common_bound {α : Type*} {P : α → Nat → Prop}
    (hmono : ∀ a n m, n ≤ m → P a n → P a m) (l : List α) (h : ∀ a ∈ l, ∃ n, P a n) :
    ∃ n, ∀ a ∈ l, P a n := by
  induction l with
  | nil => exact ⟨0, by simp⟩
  | cons a l ih =>
      obtain ⟨n, hn⟩ := h a List.mem_cons_self
      obtain ⟨m, hm⟩ := ih fun b hb => h b (List.mem_cons_of_mem _ hb)
      refine ⟨max n m, List.forall_mem_cons.2 ⟨hmono a _ _ (Nat.le_max_left n m) hn, ?_⟩⟩
      exact fun b hb => hmono b _ _ (Nat.le_max_right n m) (hm b hb)

namespace Passes

variable {db : Nat → Db}

section

variable (h : Passes cfg e Task.Dispatched db) (hplans : (db 0).Plans e plan)

include h hplans

/-- The rows are kept from the start on. -/
theorem keeps_zero (n : Nat) :
    (db 0).Keeps e (db n) ∧ (((db n).tasksOf e).map Task.orderIndex).Nodup := by
  have hindex : (((db 0).tasksOf e).map Task.orderIndex).Nodup := hplans.nodup_orderIndex
  induction n with
  | zero => exact ⟨.refl e (db 0), hindex⟩
  | succ n ih =>
      have hstep : (db n).Keeps e (db (n + 1)) := by
        rcases h.step n with hcalled | hle
        · exact (hcalled.stable (h.execution n) ih.2).2
        · exact .of_le hle
      have hkeeps := ih.1.trans hstep
      exact ⟨hkeeps, hkeeps.nodup_orderIndex hplans.tasksOf_ne_nil hindex⟩

theorem keeps (hle : n ≤ m) : (db n).Keeps e (db m) := by
  induction hle with
  | refl => exact .refl e (db n)
  | @step m _ ih =>
      refine ih.trans ?_
      rcases h.step m with hcalled | hle
      · exact (hcalled.stable (h.execution m) (h.keeps_zero hplans m).2).2
      · exact .of_le hle

theorem finishedAt_mono (hle : n ≤ m) (hfin : FinishedAt e db t₀ n) : FinishedAt e db t₀ m := by
  obtain ⟨t, ht, hfixed, hterm⟩ := hfin
  obtain ⟨t', ht', hkeeps⟩ := (h.keeps hplans hle).row t ht
  exact ⟨t', ht', hkeeps.fixed.trans hfixed, hkeeps.terminal hterm⟩

/-- A task that is no longer waiting ends up finished. -/
theorem finishes_of_decided (ht : t ∈ (db n).tasksOf e) (hfixed : t.fixed = t₀.fixed)
    (hdecided : ¬ t.Undecided) : ∃ m, FinishedAt e db t₀ m := by
  obtain ⟨m, hle, t', ht', hid, hterm⟩ := h.finishes n t ht (Task.not_undecided_iff.1 hdecided)
  obtain ⟨u, hu, hkeeps⟩ := (h.keeps hplans hle).row t ht
  obtain rfl := Table.eq_of_key_eq ht' (Db.mem_tasksOf.1 hu).1
    (hid.trans (Task.id_eq_of_fixed hkeeps.fixed).symm)
  exact ⟨m, t', hu, hkeeps.fixed.trans hfixed, hterm⟩

/-- By induction on the position: when the tasks before it are finished, the next call decides. -/
theorem finishes_row (i : Nat) (hi : ((db 0).tasksOf e)[i]? = some t₀) :
    ∃ n, FinishedAt e db t₀ n := by
  induction i using Nat.strong_induction_on generalizing t₀ with
  | _ i ih =>
      have hearlier : ∃ n, ∀ d ∈ ((db 0).tasksOf e).take i, FinishedAt e db d n := by
        refine exists_common_bound (P := FinishedAt e db)
          (fun d n m hle => h.finishedAt_mono hplans hle) _ fun d hd => ?_
        obtain ⟨j, hj⟩ := List.mem_iff_getElem?.1 hd
        rw [List.getElem?_take] at hj
        split_ifs at hj with hlt
        exact ih j hlt hj
      obtain ⟨n, hn⟩ := hearlier
      obtain ⟨m, hle, hcalled⟩ := h.again n
      obtain ⟨hstable, -⟩ := hcalled.stable (h.execution m) (h.keeps_zero hplans m).2
      have hzero := (h.keeps_zero hplans (m + 1)).1
      have ht₀ := List.mem_of_getElem? hi
      obtain ⟨t, ht, hkeeps⟩ := hzero.row t₀ ht₀
      refine h.finishes_of_decided hplans ht hkeeps.fixed fun hund => ?_
      -- the call left the task waiting, so a dependency is not finished
      obtain ⟨hnotFailed, d, hd, hdep, hnotCompleted⟩ := hstable t ht hund
      have hdmem : d ∈ (db (m + 1)).tasksOf e :=
        Db.mem_tasksOf.2 ⟨hd, hdep.1.trans (Db.mem_tasksOf.1 ht).2⟩
      obtain ⟨d₀, hd₀, hdfixed⟩ := hzero.noNew hplans.tasksOf_ne_nil d hdmem
      have hdep₀ : t₀.DependsOn d₀ := by
        refine ⟨?_, ?_⟩
        · rw [(Db.mem_tasksOf.1 hd₀).2, (Db.mem_tasksOf.1 ht₀).2]
        · rw [← Task.orderIndex_eq_of_fixed hdfixed, ← Task.dependsOn_eq_of_fixed hkeeps.fixed]
          exact hdep.2
      obtain ⟨j, hlt, hj, -⟩ := hplans.dependency hi (Db.mem_tasksOf.1 hd₀).1 hdep₀
      have hdtake : d₀ ∈ ((db 0).tasksOf e).take i := by
        refine List.mem_of_getElem? (i := j) ?_
        rw [List.getElem?_take, if_pos hlt]
        exact hj
      obtain ⟨d', hd', hdfixed', hterm⟩ :=
        h.finishedAt_mono hplans (Nat.le_succ_of_le hle) (hn d₀ hdtake)
      obtain rfl := Table.eq_of_key_eq (Db.mem_tasksOf.1 hd').1 hd
        (Task.id_eq_of_fixed (hdfixed'.trans hdfixed.symm))
      cases hs : d'.status with
      | completed => exact hnotCompleted hs
      | failed => exact hnotFailed d' hd hdep hs
      | pending | running | retrying => simp [hs, TaskStatus.isTerminal] at hterm

/-- From some time on every task is finished. -/
theorem all_finished :
    ∃ n, ∀ m, n ≤ m → ∀ t ∈ (db m).tasksOf e, t.status.isTerminal = true := by
  have hall : ∃ n, ∀ t₀ ∈ (db 0).tasksOf e, FinishedAt e db t₀ n := by
    refine exists_common_bound (P := FinishedAt e db)
      (fun t₀ n m hle => h.finishedAt_mono hplans hle) _ fun t₀ ht₀ => ?_
    obtain ⟨i, hi⟩ := List.mem_iff_getElem?.1 ht₀
    exact h.finishes_row hplans i hi
  obtain ⟨n, hn⟩ := hall
  refine ⟨n, fun m hle t ht => ?_⟩
  obtain ⟨t₀, ht₀, hfixed⟩ := (h.keeps_zero hplans m).1.noNew hplans.tasksOf_ne_nil t ht
  obtain ⟨t', ht', hfixed', hterm⟩ := h.finishedAt_mono hplans hle (hn t₀ ht₀)
  obtain rfl := Table.eq_of_key_eq (Db.mem_tasksOf.1 ht).1 (Db.mem_tasksOf.1 ht').1
    (Task.id_eq_of_fixed (hfixed.trans hfixed'.symm))
  exact hterm

end

end Passes

/-! ## Histories exist -/

theorem Db.executionIds_commit (db : Db) (now : Time) (τ : Txn) :
    (db.commit now τ).executions.rows.map Execution.id = db.executions.rows.map Execution.id := by
  cases τ with
  | updateExecution e u =>
      show (db.executions.rows.map _).map Execution.id = _
      rw [List.map_map]
      refine List.map_congr_left fun x _ => ?_
      rw [Function.comp_apply]
      split_ifs
      · exact u.set_id now x
      · rfl
  | updateTask | insertTasks | persistSuccess => rfl

/-- No handler adds or removes an execution. -/
theorem executionIds_follow {hid : Nat} {os : Nat → Oracle} {s s' : State}
    (h : (queueMode cfg).follow (Event.run hid) os n s = some s') :
    s'.db.executions.rows.map Execution.id = s.db.executions.rows.map Execution.id := by
  induction n generalizing s os with
  | zero => rw [Option.some.inj h]
  | succ n ih =>
      obtain ⟨s₁, hstep, hrest⟩ := Option.bind_eq_some_iff.1 h
      rw [ih hrest]
      obtain ⟨pc, -, rfl⟩ := Option.map_eq_some_iff.1 hstep
      unfold State.perform
      split
      · rfl
      · exact Db.executionIds_commit _ _ _
      · rfl

/-- The tables a call can start from. -/
structure Db.Callable (e : ExecutionId) (db : Db) : Prop where
  execution : e ∈ db.executions.rows.map Execution.id
  index : ((db.tasksOf e).map Task.orderIndex).Nodup
  ne_nil : db.tasksOf e ≠ []

theorem Db.Callable.exists_execution (h : db.Callable e) : ∃ x ∈ db.executions, x.id = e :=
  List.mem_map.1 h.execution

theorem Db.Keeps.callable (h : db.Keeps e db') (hdb : db.Callable e)
    (hids : db'.executions.rows.map Execution.id = db.executions.rows.map Execution.id) :
    db'.Callable e := by
  obtain ⟨t, ht⟩ := List.exists_mem_of_ne_nil _ hdb.ne_nil
  obtain ⟨t', ht', -⟩ := h.row t ht
  exact ⟨hids ▸ hdb.execution, h.nodup_orderIndex hdb.ne_nil hdb.index, List.ne_nil_of_mem ht'⟩

/-- A call returns, and another can follow it. -/
theorem exists_called (cfg : Config) (h : db.Callable e) :
    ∃ db', Called cfg e db db' ∧ db'.Callable e := by
  let s : State := { db := db, handlers := [.scheduleGet e .executeTask] }
  have hcall : (queueMode cfg).Reaches (Event.run 0) (fun s' => ∃ s₁,
      Looped s 0 e .executeTask s₁ ∧ FinalizeReturned s₁ 0 e .executeTask s') s :=
    call_reaches h.exists_execution h.index rfl
  obtain ⟨n, s', hfollow, s₁, -, hreturned⟩ := hcall.follow fun _ => { now := 0 }
  have hcalled : Called cfg e db s'.db :=
    ⟨s, s', 0, n, fun _ => { now := 0 }, rfl, rfl, hfollow, hreturned.pc, rfl⟩
  exact ⟨s'.db, hcalled,
    (hcalled.stable h.exists_execution h.index).2.callable h (executionIds_follow hfollow)⟩

/-- A task that was enqueued or picked up fails. -/
def Task.settled (e : ExecutionId) (t : Task) : Task :=
  if t.executionId = e ∧ ¬ (t.status = .pending ∧ t.enqueued = false) ∧
      t.status.isTerminal = false then
    { t with status := .failed }
  else t

theorem Task.le_settled (e : ExecutionId) (t : Task) : Task.Le t (t.settled e) := by
  unfold Task.settled
  split_ifs with h
  · refine ⟨rfl, fun he => he, fun _ => nofun, fun _ => rfl, fun hc => ?_⟩
    have hopen := h.2.2
    rw [hc] at hopen
    cases hopen
  · exact .refl t

theorem Task.settled_terminal (he : t.executionId = e) (h : ¬ t.Undecided) :
    (t.settled e).status.isTerminal = true := by
  unfold Task.settled
  split_ifs with hc
  · rfl
  · by_contra hopen
    exact hc ⟨he, h, Bool.not_eq_true _ ▸ hopen⟩

/-- Everyone else fails all of them. -/
def Db.settled (e : ExecutionId) (db : Db) : Db :=
  { db with tasks := ⟨db.tasks.rows.map (Task.settled e), by
      rw [List.map_map]
      convert db.tasks.nodup using 2
      funext t
      exact (Task.le_settled e t).id⟩ }

theorem Db.mem_settled {t' : Task} :
    t' ∈ (db.settled e).tasks ↔ ∃ t ∈ db.tasks, t.settled e = t' := List.mem_map

theorem Db.le_settled (db : Db) (e : ExecutionId) : db.Le (db.settled e) where
  execution x hx := ⟨x, hx, rfl, rfl, fun h => h⟩
  task t ht := ⟨t.settled e, Db.mem_settled.2 ⟨t, ht, rfl⟩, t.le_settled e⟩
  noNewTask t' ht' := by
    obtain ⟨t, ht, rfl⟩ := Db.mem_settled.1 ht'
    exact .inl ⟨t, ht, t.le_settled e⟩
  result _ hr := hr

/-- From any tables with the execution and some tasks: calls at even times, and at odd times everyone
    else settles what the calls enqueued. -/
theorem exists_passes (cfg : Config) (h : db.Callable e) :
    ∃ history : Nat → Db, history 0 = db ∧ Passes cfg e Task.Dispatched history := by
  have hcall : ∀ d : { d : Db // d.Callable e }, ∃ d' : { d : Db // d.Callable e },
      Called cfg e d.1 d'.1 := by
    intro d
    obtain ⟨d', hcalled, hcallable⟩ := exists_called cfg d.2
    exact ⟨⟨d', hcallable⟩, hcalled⟩
  choose call hcall using hcall
  let settle (d : { d : Db // d.Callable e }) : { d : Db // d.Callable e } :=
    ⟨d.1.settled e, (Db.Keeps.of_le (d.1.le_settled e)).callable d.2 rfl⟩
  let history : Nat → { d : Db // d.Callable e } :=
    fun n => Nat.rec ⟨db, h⟩ (fun n d => if n % 2 = 0 then call d else settle d) n
  have hstep : ∀ n, history (n + 1) = if n % 2 = 0 then call (history n) else settle (history n) :=
    fun _ => rfl
  have hcalled : ∀ n, n % 2 = 0 → Called cfg e (history n).1 (history (n + 1)).1 := by
    intro n hn
    rw [hstep, if_pos hn]
    exact hcall _
  have hsettled : ∀ n, n % 2 ≠ 0 → (history (n + 1)).1 = (history n).1.settled e := by
    intro n hn
    rw [hstep, if_neg hn]
  -- a task that is no longer waiting at an odd time is finished one step later
  have hodd : ∀ n, n % 2 ≠ 0 → ∀ t ∈ (history n).1.tasksOf e, ¬ t.Undecided →
      ∃ t' ∈ (history (n + 1)).1.tasks, t'.id = t.id ∧ t'.status.isTerminal = true := by
    intro n hn t ht hdecided
    rw [hsettled n hn]
    obtain ⟨hmem, he⟩ := Db.mem_tasksOf.1 ht
    exact ⟨t.settled e, Db.mem_settled.2 ⟨t, hmem, rfl⟩, (t.le_settled e).id,
      Task.settled_terminal he hdecided⟩
  refine ⟨fun n => (history n).1, rfl, ⟨fun n => (history n).2.exists_execution, ?_, ?_, ?_⟩⟩
  · intro n
    by_cases hn : n % 2 = 0
    · exact .inl (hcalled n hn)
    · exact .inr (hsettled n hn ▸ (history n).1.le_settled e)
  · intro n
    by_cases hn : n % 2 = 0
    · exact ⟨n, Nat.le_refl n, hcalled n hn⟩
    · exact ⟨n + 1, Nat.le_succ n, hcalled (n + 1) (by omega)⟩
  · intro n t ht hdispatched
    have hdecided : ¬ t.Undecided := Task.not_undecided_iff.2 hdispatched
    by_cases hn : n % 2 = 0
    · have hkeeps := ((hcalled n hn).stable (history n).2.exists_execution (history n).2.index).2
      obtain ⟨t', ht', hk⟩ := hkeeps.row t ht
      obtain ⟨u, hu, hid, hterm⟩ := hodd (n + 1) (by omega) t' ht' (hk.decided hdecided)
      exact ⟨n + 2, by omega, u, hu, hid.trans (Task.id_eq_of_fixed hk.fixed), hterm⟩
    · obtain ⟨u, hu, hid, hterm⟩ := hodd n hn t ht hdecided
      exact ⟨n + 1, Nat.le_succ n, u, hu, hid, hterm⟩

/-- Every answer of the planning model gives a runnable plan: it has subtasks, each with a description
    that is not blank and with dependencies on earlier positions only, so the dependencies are acyclic;
    and whatever the rows of such a plan look like, repeated calls of `schedule_execution` leave no task
    waiting, when those that were enqueued or claimed end up finished. -/
theorem plan_runnable (cfg : Config) (minTasks maxTasks : Int) (py : Python)
    (userRequest text : String) :
    let plan := (Planner.init minTasks maxTasks).plan py userRequest text
    plan.subtasks ≠ [] ∧ (∀ subtask ∈ plan.subtasks, strip subtask.description ≠ "") ∧
      (∀ (i : Nat) subtask, plan.subtasks[i]? = some subtask →
        ∀ d ∈ subtask.dependsOn, 0 ≤ d ∧ d < (i : Int)) ∧
      (∀ i, ¬ Relation.TransGen plan.DependsOn i i) ∧
      ∀ e (db : Nat → Db), (db 0).Plans e plan → Passes cfg e Task.Dispatched db →
        ∃ n, ∀ m, n ≤ m → ∀ t ∈ (db m).tasksOf e, ¬ t.Undecided ∧ t.status.isTerminal = true := by
  intro plan
  refine ⟨plan.ne_nil, fun _ => Planner.planSubtasks_description, plan.backward, plan.acyclic, ?_⟩
  intro e db hplans h
  obtain ⟨n, hn⟩ := h.all_finished hplans
  refine ⟨n, fun m hle t ht => ⟨fun hund => ?_, hn m hle t ht⟩⟩
  have hterm := hn m hle t ht
  rw [hund.1] at hterm
  cases hterm

/-- An execution with the rows of the fallback plan, none of them looked at yet. -/
def plannedExample : Db :=
  Db.insertTasks
    { executions := ⟨[{ id := 1, userRequest := "q", status := .running, updatedAt := 0 }], by decide⟩ }
    0 1 ((Planner.init 2 5).plan (fallbackConfig {}).python "q" "no plan")

theorem plannedExample_waits : ∀ t ∈ plannedExample.tasksOf 1, t.Undecided := by
  intro t ht
  have hwaits : (plannedExample.tasksOf 1).all
      (fun t => decide (t.status = .pending) && decide (t.enqueued = false)) = true := by
    decide +kernel
  simpa [Task.Undecided] using List.all_eq_true.1 hwaits t ht

theorem plan_runnable_fallback :
    ∃ db, Passes (fallbackConfig {}) 1 Task.Dispatched db ∧ (∀ t ∈ (db 0).tasksOf 1, t.Undecided) ∧
      ∃ n, ∀ m, n ≤ m → ∀ t ∈ (db m).tasksOf 1, ¬ t.Undecided ∧ t.status.isTerminal = true := by
  have hplans : plannedExample.Plans 1
      ((Planner.init 2 5).plan (fallbackConfig {}).python "q" "no plan") :=
    Db.plans_insertTasks rfl _
  have hcallable : plannedExample.Callable 1 :=
    ⟨List.mem_singleton.2 rfl, hplans.nodup_orderIndex, hplans.tasksOf_ne_nil⟩
  obtain ⟨db, hzero, hpasses⟩ := exists_passes (fallbackConfig {}) hcallable
  refine ⟨db, hpasses, hzero ▸ plannedExample_waits, ?_⟩
  exact (plan_runnable (fallbackConfig {}) 2 5 (fallbackConfig {}).python "q" "no plan").2.2.2.2 1 db
    (hzero ▸ hplans) hpasses

/-- The jobs of the first two tasks were enqueued and lost. -/
def lostJobs : Db := (plannedExample.updateTask 0 1 .markEnqueued).updateTask 0 2 .markEnqueued

/-- A call finds nothing to do. -/
theorem called_lostJobs : Called (fallbackConfig {}) 1 lostJobs lostJobs := by
  let s : State := { db := lostJobs, handlers := [.scheduleGet 1 .executeTask] }
  exact ⟨s, { s with handlers := [.done] }, 0, 8, fun _ => { now := 0 }, rfl, rfl, rfl, rfl, rfl⟩

/-- That claimed tasks end up finished is not enough: no worker ever claims the first two tasks, and the
    third waits for them for ever. -/
theorem lostJobs_wait :
    lostJobs.Plans 1 ((Planner.init 2 5).plan (fallbackConfig {}).python "q" "no plan") ∧
      Passes (fallbackConfig {}) 1 Task.Claimed (fun _ => lostJobs) ∧
      ∃ t ∈ lostJobs.tasksOf 1, t.Undecided := by
  have hpending : ∀ t ∈ lostJobs.tasksOf 1, ¬ t.Claimed := by
    have hall : (lostJobs.tasksOf 1).all (fun t => decide (t.status = .pending)) = true := by
      decide +kernel
    intro t ht
    exact not_not.2 (of_decide_eq_true (List.all_eq_true.1 hall t ht))
  have hwaits : ((lostJobs.tasksOf 1).any fun t =>
      decide (t.status = .pending) && decide (t.enqueued = false)) = true := by
    decide +kernel
  obtain ⟨t, ht, hund⟩ := List.any_eq_true.1 hwaits
  refine ⟨⟨by decide +kernel, rfl⟩, ?_, t, ht, by simpa [Task.Undecided] using hund⟩
  constructor
  case execution => exact fun _ => ⟨_, List.mem_singleton.2 rfl, rfl⟩
  case step => exact fun _ => .inl called_lostJobs
  case again => exact fun n => ⟨n, Nat.le_refl n, called_lostJobs⟩
  case finishes => exact fun _ t ht hclaimed => absurd hclaimed (hpending t ht)

end AgenticExecution
