import AgenticExecution.Billing
import AgenticExecution.Backoff

set_option autoImplicit false

/-! # Timelines

The times the rows record. With one clock that never goes back, the run of a COMPLETED task lies within
the run of its execution, and a duration is the time between the two stamps beside it. A stamp is written
once: an execution starts before any of its tasks can be enqueued, and a worker that writes the end of a
task has read its beginning. -/

namespace AgenticExecution

variable {cfg : Config} {s s' : State} {ev : Event} {db db' : Db} {e : ExecutionId} {tid : TaskId}
  {a b : Time}

/-! ## Starting times stay -/

namespace Db

/-- The execution was started at `b`. -/
def StartedAt (db : Db) (e : ExecutionId) (b : Time) : Prop :=
  ∃ x ∈ db.executions, x.id = e ∧ x.startedAt = some b

/-- The first run of the task began at `a`. -/
def BeganAt (db : Db) (tid : TaskId) (a : Time) : Prop :=
  ∃ t ∈ db.tasks, t.id = tid ∧ t.startedAt = some a

/-- The execution has a task that was enqueued. -/
def InProgress (db : Db) (e : ExecutionId) : Prop :=
  ∃ t ∈ db.tasks, t.executionId = e ∧ t.enqueued = true

theorem StartedAt.startedAt {x : Execution} (h : db.StartedAt x.id b) (hx : x ∈ db.executions) :
    x.startedAt = some b := by
  obtain ⟨y, hy, hid, hb⟩ := h
  rwa [Table.eq_of_key_eq hy hx hid] at hb

theorem BeganAt.startedAt {t : Task} (h : db.BeganAt t.id a) (ht : t ∈ db.tasks) :
    t.startedAt = some a := by
  obtain ⟨u, hu, hid, ha⟩ := h
  rwa [Table.eq_of_key_eq hu ht hid] at ha

theorem Works.inProgress {t : Task} (hwf : db.WellFormed) (h : db.Works t) :
    db.InProgress t.executionId := by
  obtain ⟨u, hu, hid, henq⟩ := h.1.claimed.enqueued hwf
  exact ⟨u, hu, (h.2.le_of_mem hu hid).executionId, henq⟩

end Db

theorem TaskUpdate.startedAt {now : Time} {u : TaskUpdate} {t : Task} (hg : u.guard t = true)
    (h : t.startedAt = some a) : (u.set now t).startedAt = some a := by
  cases u with
  | markStarted => simp [TaskUpdate.guard, h] at hg
  | claimTask | markEnqueued | skipTask | retryTask | failTask | completeStored | completeTask => exact h

theorem ExecutionUpdate.startedAt {now : Time} {u : ExecutionUpdate} {x : Execution}
    (hg : u.guard x = true) (h : x.startedAt = some b) : (u.set now x).startedAt = some b := by
  cases u with
  | startExecution => simp [ExecutionUpdate.guard, h] at hg
  | guardExecution | failExecution | completeExecution | failFinished => exact h

theorem beganAt_step (hinv : Inv s) (hs : s.step cfg ev = some s') (h : s.db.BeganAt tid a) :
    s'.db.BeganAt tid a := by
  obtain ⟨t, ht, rfl, ha⟩ := h
  obtain ⟨t', ht', hle⟩ := (hinv.step hs).2.task t ht
  refine ⟨t', ht', hle.id, ?_⟩
  cases row_origin hs ht' with
  | kept hmem => rwa [Table.eq_of_key_eq hmem ht hle.id]
  | planned o e i sub heq =>
      subst heq
      exact absurd hle.id (Db.plannedTask_id_ne ht e i sub)
  | set hid o pc τ k t₀ u hev hpc hcommit hdb ht₀ hu hg heq =>
      subst heq
      obtain rfl := Table.eq_of_key_eq ht₀ ht ((u.set_id o.now t₀).symm.trans hle.id)
      exact TaskUpdate.startedAt hg ha

theorem startedAt_step (hinv : Inv s) (hs : s.step cfg ev = some s') (h : s.db.StartedAt e b) :
    s'.db.StartedAt e b := by
  obtain ⟨x, hx, rfl, hb⟩ := h
  obtain ⟨x', hx', hid, -⟩ := (hinv.step hs).2.execution x hx
  refine ⟨x', hx', hid, ?_⟩
  cases State.stepsTo hs with
  | createExecution userRequest now =>
      rcases State.mem_createExecution.1 hx' with hmem | rfl
      · rwa [Table.eq_of_key_eq hmem hx hid]
      · exact absurd ⟨x, hx, hid.symm⟩ (not_submitted_fresh s)
  | commit hid' o pc τ k hpc hlive hact =>
      rcases Db.mem_commit_executions hx' with ⟨hmem, -⟩ | ⟨x₀, hx₀, u, -, hg, rfl⟩
      · rwa [Table.eq_of_key_eq hmem hx hid]
      · obtain rfl := Table.eq_of_key_eq hx₀ hx ((u.set_id o.now x₀).symm.trans hid)
        exact ExecutionUpdate.startedAt hg hb
  | dequeue | promoteDue | recoverStaleTasks | move | send | redeliver | raise | crash =>
      rwa [Table.eq_of_key_eq hx' hx hid]

/-! ## What a handler has read -/

/-- The executions a call of `_retry_or_fail` leads to passes over. -/
def RetryCaller.passes : RetryCaller → List ExecutionId
  | .executeTask e => [e]
  | .recoverStaleTasks e stale affected => e :: (stale.map Task.executionId ++ affected)

/-- The executions the handler makes a pass over, now or later, for what it has done already. -/
def Pc.passes : Pc → List ExecutionId
  | .retryOrFail _ _ k | .retrySchedule _ _ k | .retryDeadLetter _ k => k.passes
  | .scheduleGet e k | .scheduleSelect e k | .scheduleScan e k .. | .schedulePush e k ..
  | .finalizeGet e k => e :: k.affected
  | .finalizeSelect x k | .finalizeLoad x k .. | .finalizeComplete x k .. | .finalizeFail x k _ =>
    x.id :: k.affected
  | .recoverAffected affected => affected
  | _ => []

/-- The task the handler has just marked as started. -/
def Pc.refresh? : Pc → Option TaskId
  | .taskRefresh tid => some tid
  | _ => none

/-- The row the handler read after `_mark_started`. -/
def Pc.task? : Pc → Option Task
  | .taskCheck task | .contextSelect task | .contextLoad task .. | .agentStart task _
  | .agentRun task _ | .persist task _ => some task
  | _ => none

/-- The execution row the handler read in `_finalize`. -/
def Pc.execution? : Pc → Option Execution
  | .finalizeSelect x _ | .finalizeLoad x .. | .finalizeComplete x .. | .finalizeFail x .. => some x
  | _ => none

theorem ScheduleCaller.resume_passes (k : ScheduleCaller) : k.resume.passes ⊆ k.affected := by
  cases k with
  | planExecution | executeTask => exact List.nil_subset _
  | recoverStaleTasks affected => exact List.Subset.refl _

theorem recoverNext_passes (stale : List Task) (affected : List ExecutionId) :
    (recoverNext stale affected).passes ⊆ stale.map Task.executionId ++ affected := by
  cases stale with
  | nil => exact List.Subset.refl _
  | cons t rest => exact List.Subset.refl _

theorem RetryCaller.resume_passes (k : RetryCaller) : k.resume.passes ⊆ k.passes := by
  cases k with
  | executeTask e => exact List.Subset.refl _
  | recoverStaleTasks e stale affected =>
      intro e' he'
      rcases List.mem_append.1 (recoverNext_passes stale _ he') with hstale | haffected
      · exact List.mem_cons_of_mem _ (List.mem_append_left _ hstale)
      · rcases List.mem_insert_iff.1 haffected with rfl | hold
        · exact List.mem_cons_self
        · exact List.mem_cons_of_mem _ (List.mem_append_right _ hold)

theorem finalizeTasks_passes (x : Execution) (k : ScheduleCaller) (tasks : List Task) :
    (finalizeTasks x k tasks).passes ⊆ x.id :: k.affected := by
  unfold finalizeTasks
  split_ifs
  · exact List.subset_cons_of_subset _ k.resume_passes
  · exact List.subset_cons_of_subset _ k.resume_passes
  · exact List.Subset.refl _
  · exact List.Subset.refl _

/-- A handler makes passes over executions with a task it or another one has worked on. -/
theorem Pc.Moves.passes {o : Oracle} {r : Redis} {pc pc' : Pc} (h : pc.Moves cfg o db r pc')
    (hwf : db.WellFormed) (hk : pc.Knows db) (he : e ∈ pc'.passes) :
    e ∈ pc.passes ∨ db.InProgress e := by
  cases h with
  | rollbackFound task | rollbackNotFound task =>
      obtain rfl := List.mem_singleton.1 he
      exact .inr (hk.inProgress hwf)
  | recoverSelect =>
      rcases List.mem_append.1 (recoverNext_passes _ _ he) with hstale | hnil
      · obtain ⟨t, ht, rfl⟩ := List.mem_map.1 hstale
        obtain ⟨hmem, hisStale⟩ := List.mem_filter.1 (Table.mem_reorder.1 ht)
        refine .inr ⟨t, hmem, rfl, (hwf.rows t hmem).active ?_⟩
        intro hpending
        simp [isStale, hpending] at hisStale
      · cases hnil
  | scheduleNotFound e' k | finalizeNotFound e' k =>
      exact .inl (List.mem_cons_of_mem _ (k.resume_passes he))
  | finalizeFound e' k x hfind =>
      obtain ⟨-, hid⟩ := Table.find?_eq_some_iff.1 hfind
      exact .inl (hid ▸ he)
  | finalizeSelect x k => exact .inl (finalizeTasks_passes x k _ he)
  | recoverAffected affected e' rest hcons =>
      have hmem : e ∈ Table.reorder o.order affected := hcons ▸ he
      exact .inl (Table.mem_reorder.1 hmem)
  | scheduleFound | scheduleSelect | scanAgain | scanDone | scanPass | outcomesDone | outcomeNext =>
      exact .inl he
  | _ => cases he

theorem Pc.Commits.passes {o : Oracle} {pc : Pc} {τ : Txn} {k : Nat → Pc} (n : Nat)
    (h : pc.Commits cfg o db τ k) (hwf : db.WellFormed) (hk : pc.Knows db) (he : e ∈ (k n).passes) :
    e ∈ pc.passes ∨ db.InProgress e ∨ pc = .planStarted e := by
  cases h with
  | planStarted e' =>
      obtain rfl := List.mem_singleton.1 he
      exact .inr (.inr rfl)
  | taskStored task | persistUpdate task =>
      obtain rfl := List.mem_singleton.1 he
      exact .inr (.inl (hk.1.inProgress hwf))
  | persist task =>
      obtain rfl := List.mem_singleton.1 he
      exact .inr (.inl (hk.inProgress hwf))
  | retryTask task error k' | failTask task error k' =>
      simp only at he
      split_ifs at he
      · exact .inl he
      · exact .inl (k'.resume_passes he)
  | markEnqueued =>
      simp only at he
      split_ifs at he
      · exact .inl he
      · exact .inl he
  | skipTask => exact .inl he
  | finalizeComplete x k' | finalizeFail x k' =>
      exact .inl (List.mem_cons_of_mem _ (k'.resume_passes he))
  | planGuard | taskClaim =>
      simp only at he
      split_ifs at he
      · cases he
      · cases he
  | planInsert | planRunning | planFail | taskStarted => cases he

theorem Pc.Sends.passes {pc : Pc} {c : Command} {k : Nat → Pc} (n : Nat) (h : pc.Sends c k) :
    (k n).passes ⊆ pc.passes := by
  cases h with
  | enqueuePlan | promotePush => exact List.nil_subset _
  | schedulePush => exact List.Subset.refl _
  | retrySchedule tid nextAt k' | retryDeadLetter entry k' => exact k'.resume_passes
  | promoteNext =>
      dsimp only
      split_ifs <;> exact List.nil_subset _

/-- What a handler has read of times, and which executions it knows to have been started. -/
structure Pc.Timed (db : Db) (pc : Pc) : Prop where
  passes : ∀ e ∈ pc.passes, ∃ b, db.StartedAt e b
  refresh : ∀ tid ∈ pc.refresh?, ∃ a, db.BeganAt tid a
  task : ∀ t ∈ pc.task?, ∃ a, t.startedAt = some a ∧ db.BeganAt t.id a
  execution : ∀ x ∈ pc.execution?, ∃ b, x.startedAt = some b ∧ db.StartedAt x.id b

theorem Pc.Timed.mono {pc : Pc} (hstarted : ∀ e b, db.StartedAt e b → db'.StartedAt e b)
    (hbegan : ∀ tid a, db.BeganAt tid a → db'.BeganAt tid a) (h : pc.Timed db) : pc.Timed db' where
  passes e he := (h.passes e he).imp fun b => hstarted e b
  refresh tid htid := (h.refresh tid htid).imp fun a => hbegan tid a
  task t ht := (h.task t ht).imp fun a ha => ⟨ha.1, hbegan t.id a ha.2⟩
  execution x hx := (h.execution x hx).imp fun b hb => ⟨hb.1, hstarted x.id b hb.2⟩

/-! ## The rows -/

namespace Db

/-- The times of a task row, at the time `clock`. -/
structure TaskTimed (db : Db) (clock : Time) (t : Task) : Prop where
  enqueued : t.enqueued = true → ∃ b, db.StartedAt t.executionId b
  started : ∀ a, t.startedAt = some a → a ≤ clock ∧ ∃ b, db.StartedAt t.executionId b ∧ b ≤ a
  completed : t.status = .completed → ∃ a c, t.startedAt = some a ∧ t.completedAt = some c ∧ a ≤ c ∧
    c ≤ clock ∧ t.durationMs = msBetween (some a) c

/-- The times of an execution row, at the time `clock`. -/
structure ExecutionTimed (db : Db) (clock : Time) (x : Execution) : Prop where
  started : ∀ b, x.startedAt = some b → b ≤ clock
  completed : ∀ d, x.completedAt = some d → d ≤ clock ∧ db.Planned x.id ∧
    (∃ b, x.startedAt = some b ∧ b ≤ d ∧ x.durationMs = msBetween (some b) d) ∧
    ∀ t ∈ db.tasks, t.executionId = x.id → t.status.isTerminal = true ∧
      (t.status = .completed → ∃ c, t.completedAt = some c ∧ c ≤ d)

theorem TaskTimed.mono {clock clock' : Time} {t : Task}
    (hstarted : ∀ e b, db.StartedAt e b → db'.StartedAt e b) (hclock : clock ≤ clock')
    (h : db.TaskTimed clock t) : db'.TaskTimed clock' t where
  enqueued henq := (h.enqueued henq).imp fun b => hstarted _ b
  started a ha := by
    obtain ⟨hle, b, hb, hba⟩ := h.started a ha
    exact ⟨hle.trans hclock, b, hstarted _ b hb, hba⟩
  completed hc := by
    obtain ⟨a, c, ha, hcompleted, hac, hle, hduration⟩ := h.completed hc
    exact ⟨a, c, ha, hcompleted, hac, hle.trans hclock, hduration⟩

end Db

/-- The times of all rows, and what the handlers know of them. -/
structure Timed (s : State) : Prop where
  task : ∀ t ∈ s.db.tasks, s.db.TaskTimed s.clock t
  execution : ∀ x ∈ s.db.executions, s.db.ExecutionTimed s.clock x
  handler : ∀ pc ∈ s.handlers, pc.Timed s.db

/-- Every write site leaves the times of the rewritten task in order. -/
theorem Pc.Commits.taskTimed {o : Oracle} {pc : Pc} {τ : Txn} {k : Nat → Pc} {clock : Time}
    (hcommit : pc.Commits cfg o db τ k) (hwf : db.WellFormed) (hk : pc.Knows db) (hpc : pc.Timed db)
    (hclock : clock ≤ o.now) (hexecutions : ∀ x ∈ db.executions, db.ExecutionTimed clock x) {t : Task}
    {u : TaskUpdate} (ht : t ∈ db.tasks) (hu : τ.taskUpdate? = some (t.id, u))
    (hg : u.guard t = true) (h : db.TaskTimed clock t) : db.TaskTimed o.now (u.set o.now t) := by
  have hnow : db.TaskTimed o.now t := h.mono (fun _ _ hb => hb) hclock
  -- a task with a stored result is finished, and no longer updated
  have hstored : db.Stored t.id → t.status.isTerminal = true := by
    rintro ⟨r, hr, hid⟩
    obtain ⟨t', ht', hid', hterminal⟩ := hwf.result r hr
    rwa [Table.eq_of_key_eq ht' ht (hid'.trans hid)] at hterminal
  generalize hid : t.id = id at hu
  cases hcommit with
  | taskClaim | retryTask | failTask =>
      obtain ⟨-, rfl⟩ := Prod.mk.inj (Option.some.inj hu)
      exact ⟨hnow.enqueued, hnow.started, fun hc => by cases hc⟩
  | taskStarted =>
      obtain ⟨rfl, rfl⟩ := Prod.mk.inj (Option.some.inj hu)
      obtain ⟨t', ht', hid', henq⟩ := hk.claimed.enqueued hwf
      obtain rfl := Table.eq_of_key_eq ht' ht (hid'.trans hid.symm)
      obtain ⟨b, hb⟩ := h.enqueued henq
      refine ⟨hnow.enqueued, fun a ha => ?_, fun hc => ?_⟩
      · obtain rfl := Option.some.inj ha
        obtain ⟨x, hx, hxid, hxb⟩ := hb
        exact ⟨le_rfl, b, ⟨x, hx, hxid, hxb⟩, ((hexecutions x hx).started b hxb).trans hclock⟩
      · obtain ⟨a, c, ha, -⟩ := h.completed hc
        simp [TaskUpdate.guard, ha] at hg
  | taskStored task =>
      obtain ⟨rfl, rfl⟩ := Prod.mk.inj (Option.some.inj hu)
      have hterminal := hstored (hid ▸ hk.2)
      rw [of_decide_eq_true hg] at hterminal
      cases hterminal
  | persistUpdate task =>
      obtain ⟨rfl, rfl⟩ := Prod.mk.inj (Option.some.inj hu)
      have hterminal := hstored (hid ▸ hk.2)
      simp only [TaskUpdate.guard, Bool.or_eq_true, decide_eq_true_eq] at hg
      rcases hg with hg | hg <;> simp [hg, TaskStatus.isTerminal] at hterminal
  | persist task output =>
      obtain ⟨rfl, rfl⟩ := Prod.mk.inj (Option.some.inj hu)
      obtain ⟨a, htask, hbegan⟩ := hpc.task task rfl
      have ha : t.startedAt = some a := (hid ▸ hbegan).startedAt ht
      refine ⟨hnow.enqueued, hnow.started, fun _ => ⟨a, o.now, ha, rfl, (hnow.started a ha).1, le_rfl, ?_⟩⟩
      show msBetween task.startedAt o.now = _
      rw [htask]
  | skipTask e' k' seen t' rest | markEnqueued e' k' seen t' rest =>
      obtain ⟨rfl, rfl⟩ := Prod.mk.inj (Option.some.inj hu)
      obtain ⟨he', hread⟩ := hk.2.1.read t' (List.mem_append_right _ List.mem_cons_self)
      have hexecution : t.executionId = e' := (hread.le_of_mem ht hid).executionId.trans he'
      have hstarted : ∃ b, db.StartedAt t.executionId b := by
        rw [hexecution]
        exact hpc.passes e' List.mem_cons_self
      refine ⟨fun _ => hstarted, hnow.started, fun hc => ?_⟩
      first
      | cases hc
      | exact hnow.completed hc
  | planGuard | planInsert | planRunning | planStarted | planFail | finalizeComplete | finalizeFail =>
      cases hu

/-- What `completed` of an execution says of its tasks holds of later rows too. -/
theorem task_completedAt_step (hinv : Inv s) (hs : s.step cfg ev = some s') {e : ExecutionId} {d : Time}
    (hplanned : s.db.Planned e)
    (h : ∀ t ∈ s.db.tasks, t.executionId = e → t.status.isTerminal = true ∧
      (t.status = .completed → ∃ c, t.completedAt = some c ∧ c ≤ d)) :
    ∀ t' ∈ s'.db.tasks, t'.executionId = e → t'.status.isTerminal = true ∧
      (t'.status = .completed → ∃ c, t'.completedAt = some c ∧ c ≤ d) := by
  intro t' ht' he
  obtain ⟨t, ht, hle⟩ := (hinv.step hs).2.task_origin hplanned ht' he
  obtain ⟨hterminal, hcompleted⟩ := h t ht (hle.executionId.symm.trans he)
  have hstatus := hle.terminal hterminal
  refine ⟨hstatus ▸ hterminal, fun hc => ?_⟩
  have hct : t.status = .completed := hstatus.symm.trans hc
  obtain ⟨c, hcompletedAt, hcd⟩ := hcompleted hct
  refine ⟨c, ?_, hcd⟩
  cases row_origin hs ht' with
  | kept hmem => rwa [Table.eq_of_key_eq hmem ht hle.id]
  | planned o e i sub heq =>
      subst heq
      exact absurd hle.id (Db.plannedTask_id_ne ht e i sub)
  | set hid o pc τ k t₀ u hev hpc hcommit hdb ht₀ hu hg heq =>
      subst heq
      obtain rfl := Table.eq_of_key_eq ht₀ ht ((u.set_id o.now t₀).symm.trans hle.id)
      cases u with
      | completeTask => simp [TaskUpdate.guard, hct] at hg
      | claimTask | markStarted | markEnqueued | skipTask | retryTask | failTask | completeStored =>
          exact hcompletedAt

theorem executionTimed_kept (hinv : Inv s) (hs : s.step cfg ev = some s') (hclock : s.clock ≤ s'.clock)
    {x : Execution} (h : s.db.ExecutionTimed s.clock x) : s'.db.ExecutionTimed s'.clock x where
  started b hb := (h.started b hb).trans hclock
  completed d hd := by
    obtain ⟨hle, hplanned, hduration, htasks⟩ := h.completed d hd
    exact ⟨hle.trans hclock, hplanned.mono (hinv.step hs).2, hduration,
      task_completedAt_step hinv hs hplanned htasks⟩

/-- Every write site leaves the times of the rewritten execution in order. -/
theorem Pc.Commits.executionTimed {o : Oracle} {pc : Pc} {k : Nat → Pc} {clock : Time}
    {x : Execution} {u : ExecutionUpdate} (hcommit : pc.Commits cfg o db (.updateExecution x.id u) k)
    (hk : pc.Knows db) (hpc : pc.Timed db) (hclock : clock ≤ o.now)
    (htasks : ∀ t ∈ db.tasks, db.TaskTimed clock t) (hx : x ∈ db.executions) (hg : u.guard x = true)
    (h : db.ExecutionTimed clock x) : db.ExecutionTimed o.now (u.set o.now x) := by
  have hnow : db.ExecutionTimed o.now x :=
    ⟨fun b hb => (h.started b hb).trans hclock, fun d hd =>
      ⟨(h.completed d hd).1.trans hclock, (h.completed d hd).2⟩⟩
  generalize hid : x.id = e at hcommit
  -- the rows a finalizer read have become the current ones
  have hfinished : ∀ tasks, db.Loaded e tasks → (∀ t ∈ tasks, t.status.isTerminal = true) →
      ∀ t ∈ db.tasks, t.executionId = x.id → t.status.isTerminal = true ∧
        (t.status = .completed → ∃ c, t.completedAt = some c ∧ c ≤ o.now) := by
    intro tasks hloaded hterminal t ht he
    obtain ⟨t₀, ht₀, hle⟩ := hloaded.complete t ht (he.trans hid)
    refine ⟨hle.terminal (hterminal t₀ ht₀) ▸ hterminal t₀ ht₀, fun hc => ?_⟩
    obtain ⟨a, c, -, hcompletedAt, -, hle, -⟩ := (htasks t ht).completed hc
    exact ⟨c, hcompletedAt, hle.trans hclock⟩
  have hread : ∀ x₀ ∈ pc.execution?, x₀.id = e → ∃ b, x₀.startedAt = some b ∧ x.startedAt = some b := by
    intro x₀ hx₀ hid₀
    obtain ⟨b, hb, hstarted⟩ := hpc.execution x₀ hx₀
    exact ⟨b, hb, (hid₀.trans hid.symm ▸ hstarted).startedAt hx⟩
  cases hcommit with
  | planGuard | planRunning | planFail => exact ⟨hnow.started, hnow.completed⟩
  | planStarted =>
      refine ⟨fun b hb => (Option.some.inj hb).symm.le, fun d hd => ?_⟩
      obtain ⟨-, -, ⟨b, hb, -⟩, -⟩ := h.completed d hd
      simp [ExecutionUpdate.guard, hb] at hg
  | finalizeComplete x₀ k' tasks outcomes =>
      obtain ⟨hf, -, -⟩ := hk
      obtain ⟨b, hb₀, hb⟩ := hread x₀ rfl rfl
      refine ⟨hnow.started, fun d hd => ?_⟩
      obtain rfl := Option.some.inj hd
      refine ⟨le_rfl, hid ▸ hf.planned, ⟨b, hb, hnow.started b hb, ?_⟩,
        hfinished tasks hf.loaded fun t ht => hf.completed t ht ▸ rfl⟩
      show msBetween x₀.startedAt o.now = _
      rw [hb₀]
  | finalizeFail x₀ k' tasks =>
      obtain ⟨hplanned, hloaded, hterminal, -⟩ := hk
      obtain ⟨b, hb₀, hb⟩ := hread x₀ rfl rfl
      refine ⟨hnow.started, fun d hd => ?_⟩
      obtain rfl := Option.some.inj hd
      refine ⟨le_rfl, hid ▸ hplanned, ⟨b, hb, hnow.started b hb, ?_⟩,
        hfinished tasks hloaded hterminal⟩
      show msBetween x₀.startedAt o.now = _
      rw [hb₀]

/-! ## What a handler has read, step by step -/

/-- A handler that has read no times. -/
theorem Pc.timed_of {pc : Pc} (hpasses : pc.passes = []) (hrefresh : pc.refresh? = none)
    (htask : pc.task? = none) (hexecution : pc.execution? = none) : pc.Timed db where
  passes := by simp [hpasses]
  refresh := by simp [hrefresh]
  task := by simp [htask]
  execution := by simp [hexecution]

@[simp ↓] theorem ScheduleCaller.resume_refresh? (k : ScheduleCaller) : k.resume.refresh? = none :=
  k.observe_resume Pc.refresh? rfl fun _ => rfl

@[simp ↓] theorem recoverNext_refresh? (stale : List Task) (affected : List ExecutionId) :
    (recoverNext stale affected).refresh? = none :=
  observe_recoverNext Pc.refresh? (fun _ => rfl) (fun _ _ _ _ _ => rfl) stale affected

@[simp ↓] theorem RetryCaller.resume_refresh? (k : RetryCaller) : k.resume.refresh? = none :=
  k.observe_resume Pc.refresh? (fun _ => rfl) (fun _ => rfl) fun _ _ _ _ _ => rfl

@[simp ↓] theorem finalizeTasks_refresh? (x : Execution) (k : ScheduleCaller) (tasks : List Task) :
    (finalizeTasks x k tasks).refresh? = none :=
  observe_finalizeTasks Pc.refresh? rfl (fun _ => rfl) (fun _ _ _ _ _ => rfl) (fun _ _ _ => rfl) x k tasks

@[simp ↓] theorem ScheduleCaller.resume_task? (k : ScheduleCaller) : k.resume.task? = none :=
  k.observe_resume Pc.task? rfl fun _ => rfl

@[simp ↓] theorem recoverNext_task? (stale : List Task) (affected : List ExecutionId) :
    (recoverNext stale affected).task? = none :=
  observe_recoverNext Pc.task? (fun _ => rfl) (fun _ _ _ _ _ => rfl) stale affected

@[simp ↓] theorem RetryCaller.resume_task? (k : RetryCaller) : k.resume.task? = none :=
  k.observe_resume Pc.task? (fun _ => rfl) (fun _ => rfl) fun _ _ _ _ _ => rfl

@[simp ↓] theorem finalizeTasks_task? (x : Execution) (k : ScheduleCaller) (tasks : List Task) :
    (finalizeTasks x k tasks).task? = none :=
  observe_finalizeTasks Pc.task? rfl (fun _ => rfl) (fun _ _ _ _ _ => rfl) (fun _ _ _ => rfl) x k tasks

@[simp ↓] theorem ScheduleCaller.resume_execution? (k : ScheduleCaller) : k.resume.execution? = none :=
  k.observe_resume Pc.execution? rfl fun _ => rfl

@[simp ↓] theorem recoverNext_execution? (stale : List Task) (affected : List ExecutionId) :
    (recoverNext stale affected).execution? = none :=
  observe_recoverNext Pc.execution? (fun _ => rfl) (fun _ _ _ _ _ => rfl) stale affected

@[simp ↓] theorem RetryCaller.resume_execution? (k : RetryCaller) : k.resume.execution? = none :=
  k.observe_resume Pc.execution? (fun _ => rfl) (fun _ => rfl) fun _ _ _ _ _ => rfl

theorem finalizeTasks_execution? (x : Execution) (k : ScheduleCaller) (tasks : List Task) :
    ∀ y ∈ (finalizeTasks x k tasks).execution?, y = x := by
  unfold finalizeTasks
  split_ifs <;> simp [Pc.execution?]

theorem Pc.Moves.task? {o : Oracle} {r : Redis} {pc pc' : Pc} (h : pc.Moves cfg o db r pc')
    (hpc : pc.Timed db) : ∀ t ∈ pc'.task?, ∃ a, t.startedAt = some a ∧ db.BeganAt t.id a := by
  cases h with
  | refreshed tid task hfind =>
      intro t ht
      obtain rfl := Option.some.inj ht
      obtain ⟨hmem, hid⟩ := Table.find?_eq_some_iff.1 hfind
      obtain ⟨a, hbegan⟩ := hpc.refresh tid rfl
      have hbegan' : db.BeganAt task.id a := hid ▸ hbegan
      exact ⟨a, hbegan'.startedAt hmem, hbegan'⟩
  | noResult | contextEmpty | contextSelect | contextDone | contextNext | agentStart | agentReturned =>
      exact hpc.task
  | _ => simp [Pc.task?]

theorem Pc.Moves.execution? {o : Oracle} {r : Redis} {pc pc' : Pc} (h : pc.Moves cfg o db r pc')
    (hpc : pc.Timed db) :
    ∀ x ∈ pc'.execution?, ∃ b, x.startedAt = some b ∧ db.StartedAt x.id b := by
  cases h with
  | finalizeFound e' k x hfind =>
      intro x' hx'
      obtain rfl := Option.some.inj hx'
      obtain ⟨hmem, hid⟩ := Table.find?_eq_some_iff.1 hfind
      obtain ⟨b, hb⟩ := hpc.passes e' List.mem_cons_self
      have hb' : db.StartedAt x.id b := hid ▸ hb
      exact ⟨b, hb'.startedAt hmem, hb'⟩
  | finalizeSelect x k =>
      intro y hy
      obtain rfl := finalizeTasks_execution? x k _ y hy
      exact hpc.execution y rfl
  | outcomesDone | outcomeNext => exact hpc.execution
  | _ => simp [Pc.execution?]

theorem Pc.Moves.refresh? {o : Oracle} {r : Redis} {pc pc' : Pc} (h : pc.Moves cfg o db r pc') :
    pc'.refresh? = none := by
  cases h <;> simp [Pc.refresh?]

theorem Pc.Commits.reads {o : Oracle} {pc : Pc} {τ : Txn} {k : Nat → Pc} (n : Nat)
    (h : pc.Commits cfg o db τ k) : (k n).task? = none ∧ (k n).execution? = none := by
  cases h <;> simp [Pc.task?, Pc.execution?, ↓apply_ite Pc.task?, ↓apply_ite Pc.execution?]

theorem Pc.Commits.refresh? {o : Oracle} {pc : Pc} {τ : Txn} {k : Nat → Pc} (n : Nat)
    (h : pc.Commits cfg o db τ k) :
    ∀ tid ∈ (k n).refresh?, pc = .taskStarted tid ∧ τ = .updateTask tid .markStarted := by
  cases h with
  | taskStarted tid' =>
      intro tid htid
      obtain rfl := Option.some.inj htid
      exact ⟨rfl, rfl⟩
  | _ => simp [Pc.refresh?, ↓apply_ite Pc.refresh?]

theorem Pc.Sends.reads {pc : Pc} {c : Command} {k : Nat → Pc} (n : Nat) (h : pc.Sends c k) :
    (k n).refresh? = none ∧ (k n).task? = none ∧ (k n).execution? = none := by
  cases h <;> simp [Pc.refresh?, Pc.task?, Pc.execution?, ↓apply_ite Pc.refresh?, ↓apply_ite Pc.task?,
    ↓apply_ite Pc.execution?]

theorem Db.startedAt_commit (now : Time) (h : db.Submitted e) :
    ∃ b, (db.commit now (.updateExecution e .startExecution)).StartedAt e b := by
  obtain ⟨x, hx, rfl⟩ := h
  cases hstarted : x.startedAt with
  | none =>
      have hg : ExecutionUpdate.guard .startExecution x = true := by
        simp [ExecutionUpdate.guard, hstarted]
      exact ⟨now, _, Db.mem_updateExecution.2 ⟨x, hx, (if_pos ⟨rfl, hg⟩).symm⟩, rfl, rfl⟩
  | some b =>
      have hg : ¬ (x.id = x.id ∧ ExecutionUpdate.guard .startExecution x = true) := by
        simp [ExecutionUpdate.guard, hstarted]
      exact ⟨b, x, Db.mem_updateExecution.2 ⟨x, hx, (if_neg hg).symm⟩, rfl, hstarted⟩

theorem Db.beganAt_commit (now : Time) {t : Task} (ht : t ∈ db.tasks) :
    ∃ a, (db.commit now (.updateTask t.id .markStarted)).BeganAt t.id a := by
  cases hstarted : t.startedAt with
  | none =>
      have hg : TaskUpdate.guard .markStarted t = true := by simp [TaskUpdate.guard, hstarted]
      exact ⟨now, _, Db.set_mem_updateTask ht rfl hg, rfl, rfl⟩
  | some a =>
      have hg : TaskUpdate.guard .markStarted t = false := by simp [TaskUpdate.guard, hstarted]
      exact ⟨a, t, Db.mem_updateTask_of_not ht fun _ => hg, rfl, hstarted⟩

theorem Timed.handler_step (h : Timed s) (hinv : Inv s) (hs : s.step cfg ev = some s') :
    ∀ pc ∈ s'.handlers, pc.Timed s'.db := by
  have hmono : ∀ pc : Pc, pc.Timed s.db → pc.Timed s'.db := fun pc =>
    Pc.Timed.mono (fun _ _ => startedAt_step hinv hs) (fun _ _ => beganAt_step hinv hs)
  have hprogress : ∀ e, s.db.InProgress e → ∃ b, s.db.StartedAt e b := by
    rintro e ⟨t, ht, rfl, henq⟩
    exact (h.task t ht).enqueued henq
  have hdone : Pc.Timed s'.db .done := Pc.timed_of rfl rfl rfl rfl
  refine State.forall_handlers (P := Pc.Timed s.db) hs h.handler (fun pc _ => hmono pc) ?_ ?_ ?_ ?_ ?_
    hdone
  · intro pc hstart
    cases hstart with
    | dequeue job | redeliver job => cases job <;> exact Pc.timed_of rfl rfl rfl rfl
    | createExecution | promoteDue | recoverStaleTasks => exact Pc.timed_of rfl rfl rfl rfl
  · intro hid o pc pc' _ hpc hact _ hpcTimed
    have hmoves := Pc.moves_of_act hact
    have hk := hinv.knows pc (List.mem_of_getElem? hpc)
    refine hmono pc' ⟨fun e he => ?_, ?_, hmoves.task? hpcTimed, hmoves.execution? hpcTimed⟩
    · rcases hmoves.passes hinv.wellFormed hk he with hold | hnew
      · exact hpcTimed.passes e hold
      · exact hprogress e hnew
    · simp [hmoves.refresh?]
  · intro hid o pc τ k _ hpc hcommit hdb hpcTimed
    have hk := hinv.knows pc (List.mem_of_getElem? hpc)
    obtain ⟨htask, hexecution⟩ := hcommit.reads (s.db.rowcount τ)
    refine ⟨fun e he => ?_, fun tid htid => ?_, by simp [htask], by simp [hexecution]⟩
    · rcases hcommit.passes _ hinv.wellFormed hk he with hold | hnew | rfl
      · exact (hmono pc hpcTimed).passes e hold
      · exact (hprogress e hnew).imp fun b => startedAt_step hinv hs
      · cases hcommit
        rw [hdb]
        exact Db.startedAt_commit o.now (Db.Planned.submitted hinv.wellFormed hk)
    · obtain ⟨rfl, rfl⟩ := hcommit.refresh? _ tid htid
      obtain ⟨t, ht, rfl, -⟩ := hk
      rw [hdb]
      exact Db.beganAt_commit o.now ht
  · intro hid o pc c k _ _ hsend _ hpcTimed
    obtain ⟨hrefresh, htask, hexecution⟩ := hsend.reads (s.redis.reply c)
    exact ⟨fun e he => (hmono pc hpcTimed).passes e (hsend.passes _ he), by simp [hrefresh],
      by simp [htask], by simp [hexecution]⟩
  · intro hid exc pc _ _ _
    rcases pc.raised_cases exc with h | ⟨e', error, h⟩ | ⟨task, h⟩ <;> rw [h] <;>
      exact Pc.timed_of rfl rfl rfl rfl

theorem Timed.step (h : Timed s) (hinv : Inv s) (hE : OneClock s ev) (hs : s.step cfg ev = some s') :
    Timed s' where
  task t' ht' := by
    have hclock := clock_le hE hs
    have hstarted : ∀ e b, s.db.StartedAt e b → s'.db.StartedAt e b := fun _ _ => startedAt_step hinv hs
    cases row_origin hs ht' with
    | kept hmem => exact (h.task t' hmem).mono hstarted hclock
    | planned o e i sub heq =>
        subst heq
        refine ⟨fun henq => ?_, fun a ha => ?_, fun hc => ?_⟩
        · cases henq
        · cases ha
        · cases hc
    | set hid o pc τ k t u hev hpc hcommit hdb ht hu hg heq =>
        subst heq hev
        have hmem := List.mem_of_getElem? hpc
        rw [clock_of_run hs]
        exact (hcommit.taskTimed hinv.wellFormed (hinv.knows pc hmem) (h.handler pc hmem) hE.1
          h.execution ht hu hg (h.task t ht)).mono hstarted le_rfl
  execution := by
    have hclock := clock_le hE hs
    have hkept : ∀ x ∈ s.db.executions, s'.db.ExecutionTimed s'.clock x := fun x hx =>
      executionTimed_kept hinv hs hclock (h.execution x hx)
    intro x' hx'
    cases State.stepsTo hs with
    | createExecution userRequest now =>
        rcases State.mem_createExecution.1 hx' with hx | rfl
        · exact hkept x' hx
        · refine ⟨fun b hb => ?_, fun d hd => ?_⟩
          · cases hb
          · cases hd
    | commit hid o pc τ k hpc hlive hact =>
        rcases Db.mem_commit_executions hx' with ⟨hx, -⟩ | ⟨x, hx, u, rfl, hg, rfl⟩
        · exact hkept x' hx
        · have hmem := List.mem_of_getElem? hpc
          have hnow := (Pc.commits_of_act hact).executionTimed (hinv.knows pc hmem) (h.handler pc hmem)
            hE.1 h.task hx hg (h.execution x hx)
          exact ⟨hnow.started, hnow.completed⟩
    | dequeue | promoteDue | recoverStaleTasks | move | send | redeliver | raise | crash =>
        exact hkept x' hx'
  handler := h.handler_step hinv hs

theorem reachable_timed (h : (queueMode cfg).Reachable OneClock s) : Timed s :=
  h.invariant (I := Timed) ⟨by simp [queueMode], by simp [queueMode], by simp [queueMode]⟩
    fun _ _ _ hr hi hE hs => hi.step (reachable_inv hr) hE hs

/-! ## Timelines -/

/-- `w` is the time from `a` to `c` in milliseconds, cut off to a whole number; the computation in
    doubles adds a relative error below `2 ^ -51`. -/
structure Milliseconds (a c : Time) (w : Int) : Prop where
  nonneg : 0 ≤ w
  lower : (c - a) * 1000 * (1 - 1 / 2 ^ 51) - 1 < w
  upper : (w : ℚ) ≤ (c - a) * 1000 * (1 + 1 / 2 ^ 51)

/-- The bar of the task lies within the bar of its execution. -/
structure Nested (x : Execution) (t : Task) : Prop where
  begins : ∀ a, t.startedAt = some a → ∃ b, x.startedAt = some b ∧ b ≤ a
  runs : t.status = .completed → ∃ a c w, t.startedAt = some a ∧ t.completedAt = some c ∧ a ≤ c ∧
    t.durationMs = some w ∧ Milliseconds a c w
  ends : ∀ d, x.completedAt = some d → t.status.isTerminal = true ∧
    (t.status = .completed → ∃ c w w', t.completedAt = some c ∧ c ≤ d ∧ t.durationMs = some w ∧
      x.durationMs = some w' ∧ w ≤ w')

theorem msBetween_le {a b c d : Time} (hb : b ≤ a) (hd : c ≤ d) :
    ∃ w w', msBetween (some a) c = some w ∧ msBetween (some b) d = some w' ∧ w ≤ w' := by
  have hseconds : totalSeconds a c ≤ totalSeconds b d := Double.round_mono (by linarith)
  refine ⟨_, _, rfl, rfl, max_le_max le_rfl (Int.floor_le_floor (Double.round_mono ?_))⟩
  linarith

/-- The two roundings of `_ms_between` change the product by little. -/
theorem msBetween_milliseconds {a c : Time} (h : a ≤ c) :
    ∃ w, msBetween (some a) c = some w ∧ Milliseconds a c w := by
  have hnonneg : 0 ≤ Double.round (totalSeconds a c * 1000) :=
    Double.round_nonneg (mul_nonneg (Double.round_nonneg (sub_nonneg.2 h)) (by norm_num))
  refine ⟨_, congrArg some (max_eq_right (Int.floor_nonneg.2 hnonneg)), ?_⟩
  have hseconds := Double.abs_round_sub_le (c - a)
  have hproduct := Double.abs_round_sub_le (totalSeconds a c * 1000)
  have hpos : 0 ≤ totalSeconds a c * 1000 :=
    mul_nonneg (Double.round_nonneg (sub_nonneg.2 h)) (by norm_num)
  rw [abs_of_nonneg hpos, abs_le] at hproduct
  change |totalSeconds a c - (c - a)| ≤ _ at hseconds
  rw [abs_of_nonneg (sub_nonneg.2 h), abs_le] at hseconds
  have hfloor := Int.floor_le (Double.round (totalSeconds a c * 1000))
  have hceil := Int.lt_floor_add_one (Double.round (totalSeconds a c * 1000))
  have hlength := sub_nonneg.2 h
  constructor
  case nonneg => exact Int.floor_nonneg.2 hnonneg
  case lower => linarith
  case upper => linarith

example : msBetween (some 0) (1001 / 1000) = some 1000 := by decide +kernel

/-- With one clock that never goes back: an execution's stamps are in order and its duration is the time
    between them, and the same holds of each of its COMPLETED tasks, whose run lies within its own. -/
theorem timelines_nest (h : (queueMode cfg).Reachable OneClock s) {x : Execution}
    (hx : x ∈ s.db.executions) :
    (∀ d, x.completedAt = some d → ∃ b w, x.startedAt = some b ∧ b ≤ d ∧
      x.durationMs = some w ∧ Milliseconds b d w) ∧
    ∀ t ∈ s.db.tasks, t.executionId = x.id → Nested x t := by
  have htimed := reachable_timed h
  have hexecution := htimed.execution x hx
  refine ⟨fun d hd => ?_, fun t ht he => ?_⟩
  · obtain ⟨-, -, ⟨b, hb, hbd, hduration⟩, -⟩ := hexecution.completed d hd
    obtain ⟨w, hw, hlength⟩ := msBetween_milliseconds hbd
    exact ⟨b, w, hb, hbd, hduration.trans hw, hlength⟩
  have htask := htimed.task t ht
  have hbegins : ∀ a, t.startedAt = some a → ∃ b, x.startedAt = some b ∧ b ≤ a := by
    intro a ha
    obtain ⟨-, b, hb, hle⟩ := htask.started a ha
    exact ⟨b, (he ▸ hb).startedAt hx, hle⟩
  refine ⟨hbegins, fun hc => ?_, fun d hd => ?_⟩
  · obtain ⟨a, c, ha, hcompleted, hac, -, hduration⟩ := htask.completed hc
    obtain ⟨w, hw, hlength⟩ := msBetween_milliseconds hac
    exact ⟨a, c, w, ha, hcompleted, hac, hduration.trans hw, hlength⟩
  · obtain ⟨-, -, ⟨b, hb, -, hduration⟩, htasks⟩ := hexecution.completed d hd
    obtain ⟨hterminal, hcompleted⟩ := htasks t ht he
    refine ⟨hterminal, fun hc => ?_⟩
    obtain ⟨a, c, ha, hcompletedAt, -, -, htaskDuration⟩ := htask.completed hc
    obtain ⟨c', hc', hcd⟩ := hcompleted hc
    obtain rfl := Option.some.inj (hcompletedAt.symm.trans hc')
    obtain ⟨b', hb', hba⟩ := hbegins a ha
    obtain rfl := Option.some.inj (hb.symm.trans hb')
    obtain ⟨w, w', hw, hw', hle⟩ := msBetween_le hba hcd
    exact ⟨c, w, w', hcompletedAt, hcd, htaskDuration.trans hw, hduration.trans hw', hle⟩

/-- A single task that runs from 2 to 9 within an execution from 1 to 12. -/
def timedSchedule : List Event :=
  .createExecution "q" 0 :: runs 0 1 { now := 0 } ++ .dequeue :: runs 1 17 { now := 1 } ++
    .dequeue :: runs 2 5 { now := 2 } ++ runs 2 5 { now := 9 } ++ runs 2 9 { now := 12 }

theorem timelines_nest_completed :
    ∃ s, (queueMode (fallbackConfig (singleTask 2))).Reachable OneClock s ∧
      ∃ x ∈ s.db.executions, x.durationMs = some 11000 ∧
        (∃ b d, x.startedAt = some b ∧ x.completedAt = some d ∧ b ≤ d) ∧
        ∃ t ∈ s.db.tasks, t.durationMs = some 7000 ∧ Nested x t := by
  obtain ⟨s, hreach, hcheck⟩ := (queueMode (fallbackConfig (singleTask 2))).exists_reachable
    (E := OneClock) (fun s ev => decide (OneClock s ev))
    (fun s => s.db.executions.rows.any fun x => x.completedAt = some 12 ∧ x.durationMs = some 11000 ∧
      s.db.tasks.rows.any fun t => t.executionId = x.id ∧ t.durationMs = some 7000)
    timedSchedule (fun _ _ hE => of_decide_eq_true hE) (by decide +kernel)
  obtain ⟨x, hx, hcompleted, hduration, t, ht, he, htask⟩ : ∃ x ∈ s.db.executions.rows,
      x.completedAt = some 12 ∧ x.durationMs = some 11000 ∧ ∃ t ∈ s.db.tasks.rows,
        t.executionId = x.id ∧ t.durationMs = some 7000 := by
    simpa using hcheck
  obtain ⟨hends, hnested⟩ := timelines_nest hreach hx
  obtain ⟨b, -, hb, hle, -⟩ := hends 12 hcompleted
  exact ⟨s, hreach, x, hx, hduration, ⟨b, 12, hb, hcompleted, hle⟩, t, ht, htask, hnested t ht he⟩

end AgenticExecution
