import AgenticExecution.Completion
import AgenticExecution.Library.Sums

set_option autoImplicit false

/-! # Bills

What the rows record of the work done: a task's duration, tokens, cost and tool calls, an
execution's duration, tokens and cost. Only COMPLETED tasks and executions that `_finalize` closed
have a bill, a bill never changes, and the bill of an execution is the sum over its tasks. -/

namespace AgenticExecution

variable {cfg : Config} {s s' : State} {ev : Event}

/-! ## Task rows -/

/-- The columns `_persist_success` fills beside the status, the error and the times. -/
def Task.bill (t : Task) : Option Int × Option Int × Option ℚ × Int :=
  (t.durationMs, t.totalTokens, t.costUsd, t.toolCalls)

/-- A task that is not COMPLETED has no bill. -/
def Task.BillOk (t : Task) : Prop := t.status ≠ .completed → t.bill = (none, none, none, 0)

theorem Task.BillOk.totalTokens {t : Task} (h : t.BillOk) (hs : t.status ≠ .completed) :
    t.totalTokens = none :=
  congrArg (·.2.1) (h hs)

theorem Task.BillOk.costUsd {t : Task} (h : t.BillOk) (hs : t.status ≠ .completed) :
    t.costUsd = none :=
  congrArg (·.2.2.1) (h hs)

theorem TaskUpdate.billOk {now : Time} {u : TaskUpdate} {t : Task} (hg : u.guard t = true)
    (h : t.BillOk) : (u.set now t).BillOk := by
  intro hs
  have hold : t.status ≠ .completed := fun hc => hs ((TaskUpdate.le hg).completed hc).1
  have hbill := h hold
  cases u with
  | completeStored | completeTask => exact absurd rfl hs
  | claimTask | markStarted | markEnqueued | skipTask | retryTask | failTask => exact hbill

/-- No update touches the bill of a COMPLETED task. -/
theorem TaskUpdate.bill_eq {now : Time} {u : TaskUpdate} {t : Task} (hg : u.guard t = true)
    (hs : t.status = .completed) : (u.set now t).bill = t.bill := by
  cases u with
  | completeTask stamp metrics => simp [TaskUpdate.guard, hs] at hg
  | claimTask | markStarted | markEnqueued | skipTask | retryTask | failTask | completeStored => rfl

theorem billOk_step (h : ∀ t ∈ s.db.tasks, t.BillOk) (hs : s.step cfg ev = some s') :
    ∀ t ∈ s'.db.tasks, t.BillOk := by
  intro t' ht'
  cases row_origin hs ht' with
  | kept hmem => exact h t' hmem
  | planned o e i sub heq =>
      subst heq
      exact fun _ => rfl
  | set hid o pc τ k t u hev hpc hcommit hdb ht hu hg heq =>
      subst heq
      exact TaskUpdate.billOk hg (h t ht)

/-! ## Execution rows -/

/-- The columns `_finalize` fills beside the status, the outcome and the times. -/
def Execution.bill (x : Execution) : Option Int × Option Int × Option ℚ :=
  (x.durationMs, x.totalTokens, x.costUsd)

/-- `x` is billed for a complete read of its finished tasks. -/
structure Db.Billed (db : Db) (x : Execution) (tasks : List Task) : Prop where
  terminal : x.status.isTerminal = true
  planned : db.Planned x.id
  loaded : db.Loaded x.id tasks
  finished : ∀ t ∈ tasks, t.status.isTerminal = true
  billOk : ∀ t ∈ tasks, t.BillOk
  totalTokens : x.totalTokens = some (sumTokens tasks)
  costUsd : x.costUsd = some (sumCosts tasks)

theorem Db.Billed.mono {db db' : Db} {x : Execution} {tasks : List Task} (hle : db.Le db')
    (h : db.Billed x tasks) : db'.Billed x tasks :=
  { h with planned := h.planned.mono hle, loaded := h.loaded.mono hle h.planned }

/-- What one row may be: not billed at all, or billed for its tasks. -/
def Db.ExecutionBillOk (db : Db) (x : Execution) : Prop :=
  x.bill = (none, none, none) ∨ ∃ tasks, db.Billed x tasks

theorem Db.ExecutionBillOk.mono {db db' : Db} {x : Execution} (hle : db.Le db')
    (h : db.ExecutionBillOk x) : db'.ExecutionBillOk x :=
  h.imp_right fun ⟨tasks, hb⟩ => ⟨tasks, hb.mono hle⟩

/-- The rows a finalizer that found a FAILED task holds. -/
def Pc.failedRead : Pc → List Task
  | .finalizeFail _ _ tasks => tasks
  | _ => []

@[simp ↓] theorem ScheduleCaller.resume_failedRead (k : ScheduleCaller) :
    k.resume.failedRead = [] :=
  k.observe_resume Pc.failedRead rfl fun _ => rfl

@[simp ↓] theorem recoverNext_failedRead (stale : List Task) (affected : List ExecutionId) :
    (recoverNext stale affected).failedRead = [] :=
  observe_recoverNext Pc.failedRead (fun _ => rfl) (fun _ _ _ _ _ => rfl) stale affected

@[simp ↓] theorem RetryCaller.resume_failedRead (k : RetryCaller) : k.resume.failedRead = [] :=
  k.observe_resume Pc.failedRead (fun _ => rfl) (fun _ => rfl) fun _ _ _ _ _ => rfl

theorem finalizeTasks_failedRead (x : Execution) (k : ScheduleCaller) (tasks : List Task) :
    (finalizeTasks x k tasks).failedRead = [] ∨ (finalizeTasks x k tasks).failedRead = tasks := by
  unfold finalizeTasks
  split_ifs
  · exact .inl k.resume_failedRead
  · exact .inl k.resume_failedRead
  · exact .inl rfl
  · exact .inr rfl

/-- A finalizer gets its rows from the table. -/
theorem Pc.Moves.failedRead {o : Oracle} {db : Db} {r : Redis} {pc pc' : Pc}
    (h : pc.Moves cfg o db r pc') {t : Task} (ht : t ∈ pc'.failedRead) : t ∈ db.tasks := by
  cases h with
  | finalizeSelect x k =>
      rcases finalizeTasks_failedRead x k (Table.reorder o.order (db.tasksOf x.id)) with hnil | heq
      · rw [hnil] at ht
        cases ht
      · rw [heq, Table.mem_reorder, Db.mem_tasksOf] at ht
        exact ht.1
  | _ => simp [Pc.failedRead] at ht

theorem Pc.Commits.failedRead {o : Oracle} {db : Db} {pc : Pc} {τ : Txn} {k : Nat → Pc} (n : Nat)
    (h : pc.Commits cfg o db τ k) : (k n).failedRead = [] := by
  cases h <;> simp [Pc.failedRead, ↓apply_ite Pc.failedRead]

theorem Pc.Sends.failedRead {pc : Pc} {c : Command} {k : Nat → Pc} (n : Nat) (h : pc.Sends c k) :
    (k n).failedRead = [] := by
  cases h <;> simp [Pc.failedRead, ↓apply_ite Pc.failedRead]

@[simp] theorem Pc.raised_failedRead (exc : Exn) (pc : Pc) : (pc.raised exc).failedRead = [] := by
  rcases pc.raised_cases exc with h | ⟨e', error, h⟩ | ⟨task, h⟩ <;> rw [h] <;> rfl

/-- The bills of all rows are in order, and so are the rows the finalizers hold. -/
structure BillsOk (s : State) : Prop where
  task : ∀ t ∈ s.db.tasks, t.BillOk
  execution : ∀ x ∈ s.db.executions, s.db.ExecutionBillOk x
  read : ∀ pc ∈ s.handlers, ∀ t ∈ pc.failedRead, t.BillOk

/-- Every write site leaves the bills of the executions in order. -/
theorem Pc.Commits.executionBillOk {o : Oracle} {db : Db} {pc : Pc} {τ : Txn} {k : Nat → Pc}
    (hcommit : pc.Commits cfg o db τ k) (hk : pc.Knows db)
    (hread : ∀ t ∈ pc.failedRead, t.BillOk) (hresp : db.Respects τ)
    (h : ∀ x ∈ db.executions, db.ExecutionBillOk x) :
    ∀ x ∈ (db.commit o.now τ).executions, (db.commit o.now τ).ExecutionBillOk x := by
  intro x' hx'
  have hle : db.Le (db.commit o.now τ) := Db.le_commit hresp
  rcases Db.mem_commit_executions hx' with ⟨hx, -⟩ | ⟨x, hx, u, hτ, hg, rfl⟩
  · exact (h x' hx).mono hle
  · refine Db.ExecutionBillOk.mono hle ?_
    have hx := h x hx
    subst hτ
    generalize hid : x.id = e at hcommit
    cases hcommit with
    | planGuard | planRunning =>
        refine .inl (hx.resolve_right ?_)
        rintro ⟨tasks, hb⟩
        have hterminal := hb.terminal
        rw [of_decide_eq_true hg] at hterminal
        cases hterminal
    | planStarted => exact hx.imp_right fun ⟨tasks, hb⟩ => ⟨tasks, { hb with }⟩
    | planFail => exact hx.imp_right fun ⟨tasks, hb⟩ => ⟨tasks, { hb with terminal := rfl }⟩
    | finalizeComplete x₀ k tasks outcomes =>
        obtain ⟨hf, -, -⟩ := hk
        refine .inr ⟨tasks, rfl, hid ▸ hf.planned, hid ▸ hf.loaded, fun t ht => ?_, fun t ht hne => ?_,
          rfl, rfl⟩
        · rw [hf.completed t ht]
          rfl
        · exact absurd (hf.completed t ht) hne
    | finalizeFail x₀ k tasks =>
        obtain ⟨hplanned, hloaded, hfinished, -⟩ := hk
        exact .inr ⟨tasks, rfl, hid ▸ hplanned, hid ▸ hloaded, hfinished, hread, rfl, rfl⟩

theorem BillsOk.step (h : BillsOk s) (hinv : Inv s) (hs : s.step cfg ev = some s') : BillsOk s' where
  task := billOk_step h.task hs
  execution := by
    cases State.stepsTo hs with
    | createExecution userRequest now =>
        intro x hx
        rcases State.mem_createExecution.1 hx with hx | rfl
        · exact (h.execution x hx).mono (State.createExecution_le userRequest now)
        · exact .inl rfl
    | commit hid o pc τ k hpc hlive hact =>
        have hok : (Act.commit τ k).Ok o.now s.db s.redis := hact ▸ hinv.act_ok hpc
        have hmem := List.mem_of_getElem? hpc
        exact (Pc.commits_of_act hact).executionBillOk (hinv.knows pc hmem) (h.read pc hmem)
          hok.allowed.respects h.execution
    | dequeue | promoteDue | recoverStaleTasks | move | send | redeliver | raise | crash =>
        exact h.execution
  read := by
    refine State.forall_handlers (P := fun pc => ∀ t ∈ pc.failedRead, t.BillOk) hs h.read
      (fun _ _ hread => hread) ?_ ?_ ?_ ?_ ?_ (by simp [Pc.failedRead])
    · intro pc hstart
      cases hstart with
      | dequeue job | redeliver job => cases job <;> simp [Job.handler, Pc.failedRead]
      | createExecution | promoteDue | recoverStaleTasks => simp [Pc.failedRead]
    · intro hid o pc pc' _ _ hact _ _ t ht
      exact h.task t ((Pc.moves_of_act hact).failedRead ht)
    · intro hid o pc τ k _ _ hcommit _ _
      simp [hcommit.failedRead]
    · intro hid o pc c k _ _ hsend _ _
      simp [hsend.failedRead]
    · intro hid exc pc _ _ _
      simp

theorem reachable_billsOk {E : State → Event → Prop} (h : (queueMode cfg).Reachable E s) :
    BillsOk s :=
  h.invariant (I := BillsOk) ⟨by simp [queueMode], by simp [queueMode], by simp [queueMode]⟩
    fun _ _ _ hr hi _ hs => hi.step (reachable_inv hr) hs

/-! ## Bills never change -/

/-- The rows of the second database are later states of those of the first: what is finished stays
    finished, and what is billed keeps its bill. -/
structure Db.KeepsBills (db db' : Db) : Prop where
  task : ∀ t ∈ db.tasks, ∃ t' ∈ db'.tasks, Task.Le t t' ∧
    (t.status = .completed → t'.bill = t.bill)
  execution : ∀ x ∈ db.executions, ∃ x' ∈ db'.executions, x'.id = x.id ∧
    (x.status.isTerminal = true → x'.status.isTerminal = true ∧ x'.bill = x.bill)

theorem Db.KeepsBills.refl (db : Db) : db.KeepsBills db where
  task t ht := ⟨t, ht, .refl t, fun _ => rfl⟩
  execution x hx := ⟨x, hx, rfl, fun hs => ⟨hs, rfl⟩⟩

theorem Db.KeepsBills.trans {db db' db'' : Db} (h : db.KeepsBills db') (h' : db'.KeepsBills db'') :
    db.KeepsBills db'' where
  task t ht := by
    obtain ⟨t', ht', hle, hbill⟩ := h.task t ht
    obtain ⟨t'', ht'', hle', hbill'⟩ := h'.task t' ht'
    exact ⟨t'', ht'', hle.trans hle', fun hs =>
      (hbill' (hle.completed hs).1).trans (hbill hs)⟩
  execution x hx := by
    obtain ⟨x', hx', hid, hstays⟩ := h.execution x hx
    obtain ⟨x'', hx'', hid', hstays'⟩ := h'.execution x' hx'
    refine ⟨x'', hx'', hid'.trans hid, fun hs => ?_⟩
    obtain ⟨hs', hbill⟩ := hstays hs
    obtain ⟨hs'', hbill'⟩ := hstays' hs'
    exact ⟨hs'', hbill'.trans hbill⟩

/-- Only a RUNNING execution is billed. -/
theorem ExecutionUpdate.bill_eq {now : Time} {u : ExecutionUpdate} {x : Execution}
    (hg : u.guard x = true) (hs : x.status.isTerminal = true) : (u.set now x).bill = x.bill := by
  cases u with
  | guardExecution | startExecution | failExecution => rfl
  | completeExecution | failFinished =>
      rw [of_decide_eq_true hg] at hs
      cases hs

theorem task_bill_step (hs : s.step cfg ev = some s') {t t' : Task} (ht : t ∈ s.db.tasks)
    (ht' : t' ∈ s'.db.tasks) (hid : t'.id = t.id) (hst : t.status = .completed) :
    t'.bill = t.bill := by
  cases row_origin hs ht' with
  | kept hmem => rw [Table.eq_of_key_eq hmem ht hid]
  | planned o e i sub heq =>
      subst heq
      exact absurd hid (Db.plannedTask_id_ne ht e i sub)
  | set hid' o pc τ k t₀ u hev hpc hcommit hdb ht₀ hu hg heq =>
      subst heq
      obtain rfl := Table.eq_of_key_eq ht₀ ht ((u.set_id o.now t₀).symm.trans hid)
      exact TaskUpdate.bill_eq hg hst

theorem execution_bill_step (hs : s.step cfg ev = some s') {x x' : Execution}
    (hx : x ∈ s.db.executions) (hx' : x' ∈ s'.db.executions) (hid : x'.id = x.id)
    (hst : x.status.isTerminal = true) : x'.bill = x.bill := by
  cases State.stepsTo hs with
  | createExecution userRequest now =>
      rcases State.mem_createExecution.1 hx' with hmem | rfl
      · rw [Table.eq_of_key_eq hmem hx hid]
      · exact absurd ⟨x, hx, hid.symm⟩ (not_submitted_fresh s)
  | commit hid' o pc τ k hpc hlive hact =>
      rcases Db.mem_commit_executions hx' with ⟨hmem, -⟩ | ⟨x₀, hx₀, u, -, hg, rfl⟩
      · rw [Table.eq_of_key_eq hmem hx hid]
      · obtain rfl := Table.eq_of_key_eq hx₀ hx ((u.set_id o.now x₀).symm.trans hid)
        exact ExecutionUpdate.bill_eq hg hst
  | dequeue | promoteDue | recoverStaleTasks | move | send | redeliver | raise | crash =>
      rw [Table.eq_of_key_eq hx' hx hid]

theorem keepsBills_step (hinv : Inv s) (hs : s.step cfg ev = some s') :
    s.db.KeepsBills s'.db where
  task t ht := by
    obtain ⟨t', ht', hle⟩ := (hinv.step hs).2.task t ht
    exact ⟨t', ht', hle, task_bill_step hs ht ht' hle.id⟩
  execution x hx := by
    obtain ⟨x', hx', hid, -⟩ := (hinv.step hs).2.execution x hx
    refine ⟨x', hx', hid, fun hst => ⟨?_, execution_bill_step hs hx hx' hid hst⟩⟩
    obtain ⟨y, hy, hyid, hyst⟩ := terminal_step hs hx hst
    rwa [Table.eq_of_key_eq hx' hy (hid.trans hyid.symm)]

/-- Along every run the rows keep their bills. -/
theorem path_keepsBills {E : State → Event → Prop} (h : (queueMode cfg).Reachable E s)
    (hp : (queueMode cfg).Path E s s') : s.db.KeepsBills s'.db :=
  h.stable (R := fun s s' => s.db.KeepsBills s'.db) (.refl _)
    (fun _ _ _ hr hk _ hs => hk.trans (keepsBills_step (reachable_inv hr) hs)) hp

/-! ## The bill of an execution is that of its tasks -/

/-- The totals of a complete read of finished tasks are those of the current rows. -/
theorem Db.Billed.current {db : Db} {x : Execution} {tasks : List Task} (h : db.Billed x tasks)
    (hbills : ∀ t ∈ db.tasks, t.BillOk) :
    ∀ t ∈ tasks, (db.current t).totalTokens = t.totalTokens ∧ (db.current t).costUsd = t.costUsd := by
  intro t ht
  obtain ⟨hcur, hle⟩ := (h.loaded.read t ht).2.current
  cases hs : t.status with
  | completed => exact ⟨(hle.completed hs).2.1, (hle.completed hs).2.2.1⟩
  | failed =>
      have hne : t.status ≠ .completed := by simp [hs]
      have hne' : (db.current t).status ≠ .completed := by simp [hle.failed hs]
      have hread := h.billOk t ht
      have hnow := hbills _ hcur
      rw [hread.totalTokens hne, hread.costUsd hne]
      exact ⟨hnow.totalTokens hne', hnow.costUsd hne'⟩
  | pending | running | retrying =>
      have := h.finished t ht
      simp [hs, TaskStatus.isTerminal] at this

theorem Db.Billed.totals_eq {db : Db} {x : Execution} {tasks : List Task} (h : db.Billed x tasks)
    (hbills : ∀ t ∈ db.tasks, t.BillOk) :
    x.totalTokens = some (sumTokens (db.tasksOf x.id)) ∧
      x.costUsd = some (sumCosts (db.tasksOf x.id)) := by
  have htokens : (tasks.map fun t => t.totalTokens.getD 0) =
      (tasks.map db.current).map fun t => t.totalTokens.getD 0 := by
    rw [List.map_map]
    exact List.map_congr_left fun t ht => by rw [Function.comp_apply, (h.current hbills t ht).1]
  have hcosts : (tasks.map fun t => t.costUsd.getD 0) =
      (tasks.map db.current).map fun t => t.costUsd.getD 0 := by
    rw [List.map_map]
    exact List.map_congr_left fun t ht => by rw [Function.comp_apply, (h.current hbills t ht).2]
  rw [h.totalTokens, h.costUsd, sumTokens, sumCosts, htokens, hcosts, (h.loaded.perm.map _).sum_eq,
    (h.loaded.perm.map _).sum_eq]
  exact ⟨rfl, rfl⟩

/-- A billed execution is finished, has tasks, all of them finished, and is billed their tokens and,
    to six decimal places, their costs; and it keeps its bill in every later state. -/
theorem execution_bills_exact {E : State → Event → Prop} (h : (queueMode cfg).Reachable E s)
    {x : Execution} (hx : x ∈ s.db.executions) (hbill : x.bill ≠ (none, none, none)) :
    (x.status.isTerminal = true ∧ (∃ t ∈ s.db.tasks, t.executionId = x.id) ∧
      (∀ t ∈ s.db.tasks, t.executionId = x.id → t.status.isTerminal = true) ∧
      ∃ rows spent, (rows = s.db.tasks.rows.filter fun t => t.executionId = x.id) ∧
        spent = (rows.map fun t => t.costUsd.getD 0).sum ∧
        x.totalTokens = some (rows.map fun t => t.totalTokens.getD 0).sum ∧
        x.costUsd = some (Double.roundTo 6 (Double.round spent)) ∧
        |Double.roundTo 6 (Double.round spent) - spent| ≤
          1 / (2 * 10 ^ 6) + (3 * |spent| + 1) / 2 ^ 53) ∧
    ∀ s', (queueMode cfg).Path E s s' → ∃ x' ∈ s'.db.executions, x'.id = x.id ∧
      x'.status.isTerminal = true ∧ x'.bill = x.bill := by
  have hbills := reachable_billsOk h
  obtain ⟨tasks, hb⟩ := (hbills.execution x hx).resolve_left hbill
  obtain ⟨htokens, hcost⟩ := hb.totals_eq hbills.task
  refine ⟨⟨hb.terminal, hb.planned, fun t ht he => ?_, _, _, rfl, rfl, htokens, hcost,
    Double.abs_roundTo_round_sub_le 6 _⟩, fun s' hp => ?_⟩
  · obtain ⟨t₀, ht₀, hle⟩ := hb.loaded.complete t ht he
    rw [hle.terminal (hb.finished t₀ ht₀)]
    exact hb.finished t₀ ht₀
  · obtain ⟨x', hx', hid, hstays⟩ := (path_keepsBills h hp).execution x hx
    exact ⟨x', hx', hid, hstays hb.terminal⟩

/-- The first of three chained tasks completes, the second fails for good and the third is skipped;
    then the plan job is delivered again and its provider is missing. -/
def failedRunSchedule : List Event :=
  .createExecution "q" 0 :: runs 0 1 { now := 0 } ++ .dequeue :: runs 1 22 { now := 0 } ++
    .dequeue :: runs 2 18 { now := 0, agent := .ok { text := "a", totalTokens := 7 } } ++
    .dequeue :: runs 3 26 (raising 0) ++
    [.redeliver (.plan 1), .raise 4 ⟨"ValueError", "no key"⟩, .run 4 { now := 1 }]

theorem execution_bills_exact_failed :
    ∃ s s', (queueMode (fallbackConfig { taskMaxRetries := 0 })).Reachable anyEvent s ∧
      ∃ x ∈ s.db.executions, x.status = .failed ∧ x.totalTokens = some 7 ∧
        ((s.db.tasks.rows.filter fun t => t.executionId = x.id).map
          fun t => t.totalTokens.getD 0).sum = 7 ∧
        (queueMode (fallbackConfig { taskMaxRetries := 0 })).Path anyEvent s s' ∧
        ∃ x' ∈ s'.db.executions, x'.id = x.id ∧ x'.bill = x.bill := by
  obtain ⟨trace, s', hrun, hcheck⟩ := (queueMode (fallbackConfig { taskMaxRetries := 0 })).exists_run
    (E := anyEvent) (fun _ _ => true)
    (fun trace _ => trace.any fun p => p.1.db.executions.rows.any fun x =>
      x.status = .failed && x.totalTokens = some 7)
    failedRunSchedule (fun _ _ _ => trivial) (by decide +kernel)
  obtain ⟨⟨s, ev⟩, hmem, x, hx, hst, htok⟩ : ∃ p ∈ trace, ∃ x ∈ p.1.db.executions.rows,
      x.status = .failed ∧ x.totalTokens = some 7 := by
    simpa using hcheck
  have hreach := (hrun.mem_trace hmem).1
  have hpath := hrun.path_of_mem hmem
  obtain ⟨⟨-, -, -, _, _, rfl, -, htotal, -⟩, hkept⟩ :=
    execution_bills_exact hreach hx (by simp [Execution.bill, htok])
  obtain ⟨x', hx', hid, -, hbill⟩ := hkept s' hpath
  exact ⟨s, s', hreach, x, hx, hst, htok, Option.some.inj (htotal.symm.trans htok), hpath, x', hx', hid,
    hbill⟩

end AgenticExecution
