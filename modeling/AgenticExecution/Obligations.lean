import AgenticExecution.Workers
import AgenticExecution.Library.Handover

set_option autoImplicit false

/-! # Obligations

What the rows of an unfinished execution still ask for, and which job or handler is in charge of it.
Each obligation is handed over between the database, Redis and the handlers; `carried_step` shows that
no step loses one, unless a handler raises, stops, or cannot compute `next_attempt_at` just while it
carries the obligation. -/

namespace AgenticExecution

variable {cfg : Config} {s s' : State} {ev : Event} {o : Oracle} {db : Db} {r : Redis} {pc pc' : Pc}
  {τ : Txn} {c : Command} {k : Nat → Pc}

/-- What has to happen next. -/
inductive Need
  /-- The job is to be delivered. -/
  | job (job : Job)
  /-- The execution is PLANNING; a planner is to finish. -/
  | planner (e : ExecutionId)
  /-- A scheduling pass is to look at the task. -/
  | pass (e : ExecutionId) (tid : TaskId)
  /-- The task is RUNNING; a worker is to report. -/
  | worker (tid : TaskId)
  /-- All tasks are finished; the execution is to be finalized. -/
  | finish (e : ExecutionId)

/-! ## What the rows ask for -/

/-- The row waits for the delivery of its job. -/
def Task.Queued (t : Task) : Prop := t.status = .retrying ∨ t.status = .pending ∧ t.enqueued = true

/-- No pass has decided on the row yet. -/
def Task.Undecided (t : Task) : Prop := t.status = .pending ∧ t.enqueued = false

namespace Db

/-- A pass would skip or enqueue the task: a dependency FAILED, or all are COMPLETED. -/
def Resolved (db : Db) (t : Task) : Prop :=
  (∃ d ∈ db.tasks, t.DependsOn d ∧ d.status = .failed) ∨
    ∀ d ∈ db.tasks, t.DependsOn d → d.status = .completed

/-- Every task of the execution is COMPLETED or FAILED. -/
def AllTerminal (db : Db) (e : ExecutionId) : Prop :=
  ∀ t ∈ db.tasks, t.executionId = e → t.status.isTerminal = true

/-- What the rows are waiting for. -/
def Needs (db : Db) : Need → Prop
  | .job (.plan e) => ∃ x ∈ db.executions, x.id = e ∧ x.status = .pending
  | .job (.task tid) => ∃ t ∈ db.tasks, t.id = tid ∧ t.Queued
  | .planner e => ∃ x ∈ db.executions, x.id = e ∧ x.status = .planning
  | .pass e tid => ∃ t ∈ db.tasks, t.id = tid ∧ t.executionId = e ∧ t.Undecided ∧ db.Resolved t
  | .worker tid => ∃ t ∈ db.tasks, t.id = tid ∧ t.status = .running
  | .finish e => (∃ x ∈ db.executions, x.id = e ∧ x.status = .running) ∧ db.AllTerminal e

end Db

/-! ## Who is in charge -/

/-- The job a handler has popped and not tried yet, or is about to push. -/
def Pc.job? : Pc → Option Job
  | .enqueuePlan e | .planProvider e | .planGet e | .planGuard e _ => some (.plan e)
  | .taskProvider tid | .taskGet tid | .taskClaim tid | .promotePush tid _
  | .schedulePush _ _ _ _ tid | .retrySchedule tid _ _ => some (.task tid)
  | _ => none

/-- The handler is on its way from PENDING to RUNNING or FAILED. -/
def Pc.Planning (e : ExecutionId) : Pc → Prop
  | .planLlm e' _ | .planInsert e' _ | .planRunning e' | .planFail e' _ => e' = e
  | _ => False

/-- The executions `schedule_execution` is called for after this call. -/
def ScheduleCaller.affected : ScheduleCaller → List ExecutionId
  | .planExecution _ | .executeTask => []
  | .recoverStaleTasks affected => affected

/-- The executions `recover_stale_tasks` has collected so far. -/
def RetryCaller.affected : RetryCaller → List ExecutionId
  | .executeTask _ => []
  | .recoverStaleTasks _ _ affected => affected

/-- A complete pass over the execution is still to come. -/
def Pc.Owes (e : ExecutionId) : Pc → Prop
  | .planRunning e' | .planStarted e' => e' = e
  | .retryOrFail _ _ k => e ∈ k.affected
  | .retrySchedule _ _ k | .retryDeadLetter _ k => k.executionId = e ∨ e ∈ k.affected
  | .scheduleGet e' k | .scheduleSelect e' k | .schedulePush e' k .. => e' = e ∨ e ∈ k.affected
  | .scheduleScan e' k _ _ changed => e' = e ∧ changed = true ∨ e ∈ k.affected
  | .finalizeGet _ k | .finalizeSelect _ k | .finalizeLoad _ k .. | .finalizeComplete _ k ..
  | .finalizeFail _ k _ => e ∈ k.affected
  | .recoverAffected affected => e ∈ affected
  | _ => False

/-- The pass under way will skip or enqueue the task. -/
def Pc.Decides (e : ExecutionId) (tid : TaskId) : Pc → Prop
  | .scheduleScan e' _ seen rest _ =>
    e' = e ∧ ∃ t ∈ rest, t.id = tid ∧ verdict (seen ++ rest) t ≠ .wait
  | _ => False

/-- The pass under way ends in `_finalize`, or is there already. -/
def Pc.Finalizes (e : ExecutionId) : Pc → Prop
  | .scheduleScan e' .. | .finalizeGet e' _ => e' = e
  | .finalizeSelect x _ | .finalizeLoad x .. | .finalizeComplete x .. | .finalizeFail x .. =>
    x.id = e
  | _ => False

/-- The queue holds what is needed. -/
def Redis.Carries (r : Redis) : Need → Prop
  | .job (.plan e) => .plan e ∈ r.queue
  | .job (.task tid) => .task tid ∈ r.queue ∨ ∃ entry ∈ r.delayed, entry.1 = tid
  | _ => False

/-- A handler is about to do what is needed. -/
def Pc.Carries (pc : Pc) : Need → Prop
  | .job (.plan e) => pc.job? = some (.plan e) ∨ ∃ error, pc = .planFail e error
  | .job (.task tid) => pc.job? = some (.task tid)
  | .planner e => pc.Planning e
  | .pass e tid => pc.Owes e ∨ pc.Decides e tid
  | .worker tid => ∃ st, pc.work = some (tid, st)
  | .finish e => pc.Owes e ∨ pc.Finalizes e

/-- The queue or a handler in progress carries the need. -/
def State.Carried (s : State) (n : Need) : Prop :=
  Handover.Carried s.redis.Carries Pc.Carries s.handlers n

/-! ## Calls and returns -/

section Resume

variable {e : ExecutionId} {tid : TaskId}

@[simp] theorem retrySchedule_owes (nextAt : Time) (k : RetryCaller) :
    (Pc.retrySchedule tid nextAt k).Owes e ↔ k.executionId = e ∨ e ∈ k.affected := Iff.rfl

@[simp] theorem retryDeadLetter_owes (entry : DeadLetter) (k : RetryCaller) :
    (Pc.retryDeadLetter entry k).Owes e ↔ k.executionId = e ∨ e ∈ k.affected := Iff.rfl

@[simp ↓] theorem ScheduleCaller.resume_owes (k : ScheduleCaller) :
    k.resume.Owes e ↔ e ∈ k.affected := by
  cases k <;> simp [ScheduleCaller.resume, ScheduleCaller.affected, Pc.Owes]

@[simp ↓] theorem recoverNext_owes (stale : List Task) (affected : List ExecutionId) :
    (recoverNext stale affected).Owes e ↔ e ∈ affected := by
  cases stale <;> exact Iff.rfl

@[simp ↓] theorem RetryCaller.resume_owes (k : RetryCaller) :
    k.resume.Owes e ↔ k.executionId = e ∨ e ∈ k.affected := by
  cases k with
  | executeTask e' => exact Iff.rfl
  | recoverStaleTasks e' stale affected =>
      rw [RetryCaller.resume, recoverNext_owes, List.mem_insert_iff, eq_comm]
      exact Iff.rfl

@[simp ↓] theorem finalizeTasks_owes (x : Execution) (k : ScheduleCaller) (tasks : List Task) :
    (finalizeTasks x k tasks).Owes e ↔ e ∈ k.affected := by
  unfold finalizeTasks
  split_ifs <;> simp [Pc.Owes]

end Resume

/-! ## The decision of a pass -/

theorem verdict_ne_wait {tasks : List Task} {t : Task} :
    verdict tasks t ≠ .wait ↔ (∃ d ∈ dependencies tasks t, d.status = .failed) ∨
      ∀ d ∈ dependencies tasks t, d.status = .completed := by
  unfold verdict
  split_ifs with hfailed hcompleted
  · exact iff_of_true nofun (.inl (by simpa using hfailed))
  · exact iff_of_true nofun (.inr (by simpa using hcompleted))
  · refine iff_of_false (fun h => h rfl) ?_
    rintro (⟨d, hd, hs⟩ | hall)
    · exact hfailed (List.any_eq_true.2 ⟨d, hd, decide_eq_true hs⟩)
    · exact hcompleted (List.all_eq_true.2 fun d hd => decide_eq_true (hall d hd))

/-- A pass that has just loaded the rows decides on every resolved task. -/
theorem verdict_loaded (hwf : db.WellFormed) {order : List Nat} {t : Task} (hres : db.Resolved t) :
    verdict (Table.reorder order (db.tasksOf t.executionId)) t ≠ .wait := by
  have hrow : ∀ d ∈ Table.reorder order (db.tasksOf t.executionId),
      d ∈ db.tasks ∧ d.executionId = t.executionId :=
    fun d hd => Db.mem_tasksOf.1 (Table.mem_reorder.1 hd)
  refine verdict_ne_wait.2 (hres.imp ?_ ?_)
  · rintro ⟨d, hd, hdep, hfailed⟩
    obtain ⟨d₀, hd₀, -, hle⟩ := (db.loaded_reorder t.executionId order).dependency hwf rfl hd hdep
    obtain rfl := Table.eq_of_key_eq (hrow d₀ (mem_dependencies hd₀).1).1 hd hle.id.symm
    exact ⟨d₀, hd₀, hfailed⟩
  · intro hall d hd
    obtain ⟨hmem, hidx⟩ := mem_dependencies hd
    exact hall d (hrow d hmem).1 ⟨(hrow d hmem).2, hidx⟩

/-- Replacing a loaded row only changes the lookup that found it. -/
theorem byIndex_replace (seen rest : List Task) {t t' : Task}
    (hidx : t'.orderIndex = t.orderIndex) (i : Int) :
    byIndex (seen ++ [t'] ++ rest) i = byIndex (seen ++ t :: rest) i ∨
      byIndex (seen ++ t :: rest) i = some t ∧ byIndex (seen ++ [t'] ++ rest) i = some t' := by
  have hnew : (seen ++ [t'] ++ rest).reverse = rest.reverse ++ t' :: seen.reverse := by simp
  have hold : (seen ++ t :: rest).reverse = rest.reverse ++ t :: seen.reverse := by simp
  rw [byIndex, byIndex, hnew, hold, List.find?_append, List.find?_append]
  cases rest.reverse.find? fun u => decide (u.orderIndex = i) with
  | some u => exact .inl rfl
  | none =>
      by_cases hi : t.orderIndex = i
      · right
        simp [hidx, hi]
      · left
        simp [hidx, hi]

/-- A pass stays decided about a row when it marks another row as FAILED or as enqueued. -/
theorem verdict_replace {seen rest : List Task} {t t' u : Task} (hidx : t'.orderIndex = t.orderIndex)
    (hst : t'.status = t.status ∨ t'.status = .failed)
    (h : verdict (seen ++ t :: rest) u ≠ .wait) : verdict (seen ++ [t'] ++ rest) u ≠ .wait := by
  have hreplace := byIndex_replace seen rest hidx
  rw [verdict_ne_wait] at h ⊢
  rcases h with ⟨d, hd, hfailed⟩ | hall
  · obtain ⟨i, hi, hfind⟩ := List.mem_filterMap.1 hd
    rcases hreplace i with hsame | ⟨hold, hnew⟩
    · exact .inl ⟨d, List.mem_filterMap.2 ⟨i, hi, hsame.trans hfind⟩, hfailed⟩
    · obtain rfl := Option.some.inj (hold.symm.trans hfind)
      refine .inl ⟨t', List.mem_filterMap.2 ⟨i, hi, hnew⟩, ?_⟩
      rcases hst with hs | hs
      · rw [hs, hfailed]
      · exact hs
  · by_cases hmark : t' ∈ dependencies (seen ++ [t'] ++ rest) u ∧ t'.status = .failed
    · exact .inl ⟨t', hmark⟩
    · refine .inr fun d hd => ?_
      obtain ⟨i, hi, hfind⟩ := List.mem_filterMap.1 hd
      rcases hreplace i with hsame | ⟨hold, hnew⟩
      · exact hall d (List.mem_filterMap.2 ⟨i, hi, hsame ▸ hfind⟩)
      · obtain rfl := Option.some.inj (hnew.symm.trans hfind)
        rcases hst with hs | hs
        · rw [hs]
          exact hall t (List.mem_filterMap.2 ⟨i, hi, hold⟩)
        · exact absurd ⟨hd, hs⟩ hmark

/-! ## Moves -/

/-- `_retry_or_fail` raises while it computes `next_attempt_at`. -/
def Pc.Overflows (cfg : Config) (o : Oracle) : Pc → Prop
  | .retryOrFail task _ _ => (task.attempts + 1 : Nat) ≤ cfg.settings.taskMaxRetries ∧
    nextAttemptAt cfg.settings (task.attempts + 1) o.jitter o.now = none
  | _ => False

namespace Pc.Moves

variable (h : pc.Moves cfg o db r pc')
include h

theorem job? {job : Job} (hneed : db.Needs (.job job)) (hj : pc.job? = some job) :
    pc'.job? = some job := by
  cases h with
  | planProvider | planFound | taskProvider | taskFound => exact hj
  | planNotFound e hfind =>
      obtain rfl := Option.some.inj hj
      obtain ⟨x, hx, hid, -⟩ := hneed
      exact absurd hid (Table.find?_eq_none_iff.1 hfind x hx)
  | taskNotFound tid hfind =>
      obtain rfl := Option.some.inj hj
      obtain ⟨t, ht, hid, -⟩ := hneed
      exact absurd hid (Table.find?_eq_none_iff.1 hfind t ht)
  | _ => cases hj

theorem planning {e : ExecutionId} (hp : pc.Planning e) : pc'.Planning e := by
  cases h with
  | planLlmRaised | planned => exact hp
  | _ => cases hp

/-- A pass that is owed stays owed until its `SELECT`. -/
theorem owes {e : ExecutionId} (hwf : db.WellFormed) (hk : pc.Knows db)
    (hover : ¬ pc.Overflows cfg o) (howes : pc.Owes e) :
    pc'.Owes e ∨
      ∃ k, pc' = .scheduleScan e k [] (Table.reorder o.order (db.tasksOf e)) false := by
  cases h with
  | scheduleSelect e' k =>
      rcases howes with rfl | haff
      · exact .inr ⟨k, rfl⟩
      · exact .inl (.inr haff)
  | scheduleNotFound e' k hfind =>
      rcases howes with rfl | haff
      · obtain ⟨x, hx, hid⟩ := hk.1.submitted hwf
        exact absurd hid (Table.find?_eq_none_iff.1 hfind x hx)
      · exact .inl (k.resume_owes.2 haff)
  | finalizeNotFound e' k => exact .inl (k.resume_owes.2 howes)
  | finalizeSelect x k => exact .inl ((finalizeTasks_owes x k _).2 howes)
  | scanAgain e' k seen => exact .inl (howes.imp_left And.left)
  | scanDone e' k seen => exact .inl (howes.resolve_left fun hc => Bool.false_ne_true hc.2)
  | recoverAffected affected e' rest hcons =>
      have hmem : e ∈ e' :: rest := hcons ▸ Table.mem_reorder.2 howes
      exact .inl ((List.mem_cons.1 hmem).imp_left Eq.symm)
  | recoverDone affected hnil =>
      subst hnil
      cases howes
  | backoffOverflow task error k hbudget hnext => exact absurd ⟨hbudget, hnext⟩ hover
  | scheduleFound | scanPass | finalizeFound | outcomesDone | outcomeNext => exact .inl howes
  | _ => cases howes

/-- A decided pass reaches the task, as long as it is undecided in the table. -/
theorem decides {e : ExecutionId} {tid : TaskId} (hk : pc.Knows db)
    (hneed : db.Needs (.pass e tid)) (hd : pc.Decides e tid) : pc'.Decides e tid := by
  cases h with
  | scanAgain e' k seen | scanDone e' k seen =>
      obtain ⟨-, t, ht, -⟩ := hd
      cases ht
  | scanPass e' k seen t rest changed hpass =>
      obtain ⟨rfl, t₀, ht₀, hid, hv⟩ := hd
      rw [Pc.Decides, List.append_assoc]
      rcases List.mem_cons.1 ht₀ with rfl | hrest
      · obtain ⟨u, hu, huid, -, hund, -⟩ := hneed
        have hle : Task.Le t₀ u :=
          (hk.2.1.read t₀ (by simp)).2.le_of_mem hu (huid.trans hid.symm)
        rcases hpass with hs | henq | hwait
        · exact absurd hund.1 (hle.claimed hs)
        · exact absurd (hle.enqueued henq) (Bool.eq_false_iff.1 hund.2)
        · exact absurd hwait hv
      · exact ⟨rfl, t₀, hrest, hid, hv⟩
  | _ => cases hd

/-- A worker only gives a RUNNING task up when it cannot compute `next_attempt_at`. -/
theorem works {tid : TaskId} {st : Stage} (hover : ¬ pc.Overflows cfg o)
    (hneed : db.Needs (.worker tid)) (hw : pc.work = some (tid, st)) :
    ∃ st', pc'.work = some (tid, st') := by
  obtain ⟨t, ht, hid, -⟩ := hneed
  have hgone : ∀ {tid' : TaskId}, tid' = tid → db.tasks.find? tid' ≠ none := by
    rintro _ rfl hfind
    exact Table.find?_eq_none_iff.1 hfind t ht hid
  cases h with
  | refreshNotFound tid' hfind =>
      exact absurd hfind (hgone (Prod.mk.inj (Option.some.inj hw)).1)
  | rollbackNotFound task error hfind =>
      exact absurd hfind (hgone (Prod.mk.inj (Option.some.inj hw)).1)
  | backoffOverflow task error k hbudget hnext => exact absurd ⟨hbudget, hnext⟩ hover
  | refreshed tid' task hfind =>
      obtain ⟨-, rfl⟩ := Table.find?_eq_some_iff.1 hfind
      exact ⟨_, hw⟩
  | rollbackFound task error fresh hfind =>
      obtain ⟨-, hid'⟩ := Table.find?_eq_some_iff.1 hfind
      obtain ⟨rfl, -⟩ := Prod.mk.inj (Option.some.inj hw)
      exact ⟨.failed, by rw [Pc.work, hid']⟩
  | resultStored | noResult | contextEmpty | contextSelect | contextDone | contextNext | agentStart
    | agentReturned | agentRaised | integrityError =>
      obtain ⟨rfl, -⟩ := Prod.mk.inj (Option.some.inj hw)
      exact ⟨_, rfl⟩
  | _ => simp [Pc.work] at hw

/-- A pass under way goes on to `_finalize`, and that to the update of the execution. -/
theorem finalizes {e : ExecutionId} (hk : pc.Knows db) (hneed : db.Needs (.finish e))
    (hf : pc.Finalizes e) : pc'.Owes e ∨ pc'.Finalizes e := by
  obtain ⟨⟨x, hx, hid, hs⟩, hterm⟩ := hneed
  cases h with
  | scanAgain => exact .inl (.inl hf)
  | finalizeNotFound e' k hfind =>
      subst hf
      exact absurd hid (Table.find?_eq_none_iff.1 hfind x hx)
  | finalizeFound e' k x' hfind =>
      obtain ⟨-, rfl⟩ := Table.find?_eq_some_iff.1 hfind
      exact .inr hf
  | finalizeSelect x' k =>
      obtain rfl : x'.id = e := hf
      obtain ⟨t, ht, he⟩ := hk.1
      have hrows : ∀ u ∈ Table.reorder o.order (db.tasksOf x'.id), u.status.isTerminal = true := by
        intro u hu
        obtain ⟨hmem, he'⟩ := Db.mem_tasksOf.1 (Table.mem_reorder.1 hu)
        exact hterm u hmem he'
      have hne : t ∈ Table.reorder o.order (db.tasksOf x'.id) :=
        Table.mem_reorder.2 (Db.mem_tasksOf.2 ⟨ht, he⟩)
      right
      unfold finalizeTasks
      split_ifs with hempty hany
      · rw [List.isEmpty_iff] at hempty
        rw [hempty] at hne
        cases hne
      · obtain ⟨u, hu, hfalse⟩ := List.any_eq_true.1 hany
        simp [hrows u hu] at hfalse
      · rfl
      · rfl
  | scanDone | scanPass | outcomesDone | outcomeNext => exact .inr hf
  | _ => cases hf

end Pc.Moves

/-- No move loses an obligation. -/
theorem Pc.Moves.carries (h : pc.Moves cfg o db r pc') (hwf : db.WellFormed) (hk : pc.Knows db)
    (hover : ¬ pc.Overflows cfg o) {n : Need} (hneed : db.Needs n) (hc : pc.Carries n) :
    pc'.Carries n := by
  cases n with
  | job job =>
      cases job with
      | plan e =>
          rcases hc with hj | ⟨error, rfl⟩
          · exact .inl (h.job? hneed hj)
          · cases h
      | task tid => exact h.job? hneed hc
  | planner e => exact h.planning hc
  | pass e tid =>
      rcases hc with howes | hd
      · refine (h.owes hwf hk hover howes).imp id ?_
        rintro ⟨k, rfl⟩
        obtain ⟨t, ht, hid, rfl, -, hres⟩ := hneed
        exact ⟨rfl, t, Table.mem_reorder.2 (Db.mem_tasksOf.2 ⟨ht, rfl⟩), hid,
          verdict_loaded hwf hres⟩
      · exact .inr (h.decides hk hneed hd)
  | worker tid =>
      obtain ⟨st, hw⟩ := hc
      exact h.works hover hneed hw
  | finish e =>
      rcases hc with howes | hf
      · refine (h.owes hwf hk hover howes).imp id ?_
        rintro ⟨k, rfl⟩
        rfl
      · exact h.finalizes hk hneed hf

/-! ## Commits -/

/-- The update ends the life of the task. -/
def TaskUpdate.finishes : TaskUpdate → Bool
  | .skipTask | .failTask .. | .completeStored | .completeTask .. => true
  | .claimTask | .markStarted | .markEnqueued | .retryTask .. => false

namespace Db

variable {now : Time} {e : ExecutionId}

/-- The transaction finishes a task of the execution. -/
def Finishes (db : Db) (τ : Txn) (e : ExecutionId) : Prop :=
  ∃ t ∈ db.tasks, t.executionId = e ∧ ∃ u, τ.taskUpdate? = some (t.id, u) ∧ u.guard t = true ∧
    u.finishes = true

/-- A task that is finished after a commit was so before, or the commit finished it. -/
theorem terminal_of_commit {t' : Task} (ht' : t' ∈ (db.commit now τ).tasks)
    (hterm : t'.status.isTerminal = true) (hno : ¬ db.Finishes τ t'.executionId) :
    ∃ t ∈ db.tasks, Task.Le t t' ∧ t.status = t'.status := by
  rcases mem_commit ht' with ⟨hmem, -⟩ | ⟨t, ht, u, hu, hg, rfl⟩ | ⟨e, plan, i, sub, -, -, rfl⟩
  · exact ⟨t', hmem, .refl t', rfl⟩
  · have hle : Task.Le t (u.set now t) := TaskUpdate.le hg
    refine ⟨t, ht, hle, ?_⟩
    cases u with
    | markStarted | markEnqueued => rfl
    | claimTask | retryTask => simp [TaskUpdate.set, TaskStatus.isTerminal] at hterm
    | skipTask | failTask | completeStored | completeTask =>
        exact absurd ⟨t, ht, hle.executionId.symm, _, hu, hg, rfl⟩ hno
  · simp [plannedTask, TaskStatus.isTerminal] at hterm

/-- A row that is undecided after a commit was so before, or it has just been planned. -/
theorem undecided_of_commit {t' : Task} (ht' : t' ∈ (db.commit now τ).tasks) (hund : t'.Undecided) :
    (∃ t ∈ db.tasks, Task.Le t t' ∧ t.Undecided) ∨ ∃ plan, τ = .insertTasks t'.executionId plan := by
  rcases mem_commit ht' with ⟨hmem, -⟩ | ⟨t, ht, u, hu, hg, rfl⟩ | ⟨e, plan, i, sub, rfl, -, rfl⟩
  · exact .inl ⟨t', hmem, .refl t', hund⟩
  · refine .inl ⟨t, ht, TaskUpdate.le hg, ?_⟩
    cases u with
    | markStarted => exact hund
    | _ => simp [Task.Undecided, TaskUpdate.set] at hund
  · exact .inr ⟨plan, rfl⟩

/-- A commit that finishes no task of the execution resolves none either. -/
theorem resolved_of_commit (hle : db.Le (db.commit now τ)) {t t' : Task}
    (htt' : Task.Le t t') (hno : ¬ db.Finishes τ t'.executionId)
    (hres : (db.commit now τ).Resolved t') : db.Resolved t := by
  have hback : ∀ d' ∈ (db.commit now τ).tasks, t'.DependsOn d' → d'.status.isTerminal = true →
      ∃ d ∈ db.tasks, t.DependsOn d ∧ Task.Le d d' ∧ d.status = d'.status := by
    intro d' hd' hdep hterm
    obtain ⟨d, hd, hled, hs⟩ := terminal_of_commit hd' hterm (by rw [hdep.1]; exact hno)
    exact ⟨d, hd, hdep.of_le htt' hled, hled, hs⟩
  rcases hres with ⟨d', hd', hdep, hfailed⟩ | hall
  · obtain ⟨d, hd, hdep', -, hs⟩ := hback d' hd' hdep (by simp [hfailed, TaskStatus.isTerminal])
    exact .inl ⟨d, hd, hdep', hs.trans hfailed⟩
  · refine .inr fun d hd hdep => ?_
    obtain ⟨d', hd', hled⟩ := hle.task d hd
    have hcompleted := hall d' hd' (hdep.to_le htt' hled)
    obtain ⟨d₀, hd₀, -, hle₀, hs⟩ :=
      hback d' hd' (hdep.to_le htt' hled) (by simp [hcompleted, TaskStatus.isTerminal])
    rw [Table.eq_of_key_eq hd hd₀ (hled.id.symm.trans hle₀.id), hs, hcompleted]

theorem allTerminal_of_commit (hle : db.Le (db.commit now τ)) (hno : ¬ db.Finishes τ e)
    (hall : (db.commit now τ).AllTerminal e) : db.AllTerminal e := by
  rintro t ht rfl
  obtain ⟨t', ht', hle'⟩ := hle.task t ht
  have hterm := hall t' ht' hle'.executionId
  obtain ⟨t₀, ht₀, hle₀, hs⟩ := terminal_of_commit ht' hterm (by rwa [hle'.executionId])
  rwa [Table.eq_of_key_eq ht ht₀ (hle'.id.symm.trans hle₀.id), hs]

end Db

namespace Pc.Commits

variable (h : pc.Commits cfg o db τ k)
include h

theorem owes {e : ExecutionId} (n : Nat) (howes : pc.Owes e) : (k n).Owes e := by
  cases h with
  | planRunning | planStarted e' =>
      first
      | exact howes
      | exact .inl howes
  | retryTask task error k' | failTask task error k' =>
      have haff : e ∈ k'.affected := howes
      by_cases hn : n = 0 <;> simp [hn, haff]
  | skipTask e' k' =>
      exact howes.imp_left fun hc => ⟨hc.1, by rw [hc.2, Bool.true_or]⟩
  | markEnqueued e' k' =>
      by_cases hn : n = 1
      · simpa [hn, Pc.Owes] using howes.imp_left And.left
      · simpa [hn, Pc.Owes] using howes
  | finalizeComplete x k' | finalizeFail x k' => exact k'.resume_owes.2 howes
  | _ => cases howes

/-- The handler that finishes a task goes on to a pass over its execution. -/
theorem finishing_owes {e : ExecutionId} (hk : pc.Knows db) (hf : db.Finishes τ e) :
    (k (db.rowcount τ)).Owes e := by
  obtain ⟨t, ht, rfl, u, hu, hg, hfin⟩ := hf
  cases h with
  | taskStored task | persistUpdate task =>
      obtain ⟨hid, -⟩ := Prod.mk.inj (Option.some.inj hu)
      exact .inl (hk.1.2.le_of_mem ht hid.symm).executionId.symm
  | persist task output =>
      obtain ⟨hid, -⟩ := Prod.mk.inj (Option.some.inj hu)
      exact .inl (hk.2.le_of_mem ht hid.symm).executionId.symm
  | failTask task error k' =>
      obtain ⟨hid, rfl⟩ := Prod.mk.inj (Option.some.inj hu)
      have hn := Db.rowcount_updateTask ht hid.symm hg
      have he : k'.executionId = t.executionId :=
        hk.2.2.1.trans (hk.1.le_of_mem ht hid.symm).executionId.symm
      simp [hn, he]
  | skipTask e' k' seen t₀ rest changed =>
      obtain ⟨hid, rfl⟩ := Prod.mk.inj (Option.some.inj hu)
      have hn := Db.rowcount_updateTask ht hid.symm hg
      obtain ⟨he, hread⟩ := hk.2.1.read t₀ (by simp)
      have he' : e' = t.executionId := he.symm.trans (hread.le_of_mem ht hid.symm).executionId.symm
      simp [hn, Pc.Owes, he']
  | taskClaim | taskStarted | markEnqueued | retryTask =>
      obtain ⟨-, rfl⟩ := Prod.mk.inj (Option.some.inj hu)
      cases hfin
  | _ => cases hu

/-- A decided pass that does not reach the task with this update still will. -/
theorem decides {e : ExecutionId} {tid : TaskId} (hk : pc.Knows db)
    (hneed : ∃ t' ∈ (db.commit o.now τ).tasks, t'.id = tid ∧ t'.Undecided)
    (hd : pc.Decides e tid) (n : Nat) : (k n).Owes e ∨ (k n).Decides e tid := by
  obtain ⟨t', ht', hid', hund⟩ := hneed
  cases h with
  | skipTask e' k' seen t rest changed =>
      obtain ⟨rfl, t₀, ht₀, hid, hv⟩ := hd
      rcases List.mem_cons.1 ht₀ with rfl | hrest
      · obtain ⟨u, hu, rfl⟩ := Db.mem_updateTask.1 ht'
        split at hund
        · cases hund.1
        · next hg =>
            rw [if_neg hg] at hid'
            simp [hid', hid, TaskUpdate.guard, hund.1] at hg
      · exact .inr ⟨rfl, t₀, hrest, hid, verdict_replace (t := t) rfl (.inr rfl) hv⟩
  | markEnqueued e' k' seen t rest changed =>
      obtain ⟨rfl, t₀, ht₀, hid, hv⟩ := hd
      rcases List.mem_cons.1 ht₀ with rfl | hrest
      · obtain ⟨u, hu, rfl⟩ := Db.mem_updateTask.1 ht'
        split at hund
        · cases hund.2
        · next hg =>
            rw [if_neg hg] at hid'
            simp [hid', hid, TaskUpdate.guard, hund.2] at hg
      · by_cases hn : n = 1
        · simp [hn, Pc.Owes]
        · right
          simp only [hn, if_false]
          exact ⟨rfl, t₀, hrest, hid, verdict_replace (t := t) rfl (.inl rfl) hv⟩
  | _ => cases hd

/-- A plan job is used up when its execution leaves PENDING. -/
theorem plan_job {e : ExecutionId} (hr : db.Respects τ)
    (hneed : (db.commit o.now τ).Needs (.job (.plan e))) :
    db.Needs (.job (.plan e)) ∧ ¬ pc.Carries (.job (.plan e)) := by
  obtain ⟨x', hx', rfl, hs⟩ := hneed
  obtain ⟨x, hx, hid, hs₀⟩ := Db.pending_of_commit hr hx' hs
  refine ⟨⟨x, hx, hid, hs₀⟩, ?_⟩
  have hguard : ∀ u, τ = .updateExecution x'.id u → u.guard x = true →
      (u.set o.now x).status = .pending := by
    rintro u rfl hg
    have hmem : u.set o.now x ∈ (db.updateExecution o.now x'.id u).executions :=
      Db.mem_updateExecution.2 ⟨x, hx, by rw [if_pos ⟨hid, hg⟩]⟩
    rwa [Table.eq_of_key_eq hmem hx' ((u.set_id o.now x).trans hid)]
  rintro (hj | ⟨error, rfl⟩)
  · cases h with
    | planGuard e' userRequest =>
        obtain rfl := Job.plan.inj (Option.some.inj hj)
        exact absurd (hguard _ rfl (decide_eq_true hs₀)) nofun
    | taskClaim => cases hj
    | _ => cases hj
  · cases h
    exact absurd (hguard _ rfl rfl) nofun

/-- PLANNING is entered and left by a planner. -/
theorem planner {e : ExecutionId} (hneed : (db.commit o.now τ).Needs (.planner e)) :
    (k (db.rowcount τ)).Planning e ∨
      db.Needs (.planner e) ∧ (pc.Planning e → (k (db.rowcount τ)).Planning e) := by
  obtain ⟨x', hx', rfl, hs⟩ := hneed
  rcases Db.mem_commit_executions hx' with ⟨hx, hno⟩ | ⟨x, hx, u, hu, hg, rfl⟩
  · refine .inr ⟨⟨x', hx, rfl, hs⟩, fun hp => ?_⟩
    cases h with
    | planInsert => exact hp
    | planRunning e' =>
        obtain rfl : e' = x'.id := hp
        exact absurd (hno _ rfl) (by simp [ExecutionUpdate.guard, hs])
    | planFail e' error =>
        obtain rfl : e' = x'.id := hp
        exact absurd (hno _ rfl) (by rintro ⟨⟩)
    | _ => cases hp
  · rw [u.set_id]
    cases h with
    | planGuard e' userRequest =>
        obtain ⟨rfl, rfl⟩ := Txn.updateExecution.inj hu
        have hn : db.rowcount (.updateExecution x.id (.guardExecution .pending .planning)) = 1 :=
          Table.rowcount_eq_one_iff.2 ⟨x, hx, rfl, hg⟩
        left
        simp [hn, Pc.Planning]
    | planStarted e' =>
        obtain ⟨rfl, rfl⟩ := Txn.updateExecution.inj hu
        exact .inr ⟨⟨x, hx, rfl, hs⟩, by rintro ⟨⟩⟩
    | planRunning | planFail | finalizeComplete | finalizeFail =>
        obtain ⟨-, rfl⟩ := Txn.updateExecution.inj hu
        cases hs
    | _ => cases hu

/-- A task job is used up when its task is claimed, and a new one is taken on when the task is marked
    as enqueued or released for a retry. -/
theorem task_job {tid : TaskId} (hneed : (db.commit o.now τ).Needs (.job (.task tid))) :
    (k (db.rowcount τ)).job? = some (.task tid) ∨
      db.Needs (.job (.task tid)) ∧ pc.job? ≠ some (.task tid) := by
  obtain ⟨t', ht', rfl, hq⟩ := hneed
  rcases Db.mem_commit ht' with ⟨hmem, hno⟩ | ⟨t, ht, u, hu, hg, rfl⟩ | ⟨e, plan, i, sub, rfl, -, rfl⟩
  · refine .inr ⟨⟨t', hmem, rfl, hq⟩, fun hj => ?_⟩
    cases h with
    | taskClaim tid =>
        obtain rfl := Job.task.inj (Option.some.inj hj)
        have := hno _ rfl
        rcases hq with hs | ⟨hs, -⟩ <;> simp [TaskUpdate.guard, TaskStatus.claimable, hs] at this
    | _ => cases hj
  · rw [u.set_id]
    cases h with
    | markEnqueued e' k' seen t₀ =>
        obtain ⟨hid, rfl⟩ := Prod.mk.inj (Option.some.inj hu)
        have hn := Db.rowcount_updateTask ht hid.symm hg
        left
        rw [← hid]
        simp [hn, Pc.job?]
    | retryTask task error k' nextAt =>
        obtain ⟨hid, rfl⟩ := Prod.mk.inj (Option.some.inj hu)
        have hn := Db.rowcount_updateTask ht hid.symm hg
        left
        rw [← hid]
        simp [hn, Pc.job?]
    | taskStarted tid =>
        obtain ⟨rfl, rfl⟩ := Prod.mk.inj (Option.some.inj hu)
        exact .inr ⟨⟨t, ht, rfl, hq⟩, by rintro ⟨⟩⟩
    | taskClaim | taskStored | persist | persistUpdate | failTask | skipTask =>
        obtain ⟨-, rfl⟩ := Prod.mk.inj (Option.some.inj hu)
        simp [Task.Queued, TaskUpdate.set] at hq
    | _ => cases hu
  · simp [Task.Queued, Db.plannedTask] at hq

/-- RUNNING is entered by a worker, and left when one of its workers is done. -/
theorem worker {tid : TaskId} (hneed : (db.commit o.now τ).Needs (.worker tid)) :
    (∃ st, (k (db.rowcount τ)).work = some (tid, st)) ∨
      db.Needs (.worker tid) ∧ ∀ st, pc.work = some (tid, st) →
        (k (db.rowcount τ)).work = some (tid, st) := by
  obtain ⟨t', ht', rfl, hs⟩ := hneed
  rcases Db.mem_commit ht' with ⟨hmem, hno⟩ | ⟨t, ht, u, hu, hg, rfl⟩ | ⟨e, plan, i, sub, rfl, -, rfl⟩
  · refine .inr ⟨⟨t', hmem, rfl, hs⟩, fun st hw => ?_⟩
    cases h with
    | taskStarted => exact hw
    | taskStored | persist | persistUpdate =>
        obtain ⟨hid, -⟩ := Prod.mk.inj (Option.some.inj hw)
        exact absurd (hno _ (by rw [← hid]; rfl)) (by simp [TaskUpdate.guard, hs])
    | retryTask task error k' | failTask task error k' =>
        cases k' with
        | executeTask =>
            obtain ⟨hid, -⟩ := Prod.mk.inj (Option.some.inj hw)
            exact absurd (hno _ (by rw [← hid]; rfl)) (by simp [TaskUpdate.guard, hs])
        | recoverStaleTasks => cases hw
    | _ => cases hw
  · rw [u.set_id]
    cases h with
    | taskClaim tid =>
        obtain ⟨rfl, rfl⟩ := Prod.mk.inj (Option.some.inj hu)
        have hn := Db.rowcount_updateTask ht rfl hg
        left
        simp [hn, Pc.work]
    | taskStarted tid =>
        obtain ⟨rfl, rfl⟩ := Prod.mk.inj (Option.some.inj hu)
        exact .inl ⟨.claimed, rfl⟩
    | markEnqueued =>
        obtain ⟨-, rfl⟩ := Prod.mk.inj (Option.some.inj hu)
        exact .inr ⟨⟨t, ht, rfl, hs⟩, fun _ hwork => by cases hwork⟩
    | taskStored | persist | persistUpdate | retryTask | failTask | skipTask =>
        obtain ⟨-, rfl⟩ := Prod.mk.inj (Option.some.inj hu)
        cases hs
    | _ => cases hu
  · cases hs

/-- Whoever resolves a task, or plans it, owes the pass over it. -/
theorem pass {e : ExecutionId} {tid : TaskId} (hk : pc.Knows db) (hr : db.Respects τ)
    (hneed : (db.commit o.now τ).Needs (.pass e tid)) :
    (k (db.rowcount τ)).Carries (.pass e tid) ∨
      db.Needs (.pass e tid) ∧
        (pc.Carries (.pass e tid) → (k (db.rowcount τ)).Carries (.pass e tid)) := by
  obtain ⟨t', ht', hid', rfl, hund, hres⟩ := hneed
  by_cases hfin : db.Finishes τ t'.executionId
  · exact .inl (.inl (h.finishing_owes hk hfin))
  · rcases Db.undecided_of_commit ht' hund with ⟨t, ht, hle, hund₀⟩ | ⟨plan, rfl⟩
    · have hres₀ := Db.resolved_of_commit (Db.le_commit hr) hle hfin hres
      refine .inr ⟨⟨t, ht, hle.id.symm.trans hid', hle.executionId.symm, hund₀, hres₀⟩, ?_⟩
      rintro (howes | hd)
      · exact .inl (h.owes _ howes)
      · exact h.decides hk ⟨t', ht', hid', hund⟩ hd _
    · cases h
      exact .inl (.inl rfl)

/-- Whoever starts an execution or finishes a task owes a pass, and `_finalize` finds the execution
    RUNNING. -/
theorem finish {e : ExecutionId} (hk : pc.Knows db) (hr : db.Respects τ)
    (hneed : (db.commit o.now τ).Needs (.finish e)) :
    (k (db.rowcount τ)).Carries (.finish e) ∨
      db.Needs (.finish e) ∧ (pc.Carries (.finish e) → (k (db.rowcount τ)).Carries (.finish e)) := by
  obtain ⟨⟨x', hx', rfl, hs⟩, hall⟩ := hneed
  by_cases hfin : db.Finishes τ x'.id
  · exact .inl (.inl (h.finishing_owes hk hfin))
  · have hall₀ := Db.allTerminal_of_commit (Db.le_commit hr) hfin hall
    rcases Db.mem_commit_executions hx' with ⟨hx, hno⟩ | ⟨x, hx, u, hu, hg, rfl⟩
    · refine .inr ⟨⟨⟨x', hx, rfl, hs⟩, hall₀⟩, ?_⟩
      rintro (howes | hf)
      · exact .inl (h.owes _ howes)
      · cases h with
        | skipTask => exact .inr hf
        | markEnqueued e' k' =>
            obtain rfl : e' = x'.id := hf
            dsimp only
            split
            · exact .inl (.inl rfl)
            · exact .inr rfl
        | finalizeComplete x k' | finalizeFail x k' =>
            have hx₀ : x.id = x'.id := hf
            exact absurd (hno _ (by rw [hx₀])) (by simp [ExecutionUpdate.guard, hs])
        | _ => cases hf
    · rw [u.set_id]
      cases h with
      | planRunning e' | planStarted e' =>
          obtain ⟨rfl, -⟩ := Txn.updateExecution.inj hu
          first
          | exact .inl (.inl rfl)
          | exact .inl (.inl (.inl rfl))
      | planGuard | planFail | finalizeComplete | finalizeFail =>
          obtain ⟨-, rfl⟩ := Txn.updateExecution.inj hu
          cases hs
      | _ => cases hu

/-- A commit only opens obligations the handler goes on with, and loses none it had. -/
theorem carries (hk : pc.Knows db) (hr : db.Respects τ) {n : Need}
    (hneed : (db.commit o.now τ).Needs n) :
    (k (db.rowcount τ)).Carries n ∨
      db.Needs n ∧ (pc.Carries n → (k (db.rowcount τ)).Carries n) := by
  cases n with
  | job job =>
      cases job with
      | plan e =>
          obtain ⟨hneed, hno⟩ := h.plan_job hr hneed
          exact .inr ⟨hneed, fun hc => absurd hc hno⟩
      | task tid =>
          refine (h.task_job hneed).imp_right fun hold => ⟨hold.1, fun hc => ?_⟩
          exact absurd hc hold.2
  | planner e => exact h.planner hneed
  | pass e tid => exact h.pass hk hr hneed
  | worker tid =>
      refine (h.worker hneed).imp_right fun hold => ⟨hold.1, ?_⟩
      rintro ⟨st, hw⟩
      exact ⟨st, hold.2 st hw⟩
  | finish e => exact h.finish hk hr hneed

end Pc.Commits

/-! ## Redis -/

/-- Redis only gives up the member a promoter removes. -/
theorem Redis.Carries.send {n : Need} (h : r.Carries n) (c : Command) :
    (r.send c).Carries n ∨
      ∃ tid, c = .removeDelayed tid ∧ n = .job (.task tid) ∧ r.reply c = 1 := by
  cases n with
  | planner | pass | worker | finish => cases h
  | job job =>
      cases c with
      | enqueue job' =>
          left
          cases job with
          | plan e => exact List.mem_append_left _ h
          | task tid => exact h.imp_left (List.mem_append_left _)
      | pushDeadLetter entry => cases job <;> exact .inl h
      | scheduleTask tid' runAt =>
          left
          cases job with
          | plan e => exact h
          | task tid =>
              refine h.imp_right ?_
              rintro ⟨entry, hentry, rfl⟩
              by_cases htid : entry.1 = tid'
              · exact ⟨_, Table.mem_upsert.2 (.inr rfl), htid.symm⟩
              · exact ⟨entry, Table.mem_upsert.2 (.inl ⟨hentry, htid⟩), rfl⟩
      | removeDelayed tid' =>
          cases job with
          | plan e => exact .inl h
          | task tid =>
              rcases h with hq | ⟨entry, hentry, rfl⟩
              · exact .inl (.inl hq)
              · by_cases htid : entry.1 = tid'
                · have hsome : (r.delayed.find? tid').isSome = true :=
                    Table.find?_isSome_iff.2 ⟨entry, hentry, htid⟩
                  exact .inr ⟨tid', rfl, by rw [htid], by rw [Redis.reply, if_pos hsome]⟩
                · exact .inl (.inr ⟨entry, Table.mem_erase.2 ⟨hentry, htid⟩, rfl⟩)

theorem Pc.Sends.owes (h : pc.Sends c k) {e : ExecutionId} (howes : pc.Owes e) (reply : Nat) :
    (k reply).Owes e := by
  cases h with
  | schedulePush => exact howes.imp_left fun he => ⟨he, rfl⟩
  | retrySchedule tid nextAt k' | retryDeadLetter entry k' => exact k'.resume_owes.2 howes
  | _ => cases howes

/-- The handler has what a command removed. -/
theorem Pc.Sends.takes (h : pc.Sends c k) {n : Need} (hc : r.Carries n) :
    (r.send c).Carries n ∨ (k (r.reply c)).Carries n := by
  refine (hc.send c).imp_right ?_
  rintro ⟨tid, rfl, rfl, hreply⟩
  cases h
  rw [hreply]
  rfl

/-- Redis has what the handler gave up. -/
theorem Pc.Sends.gives (h : pc.Sends c k) {n : Need} (hc : pc.Carries n) (reply : Nat) :
    (k reply).Carries n ∨ (r.send c).Carries n := by
  have hqueue : ∀ job, job ∈ (r.send (.enqueue job)).queue :=
    fun job => List.mem_append_right _ (List.mem_singleton.2 rfl)
  cases n with
  | job job =>
      right
      cases job with
      | plan e =>
          rcases hc with hj | ⟨error, rfl⟩
          · cases h with
            | enqueuePlan e' =>
                obtain rfl := Job.plan.inj (Option.some.inj hj)
                exact hqueue _
            | _ => cases hj
          · cases h
      | task tid =>
          cases h with
          | schedulePush | promotePush =>
              obtain rfl := Job.task.inj (Option.some.inj hc)
              exact .inl (hqueue _)
          | retrySchedule tid' nextAt k' =>
              obtain rfl := Job.task.inj (Option.some.inj hc)
              exact .inr ⟨_, Table.mem_upsert.2 (.inr rfl), rfl⟩
          | _ => cases hc
  | planner e => cases h <;> cases hc
  | worker tid =>
      obtain ⟨st, hw⟩ := hc
      rw [(h.work reply).1] at hw
      cases hw
  | pass e tid =>
      rcases hc with howes | hd
      · exact .inl (.inl (h.owes howes reply))
      · cases h <;> cases hd
  | finish e =>
      rcases hc with howes | hf
      · exact .inl (.inl (h.owes howes reply))
      · cases h <;> cases hf

/-! ## Steps -/

/-- The event does not make a handler drop the obligation: it raises, stops, or fails to compute
    `next_attempt_at` only while it does not carry the obligation, or goes on carrying it. -/
def Keeps (cfg : Config) (n : Need) (s : State) : Event → Prop
  | .run hid o => ∀ pc, s.handlers[hid]? = some pc → pc.Overflows cfg o → s.db.Needs n →
    ¬ pc.Carries n
  | .raise hid exc => ∀ pc, s.handlers[hid]? = some pc → s.db.Needs n → pc.Carries n →
    (pc.raised exc).Carries n
  | .crash hid => ∀ pc, s.handlers[hid]? = some pc → s.db.Needs n → ¬ pc.Carries n
  | _ => True

theorem Job.handler_job? (job : Job) : job.handler.job? = some job := by
  cases job <;> rfl

/-- The popped job is with its consumer. -/
theorem Redis.Carries.dequeue {job : Job} {queue : List Job} (hq : r.queue = job :: queue) {n : Need}
    (h : r.Carries n) : Redis.Carries { r with queue := queue } n ∨ job.handler.Carries n := by
  have hmem : ∀ {job'}, job' ∈ r.queue → job' ∈ queue ∨ job.handler.job? = some job' := by
    intro job' hmem
    rw [hq] at hmem
    rcases List.mem_cons.1 hmem with rfl | hmem
    · exact .inr job'.handler_job?
    · exact .inl hmem
  cases n with
  | planner | pass | worker | finish => cases h
  | job job' =>
      cases job' with
      | plan e => exact (hmem h).imp_right .inl
      | task tid =>
          rcases h with h | h
          · exact (hmem h).imp_left .inl
          · exact .inl (.inr h)

/-- A new execution asks for its plan job, and nothing else is new. -/
theorem needs_createExecution {userRequest : String} {now : Time} {n : Need}
    (hneed : (s.createExecution userRequest now).db.Needs n) :
    s.db.Needs n ∨ n = .job (.plan (s.newExecution userRequest now).id) := by
  have hrow : ∀ {e : ExecutionId} {st : ExecutionStatus}, st ≠ .pending →
      (∃ x ∈ (s.createExecution userRequest now).db.executions, x.id = e ∧ x.status = st) →
      ∃ x ∈ s.db.executions, x.id = e ∧ x.status = st := by
    rintro e st hne ⟨x, hx, hid, hs⟩
    rcases State.mem_createExecution.1 hx with hx | rfl
    · exact ⟨x, hx, hid, hs⟩
    · exact absurd hs.symm hne
  cases n with
  | job job =>
      cases job with
      | plan e =>
          obtain ⟨x, hx, rfl, hs⟩ := hneed
          rcases State.mem_createExecution.1 hx with hx | rfl
          · exact .inl ⟨x, hx, rfl, hs⟩
          · exact .inr rfl
      | task tid => exact .inl hneed
  | planner e => exact .inl (hrow nofun hneed)
  | pass | worker => exact .inl hneed
  | finish e => exact .inl ⟨hrow nofun hneed.1, hneed.2⟩

/-- No step loses an obligation, unless it makes a handler drop it. -/
theorem carried_step (hinv : Inv s) {n : Need} (hkeep : Keeps cfg n s ev)
    (h : s.db.Needs n → s.Carried n) (hs : s.step cfg ev = some s') (hneed : s'.db.Needs n) :
    s'.Carried n := by
  cases State.stepsTo hs with
  | createExecution userRequest now =>
      rcases needs_createExecution hneed with hold | rfl
      · exact (h hold).spawn .inl
      · exact .spawned (.inl rfl)
  | dequeue job queue hqueue => exact (h hneed).spawn fun hc => hc.dequeue hqueue
  | promoteDue | recoverStaleTasks | redeliver => exact (h hneed).spawn .inl
  | move hid o pc pc' hpc hlive hact =>
      have hk := hinv.knows pc (List.mem_of_getElem? hpc)
      refine (h hneed).set hpc .inl fun hc => .inl ?_
      by_cases hover : pc.Overflows cfg o
      · exact absurd hc (hkeep pc hpc hover hneed)
      · exact (Pc.moves_of_act hact).carries hinv.wellFormed hk hover hneed hc
  | commit hid o pc τ k hpc hlive hact =>
      have hk := hinv.knows pc (List.mem_of_getElem? hpc)
      have hok : (Act.commit τ k).Ok o.now s.db s.redis := hact ▸ hinv.act_ok hpc
      rcases (Pc.commits_of_act hact).carries hk hok.allowed.respects hneed with hc | ⟨hold, hkeeps⟩
      · exact .moved hpc hc
      · exact (h hold).set hpc .inl fun hc => .inl (hkeeps hc)
  | send hid o pc c k hpc hlive hact =>
      have hsend := Pc.sends_of_act hact
      exact (h hneed).set hpc hsend.takes fun hc => hsend.gives hc _
  | raise hid exc pc hpc hlive =>
      exact (h hneed).set hpc .inl fun hc => .inl (hkeep pc hpc hneed hc)
  | crash hid pc hpc hlive =>
      exact (h hneed).set hpc .inl fun hc => absurd hc (hkeep pc hpc hneed)

/-- In a run that never makes a handler drop `n`, somebody is in charge of it whenever it is open. -/
theorem reachable_carried {E : State → Event → Prop} {n : Need}
    (hE : ∀ s ev, E s ev → Keeps cfg n s ev) (h : (queueMode cfg).Reachable E s)
    (hneed : s.db.Needs n) : s.Carried n := by
  refine Lts.Reachable.invariant (I := fun s => s.db.Needs n → s.Carried n) ?_ ?_ h hneed
  · intro hneed
    cases n with
    | job job => cases job <;> simp [queueMode, Db.Needs] at hneed
    | planner | pass | worker | finish => simp [queueMode, Db.Needs] at hneed
  · intro s ev s' hr hi hadm hs hneed
    exact carried_step (reachable_inv hr) (hE s ev hadm) hi hs hneed

end AgenticExecution
