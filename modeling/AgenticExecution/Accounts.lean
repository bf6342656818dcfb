import AgenticExecution.DeadLetters
import AgenticExecution.Exclusive
import AgenticExecution.Fates
import AgenticExecution.Planning
import AgenticExecution.Results

set_option autoImplicit false

/-! # What the agents answered

In an orderly run no process stops, no call raises, and the reaper leaves the tasks alone. If the agents
of an execution answer as a function of the task, the attempt and the context, then every row of the
execution accounts for their answers: its `attempts` counts runs that failed, a COMPLETED row holds the
answer of the next one, and a FAILED row has used up its retries or was skipped. The context is the same
in every attempt, since the dependencies of a claimed task have finished. -/

namespace AgenticExecution

variable {cfg : Config} {agent : Agents} {e : ExecutionId} {s s' : State} {ev : Event} {db db' : Db}
  {trace : List (State × Event)}

/-- The agents of the execution answer as `agent` says. -/
def Answers (agent : Agents) (e : ExecutionId) (s : State) : Event → Prop
  | .run hid o => ∀ task context, s.live? hid = some (.agentRun task context) → task.executionId = e →
      agentResult? o.agent = agent task.orderIndex task.subtask (task.attempts + 1) context
  | _ => True

/-- No process stops, no call raises, no lease expires, and the agents answer as `agent` says. -/
structure Orderly (cfg : Config) (agent : Agents) (e : ExecutionId) (s : State) (ev : Event) : Prop where
  uninterrupted : Uninterrupted s ev
  spared : ∀ tid, reaps cfg tid s ev = false
  answers : Answers agent e s ev

/-! ## Rows -/

theorem Task.subtask_of_fixed {t t' : Task} (h : t'.fixed = t.fixed) : t'.subtask = t.subtask := by
  simp only [Task.fixed, Prod.mk.injEq] at h
  simp [Task.subtask, h]

namespace Db

/-- The `n`-th run of the task, in the context its dependencies give, has the given result. -/
def Answered (agent : Agents) (db : Db) (t : Task) (n : Nat) (result : Option AgentResult) : Prop :=
  ∃ context, db.IsContext t context ∧ agent t.orderIndex t.subtask n context = result

theorem Answered.mono (hle : db.Le db') {t : Task} {n : Nat} {result : Option AgentResult}
    (h : db.Answered agent t n result) : db'.Answered agent t n result := by
  obtain ⟨context, hctx, rfl⟩ := h
  exact ⟨context, hctx.mono hle, rfl⟩

/-- Only the planner's columns of the row matter. -/
theorem Answered.congr {t t' : Task} (hfixed : t'.fixed = t.fixed) {n : Nat}
    {result : Option AgentResult} (h : db.Answered agent t n result) :
    db.Answered agent t' n result := by
  obtain ⟨context, ⟨parts, rfl, hparts⟩, rfl⟩ := h
  have hsub := Task.subtask_of_fixed hfixed
  simp only [Task.fixed, Prod.mk.injEq] at hfixed
  obtain ⟨-, he, -, -, hidx, hdeps⟩ := hfixed
  refine ⟨_, ⟨parts, rfl, ?_⟩, by rw [hidx, hsub]⟩
  rw [he, hdeps]
  exact hparts

/-- The row accounts for the answers of its agent. -/
structure Accounted (agent : Agents) (retries : Nat) (db : Db) (t : Task) : Prop where
  tried : ∀ n < t.attempts, db.Answered agent t (n + 1) none
  budget : t.status ≠ .failed → t.attempts ≤ retries
  pending : t.status = .pending → t.attempts = 0
  failed : t.status = .failed → t.attempts = retries + 1 ∨
    t.attempts = 0 ∧ ∃ d ∈ db.tasks, t.DependsOn d ∧ d.status = .failed
  unanswered : t.status ≠ .completed → t.totalTokens = none ∧ t.toolCalls = 0
  completed : t.status = .completed → ∃ r ∈ db.results, r.taskId = t.id ∧
    ∃ tokens, t.totalTokens = some tokens ∧
      db.Answered agent t (t.attempts + 1) (some ⟨r.output, tokens, t.toolCalls⟩)

/-- A row keeps accounting for its agent while it does not finish and `attempts` stands. -/
theorem Accounted.keep {retries : Nat} {t t' : Task} (h : db.Accounted agent retries t)
    (hle : db.Le db') (htt' : Task.Le t t') (hattempts : t'.attempts = t.attempts)
    (htokens : t'.totalTokens = t.totalTokens) (hcalls : t'.toolCalls = t.toolCalls)
    (hstatus : t'.status = t.status ∨ t.status.claimable = true ∧ t'.status = .running) :
    db'.Accounted agent retries t' := by
  have hanswered : ∀ {n : Nat} {result : Option AgentResult}, db.Answered agent t n result →
      db'.Answered agent t' n result := fun ha => (ha.mono hle).congr htt'.fixed
  have hclaimable : t.status.claimable = true → t.status ≠ .failed ∧ t.status ≠ .completed := by
    intro hc
    constructor <;> intro hst <;> simp [hst, TaskStatus.claimable] at hc
  constructor
  case tried =>
    intro n hn
    exact hanswered (h.tried n (hattempts ▸ hn))
  case budget =>
    intro hne
    rw [hattempts]
    rcases hstatus with hsame | ⟨hc, -⟩
    · exact h.budget (hsame ▸ hne)
    · exact h.budget (hclaimable hc).1
  case pending =>
    intro hst
    rw [hattempts]
    rcases hstatus with hsame | ⟨-, hrun⟩
    · exact h.pending (hsame ▸ hst)
    · simp [hst] at hrun
  case failed =>
    intro hst
    rcases hstatus with hsame | ⟨-, hrun⟩
    · rw [hattempts]
      exact (h.failed (hsame ▸ hst)).imp_right (.imp_right (hle.failed_dependency htt'))
    · simp [hst] at hrun
  case unanswered =>
    intro hne
    rw [htokens, hcalls]
    rcases hstatus with hsame | ⟨hc, -⟩
    · exact h.unanswered (hsame ▸ hne)
    · exact h.unanswered (hclaimable hc).2
  case completed =>
    intro hst
    rcases hstatus with hsame | ⟨-, hrun⟩
    · obtain ⟨r, hr, hid, tokens, htok, ha⟩ := h.completed (hsame ▸ hst)
      refine ⟨r, hle.result r hr, hid.trans htt'.id.symm, tokens, htokens.trans htok, ?_⟩
      rw [hattempts, hcalls]
      exact hanswered ha
    · simp [hst] at hrun

end Db

/-! ## The row a worker holds -/

/-- The row a worker read after its claim. -/
def Pc.held? : Pc → Option Task
  | .taskCheck t | .taskStored t | .contextSelect t | .contextLoad t .. | .agentStart t _
  | .agentRun t _ | .taskRollback t _ | .persist t _ | .persistUpdate t ..
  | .retryOrFail t _ (.executeTask _) => some t
  | _ => none

@[simp ↓] theorem ScheduleCaller.resume_held (k : ScheduleCaller) : k.resume.held? = none :=
  k.observe_resume Pc.held? rfl fun _ => rfl

@[simp ↓] theorem recoverNext_held (stale : List Task) (affected : List ExecutionId) :
    (recoverNext stale affected).held? = none :=
  observe_recoverNext Pc.held? (fun _ => rfl) (fun _ _ _ _ _ => rfl) stale affected

@[simp ↓] theorem RetryCaller.resume_held (k : RetryCaller) : k.resume.held? = none :=
  k.observe_resume Pc.held? (fun _ => rfl) (fun _ => rfl) fun _ _ _ _ _ => rfl

@[simp ↓] theorem finalizeTasks_held (x : Execution) (k : ScheduleCaller) (tasks : List Task) :
    (finalizeTasks x k tasks).held? = none :=
  observe_finalizeTasks Pc.held? rfl (fun _ => rfl) (fun _ _ _ _ _ => rfl) (fun _ _ _ => rfl) x k tasks

@[simp] theorem Job.handler_held (job : Job) : job.handler.held? = none := by
  cases job <;> rfl

/-- Whoever holds a row works on its task. -/
theorem Pc.held_work {pc : Pc} {t : Task} (h : pc.held? = some t) :
    ∃ st, pc.work = some (t.id, st) := by
  cases pc with
  | retryOrFail t₀ error k =>
      cases k with
      | executeTask e =>
          obtain rfl := Option.some.inj h
          exact ⟨_, rfl⟩
      | recoverStaleTasks => cases h
  | taskCheck | taskStored | contextSelect | contextLoad | agentStart | agentRun | taskRollback
    | persist | persistUpdate =>
      obtain rfl := Option.some.inj h
      exact ⟨_, rfl⟩
  | _ => cases h

theorem Pc.Knows.held {pc : Pc} {t : Task} (hk : pc.Knows db) (h : pc.held? = some t) : db.Read t := by
  cases pc with
  | retryOrFail t₀ error k =>
      cases k with
      | executeTask e =>
          obtain rfl := Option.some.inj h
          exact hk.1
      | recoverStaleTasks => cases h
  | taskCheck | contextSelect | taskRollback | persist =>
      obtain rfl := Option.some.inj h
      exact hk.2
  | taskStored | persistUpdate | contextLoad | agentStart | agentRun =>
      obtain rfl := Option.some.inj h
      exact hk.1.2
  | _ => cases h

/-- A worker keeps the row it holds, or has just read it. -/
theorem Pc.Moves.held {o : Oracle} {r : Redis} {pc pc' : Pc} (h : pc.Moves cfg o db r pc') {t : Task}
    (ht : pc'.held? = some t) : pc.held? = some t ∨ t ∈ db.tasks := by
  cases h with
  | refreshed tid task hfind =>
      obtain rfl := Option.some.inj ht
      exact .inr (Table.find?_eq_some_iff.1 hfind).1
  | rollbackFound task error fresh hfind =>
      obtain rfl := Option.some.inj ht
      exact .inr (Table.find?_eq_some_iff.1 hfind).1
  | resultStored | noResult | contextEmpty | contextSelect | contextDone | contextNext | agentStart
    | agentReturned | agentRaised | integrityError => exact .inl ht
  | _ => simp [Pc.held?] at ht

theorem Pc.Commits.held {o : Oracle} {pc : Pc} {τ : Txn} {k : Nat → Pc} (n : Nat)
    (h : pc.Commits cfg o db τ k) : (k n).held? = none := by
  cases h <;> simp [Pc.held?, ↓apply_ite Pc.held?]

theorem Pc.Sends.held {pc : Pc} {c : Command} {k : Nat → Pc} (n : Nat) (h : pc.Sends c k) :
    (k n).held? = none := by
  cases h <;> simp [Pc.held?, ↓apply_ite Pc.held?]

/-! ## What a handler tells about the agents -/

/-- The output a worker is about to store is its agent's answer, the failure it is about to report is
    one; nobody finds a result stored already; and of the rows a failing finalizer saw some were not
    COMPLETED, and those had no tokens. -/
def Pc.Tells (agent : Agents) (e : ExecutionId) (db : Db) : Pc → Prop
  | .persist t output => t.executionId = e →
      db.Answered agent t (t.attempts + 1) (agentResult? (.ok output))
  | .taskRollback t _ | .retryOrFail t _ (.executeTask _) => t.executionId = e →
      db.Answered agent t (t.attempts + 1) none
  | .taskStored t | .persistUpdate t .. => t.executionId ≠ e
  | .finalizeFail x _ tasks => x.id = e → (∃ t ∈ tasks, t.status ≠ .completed) ∧
      ∀ t ∈ tasks, t.status ≠ .completed → t.totalTokens = none
  | _ => True

@[simp ↓] theorem ScheduleCaller.resume_tells (k : ScheduleCaller) :
    k.resume.Tells agent e db = True :=
  k.observe_resume (Pc.Tells agent e db) rfl fun _ => rfl

@[simp ↓] theorem recoverNext_tells (stale : List Task) (affected : List ExecutionId) :
    (recoverNext stale affected).Tells agent e db = True :=
  observe_recoverNext (Pc.Tells agent e db) (fun _ => rfl) (fun _ _ _ _ _ => rfl) stale affected

@[simp ↓] theorem RetryCaller.resume_tells (k : RetryCaller) : k.resume.Tells agent e db = True :=
  k.observe_resume (Pc.Tells agent e db) (fun _ => rfl) (fun _ => rfl) fun _ _ _ _ _ => rfl

theorem Job.handler_tells (job : Job) : job.handler.Tells agent e db := by
  cases job <;> trivial

theorem finalizeTasks_tells {x : Execution} {k : ScheduleCaller} {tasks : List Task}
    (h : x.id = e → ∀ t ∈ tasks, t.status ≠ .completed → t.totalTokens = none) :
    (finalizeTasks x k tasks).Tells agent e db := by
  unfold finalizeTasks
  split_ifs
  · simp
  · simp
  · trivial
  · next hall =>
      refine fun he => ⟨?_, h he⟩
      simpa using hall

theorem Pc.Tells.mono {pc : Pc} (hle : db.Le db') (h : pc.Tells agent e db) :
    pc.Tells agent e db' := by
  cases pc with
  | persist | taskRollback => exact fun he => (h he).mono hle
  | retryOrFail t error k =>
      cases k with
      | executeTask => exact fun he => (h he).mono hle
      | recoverStaleTasks => trivial
  | taskStored | persistUpdate | finalizeFail => exact h
  | _ => trivial

theorem Pc.Commits.tells {o : Oracle} {pc : Pc} {τ : Txn} {k : Nat → Pc} (n : Nat)
    (h : pc.Commits cfg o db τ k) : (k n).Tells agent e db' := by
  cases h <;> simp [Pc.Tells, ↓apply_ite (Pc.Tells agent e db')]

theorem Pc.Sends.tells {pc : Pc} {c : Command} {k : Nat → Pc} (n : Nat) (h : pc.Sends c k) :
    (k n).Tells agent e db' := by
  cases h <;> simp [Pc.Tells, ↓apply_ite (Pc.Tells agent e db')]

/-! ## The accounts of a run -/

/-- What every run of one execution has in common, whatever the schedule. -/
structure Accounts (cfg : Config) (agent : Agents) (e : ExecutionId) (s : State) : Prop where
  row : ∀ t ∈ s.db.tasks, t.executionId = e →
    s.db.Accounted agent cfg.settings.taskMaxRetries.toNat t
  /-- Exactly the COMPLETED tasks have a result. -/
  agrees : s.db.Agrees
  /-- Nobody else counts the attempts of a task while a worker holds its row. -/
  held : ∀ (hid : Nat) (pc : Pc) (copy : Task), s.handlers[hid]? = some pc → pc.held? = some copy →
    ∀ t ∈ s.db.tasks, t.id = copy.id → t.attempts = copy.attempts
  tells : ∀ pc ∈ s.handlers, pc.Tells agent e s.db

theorem Exclusive.row_running {tid : TaskId} (h : Exclusive cfg tid trace s) {hid : Nat} {pc : Pc}
    {st : Stage} (hpc : s.handlers[hid]? = some pc) (hw : pc.work = some (tid, st)) {t : Task}
    (ht : t ∈ s.db.tasks) (hid' : t.id = tid) : t.status = .running := by
  have hrun := h.running hid pc st hpc hw
  rw [← hid', Db.status?_of_mem ht, Option.some.injEq] at hrun
  exact hrun

/-- A worker that holds the only claim of its task does not store a result too late. -/
theorem not_lateSuccess (hex : ∀ tid, Exclusive cfg tid trace s) : lateSuccess s ev = false := by
  unfold lateSuccess
  split
  · split
    · next hid o task output hlive =>
        have hpc := (State.live?_eq_some hlive).1
        rw [Bool.and_eq_false_iff, List.any_eq_false]
        refine .inr fun t ht hcond => ?_
        obtain ⟨hid', hst⟩ : t.id = task.id ∧ t.status = .failed := by simpa using hcond
        have hrun := (hex task.id).row_running hpc rfl ht hid'
        simp [hst] at hrun
    · rfl
  · rfl

/-- The attempts of a row only change when its run ends. -/
theorem running_of_attempts (hs : s.step cfg ev = some s') {t t' : Task} (ht : t ∈ s.db.tasks)
    (ht' : t' ∈ s'.db.tasks) (hid : t'.id = t.id) (hne : t'.attempts ≠ t.attempts) :
    t.status = .running ∧ t'.status ≠ .running := by
  cases row_origin hs ht' with
  | kept hmem => exact absurd (congrArg Task.attempts (Table.eq_of_key_eq hmem ht hid)) hne
  | planned o e i sub heq => exact absurd (heq ▸ hid) (Db.plannedTask_id_ne ht e i sub)
  | set hid₀ o pc τ k t₀ u hev hpc hcommit hdb ht₀ hu hg heq =>
      subst heq
      obtain rfl := Table.eq_of_key_eq ht₀ ht ((u.set_id o.now t₀).symm.trans hid)
      cases u with
      | retryTask | failTask => exact ⟨by simpa [TaskUpdate.guard] using hg, by simp [TaskUpdate.set]⟩
      | claimTask | markStarted | markEnqueued | skipTask | completeStored | completeTask =>
          exact absurd rfl hne

namespace Accounts

variable {hid : Nat} {o : Oracle} {pc : Pc} {τ : Txn} {k : Nat → Pc}

/-- The row of the task a worker is about to report on. -/
theorem reported (h : Accounts cfg agent e s) (hinv : Inv s) (hex : ∀ tid, Exclusive cfg tid trace s)
    (hpc : s.handlers[hid]? = some pc) {copy : Task} (hheld : pc.held? = some copy) {t : Task}
    (ht : t ∈ s.db.tasks) (hid' : t.id = copy.id) (he : t.executionId = e) :
    Task.Le copy t ∧ copy.executionId = e ∧ t.status = .running ∧ t.attempts = copy.attempts ∧
      s.db.Accounted agent cfg.settings.taskMaxRetries.toNat t := by
  have hle : Task.Le copy t :=
    ((hinv.knows pc (List.mem_of_getElem? hpc)).held hheld).le_of_mem ht hid'
  obtain ⟨st, hw⟩ := Pc.held_work hheld
  exact ⟨hle, hle.executionId.symm.trans he, (hex copy.id).row_running hpc hw ht hid',
    h.held hid pc copy hpc hheld t ht hid', h.row t ht he⟩

/-- One more failed run: the row after a retry, or after the last one. -/
theorem failed_run {t t' : Task} {retries : Nat} (h : s.db.Accounted agent retries t)
    (hle : s.db.Le s'.db) (hrun : t.status = .running)
    (hanswer : s.db.Answered agent t (t.attempts + 1) none) (hfixed : t'.fixed = t.fixed)
    (hattempts : t'.attempts = t.attempts + 1) (htokens : t'.totalTokens = t.totalTokens)
    (hcalls : t'.toolCalls = t.toolCalls)
    (hstatus : t'.status = .retrying ∧ t'.attempts ≤ retries ∨
      t'.status = .failed ∧ t'.attempts = retries + 1) :
    s'.db.Accounted agent retries t' where
  tried n hn := by
    rw [hattempts] at hn
    rcases Nat.lt_succ_iff_lt_or_eq.1 hn with hn | rfl
    · exact ((h.tried n hn).mono hle).congr hfixed
    · exact (hanswer.mono hle).congr hfixed
  budget hne := by
    rcases hstatus with ⟨-, hle⟩ | ⟨hst, -⟩
    · exact hle
    · exact absurd hst hne
  pending hst := by rcases hstatus with ⟨hst', -⟩ | ⟨hst', -⟩ <;> simp [hst] at hst'
  failed hst := by
    rcases hstatus with ⟨hst', -⟩ | ⟨-, heq⟩
    · simp [hst] at hst'
    · exact .inl heq
  unanswered _ := by
    rw [htokens, hcalls]
    exact h.unanswered (by simp [hrun])
  completed hst := by rcases hstatus with ⟨hst', -⟩ | ⟨hst', -⟩ <;> simp [hst] at hst'

/-- A row a worker has just updated. -/
theorem set (h : Accounts cfg agent e s) (hinv : Inv s) (hex : ∀ tid, Exclusive cfg tid trace s)
    (hspared : ∀ tid, reaps cfg tid s (.run hid o) = false)
    (hs : s.step cfg (.run hid o) = some s') (hpc : s.handlers[hid]? = some pc)
    (hcommit : pc.Commits cfg o s.db τ k) (hdb : s'.db = s.db.commit o.now τ) {t : Task}
    {u : TaskUpdate} (ht : t ∈ s.db.tasks) (he : t.executionId = e)
    (hu : τ.taskUpdate? = some (t.id, u)) (hg : u.guard t = true)
    (ht' : u.set o.now t ∈ s'.db.tasks) :
    s'.db.Accounted agent cfg.settings.taskMaxRetries.toNat (u.set o.now t) := by
  have hle := (hinv.step hs).2
  have htt' : Task.Le t (u.set o.now t) := TaskUpdate.le hg
  have hrow := h.row t ht he
  have htells := h.tells pc (List.mem_of_getElem? hpc)
  -- the reaper's update would take a RUNNING task away, which no orderly run does
  have hreaped : ∀ {task : Task} {error : String} {e₀ : ExecutionId} {stale : List Task}
      {affected : List ExecutionId},
      pc = .retryOrFail task error (.recoverStaleTasks e₀ stale affected) → t.status = .running →
        (u.set o.now t).status = .retrying ∨ (u.set o.now t).status = .failed → False := by
    rintro task error e₀ stale affected rfl hrun hst
    have hrel : releases cfg t.id (s, .run hid o) = true :=
      (changes_iff hs).2 ⟨⟨t, ht, rfl, by simp [hrun]⟩, _, ht', htt'.id, by simpa using hst⟩
    have := reaps_of_releases hpc hrel
    rw [hspared] at this
    cases this
  cases hcommit with
  | taskClaim tid =>
      obtain ⟨-, rfl⟩ := Prod.mk.inj (Option.some.inj hu)
      exact hrow.keep hle htt' rfl rfl rfl (.inr ⟨hg, rfl⟩)
  | taskStarted | markEnqueued =>
      obtain ⟨-, rfl⟩ := Prod.mk.inj (Option.some.inj hu)
      exact hrow.keep hle htt' rfl rfl rfl (.inl rfl)
  | taskStored task | persistUpdate task =>
      -- both short cuts need a result that another worker stored
      obtain ⟨hid', rfl⟩ := Prod.mk.inj (Option.some.inj hu)
      exact absurd (h.reported hinv hex hpc rfl ht hid'.symm he).2.1 htells
  | persist task output hnew =>
      obtain ⟨hid', rfl⟩ := Prod.mk.inj (Option.some.inj hu)
      obtain ⟨hcopy, hce, hrun, hattempts, -⟩ := h.reported hinv hex hpc rfl ht hid'.symm he
      have hanswer := (((htells hce).mono hle).congr hcopy.fixed).congr htt'.fixed
      have hstored : ⟨task.id, output.text⟩ ∈ s'.db.results := by
        rw [hdb]
        exact (Db.mem_insertResult hnew).2 (.inr rfl)
      refine ⟨fun n hn => ((hrow.tried n hn).mono hle).congr htt'.fixed,
        fun _ => hrow.budget (by simp [hrun]), by rintro ⟨⟩, by rintro ⟨⟩, fun hne => absurd rfl hne,
        fun _ => ?_⟩
      refine ⟨_, hstored, hid', output.totalTokens, rfl, ?_⟩
      show s'.db.Answered agent _ (t.attempts + 1) _
      rw [hattempts]
      exact hanswer
  | retryTask task error k' nextAt hbudget hnext =>
      obtain ⟨hid', rfl⟩ := Prod.mk.inj (Option.some.inj hu)
      cases k' with
      | executeTask e₀ =>
          obtain ⟨hcopy, hce, hrun, hattempts, -⟩ := h.reported hinv hex hpc rfl ht hid'.symm he
          refine failed_run hrow hle hrun ?_ htt'.fixed ?_ rfl rfl (.inl ⟨rfl, ?_⟩)
          · rw [hattempts]
            exact (htells hce).congr hcopy.fixed
          · show task.attempts + 1 = t.attempts + 1
            rw [hattempts]
          · show task.attempts + 1 ≤ _
            omega
      | recoverStaleTasks =>
          exact (hreaped rfl (by simpa [TaskUpdate.guard] using hg) (.inl rfl)).elim
  | failTask task error k' hbudget =>
      obtain ⟨hid', rfl⟩ := Prod.mk.inj (Option.some.inj hu)
      cases k' with
      | executeTask e₀ =>
          obtain ⟨hcopy, hce, hrun, hattempts, -⟩ := h.reported hinv hex hpc rfl ht hid'.symm he
          have hwithin := hrow.budget (by simp [hrun])
          refine failed_run hrow hle hrun ?_ htt'.fixed ?_ rfl rfl (.inr ⟨rfl, ?_⟩)
          · rw [hattempts]
            exact (htells hce).congr hcopy.fixed
          · show task.attempts + 1 = t.attempts + 1
            rw [hattempts]
          · show task.attempts + 1 = _ + 1
            omega
      | recoverStaleTasks =>
          exact (hreaped rfl (by simpa [TaskUpdate.guard] using hg) (.inr rfl)).elim
  | skipTask e₀ k' seen t₀ rest changed hpending henq hv =>
      obtain ⟨hid', rfl⟩ := Prod.mk.inj (Option.some.inj hu)
      -- the cascade: a PENDING row was never claimed
      have hst : t.status = .pending := by simpa [TaskUpdate.guard] using hg
      have hzero := hrow.pending hst
      obtain ⟨-, hl, -⟩ := hinv.knows _ (List.mem_of_getElem? hpc)
      obtain ⟨he₀, hread⟩ := hl.read t₀ (by simp)
      have hskipped := hle.failed_dependency htt'
        (hl.failed_dependency he₀ (hread.le_of_mem ht hid'.symm) hv)
      refine ⟨fun n hn => ?_, fun hne => absurd rfl hne, by rintro ⟨⟩, fun _ => .inr ⟨hzero, hskipped⟩,
        fun _ => hrow.unanswered (by simp [hst]), by rintro ⟨⟩⟩
      have hn : n < t.attempts := hn
      omega
  | _ => cases hu

theorem row_step (h : Accounts cfg agent e s) (hinv : Inv s) (hex : ∀ tid, Exclusive cfg tid trace s)
    (hE : Orderly cfg agent e s ev) (hs : s.step cfg ev = some s') {t' : Task}
    (ht' : t' ∈ s'.db.tasks) (he : t'.executionId = e) :
    s'.db.Accounted agent cfg.settings.taskMaxRetries.toNat t' := by
  have hle := (hinv.step hs).2
  cases row_origin hs ht' with
  | kept hmem => exact (h.row t' hmem he).keep hle (.refl t') rfl rfl rfl (.inl rfl)
  | planned o e₀ i sub heq =>
      subst heq
      exact ⟨nofun, fun _ => Nat.zero_le _, fun _ => rfl, nofun, fun _ => ⟨rfl, rfl⟩, nofun⟩
  | set hid o pc τ k t u hev hpc hcommit hdb ht hu hg heq =>
      subst hev heq
      have he' : t.executionId = e := (TaskUpdate.le hg).executionId.symm.trans he
      exact h.set hinv hex hE.spared hs hpc hcommit hdb ht he' hu hg ht'

/-- While a worker holds a row, its task is not reported on by anybody else. -/
theorem held_kept (h : Accounts cfg agent e s) (hinv : Inv s) (hex : ∀ tid, Exclusive cfg tid trace s)
    (hE : Orderly cfg agent e s ev) (hs : s.step cfg ev = some s')
    (hpc : s.handlers[hid]? = some pc) (hpc' : s'.handlers[hid]? = some pc) {copy : Task}
    (hheld : pc.held? = some copy) {t' : Task} (ht' : t' ∈ s'.db.tasks) (hid' : t'.id = copy.id) :
    t'.attempts = copy.attempts := by
  obtain ⟨t, ht, hle⟩ := (hinv.knows pc (List.mem_of_getElem? hpc)).held hheld
  obtain ⟨t₁, ht₁, hle₁⟩ := (hinv.step hs).2.task t ht
  obtain rfl := Table.eq_of_key_eq ht₁ ht' (by rw [hle₁.id, hle.id, hid'])
  rw [← h.held hid pc copy hpc hheld t ht hle.id]
  by_contra hne
  obtain ⟨hrun, hended⟩ := running_of_attempts hs ht ht' hle₁.id hne
  obtain ⟨w, o, pc₁, st₁, pc₂, -, hpc₁, hw₁, hpc₂, hnone⟩ :=
    running_ends hs (hE.spared copy.id) ht hle.id hrun ht' hid' hended
  obtain ⟨st, hw⟩ := Pc.held_work hheld
  have hsame : w = hid := by
    have := (hex copy.id).worker w pc₁ st₁ hpc₁ hw₁
    rw [(hex copy.id).worker hid pc st hpc hw, Option.some.injEq] at this
    exact this.symm
  obtain rfl : pc₂ = pc := Option.some.inj (hpc₂.symm.trans (hsame ▸ hpc'))
  simp [hnone] at hw

theorem held_step (h : Accounts cfg agent e s) (hinv : Inv s) (hex : ∀ tid, Exclusive cfg tid trace s)
    (hE : Orderly cfg agent e s ev) (hs : s.step cfg ev = some s') :
    ∀ (hid : Nat) (pc : Pc) (copy : Task), s'.handlers[hid]? = some pc → pc.held? = some copy →
      ∀ t ∈ s'.db.tasks, t.id = copy.id → t.attempts = copy.attempts := by
  intro hid pc copy hpc'
  refine State.forall_handler (P := fun hid pc => s.handlers[hid]? = some pc)
    (Q := fun hid pc => s'.handlers[hid]? = some pc → pc.held? = some copy → ∀ t ∈ s'.db.tasks,
      t.id = copy.id → t.attempts = copy.attempts) hs (fun _ _ hpc => hpc) ?_ ?_ ?_ ?_ ?_ ?_ ?_ hid pc
      hpc' hpc'
  · intro hid pc hpc _ hpc' hheld t ht hid'
    exact h.held_kept hinv hex hE hs hpc hpc' hheld ht hid'
  · intro hid pc hstart _ hheld
    cases hstart with
    | dequeue job | redeliver job => simp at hheld
    | createExecution | promoteDue | recoverStaleTasks => cases hheld
  · rintro hid o pc pc' rfl hpc hact hdb - - hheld t ht hid'
    rw [hdb] at ht
    rcases (Pc.moves_of_act hact).held hheld with hold | hread
    · exact h.held hid pc copy hpc hold t ht hid'
    · rw [Table.eq_of_key_eq ht hread hid']
  · intro hid o pc τ k _ _ hcommit _ _ _ hheld
    simp [hcommit.held] at hheld
  · intro hid o pc c k _ _ hsend _ _ _ hheld
    simp [hsend.held] at hheld
  · rintro hid exc pc rfl
    exact hE.uninterrupted.elim
  · intro hid _ hheld
    cases hheld

/-- Nobody finds a result stored for a task he holds. -/
theorem not_stored (h : Accounts cfg agent e s) (hinv : Inv s) (hex : ∀ tid, Exclusive cfg tid trace s)
    (hpc : s.handlers[hid]? = some pc) {copy : Task} (hheld : pc.held? = some copy)
    {result : TaskResult} (hfind : s.db.results.find? copy.id = some result) : False := by
  obtain ⟨t, ht, hle⟩ := (hinv.knows pc (List.mem_of_getElem? hpc)).held hheld
  obtain ⟨hr, hrid⟩ := Table.find?_eq_some_iff.1 hfind
  obtain ⟨st, hw⟩ := Pc.held_work hheld
  have hrun : t.status = .running := (hex copy.id).row_running hpc hw ht hle.id
  have hdone : t.status = .completed := (h.agrees t ht).1 ⟨result, hr, hrid.trans hle.id.symm⟩
  simp [hrun] at hdone

theorem tells_move (h : Accounts cfg agent e s) (hinv : Inv s) (hex : ∀ tid, Exclusive cfg tid trace s)
    (hanswers : Answers agent e s (.run hid o)) (hpc : s.handlers[hid]? = some pc) {pc' : Pc}
    (hmoves : pc.Moves cfg o s.db s.redis pc') : pc'.Tells agent e s.db := by
  have hk := hinv.knows pc (List.mem_of_getElem? hpc)
  have htells := h.tells pc (List.mem_of_getElem? hpc)
  cases hmoves with
  | agentReturned task context output hagent =>
      intro he
      have hlive : s.live? hid = some (.agentRun task context) := by rw [State.live?, hpc]
      exact ⟨context, hk.2, by rw [← hanswers task context hlive he, hagent]⟩
  | agentRaised task context exc hagent =>
      intro he
      have hlive : s.live? hid = some (.agentRun task context) := by rw [State.live?, hpc]
      exact ⟨context, hk.2, by rw [← hanswers task context hlive he, hagent]; rfl⟩
  | rollbackFound task error fresh hfind =>
      intro he
      obtain ⟨hmem, hid'⟩ := Table.find?_eq_some_iff.1 hfind
      obtain ⟨hcopy, hce, -, hattempts, -⟩ := h.reported hinv hex hpc rfl hmem hid' he
      rw [hattempts]
      exact (htells hce).congr hcopy.fixed
  | resultStored task result hfind | integrityError task output result hfind =>
      exact (h.not_stored hinv hex hpc rfl hfind).elim
  | finalizeSelect x k =>
      refine finalizeTasks_tells fun he t ht hne => ?_
      rw [Table.mem_reorder, Db.mem_tasksOf] at ht
      exact ((h.row t ht.1 (ht.2.trans he)).unanswered hne).1
  | _ => simp [Pc.Tells]

theorem tells_step (h : Accounts cfg agent e s) (hinv : Inv s) (hex : ∀ tid, Exclusive cfg tid trace s)
    (hE : Orderly cfg agent e s ev) (hs : s.step cfg ev = some s') :
    ∀ pc ∈ s'.handlers, pc.Tells agent e s'.db := by
  refine State.forall_handlers (P := Pc.Tells agent e s.db) hs h.tells ?_ ?_ ?_ ?_ ?_ ?_ trivial
  · intro pc _ htells
    exact htells.mono (hinv.step hs).2
  · intro pc hstart
    cases hstart with
    | dequeue job | redeliver job => exact job.handler_tells
    | createExecution | promoteDue | recoverStaleTasks => trivial
  · rintro hid o pc pc' rfl hpc hact hdb -
    rw [hdb]
    exact h.tells_move hinv hex hE.answers hpc (Pc.moves_of_act hact)
  · intro hid o pc τ k _ _ hcommit _ _
    exact hcommit.tells _
  · intro hid o pc c k _ _ hsend _ _
    exact hsend.tells _
  · rintro hid exc pc rfl
    exact hE.uninterrupted.elim

theorem step (h : Accounts cfg agent e s) (hinv : Inv s) (hex : ∀ tid, Exclusive cfg tid trace s)
    (hE : Orderly cfg agent e s ev) (hs : s.step cfg ev = some s') : Accounts cfg agent e s' where
  row _ ht he := h.row_step hinv hex hE hs ht he
  agrees := agrees_step hinv h.agrees (not_lateSuccess hex) hs
  held := h.held_step hinv hex hE hs
  tells := h.tells_step hinv hex hE hs

end Accounts

theorem exclusive_of_orderly (h : (queueMode cfg).Run (Orderly cfg agent e) trace s) (tid : TaskId) :
    Exclusive cfg tid trace s :=
  exclusive_run (h.mono fun _ _ hE => hE.spared tid)

/-- In every orderly run the rows account for the answers of the agents. -/
theorem accounts_run (h : (queueMode cfg).Run (Orderly cfg agent e) trace s) :
    Accounts cfg agent e s := by
  refine Lts.Run.invariant (I := fun _ => Accounts cfg agent e) ?_ ?_ h
  · exact ⟨by simp [queueMode], by simp [queueMode, Db.Agrees], by simp [queueMode],
      by simp [queueMode]⟩
  · intro trace s ev s' hrun hi hE hs
    exact hi.step (reachable_inv hrun.reachable) (exclusive_of_orderly hrun) hE hs

end AgenticExecution
