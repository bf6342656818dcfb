import AgenticExecution.Leases

set_option autoImplicit false

/-! # The cause of every failure

A task is FAILED by `_retry_or_fail`, which then pushes a dead letter, or by the cascade of
`schedule_execution`, which does not. A task the cascade skips was never claimed and has a FAILED
dependency, so a chain of skipped tasks starts at one whose retries are exhausted. Leases may expire
and jobs may be delivered again; only a handler that stops between the two writes of a failure would
lose a dead letter. -/

namespace AgenticExecution

variable {cfg : Config} {s s' : State} {ev : Event} {tid : TaskId} {trace : List (State × Event)}

/-- No process stops, and no call of a handler raises. -/
def Uninterrupted (_ : State) : Event → Prop
  | .raise .. | .crash _ => False
  | _ => True

instance (s : State) (ev : Event) : Decidable (Uninterrupted s ev) :=
  match ev with
  | .raise .. | .crash _ => inferInstanceAs (Decidable False)
  | .createExecution .. | .run .. | .dequeue | .promoteDue | .recoverStaleTasks | .redeliver _ =>
    inferInstanceAs (Decidable True)

/-- Some handler claimed the task. -/
def WasClaimed (cfg : Config) (tid : TaskId) (trace : List (State × Event)) : Prop :=
  ∃ p ∈ trace, claims cfg tid p = true

/-- The dead letters of the task. -/
def Redis.deadLetters (r : Redis) (tid : TaskId) : Nat := r.dlq.countP fun entry => entry.taskId = tid

/-- The dead letters of the task the handler is about to push. -/
def Pc.deadLetters (tid : TaskId) : Pc → Nat
  | .retryDeadLetter entry _ => if entry.taskId = tid then 1 else 0
  | _ => 0

/-- The dead letters of the task, pushed or about to be. -/
def State.deadLetters (s : State) (tid : TaskId) : Nat :=
  s.redis.deadLetters tid + s.weight (Pc.deadLetters tid)

/-- The handler is between a commit and the Redis write that belongs to it. -/
def Pc.betweenWrites : Pc → Bool
  | .enqueuePlan _ | .schedulePush .. | .retrySchedule .. | .retryDeadLetter .. => true
  | _ => false

/-- The retries of the task are exhausted, with `letters` dead letters for each task. -/
structure Exhausted (cfg : Config) (trace : List (State × Event)) (letters : TaskId → Nat)
    (t : Task) : Prop where
  claimed : WasClaimed cfg t.id trace
  attempts : (t.attempts : Int) = cfg.settings.taskMaxRetries + 1
  letters : letters t.id = 1

/-- The task was skipped after a dependency of it failed. -/
structure Skipped (cfg : Config) (trace : List (State × Event)) (letters : TaskId → Nat) (db : Db)
    (t : Task) : Prop where
  unclaimed : ¬ WasClaimed cfg t.id trace
  attempts : t.attempts = 0
  letters : letters t.id = 0
  dependency : ∃ d ∈ db.tasks, t.DependsOn d ∧ d.status = .failed

theorem wasClaimed_snoc {p : State × Event} :
    WasClaimed cfg tid (trace ++ [p]) ↔ WasClaimed cfg tid trace ∨ claims cfg tid p = true := by
  constructor
  · rintro ⟨q, hq, hc⟩
    rcases List.mem_append.1 hq with hq | hq
    · exact .inl ⟨q, hq, hc⟩
    · obtain rfl := List.mem_singleton.1 hq
      exact .inr hc
  · rintro (⟨q, hq, hc⟩ | hc)
    · exact ⟨q, List.mem_append_left _ hq, hc⟩
    · exact ⟨p, List.mem_append_right _ (List.mem_singleton.2 rfl), hc⟩

/-! ## Dead letters -/

@[simp ↓] theorem ScheduleCaller.resume_deadLetters (k : ScheduleCaller) :
    k.resume.deadLetters tid = 0 :=
  k.observe_resume (Pc.deadLetters tid) rfl fun _ => rfl

@[simp ↓] theorem recoverNext_deadLetters (stale : List Task) (affected : List ExecutionId) :
    (recoverNext stale affected).deadLetters tid = 0 :=
  observe_recoverNext (Pc.deadLetters tid) (fun _ => rfl) (fun _ _ _ _ _ => rfl) stale affected

@[simp ↓] theorem RetryCaller.resume_deadLetters (k : RetryCaller) :
    k.resume.deadLetters tid = 0 :=
  k.observe_resume (Pc.deadLetters tid) (fun _ => rfl) (fun _ => rfl) fun _ _ _ _ _ => rfl

@[simp ↓] theorem finalizeTasks_deadLetters (x : Execution) (k : ScheduleCaller) (tasks : List Task) :
    (finalizeTasks x k tasks).deadLetters tid = 0 :=
  observe_finalizeTasks (Pc.deadLetters tid) rfl (fun _ => rfl) (fun _ _ _ _ _ => rfl)
    (fun _ _ _ => rfl) x k tasks

@[simp] theorem Job.handler_deadLetters (job : Job) : job.handler.deadLetters tid = 0 := by
  cases job <;> rfl

theorem Pc.Moves.deadLetters {o : Oracle} {db : Db} {r : Redis} {pc pc' : Pc} (tid : TaskId)
    (h : pc.Moves cfg o db r pc') : pc.deadLetters tid = 0 ∧ pc'.deadLetters tid = 0 := by
  cases h <;> exact ⟨rfl, by simp [Pc.deadLetters]⟩

/-- Only a commit that fails the task leaves a dead letter of it to push. -/
theorem Pc.Commits.deadLetters_eq_zero {o : Oracle} {db : Db} {pc : Pc} {τ : Txn} {k : Nat → Pc}
    (tid : TaskId) (n : Nat) (h : pc.Commits cfg o db τ k)
    (hno : n ≠ 0 → ∀ attempts error, τ ≠ .updateTask tid (.failTask attempts error)) :
    pc.deadLetters tid = 0 ∧ (k n).deadLetters tid = 0 := by
  cases h with
  | failTask task error k' =>
      refine ⟨rfl, ?_⟩
      by_cases hn : n = 0
      · simp [hn]
      · have hid : task.id ≠ tid := by
          rintro rfl
          exact hno hn _ _ rfl
        simp [hn, Pc.deadLetters, hid]
  | _ => exact ⟨rfl, by simp [Pc.deadLetters, ↓apply_ite (Pc.deadLetters tid)]⟩

/-- The push hands the dead letter over to Redis. -/
theorem Pc.Sends.deadLetters {pc : Pc} {c : Command} {k : Nat → Pc} (tid : TaskId) (r : Redis) (n : Nat)
    (h : pc.Sends c k) : (r.send c).deadLetters tid + (k n).deadLetters tid =
      r.deadLetters tid + pc.deadLetters tid := by
  cases h with
  | retryDeadLetter entry k' =>
      rw [k'.resume_deadLetters]
      simp [Redis.send, Redis.deadLetters, Pc.deadLetters, List.countP_append, List.countP_singleton]
  | _ => simp [Redis.send, Redis.enqueue, Redis.deadLetters, Pc.deadLetters,
      ↓apply_ite (Pc.deadLetters tid)]

/-- What a step does to the task rows and to the dead letters: nothing, or it is a commit. -/
theorem deadLetters_step (hE : Uninterrupted s ev) (hs : s.step cfg ev = some s') :
    (s'.db.tasks = s.db.tasks ∧ ∀ tid, s'.deadLetters tid = s.deadLetters tid) ∨
      ∃ hid o pc τ k, ev = .run hid o ∧ s.handlers[hid]? = some pc ∧ pc.Commits cfg o s.db τ k ∧
        s'.db = s.db.commit o.now τ ∧ ∀ tid, s'.deadLetters tid + pc.deadLetters tid =
          s.deadLetters tid + (k (s.db.rowcount τ)).deadLetters tid := by
  have hspawn : ∀ {pc : Pc}, s'.handlers = s.handlers ++ [pc] → s'.redis.dlq = s.redis.dlq →
      (∀ tid, pc.deadLetters tid = 0) → ∀ tid, s'.deadLetters tid = s.deadLetters tid := by
    intro pc hh hdlq hzero tid
    rw [State.deadLetters, State.weight_spawn _ hh, hzero, Redis.deadLetters, hdlq]
    rfl
  cases State.stepsTo hs with
  | createExecution | promoteDue | recoverStaleTasks =>
      exact .inl ⟨rfl, hspawn rfl rfl fun _ => rfl⟩
  | dequeue job | redeliver job => exact .inl ⟨rfl, hspawn rfl rfl fun _ => job.handler_deadLetters⟩
  | move hid o pc pc' hpc hlive hact =>
      refine .inl ⟨rfl, fun tid => ?_⟩
      obtain ⟨hold, hnew⟩ := (Pc.moves_of_act hact).deadLetters tid
      have := Pool.sum_set (b := pc') (Pc.deadLetters tid) hpc
      simp only [State.deadLetters, State.weight]
      omega
  | commit hid o pc τ k hpc hlive hact =>
      refine .inr ⟨hid, o, pc, τ, k, rfl, hpc, Pc.commits_of_act hact, rfl, fun tid => ?_⟩
      have := Pool.sum_set (b := k (s.db.rowcount τ)) (Pc.deadLetters tid) hpc
      simp only [State.deadLetters, State.weight]
      omega
  | send hid o pc c k hpc hlive hact =>
      refine .inl ⟨rfl, fun tid => ?_⟩
      have hmoved := (Pc.sends_of_act hact).deadLetters tid s.redis (s.redis.reply c)
      have := Pool.sum_set (b := k (s.redis.reply c)) (Pc.deadLetters tid) hpc
      simp only [State.deadLetters, State.weight]
      omega
  | raise | crash => cases hE

/-! ## The copies a retry counts on from -/

/-- The task rows a handler read for `_retry_or_fail`. -/
def Pc.copies : Pc → List Task
  | .retryOrFail task _ k => task :: k.stale
  | .retrySchedule _ _ k | .retryDeadLetter _ k => k.stale
  | _ => []

@[simp] theorem Pc.retryOrFail_copies (task : Task) (error : String) (k : RetryCaller) :
    (Pc.retryOrFail task error k).copies = task :: k.stale := rfl

@[simp] theorem Pc.retrySchedule_copies (nextAt : Time) (k : RetryCaller) :
    (Pc.retrySchedule tid nextAt k).copies = k.stale := rfl

@[simp] theorem Pc.retryDeadLetter_copies (entry : DeadLetter) (k : RetryCaller) :
    (Pc.retryDeadLetter entry k).copies = k.stale := rfl

@[simp ↓] theorem ScheduleCaller.resume_copies (k : ScheduleCaller) : k.resume.copies = [] :=
  k.observe_resume Pc.copies rfl fun _ => rfl

@[simp ↓] theorem recoverNext_copies (stale : List Task) (affected : List ExecutionId) :
    (recoverNext stale affected).copies = stale := by
  cases stale <;> rfl

@[simp ↓] theorem RetryCaller.resume_copies (k : RetryCaller) : k.resume.copies = k.stale := by
  cases k with
  | executeTask => rfl
  | recoverStaleTasks e stale affected => exact recoverNext_copies stale _

@[simp ↓] theorem finalizeTasks_copies (x : Execution) (k : ScheduleCaller) (tasks : List Task) :
    (finalizeTasks x k tasks).copies = [] :=
  observe_finalizeTasks Pc.copies rfl (fun _ => rfl) (fun _ _ _ _ _ => rfl) (fun _ _ _ => rfl) x k
    tasks

@[simp] theorem Job.handler_copies (job : Job) : job.handler.copies = [] := by
  cases job <;> rfl

/-- A copy is a row of the table at the time it is read. -/
theorem Pc.Moves.copies {o : Oracle} {db : Db} {r : Redis} {pc pc' : Pc}
    (h : pc.Moves cfg o db r pc') {t : Task} (ht : t ∈ pc'.copies) :
    t ∈ pc.copies ∨ t ∈ db.tasks := by
  cases h with
  | rollbackFound task error fresh hfind =>
      obtain rfl : t = fresh := by simpa [Pc.copies, RetryCaller.stale] using ht
      exact .inr (Table.find?_eq_some_iff.1 hfind).1
  | recoverSelect =>
      rw [recoverNext_copies, Table.mem_reorder, List.mem_filter] at ht
      exact .inr ht.1
  | _ => simp [Pc.copies] at ht

theorem Pc.Commits.copies {o : Oracle} {db : Db} {pc : Pc} {τ : Txn} {k : Nat → Pc} (n : Nat)
    (h : pc.Commits cfg o db τ k) : (k n).copies ⊆ pc.copies := by
  cases h with
  | retryTask task error k' | failTask task error k' =>
      by_cases hn : n = 0 <;> simp [hn]
  | _ => simp [Pc.copies, ↓apply_ite Pc.copies]

theorem Pc.Sends.copies {pc : Pc} {c : Command} {k : Nat → Pc} (n : Nat) (h : pc.Sends c k) :
    (k n).copies ⊆ pc.copies := by
  cases h <;> simp [Pc.copies, ↓apply_ite Pc.copies]

/-- What the history says about a row. -/
structure Attributed (cfg : Config) (trace : List (State × Event)) (s : State) (t : Task) : Prop where
  budget : t.status ≠ .failed → (t.attempts : Int) ≤ cfg.settings.taskMaxRetries
  letters : t.status ≠ .failed → s.deadLetters t.id = 0
  pending : t.status = .pending → t.attempts = 0 ∧ ¬ WasClaimed cfg t.id trace
  claimed : t.status ≠ .pending → t.status ≠ .failed → WasClaimed cfg t.id trace
  failed : t.status = .failed → Exhausted cfg trace s.deadLetters t ∨
    Skipped cfg trace s.deadLetters s.db t

/-- Every row and every dead letter has its causes in the run so far. -/
structure Causes (cfg : Config) (trace : List (State × Event)) (s : State) : Prop where
  row : ∀ t ∈ s.db.tasks, Attributed cfg trace s t
  noRow : ∀ tid, (∀ t ∈ s.db.tasks, t.id ≠ tid) → s.deadLetters tid = 0 ∧ ¬ WasClaimed cfg tid trace
  copies : ∀ pc ∈ s.handlers, ∀ t ∈ pc.copies, t.status ≠ .failed →
    (t.attempts : Int) ≤ cfg.settings.taskMaxRetries

/-- A row is claimed by a step that takes it from claimable to RUNNING. -/
theorem claims_iff (hs : s.step cfg ev = some s') {t t' : Task} (ht : t ∈ s.db.tasks)
    (ht' : t' ∈ s'.db.tasks) (hid : t'.id = t.id) :
    claims cfg t.id (s, ev) = true ↔ t.status.claimable = true ∧ t'.status = .running := by
  rw [claims, changes_iff hs]
  constructor
  · rintro ⟨⟨u, hu, huid, hst⟩, u', hu', huid', hst'⟩
    obtain rfl := Table.eq_of_key_eq hu ht huid
    obtain rfl := Table.eq_of_key_eq hu' ht' (huid'.trans hid.symm)
    exact ⟨hst, by simpa using hst'⟩
  · rintro ⟨hst, hst'⟩
    exact ⟨⟨t, ht, rfl, hst⟩, t', ht', hid, by simpa using hst'⟩

/-- A row whose status, attempts and dead letters a step leaves alone keeps its attribution. -/
theorem Attributed.keep {t t' : Task} (h : Attributed cfg trace s t) (hle : s.db.Le s'.db)
    (hs : s.step cfg ev = some s') (ht : t ∈ s.db.tasks) (ht' : t' ∈ s'.db.tasks)
    (htt' : Task.Le t t') (hstatus : t'.status = t.status) (hattempts : t'.attempts = t.attempts)
    (hletters : s'.deadLetters t.id = s.deadLetters t.id) :
    Attributed cfg (trace ++ [(s, ev)]) s' t' := by
  have hclaimed : WasClaimed cfg t'.id (trace ++ [(s, ev)]) ↔ WasClaimed cfg t.id trace := by
    rw [wasClaimed_snoc, htt'.id, or_iff_left]
    intro hclaims
    obtain ⟨hst, hst'⟩ := (claims_iff hs ht ht' htt'.id).1 hclaims
    rw [hstatus] at hst'
    simp [hst', TaskStatus.claimable] at hst
  constructor
  case budget => rw [hstatus, hattempts]; exact h.budget
  case letters => rw [hstatus, htt'.id, hletters]; exact h.letters
  case pending => rw [hstatus, hattempts, hclaimed]; exact h.pending
  case claimed => rw [hstatus, hclaimed]; exact h.claimed
  case failed =>
    rw [hstatus]
    intro hfailed
    rcases h.failed hfailed with hex | hskip
    · exact .inl ⟨hclaimed.2 hex.claimed, hattempts ▸ hex.attempts, by rw [htt'.id, hletters, hex.letters]⟩
    · exact .inr ⟨hclaimed.not.2 hskip.unclaimed, hattempts.trans hskip.attempts,
        by rw [htt'.id, hletters, hskip.letters], hle.failed_dependency htt' hskip.dependency⟩

theorem not_wasClaimed_snoc (hs : s.step cfg ev = some s') {t t' : Task} (ht : t ∈ s.db.tasks)
    (ht' : t' ∈ s'.db.tasks) (hid : t'.id = t.id) (hnot : ¬ WasClaimed cfg t.id trace)
    (hst : t'.status ≠ .running) : ¬ WasClaimed cfg t'.id (trace ++ [(s, ev)]) := by
  rw [hid, wasClaimed_snoc]
  rintro (hold | hclaims)
  · exact hnot hold
  · exact hst ((claims_iff hs ht ht' hid).1 hclaims).2

/-- A row that a handler has just updated. -/
theorem Attributed.set {hid : Nat} {o : Oracle} {pc : Pc} {τ : Txn} {k : Nat → Pc} {t : Task}
    {u : TaskUpdate} (h : Attributed cfg trace s t) (hinv : Inv s)
    (hs : s.step cfg (.run hid o) = some s') (hpc : s.handlers[hid]? = some pc)
    (hcommit : pc.Commits cfg o s.db τ k)
    (hcount : ∀ tid, s'.deadLetters tid + pc.deadLetters tid =
      s.deadLetters tid + (k (s.db.rowcount τ)).deadLetters tid)
    (hcopies : ∀ c ∈ pc.copies, c.status ≠ .failed → (c.attempts : Int) ≤ cfg.settings.taskMaxRetries)
    (ht : t ∈ s.db.tasks) (hu : τ.taskUpdate? = some (t.id, u)) (hg : u.guard t = true)
    (ht' : u.set o.now t ∈ s'.db.tasks) :
    Attributed cfg (trace ++ [(s, .run hid o)]) s' (u.set o.now t) := by
  have hle := (hinv.step hs).2
  have htt' : Task.Le t (u.set o.now t) := TaskUpdate.le hg
  -- only the last failure brings a dead letter on the way
  have hsame : (∀ attempts error, u ≠ .failTask attempts error) →
      s'.deadLetters t.id = s.deadLetters t.id := by
    intro hno
    obtain ⟨hold, hnew⟩ := hcommit.deadLetters_eq_zero t.id (s.db.rowcount τ) (by
      rintro - attempts error rfl
      exact hno attempts error (Prod.mk.inj (Option.some.inj hu)).2.symm)
    have := hcount t.id
    omega
  have hold : t.status = .running ∨ t.status = .retrying → WasClaimed cfg t.id trace := by
    intro hst
    exact h.claimed (by rcases hst with hst | hst <;> simp [hst])
      (by rcases hst with hst | hst <;> simp [hst])
  cases hcommit with
  | taskClaim tid =>
      obtain ⟨rfl, rfl⟩ := Prod.mk.inj (Option.some.inj hu)
      have hne : t.status ≠ .failed := by
        intro hst
        simp [TaskUpdate.guard, TaskStatus.claimable, hst] at hg
      have hclaims : WasClaimed cfg t.id (trace ++ [(s, .run hid o)]) :=
        wasClaimed_snoc.2 (.inr ((claims_iff hs ht ht' htt'.id).2 ⟨hg, rfl⟩))
      exact ⟨fun _ => h.budget hne, fun _ => (hsame (by simp)).trans (h.letters hne), by rintro ⟨⟩,
        fun _ _ => hclaims, by rintro ⟨⟩⟩
  | taskStarted | markEnqueued =>
      obtain ⟨-, rfl⟩ := Prod.mk.inj (Option.some.inj hu)
      exact h.keep hle hs ht ht' htt' rfl rfl (hsame (by simp))
  | taskStored | persist | persistUpdate =>
      obtain ⟨-, rfl⟩ := Prod.mk.inj (Option.some.inj hu)
      have hst : t.status = .running ∨ t.status = .retrying := by
        first
          | exact .inl (by simpa [TaskUpdate.guard] using hg)
          | simpa [TaskUpdate.guard] using hg
      have hne : t.status ≠ .failed := by rcases hst with hst | hst <;> simp [hst]
      exact ⟨fun _ => h.budget hne, fun _ => (hsame (by simp)).trans (h.letters hne), by rintro ⟨⟩,
        fun _ _ => wasClaimed_snoc.2 (.inl (hold hst)), by rintro ⟨⟩⟩
  | retryTask task error k' nextAt hbudget hnext =>
      obtain ⟨-, rfl⟩ := Prod.mk.inj (Option.some.inj hu)
      have hst : t.status = .running := by simpa [TaskUpdate.guard] using hg
      exact ⟨fun _ => hbudget, fun _ => (hsame (by simp)).trans (h.letters (by simp [hst])), by rintro ⟨⟩,
        fun _ _ => wasClaimed_snoc.2 (.inl (hold (.inl hst))), by rintro ⟨⟩⟩
  | failTask task error k' hbudget =>
      obtain ⟨hid', rfl⟩ := Prod.mk.inj (Option.some.inj hu)
      have hst : t.status = .running := by simpa [TaskUpdate.guard] using hg
      have hread : s.db.Read task := (hinv.knows _ (List.mem_of_getElem? hpc)).1
      -- `attempts` of the row comes from the handler's copy, which is within the budget
      have hcopy : (task.attempts : Int) ≤ cfg.settings.taskMaxRetries := by
        refine hcopies task (by simp) fun hfailed => ?_
        have := (hread.le_of_mem ht hid'.symm).failed hfailed
        simp [hst] at this
      have hone : s.db.rowcount (.updateTask task.id (.failTask (task.attempts + 1) error)) = 1 :=
        Db.rowcount_updateTask ht hid'.symm hg
      have hletters : s'.deadLetters t.id = 1 := by
        have hcount' := hcount t.id
        rw [h.letters (by simp [hst]), hone] at hcount'
        simpa [Pc.deadLetters, hid'] using hcount'
      refine ⟨fun hne => absurd rfl hne, fun hne => absurd rfl hne, by rintro ⟨⟩, fun _ hne => absurd rfl hne,
        fun _ => .inl ⟨wasClaimed_snoc.2 (.inl (hold (.inl hst))), ?_, hletters⟩⟩
      have hover : ¬ ((task.attempts : Int) + 1 ≤ cfg.settings.taskMaxRetries) := by
        simpa using hbudget
      simp only [TaskUpdate.set, Nat.cast_add, Nat.cast_one]
      omega
  | skipTask e k' seen t₀ rest changed hpending henq hv =>
      obtain ⟨hid', rfl⟩ := Prod.mk.inj (Option.some.inj hu)
      have hst : t.status = .pending := by simpa [TaskUpdate.guard] using hg
      obtain ⟨hzero, hnot⟩ := h.pending hst
      obtain ⟨-, hl, -⟩ := hinv.knows _ (List.mem_of_getElem? hpc)
      obtain ⟨he, hread⟩ := hl.read t₀ (by simp)
      have hskipped := hle.failed_dependency htt'
        (hl.failed_dependency he (hread.le_of_mem ht hid'.symm) hv)
      refine ⟨fun hne => absurd rfl hne, fun hne => absurd rfl hne, by rintro ⟨⟩, fun _ hne => absurd rfl hne,
        fun _ => .inr ⟨not_wasClaimed_snoc hs ht ht' htt'.id hnot (by rintro ⟨⟩), hzero, ?_, hskipped⟩⟩
      exact (hsame (by simp)).trans (h.letters (by simp [hst]))
  | _ => cases hu

/-- The rows after a commit of a handler. -/
theorem Causes.commit (hmax : 0 ≤ cfg.settings.taskMaxRetries) (hinv : Inv s)
    (h : Causes cfg trace s) {hid : Nat} {o : Oracle} {pc : Pc} {τ : Txn} {k : Nat → Pc}
    (hs : s.step cfg (.run hid o) = some s') (hpc : s.handlers[hid]? = some pc)
    (hcommit : pc.Commits cfg o s.db τ k) (hdb : s'.db = s.db.commit o.now τ)
    (hcount : ∀ tid, s'.deadLetters tid + pc.deadLetters tid =
      s.deadLetters tid + (k (s.db.rowcount τ)).deadLetters tid) :
    ∀ t' ∈ s'.db.tasks, Attributed cfg (trace ++ [(s, .run hid o)]) s' t' := by
  have hsame : ∀ {tid}, (∀ attempts error, τ = .updateTask tid (.failTask attempts error) →
      s.db.rowcount τ = 0) → s'.deadLetters tid = s.deadLetters tid := by
    intro tid hno
    obtain ⟨hold, hnew⟩ := hcommit.deadLetters_eq_zero tid (s.db.rowcount τ)
      fun hn attempts error heq => hn (hno attempts error heq)
    have := hcount tid
    omega
  intro t' ht'
  have hmem := ht'
  rw [hdb] at hmem
  rcases Db.mem_commit hmem with ⟨ht, hno⟩ | ⟨t, ht, u, hu, hg, rfl⟩ | ⟨e, plan, i, sub, rfl, -, rfl⟩
  · refine (h.row t' ht).keep (hinv.step hs).2 hs ht ht' (.refl t') rfl rfl (hsame ?_)
    rintro attempts error rfl
    by_contra hn
    obtain ⟨t, ht₀, hid', hg⟩ := Table.rowcount_pos_iff.1 (Nat.pos_of_ne_zero hn)
    obtain rfl := Table.eq_of_key_eq ht₀ ht hid'
    simp [hno _ rfl] at hg
  · exact (h.row t ht).set hinv hs hpc hcommit hcount (h.copies pc (List.mem_of_getElem? hpc)) ht hu
      hg ht'
  · have hfresh : ∀ t ∈ s.db.tasks, t.id ≠ (s.db.plannedTask e o.now i sub).id := fun t ht =>
      (Db.plannedTask_id_ne ht e i sub).symm
    obtain ⟨hletters, hnot⟩ := h.noRow _ hfresh
    refine ⟨fun _ => by simpa [Db.plannedTask] using hmax, fun _ => (hsame nofun).trans hletters,
      fun _ => ⟨rfl, ?_⟩, fun hne => absurd rfl hne, nofun⟩
    rw [wasClaimed_snoc]
    rintro (hold | hclaims)
    · exact hnot hold
    · obtain ⟨⟨t, ht, hid', -⟩, -⟩ := (changes_iff hs).1 hclaims
      exact hfresh t ht hid'

theorem Causes.step (hmax : 0 ≤ cfg.settings.taskMaxRetries) (hinv : Inv s) (h : Causes cfg trace s)
    (hE : Uninterrupted s ev) (hs : s.step cfg ev = some s') :
    Causes cfg (trace ++ [(s, ev)]) s' where
  row := by
    rcases deadLetters_step hE hs with ⟨hdb, hletters⟩ | ⟨hid, o, pc, τ, k, rfl, hpc, hcommit, hdb,
      hcount⟩
    · intro t ht
      have hmem := ht
      rw [hdb] at hmem
      exact (h.row t hmem).keep (hinv.step hs).2 hs hmem ht (.refl t) rfl rfl (hletters t.id)
    · exact h.commit hmax hinv hs hpc hcommit hdb hcount
  noRow := by
    intro tid hno
    have hold : ∀ t ∈ s.db.tasks, t.id ≠ tid := by
      intro t ht hid
      obtain ⟨t', ht', hle⟩ := (hinv.step hs).2.task t ht
      exact hno t' ht' (hle.id.trans hid)
    obtain ⟨hletters, hnot⟩ := h.noRow tid hold
    constructor
    · rcases deadLetters_step hE hs with ⟨-, hsame⟩ | ⟨hid, o, pc, τ, k, rfl, hpc, hcommit, hdb,
        hcount⟩
      · exact (hsame tid).trans hletters
      · obtain ⟨hpush, hnext⟩ := hcommit.deadLetters_eq_zero tid (s.db.rowcount τ) (by
          rintro hn attempts error rfl
          obtain ⟨t, ht, hid', -⟩ := Table.rowcount_pos_iff.1 (Nat.pos_of_ne_zero hn)
          exact hold t ht hid')
        have := hcount tid
        omega
    · rw [wasClaimed_snoc]
      rintro (hpast | hclaims)
      · exact hnot hpast
      · obtain ⟨⟨t, ht, hid, -⟩, -⟩ := (changes_iff hs).1 hclaims
        exact hold t ht hid
  copies := by
    refine State.forall_handlers hs h.copies (fun pc _ hpc => hpc) ?_ ?_ ?_ ?_ ?_ (by simp [Pc.copies])
    · intro pc hstart t ht
      cases hstart with
      | dequeue job | redeliver job => simp at ht
      | createExecution | promoteDue | recoverStaleTasks => cases ht
    · intro hid o pc pc' _ _ hact _ hcopies t ht hne
      rcases (Pc.moves_of_act hact).copies ht with hold | hmem
      · exact hcopies t hold hne
      · exact (h.row t hmem).budget hne
    · intro hid o pc τ k _ _ hcommit _ hcopies t ht
      exact hcopies t (hcommit.copies _ ht)
    · intro hid o pc c k _ _ hsend _ hcopies t ht
      exact hcopies t (hsend.copies _ ht)
    · rintro hid exc pc rfl
      cases hE

theorem causes_run (hmax : 0 ≤ cfg.settings.taskMaxRetries)
    (h : (queueMode cfg).Run Uninterrupted trace s) : Causes cfg trace s := by
  refine Lts.Run.invariant (I := Causes cfg) ?_ ?_ h
  · exact ⟨by simp [queueMode], fun tid _ => ⟨rfl, by simp [WasClaimed]⟩, by simp [queueMode]⟩
  · intro trace s ev s' hrun hi hE hs
    exact hi.step hmax (reachable_inv hrun.reachable) hE hs

/-! ## The cause of a failed execution -/

/-- The rows `_finalize` is about to fail an execution for. -/
def Pc.failing : Pc → Option (List Task)
  | .finalizeFail _ _ tasks => some tasks
  | _ => none

@[simp ↓] theorem ScheduleCaller.resume_failing (k : ScheduleCaller) : k.resume.failing = none :=
  k.observe_resume Pc.failing rfl fun _ => rfl

@[simp ↓] theorem recoverNext_failing (stale : List Task) (affected : List ExecutionId) :
    (recoverNext stale affected).failing = none :=
  observe_recoverNext Pc.failing (fun _ => rfl) (fun _ _ _ _ _ => rfl) stale affected

@[simp ↓] theorem RetryCaller.resume_failing (k : RetryCaller) : k.resume.failing = none :=
  k.observe_resume Pc.failing (fun _ => rfl) (fun _ => rfl) fun _ _ _ _ _ => rfl

theorem finalizeTasks_failing {x : Execution} {k : ScheduleCaller} {tasks tasks' : List Task}
    (h : (finalizeTasks x k tasks).failing = some tasks') : ∃ t ∈ tasks', t.status ≠ .completed := by
  unfold finalizeTasks at h
  split_ifs at h with hempty hopen hall
  · simp at h
  · simp at h
  · cases h
  · obtain rfl := Option.some.inj h
    simpa using hall

/-- `_finalize` only fails an execution for a task that is not COMPLETED. -/
theorem failing_reachable {E : State → Event → Prop} (h : (queueMode cfg).Reachable E s) :
    ∀ pc ∈ s.handlers, ∀ tasks, pc.failing = some tasks → ∃ t ∈ tasks, t.status ≠ .completed := by
  refine h.invariant (I := fun s => ∀ pc ∈ s.handlers, ∀ tasks, pc.failing = some tasks →
    ∃ t ∈ tasks, t.status ≠ .completed) (by simp [queueMode]) ?_
  intro s ev s' _ hi _ hs
  refine State.forall_handlers hs hi (fun pc _ hpc => hpc) ?_ ?_ ?_ ?_ ?_ fun _ hdone => by cases hdone
  · intro pc hstart tasks hfailing
    cases hstart with
    | dequeue job | redeliver job => cases job <;> cases hfailing
    | createExecution | promoteDue | recoverStaleTasks => cases hfailing
  · intro hid o pc pc' _ _ hact _ _ tasks hfailing
    cases Pc.moves_of_act hact with
    | finalizeSelect x k => exact finalizeTasks_failing hfailing
    | _ => simp [Pc.failing] at hfailing
  · intro hid o pc τ k _ _ hcommit _ _ tasks hfailing
    cases hcommit <;> simp [Pc.failing, ↓apply_ite Pc.failing] at hfailing
  · intro hid o pc c k _ _ hsend _ _ tasks hfailing
    cases hsend <;> simp [Pc.failing, ↓apply_ite Pc.failing] at hfailing
  · intro hid exc pc _ _ _ tasks hfailing
    rcases pc.raised_cases exc with hpc | ⟨e, error, hpc⟩ | ⟨task, hpc⟩ <;> rw [hpc] at hfailing <;>
      cases hfailing

/-- A chain of skipped tasks starts at an exhausted one. -/
theorem Causes.root (hinv : Inv s) (h : Causes cfg trace s) {t : Task} (ht : t ∈ s.db.tasks)
    (hfailed : t.status = .failed) : ∃ t' ∈ s.db.tasks, t'.executionId = t.executionId ∧
      t'.status = .failed ∧ Exhausted cfg trace s.deadLetters t' := by
  induction hn : t.orderIndex.toNat using Nat.strong_induction_on generalizing t with
  | _ n ih =>
    rcases (h.row t ht).failed hfailed with hex | hskip
    · exact ⟨t, ht, rfl, hfailed, hex⟩
    · obtain ⟨d, hd, ⟨he, hidx⟩, hds⟩ := hskip.dependency
      have hlt : d.orderIndex.toNat < n := by
        have := (hinv.wellFormed.depends t ht _ hidx).1
        have := hinv.wellFormed.nonneg d hd
        omega
      obtain ⟨t', ht', he', hrest⟩ := ih _ hlt hd hds rfl
      exact ⟨t', ht', he'.trans he, hrest⟩

/-- Without crashes and infrastructure errors, in every state in which no handler is between a commit
    and its Redis write: a FAILED task was claimed and used up its retries, with one dead letter, or it
    was never claimed and a dependency of it is FAILED, with none, and not both; any other task has no
    dead letter; and an execution `_finalize` failed has a task of the first kind. -/
theorem failures_attributed (hmax : 0 ≤ cfg.settings.taskMaxRetries)
    (h : (queueMode cfg).Run Uninterrupted trace s)
    (hwritten : ∀ pc ∈ s.handlers, pc.betweenWrites = false) :
    (∀ t ∈ s.db.tasks,
      (t.status = .failed →
        (Exhausted cfg trace s.redis.deadLetters t ∨ Skipped cfg trace s.redis.deadLetters s.db t) ∧
          ¬ (Exhausted cfg trace s.redis.deadLetters t ∧
            Skipped cfg trace s.redis.deadLetters s.db t)) ∧
      (t.status ≠ .failed → s.redis.deadLetters t.id = 0)) ∧
    ∀ (u : State) (hid : Nat) (o : Oracle) (x : Execution) (k : ScheduleCaller) (tasks : List Task),
      (u, .run hid o) ∈ trace → u.handlers[hid]? = some (.finalizeFail x k tasks) →
        ∃ t ∈ s.db.tasks, t.executionId = x.id ∧ t.status = .failed ∧
          Exhausted cfg trace s.redis.deadLetters t := by
  have hcauses := causes_run hmax h
  have hletters : s.deadLetters = s.redis.deadLetters := by
    funext tid
    have hzero : s.weight (Pc.deadLetters tid) = 0 := by
      by_contra hne
      obtain ⟨pc, hpc, hpos⟩ := Pool.exists_of_sum_pos _ (Nat.pos_of_ne_zero hne)
      have := hwritten pc hpc
      cases pc <;> simp_all [Pc.deadLetters, Pc.betweenWrites]
    rw [State.deadLetters, hzero, Nat.add_zero]
  rw [← hletters]
  refine ⟨fun t ht => ⟨fun hfailed => ⟨(hcauses.row t ht).failed hfailed, ?_⟩,
    (hcauses.row t ht).letters⟩, ?_⟩
  · rintro ⟨hex, hskip⟩
    exact hskip.unclaimed hex.claimed
  · intro u hid o x k tasks hmem hpc
    have hreach := (h.mem_trace hmem).1
    have hpc' := List.mem_of_getElem? hpc
    obtain ⟨-, hl, hfin, -⟩ := (reachable_inv hreach).knows _ hpc'
    obtain ⟨t, ht, hne⟩ := failing_reachable hreach _ hpc' tasks rfl
    have hfailed : t.status = .failed := by
      have := hfin t ht
      cases hst : t.status <;> simp_all [TaskStatus.isTerminal]
    obtain ⟨he, u', hu', hle⟩ := hl.read t ht
    obtain ⟨v, hv, hle'⟩ := (path_le hreach (h.path_of_mem hmem)).task u' hu'
    obtain ⟨t', ht', he', hroot⟩ :=
      hcauses.root (reachable_inv h.reachable) hv (hle'.failed (hle.failed hfailed))
    exact ⟨t', ht', he'.trans (hle'.executionId.trans (hle.executionId.trans he)), hroot⟩

/-- Without retries the first task fails, the second completes, and the third is skipped. -/
def failedCascade : List Event :=
  .createExecution "q" 0 :: runs 0 1 { now := 0 } ++ .dequeue :: runs 1 22 { now := 0 } ++
    .dequeue :: runs 2 25 (raising 0) ++ .dequeue :: runs 3 19 { now := 0 }

theorem failures_attributed_cascade :
    ∃ trace s, (queueMode (fallbackConfig { taskMaxRetries := 0 })).Run Uninterrupted trace s ∧
      s.redis.dlq.length = 1 ∧ s.db.tasks.rows.countP (fun t => t.status = .failed) = 2 ∧
      ∀ t ∈ s.db.tasks, t.status = .failed →
        Exhausted (fallbackConfig { taskMaxRetries := 0 }) trace s.redis.deadLetters t ∨
          Skipped (fallbackConfig { taskMaxRetries := 0 }) trace s.redis.deadLetters s.db t := by
  obtain ⟨trace, s, hrun, hcheck⟩ :=
    (queueMode (fallbackConfig { taskMaxRetries := 0 })).exists_run (E := Uninterrupted)
      (fun s ev => decide (Uninterrupted s ev))
      (fun _ s => s.redis.dlq.length == 1 &&
        s.db.tasks.rows.countP (fun t => t.status = .failed) == 2 &&
        s.handlers.all fun pc => !pc.betweenWrites)
      failedCascade (fun _ _ hE => of_decide_eq_true hE) (by decide +kernel)
  obtain ⟨⟨hdlq, hfailed⟩, hwritten⟩ : (s.redis.dlq.length = 1 ∧
      s.db.tasks.rows.countP (fun t => t.status = .failed) = 2) ∧
        ∀ pc ∈ s.handlers, pc.betweenWrites = false := by
    simpa using hcheck
  exact ⟨trace, s, hrun, hdlq, hfailed, fun t ht hst =>
    (((failures_attributed (by decide) hrun hwritten).1 t ht).1 hst).1⟩

end AgenticExecution
