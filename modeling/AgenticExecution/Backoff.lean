import AgenticExecution.Leases
import AgenticExecution.Outstanding

set_option autoImplicit false

/-! # Backoff

Whether a retry waits for its `next_attempt_at`. Only the delayed set holds a retry back, and
`promote_due` looks at the scores once, for all members, and removes them one by one later. A member
that another promoter has moved in between, and that has failed and been scheduled again since, is then
removed before its time. -/

namespace AgenticExecution

variable {cfg : Config} {s s' : State} {ev : Event} {tid : TaskId} {trace : List (State × Event)}

/-- A job is delivered a second time. -/
def Event.isRedelivery : Event → Bool
  | .redeliver _ => true
  | _ => false

/-- One clock that never goes back, and each job is delivered once. -/
def DeliveredOnce (s : State) (ev : Event) : Prop := OneClock s ev ∧ ev.isRedelivery = false

instance (s : State) (ev : Event) : Decidable (DeliveredOnce s ev) := by
  unfold DeliveredOnce
  infer_instance

theorem DeliveredOnce.ne_redeliver (h : DeliveredOnce s ev) (job : Job) : ev ≠ .redeliver job := by
  rintro rfl
  cases h.2

/-! ## What a promoter read -/

/-- The event schedules a retry of the task. -/
def schedules (tid : TaskId) (p : State × Event) : Bool :=
  match p.2 with
  | .run hid _ =>
    match p.1.live? hid with
    | some (.retrySchedule tid' _ _) => tid' = tid
    | _ => false
  | _ => false

/-- The event is the read of the promoter `hid`. -/
def readsDue (hid : Nat) (p : State × Event) : Bool :=
  match p.2 with
  | .run hid' _ =>
    match p.1.live? hid' with
    | some .promoteSelect => hid' = hid
    | _ => false
  | _ => false

/-- A retry of the task was scheduled after promoter `hid` read the due members. -/
def scheduledSince (tid : TaskId) (hid : Nat) (trace : List (State × Event)) : Bool :=
  trace.foldl (fun b p => if readsDue hid p then false else b || schedules tid p) false

/-- Where the event removes a member from the delayed set, the member is the one its promoter read. -/
def removesRead (trace : List (State × Event)) (s : State) : Event → Bool
  | .run hid _ =>
    match s.live? hid with
    | some (.promoteNext (tid :: _)) =>
      !(s.redis.delayed.find? tid).isSome || !scheduledSince tid hid trace
    | _ => true
  | _ => true

/-- The members the promoter has still to look at. -/
def Pc.due : Pc → List TaskId
  | .promoteNext due | .promotePush _ due => due
  | _ => []

/-- As long as its retry is not scheduled again, the time of a member the promoter read has come. -/
def DueRead (trace : List (State × Event)) (s : State) : Prop :=
  ∀ (hid : Nat) (pc : Pc), s.handlers[hid]? = some pc → ∀ tid ∈ pc.due,
    scheduledSince tid hid trace = false → ∀ entry ∈ s.redis.delayed, entry.1 = tid →
      entry.2 ≤ s.clock

@[simp ↓] theorem ScheduleCaller.resume_due (k : ScheduleCaller) : k.resume.due = [] :=
  k.observe_resume Pc.due rfl fun _ => rfl

@[simp ↓] theorem recoverNext_due (stale : List Task) (affected : List ExecutionId) :
    (recoverNext stale affected).due = [] :=
  observe_recoverNext Pc.due (fun _ => rfl) (fun _ _ _ _ _ => rfl) stale affected

@[simp ↓] theorem RetryCaller.resume_due (k : RetryCaller) : k.resume.due = [] :=
  k.observe_resume Pc.due (fun _ => rfl) (fun _ => rfl) fun _ _ _ _ _ => rfl

@[simp ↓] theorem finalizeTasks_due (x : Execution) (k : ScheduleCaller) (tasks : List Task) :
    (finalizeTasks x k tasks).due = [] :=
  observe_finalizeTasks Pc.due rfl (fun _ => rfl) (fun _ _ _ _ _ => rfl) (fun _ _ _ => rfl) x k tasks

theorem Pc.Commits.due {o : Oracle} {db : Db} {pc : Pc} {τ : Txn} {k : Nat → Pc} (n : Nat)
    (h : pc.Commits cfg o db τ k) : (k n).due = [] := by
  cases h <;> simp [Pc.due, ↓apply_ite Pc.due]

theorem Pc.Sends.due {pc : Pc} {c : Command} {k : Nat → Pc} (n : Nat) (h : pc.Sends c k) :
    (k n).due ⊆ pc.due := by
  cases h <;> simp [Pc.due, ↓apply_ite Pc.due]

/-- A member that was not in the delayed set, or with another score, was scheduled by the event. -/
theorem delayed_step (hs : s.step cfg ev = some s') {entry : TaskId × Time}
    (hentry : entry ∈ s'.redis.delayed) : entry ∈ s.redis.delayed ∨
      ∃ hid o k, ev = .run hid o ∧ s.handlers[hid]? = some (.retrySchedule entry.1 entry.2 k) := by
  cases State.stepsTo hs with
  | send hid o pc c k hpc hlive hact =>
      cases Pc.sends_of_act hact with
      | retrySchedule tid nextAt k' =>
          rcases Table.mem_upsert.1 hentry with ⟨hmem, -⟩ | rfl
          · exact .inl hmem
          · exact .inr ⟨hid, o, k', rfl, hpc⟩
      | promoteNext tid due => exact .inl (Table.mem_erase.1 hentry).1
      | enqueuePlan | schedulePush | retryDeadLetter | promotePush => exact .inl hentry
  | createExecution | dequeue | promoteDue | recoverStaleTasks | move | commit | redeliver | raise
    | crash => exact .inl hentry

theorem scheduledSince_snoc {hid : Nat} (p : State × Event) :
    scheduledSince tid hid (trace ++ [p]) =
      if readsDue hid p then false else scheduledSince tid hid trace || schedules tid p := by
  rw [scheduledSince, List.foldl_append]
  rfl

theorem clock_le (hE : OneClock s ev) (hs : s.step cfg ev = some s') : s.clock ≤ s'.clock := by
  cases State.stepsTo hs with
  | createExecution => exact hE
  | move | commit | send => exact hE.1
  | dequeue | promoteDue | recoverStaleTasks | redeliver | raise | crash => exact le_rfl

theorem clock_of_run {hid : Nat} {o : Oracle} (hs : s.step cfg (.run hid o) = some s') :
    s'.clock = o.now := by
  cases State.stepsTo hs <;> rfl

theorem schedules_of_retry {hid : Nat} {o : Oracle} {nextAt : Time} {k : RetryCaller}
    (hpc : s.handlers[hid]? = some (.retrySchedule tid nextAt k)) :
    schedules tid (s, .run hid o) = true := by
  simp [schedules, State.live?, hpc]

theorem readsDue_iff {hid : Nat} : readsDue hid (s, ev) = true ↔
    ∃ o, ev = .run hid o ∧ s.handlers[hid]? = some .promoteSelect := by
  unfold readsDue
  constructor
  · intro h
    split at h
    · next hid' o hev =>
        split at h
        · next hlive =>
            obtain rfl : hid' = hid := of_decide_eq_true h
            exact ⟨o, hev, (State.live?_eq_some hlive).1⟩
        · cases h
    · cases h
  · rintro ⟨o, rfl, hpc⟩
    simp [State.live?, hpc]

theorem DueRead.step (h : DueRead trace s) (hE : OneClock s ev) (hs : s.step cfg ev = some s') :
    DueRead (trace ++ [(s, ev)]) s' := by
  -- whoever goes on with members it had read knows of every new score
  have hkeep : ∀ (hid : Nat) (pc pc' : Pc), s.handlers[hid]? = some pc → pc'.due ⊆ pc.due →
      ∀ tid ∈ pc'.due, scheduledSince tid hid (trace ++ [(s, ev)]) = false →
        ∀ entry ∈ s'.redis.delayed, entry.1 = tid → entry.2 ≤ s'.clock := by
    rintro hid pc pc' hpc hsub tid htid hsince entry hentry rfl
    have hread : readsDue hid (s, ev) = false := by
      refine Bool.eq_false_iff.2 fun hread => ?_
      obtain ⟨o, -, hselect⟩ := readsDue_iff.1 hread
      obtain rfl := Option.some.inj (hpc.symm.trans hselect)
      cases hsub htid
    rw [scheduledSince_snoc, hread, if_neg nofun, Bool.or_eq_false_iff] at hsince
    rcases delayed_step hs hentry with hold | ⟨hid', o, k, rfl, hretry⟩
    · exact (h hid pc hpc _ (hsub htid) hsince.1 entry hold rfl).trans (clock_le hE hs)
    · rw [schedules_of_retry hretry] at hsince
      cases hsince.2
  refine State.forall_handler hs h (fun hid pc hpc _ => hkeep hid pc pc hpc fun _ => id) ?_ ?_ ?_ ?_ ?_
    nofun
  · intro hid pc hstart tid htid
    cases hstart with
    | dequeue job | redeliver job => cases job <;> cases htid
    | createExecution | promoteDue | recoverStaleTasks => cases htid
  · rintro hid o pc pc' rfl hpc hact - - tid htid hsince entry hentry rfl
    cases Pc.moves_of_act hact with
    | promoteSelect =>
        obtain ⟨read, hread, hkey⟩ := List.mem_map.1 (Table.mem_reorder.1 htid)
        obtain ⟨hmem, hdue⟩ := List.mem_filter.1 hread
        rcases delayed_step hs hentry with hold | ⟨hid', o', k, hev, hretry⟩
        · obtain rfl := Table.eq_of_key_eq hmem hold hkey
          rw [clock_of_run hs]
          exact of_decide_eq_true hdue
        · obtain ⟨rfl, -⟩ := Event.run.inj hev
          cases hpc.symm.trans hretry
    | _ => simp [Pc.due] at htid
  · intro hid o pc τ k _ _ hcommit _ _ tid htid
    rw [hcommit.due] at htid
    cases htid
  · intro hid o pc c k _ hpc hsend _ _
    exact hkeep hid pc _ hpc (hsend.due _)
  · intro hid exc pc _ _ _ tid htid
    rcases pc.raised_cases exc with hpc | ⟨e, error, hpc⟩ | ⟨task, hpc⟩ <;> rw [hpc] at htid <;>
      cases htid

theorem dueRead_run (h : (queueMode cfg).Run DeliveredOnce trace s) : DueRead trace s := by
  refine Lts.Run.invariant (I := DueRead) (by simp [queueMode, DueRead]) ?_ h
  intro trace s ev s' _ hi hE hs
  exact hi.step hE.1 hs

/-! ## The jobs of a retry -/

/-- The retry the handler is about to schedule. -/
def Pc.scheduling? : Pc → Option (TaskId × Time)
  | .retrySchedule tid nextAt _ => some (tid, nextAt)
  | _ => none

/-- The task whose job the handler holds after the delayed set, or before a first run. -/
def Pc.ready? : Pc → Option TaskId
  | .taskProvider tid | .taskGet tid | .taskClaim tid | .schedulePush _ _ _ _ tid
  | .promotePush tid _ => some tid
  | _ => none

/-- The time of the task's retry, if it is one, has come. -/
def State.Due (s : State) (tid : TaskId) : Prop :=
  ∀ t ∈ s.db.tasks, t.id = tid → ∀ nextAt, t.nextAttemptAt = some nextAt → nextAt ≤ s.clock

/-- Where the job of a retry can be: with its time as recorded, or anywhere when that has come. -/
structure HeldBack (s : State) : Prop where
  pending : ∀ t ∈ s.db.tasks, t.status = .pending → t.nextAttemptAt = none
  scheduling : ∀ pc ∈ s.handlers, ∀ tid nextAt, pc.scheduling? = some (tid, nextAt) →
    ∀ t ∈ s.db.tasks, t.id = tid → t.nextAttemptAt = some nextAt
  delayed : ∀ entry ∈ s.redis.delayed, ∀ t ∈ s.db.tasks, t.id = entry.1 →
    t.nextAttemptAt = some entry.2
  queue : ∀ tid, .task tid ∈ s.redis.queue → s.Due tid
  ready : ∀ pc ∈ s.handlers, ∀ tid, pc.ready? = some tid → s.Due tid

section Observe

@[simp ↓] theorem ScheduleCaller.resume_scheduling? (k : ScheduleCaller) :
    k.resume.scheduling? = none :=
  k.observe_resume Pc.scheduling? rfl fun _ => rfl

@[simp ↓] theorem recoverNext_scheduling? (stale : List Task) (affected : List ExecutionId) :
    (recoverNext stale affected).scheduling? = none :=
  observe_recoverNext Pc.scheduling? (fun _ => rfl) (fun _ _ _ _ _ => rfl) stale affected

@[simp ↓] theorem RetryCaller.resume_scheduling? (k : RetryCaller) : k.resume.scheduling? = none :=
  k.observe_resume Pc.scheduling? (fun _ => rfl) (fun _ => rfl) fun _ _ _ _ _ => rfl

@[simp ↓] theorem finalizeTasks_scheduling? (x : Execution) (k : ScheduleCaller)
    (tasks : List Task) : (finalizeTasks x k tasks).scheduling? = none :=
  observe_finalizeTasks Pc.scheduling? rfl (fun _ => rfl) (fun _ _ _ _ _ => rfl) (fun _ _ _ => rfl) x
    k tasks

@[simp ↓] theorem ScheduleCaller.resume_ready? (k : ScheduleCaller) : k.resume.ready? = none :=
  k.observe_resume Pc.ready? rfl fun _ => rfl

@[simp ↓] theorem recoverNext_ready? (stale : List Task) (affected : List ExecutionId) :
    (recoverNext stale affected).ready? = none :=
  observe_recoverNext Pc.ready? (fun _ => rfl) (fun _ _ _ _ _ => rfl) stale affected

@[simp ↓] theorem RetryCaller.resume_ready? (k : RetryCaller) : k.resume.ready? = none :=
  k.observe_resume Pc.ready? (fun _ => rfl) (fun _ => rfl) fun _ _ _ _ _ => rfl

@[simp ↓] theorem finalizeTasks_ready? (x : Execution) (k : ScheduleCaller) (tasks : List Task) :
    (finalizeTasks x k tasks).ready? = none :=
  observe_finalizeTasks Pc.ready? rfl (fun _ => rfl) (fun _ _ _ _ _ => rfl) (fun _ _ _ => rfl) x k
    tasks

end Observe

section Effects

variable {o : Oracle} {db : Db} {r : Redis} {pc pc' : Pc} {τ : Txn} {c : Command} {k : Nat → Pc}

theorem State.Starts.scheduling? (h : s.Starts ev pc) : pc.scheduling? = none := by
  cases h with
  | dequeue job | redeliver job => cases job <;> rfl
  | createExecution | promoteDue | recoverStaleTasks => rfl

theorem Pc.raised_scheduling? (exc : Exn) (pc : Pc) : (pc.raised exc).scheduling? = none := by
  rcases pc.raised_cases exc with h | ⟨e, error, h⟩ | ⟨task, h⟩ <;> rw [h] <;> rfl

theorem Pc.raised_ready? (exc : Exn) (pc : Pc) : (pc.raised exc).ready? = none := by
  rcases pc.raised_cases exc with h | ⟨e, error, h⟩ | ⟨task, h⟩ <;> rw [h] <;> rfl

theorem Pc.Moves.scheduling? (h : pc.Moves cfg o db r pc') : pc'.scheduling? = none := by
  cases h <;> simp [Pc.scheduling?]

theorem Pc.Sends.scheduling? (n : Nat) (h : pc.Sends c k) : (k n).scheduling? = none := by
  cases h <;> simp [Pc.scheduling?, ↓apply_ite Pc.scheduling?]

theorem Pc.Moves.ready? (h : pc.Moves cfg o db r pc') (hready : pc'.ready? = some tid) :
    pc.ready? = some tid := by
  cases h with
  | taskProvider | taskFound => exact hready
  | _ => simp [Pc.ready?] at hready

/-- Only the removal of a member from the delayed set makes its job ready. -/
theorem Pc.Sends.ready? (n : Nat) (h : pc.Sends c k) (hready : (k n).ready? = some tid) :
    ∃ due, pc = .promoteNext (tid :: due) ∧ c = .removeDelayed tid ∧ n = 1 := by
  cases h with
  | promoteNext tid' due =>
      by_cases hn : n = 1
      · obtain rfl : tid' = tid := by simpa [hn, Pc.ready?] using hready
        exact ⟨due, rfl, rfl, hn⟩
      · simp [hn, Pc.ready?] at hready
  | _ => simp [Pc.ready?] at hready

/-- The job of a first run is ready when the task has just been enqueued. -/
theorem Pc.Commits.ready? (n : Nat) (h : pc.Commits cfg o db τ k) (hready : (k n).ready? = some tid) :
    τ = .updateTask tid .markEnqueued ∧ n = 1 := by
  cases h with
  | markEnqueued e k' seen t rest changed =>
      by_cases hn : n = 1
      · obtain rfl : t.id = tid := by simpa [hn, Pc.ready?] using hready
        exact ⟨rfl, hn⟩
      · simp [hn, Pc.ready?] at hready
  | _ => simp [Pc.ready?, ↓apply_ite Pc.ready?] at hready

theorem Pc.Commits.scheduling? {nextAt : Time} (n : Nat) (h : pc.Commits cfg o db τ k)
    (hs : (k n).scheduling? = some (tid, nextAt)) :
    n ≠ 0 ∧ ∃ attempts error, τ = .updateTask tid (.retryTask attempts nextAt error) := by
  cases h with
  | retryTask task error k' nextAt' =>
      by_cases hn : n = 0
      · simp [hn] at hs
      · obtain ⟨rfl, rfl⟩ : task.id = tid ∧ nextAt' = nextAt := by simpa [hn, Pc.scheduling?] using hs
        exact ⟨hn, _, _, rfl⟩
  | _ => simp [Pc.scheduling?, ↓apply_ite Pc.scheduling?] at hs

/-- Only the retry of a RUNNING task writes its `next_attempt_at`. -/
theorem nextAttemptAt_commit {t' : Task} (h : pc.Commits cfg o db τ k)
    (ht' : t' ∈ (db.commit o.now τ).tasks) :
    (∃ t ∈ db.tasks, t.id = t'.id ∧ t.nextAttemptAt = t'.nextAttemptAt ∧
      (t'.status = .pending → t.status = .pending)) ∨
    (t'.nextAttemptAt = none ∧ ∀ t ∈ db.tasks, t.id ≠ t'.id) ∨
    ∃ t ∈ db.tasks, t.id = t'.id ∧ t.status = .running ∧ t'.status ≠ .pending ∧
      ∃ attempts nextAt error, τ = .updateTask t.id (.retryTask attempts nextAt error) ∧
        t'.nextAttemptAt = some nextAt := by
  rcases Db.mem_commit ht' with ⟨hmem, -⟩ | ⟨t, ht, u, hu, hg, rfl⟩ | ⟨e, plan, i, sub, -, -, rfl⟩
  · exact .inl ⟨t', hmem, rfl, rfl, id⟩
  · cases h with
    | retryTask task error k' nextAt =>
        obtain ⟨hid, rfl⟩ := Prod.mk.inj (Option.some.inj hu)
        exact .inr (.inr ⟨t, ht, rfl, by simpa [TaskUpdate.guard] using hg, nofun, _, nextAt, error,
          by rw [hid], rfl⟩)
    | taskClaim | taskStarted | taskStored | persist | persistUpdate | failTask | skipTask
      | markEnqueued =>
        obtain ⟨-, rfl⟩ := Prod.mk.inj (Option.some.inj hu)
        exact .inl ⟨t, ht, (TaskUpdate.set_id _ _ t).symm, rfl, by simp [TaskUpdate.set]⟩
    | _ => cases hu
  · exact .inr (.inl ⟨rfl, fun t ht => (Db.plannedTask_id_ne ht e i sub).symm⟩)

end Effects

/-! ## A retry waits -/

theorem Pc.scheduling_job {pc : Pc} {nextAt : Time} (h : pc.scheduling? = some (tid, nextAt)) :
    pc.job? = some (.task tid) := by
  cases pc with
  | retrySchedule =>
      obtain ⟨rfl, -⟩ := Prod.mk.inj (Option.some.inj h)
      rfl
  | _ => cases h

theorem Pc.ready_job {pc : Pc} (h : pc.ready? = some tid) : pc.job? = some (.task tid) := by
  cases pc with
  | taskProvider | taskGet | taskClaim | schedulePush | promotePush =>
      obtain rfl := Option.some.inj h
      rfl
  | _ => cases h

/-- While somebody is in charge of the task's job, no step writes its `next_attempt_at`. -/
theorem nextAttemptAt_kept (hinv : Inv s) (hmax : WithinMax s) (hs : s.step cfg ev = some s')
    (hc : s.Carried (.job (.task tid))) {t' : Task} (ht' : t' ∈ s'.db.tasks) (hid : t'.id = tid) :
    ∃ t ∈ s.db.tasks, t.id = tid ∧ t.nextAttemptAt = t'.nextAttemptAt := by
  subst hid
  cases State.stepsTo hs with
  | commit hid o pc τ k hpc hlive hact =>
      rcases nextAttemptAt_commit (Pc.commits_of_act hact) ht' with ⟨t, ht, hid, hcol, -⟩ |
        ⟨-, hno⟩ | ⟨t, ht, hid, hrunning, -⟩
      · exact ⟨t, ht, hid, hcol⟩
      · exact absurd hc.outstanding_pos (by rw [hinv.outstanding_eq_zero hno]; exact Nat.lt_irrefl 0)
      · have hzero : t.maxJobs = 0 := by simp [Task.maxJobs, hrunning]
        have := hmax t ht
        rw [hid] at this
        have := hc.outstanding_pos
        omega
  | createExecution | dequeue | promoteDue | recoverStaleTasks | move | send | redeliver | raise
    | crash => exact ⟨t', ht', rfl, rfl⟩

/-- A job in the main queue was there before, or a handler that held it ready pushed it. -/
theorem queue_step (hs : s.step cfg ev = some s') (hq : .task tid ∈ s'.redis.queue) :
    .task tid ∈ s.redis.queue ∨ ∃ pc ∈ s.handlers, pc.ready? = some tid := by
  cases State.stepsTo hs with
  | dequeue job queue hqueue =>
      rw [hqueue]
      exact .inl (List.mem_cons_of_mem _ hq)
  | send hid o pc c k hpc hlive hact =>
      have hpush : ∀ tid', pc.ready? = some tid' → .task tid ∈ s.redis.queue ++ [.task tid'] →
          .task tid ∈ s.redis.queue ∨ ∃ pc ∈ s.handlers, pc.ready? = some tid := by
        intro tid' hready hmem
        rcases List.mem_append.1 hmem with hmem | hnew
        · exact .inl hmem
        · obtain rfl := Job.task.inj (List.mem_singleton.1 hnew)
          exact .inr ⟨pc, List.mem_of_getElem? hpc, hready⟩
      cases Pc.sends_of_act hact with
      | schedulePush e k' seen rest tid' => exact hpush tid' rfl hq
      | promotePush tid' due => exact hpush tid' rfl hq
      | enqueuePlan e =>
          rcases List.mem_append.1 hq with hmem | hnew
          · exact .inl hmem
          · cases List.mem_singleton.1 hnew
      | retrySchedule | retryDeadLetter | promoteNext => exact .inl hq
  | createExecution | promoteDue | recoverStaleTasks | move | commit | redeliver | raise | crash =>
      exact .inl hq

/-- The removal of a member its promoter read comes when the retry is due. -/
theorem HeldBack.removed {hid : Nat} {o : Oracle} {due : List TaskId} (h : HeldBack s)
    (hread : DueRead trace s) (hE : OneClock s (.run hid o))
    (hremove : removesRead trace s (.run hid o) = true)
    (hpc : s.handlers[hid]? = some (.promoteNext (tid :: due)))
    (hmember : (s.redis.delayed.find? tid).isSome = true) {t : Task} (ht : t ∈ s.db.tasks)
    (hid' : t.id = tid) : ∃ nextAt, t.nextAttemptAt = some nextAt ∧ nextAt ≤ o.now := by
  obtain ⟨entry, hentry, rfl⟩ := Table.find?_isSome_iff.1 hmember
  have hsince : scheduledSince entry.1 hid trace = false := by
    simpa [removesRead, State.live?, hpc, hmember] using hremove
  have hdue := hread hid _ hpc entry.1 List.mem_cons_self hsince entry hentry rfl
  exact ⟨entry.2, h.delayed entry hentry t ht hid', hdue.trans hE.1⟩

/-- A retry that is due stays due while the job of its task is somewhere. -/
theorem State.Due.step (hdue : s.Due tid) (hinv : Inv s) (hmax : WithinMax s) (hE : OneClock s ev)
    (hs : s.step cfg ev = some s') (hc : s.Carried (.job (.task tid))) : s'.Due tid := by
  intro t' ht' hid nextAt hnext
  obtain ⟨t, ht, hid, hcol⟩ := nextAttemptAt_kept hinv hmax hs hc ht' hid
  exact (hdue t ht hid nextAt (hcol.trans hnext)).trans (clock_le hE hs)

theorem carried_of_job {pc : Pc} (hpc : pc ∈ s.handlers) (hjob : pc.job? = some (.task tid)) :
    s.Carried (.job (.task tid)) := .inr ⟨pc, hpc, hjob⟩

namespace HeldBack

/-- A PENDING task has no time to wait for. -/
theorem pending_step (h : HeldBack s) (hs : s.step cfg ev = some s') :
    ∀ t ∈ s'.db.tasks, t.status = .pending → t.nextAttemptAt = none := by
  intro t' ht' hpending
  cases State.stepsTo hs with
  | commit hid o pc τ k hpc hlive hact =>
      rcases nextAttemptAt_commit (Pc.commits_of_act hact) ht' with ⟨t, ht, -, hcol, hback⟩ |
        ⟨hnone, -⟩ | ⟨t, -, -, -, hne, -⟩
      · rw [← hcol]
        exact h.pending t ht (hback hpending)
      · exact hnone
      · exact absurd hpending hne
  | createExecution | dequeue | promoteDue | recoverStaleTasks | move | send | redeliver | raise
    | crash => exact h.pending t' ht' hpending

/-- A handler that is about to schedule a retry has just recorded its time. -/
theorem scheduling_step (h : HeldBack s) (hinv : Inv s) (hmax : WithinMax s)
    (hs : s.step cfg ev = some s') : ∀ pc ∈ s'.handlers, ∀ tid nextAt,
      pc.scheduling? = some (tid, nextAt) → ∀ t ∈ s'.db.tasks, t.id = tid →
        t.nextAttemptAt = some nextAt := by
  refine State.forall_handlers hs h.scheduling ?_ ?_ ?_ ?_ ?_ ?_ nofun
  · intro pc hpc hold tid nextAt hsched t' ht' hid
    have hc := carried_of_job hpc (Pc.scheduling_job hsched)
    obtain ⟨t, ht, hid, hcol⟩ := nextAttemptAt_kept hinv hmax hs hc ht' hid
    rw [← hcol]
    exact hold tid nextAt hsched t ht hid
  · intro pc hstart tid nextAt hsched
    rw [hstart.scheduling?] at hsched
    cases hsched
  · intro hid o pc pc' _ _ hact _ _ tid nextAt hsched
    rw [(Pc.moves_of_act hact).scheduling?] at hsched
    cases hsched
  · intro hid o pc τ k _ _ hcommit hdb _ tid nextAt hsched t' ht' hid'
    obtain ⟨hn, attempts, error, rfl⟩ := hcommit.scheduling? _ hsched
    obtain ⟨t, ht, hid, hg⟩ := Table.rowcount_pos_iff.1 (Nat.pos_of_ne_zero hn)
    have hset : _ ∈ (s.db.updateTask o.now tid _).tasks := Db.set_mem_updateTask ht hid hg
    rw [hdb] at ht'
    obtain rfl := Table.eq_of_key_eq ht' hset (hid'.trans hid.symm)
    rfl
  · intro hid o pc c k _ _ hsend _ _ tid nextAt hsched
    rw [hsend.scheduling?] at hsched
    cases hsched
  · intro hid exc pc _ _ _ tid nextAt hsched
    rw [pc.raised_scheduling?] at hsched
    cases hsched

/-- A member of the delayed set has the time its row records. -/
theorem delayed_step (h : HeldBack s) (hinv : Inv s) (hmax : WithinMax s)
    (hs : s.step cfg ev = some s') : ∀ entry ∈ s'.redis.delayed, ∀ t ∈ s'.db.tasks,
      t.id = entry.1 → t.nextAttemptAt = some entry.2 := by
  intro entry hentry t' ht' hid
  rcases AgenticExecution.delayed_step hs hentry with hold | ⟨hid', o, k, -, hpc⟩
  · obtain ⟨t, ht, hid, hcol⟩ :=
      nextAttemptAt_kept hinv hmax hs (.stored (.inr ⟨entry, hold, rfl⟩)) ht' hid
    rw [← hcol]
    exact h.delayed entry hold t ht hid
  · have hmem := List.mem_of_getElem? hpc
    obtain ⟨t, ht, hid, hcol⟩ := nextAttemptAt_kept hinv hmax hs (carried_of_job hmem rfl) ht' hid
    rw [← hcol]
    exact h.scheduling _ hmem entry.1 entry.2 rfl t ht hid

/-- A handler that holds a job ready took it from the queue, from a PENDING task, or from the delayed set
    when its retry was due. -/
theorem ready_step (h : HeldBack s) (hinv : Inv s) (hmax : WithinMax s) (hread : DueRead trace s)
    (hE : DeliveredOnce s ev) (hremove : removesRead trace s ev = true)
    (hs : s.step cfg ev = some s') : ∀ pc ∈ s'.handlers, ∀ tid, pc.ready? = some tid → s'.Due tid := by
  have hready : ∀ {tid pc}, pc ∈ s.handlers → pc.ready? = some tid → s'.Due tid := fun hpc hr =>
    (h.ready _ hpc _ hr).step hinv hmax hE.1 hs (carried_of_job hpc (Pc.ready_job hr))
  refine State.forall_handlers hs h.ready ?_ ?_ ?_ ?_ ?_ ?_ nofun
  · intro pc hpc _ tid hr
    exact hready hpc hr
  · intro pc hstart tid hr
    cases hstart with
    | dequeue job queue hq =>
        cases job with
        | plan e => cases hr
        | task tid' =>
            obtain rfl := Option.some.inj hr
            have hqueue : .task tid' ∈ s.redis.queue := hq ▸ List.mem_cons_self
            exact (h.queue tid' hqueue).step hinv hmax hE.1 hs (.stored (.inl hqueue))
    | redeliver job => exact absurd rfl (hE.ne_redeliver job)
    | createExecution | promoteDue | recoverStaleTasks => cases hr
  · intro hid o pc pc' _ hpc hact _ _ tid hr
    exact hready (List.mem_of_getElem? hpc) ((Pc.moves_of_act hact).ready? hr)
  · -- the pass pushes the first job of a PENDING task
    intro hid o pc τ k _ _ hcommit hdb _ tid hr t' ht' hid' nextAt hnext
    obtain ⟨rfl, hn⟩ := hcommit.ready? _ hr
    obtain ⟨t, ht, hid, hg⟩ := Table.rowcount_eq_one_iff.1 hn
    have hset : _ ∈ (s.db.updateTask o.now tid _).tasks := Db.set_mem_updateTask ht hid hg
    rw [hdb] at ht'
    obtain rfl := Table.eq_of_key_eq ht' hset (hid'.trans hid.symm)
    have hpending := (hinv.wellFormed.rows t ht).fresh (by simpa [TaskUpdate.guard] using hg)
    cases (h.pending t ht hpending).symm.trans hnext
  · -- the promoter removed a member whose time has come
    intro hid o pc c k hev hpc hsend hredis _ tid hr t' ht' hid' nextAt hnext
    obtain ⟨due, rfl, rfl, hn⟩ := hsend.ready? _ hr
    subst hev
    have hmember : (s.redis.delayed.find? tid).isSome = true := by
      by_contra hno
      simp [Redis.reply, hno] at hn
    obtain ⟨entry, hentry, hkey⟩ := Table.find?_isSome_iff.1 hmember
    obtain ⟨t, ht, hid, hcol⟩ :=
      nextAttemptAt_kept hinv hmax hs (.stored (.inr ⟨entry, hentry, hkey⟩)) ht' hid'
    obtain ⟨nextAt', hsome, hle⟩ := h.removed hread hE.1 hremove hpc hmember ht hid
    obtain rfl := Option.some.inj (hsome.symm.trans (hcol.trans hnext))
    rw [clock_of_run hs]
    exact hle
  · intro hid exc pc _ _ _ tid hr
    rw [pc.raised_ready?] at hr
    cases hr

theorem step (h : HeldBack s) (hinv : Inv s) (hmax : WithinMax s) (hread : DueRead trace s)
    (hE : DeliveredOnce s ev) (hremove : removesRead trace s ev = true)
    (hs : s.step cfg ev = some s') : HeldBack s' where
  pending := h.pending_step hs
  scheduling := h.scheduling_step hinv hmax hs
  delayed := h.delayed_step hinv hmax hs
  queue tid hq := by
    rcases queue_step hs hq with hold | ⟨pc, hpc, hr⟩
    · exact (h.queue tid hold).step hinv hmax hE.1 hs (.stored (.inl hold))
    · exact (h.ready pc hpc tid hr).step hinv hmax hE.1 hs (carried_of_job hpc (Pc.ready_job hr))
  ready := h.ready_step hinv hmax hread hE hremove hs

end HeldBack

/-! ## Runs -/

/-- Every removal of the run is of a member its promoter read, and that was not scheduled again since. -/
def RemovesRead (trace : List (State × Event)) : Prop :=
  ∀ pre u ev post, trace = pre ++ (u, ev) :: post → removesRead pre u ev = true

theorem RemovesRead.of_snoc {p : State × Event} (h : RemovesRead (trace ++ [p])) :
    RemovesRead trace := by
  rintro pre u ev post rfl
  exact h pre u ev (post ++ [p]) (by simp)

theorem heldBack_run (h : (queueMode cfg).Run DeliveredOnce trace s) (hremove : RemovesRead trace) :
    HeldBack s := by
  induction h with
  | nil => constructor <;> simp [queueMode]
  | @snoc trace s s' ev hrun hE hs ih =>
      have hmax := reachable_withinMax (fun _ _ hE => hE.ne_redeliver) hrun.reachable
      exact (ih hremove.of_snoc).step (reachable_inv hrun.reachable) hmax (dueRead_run hrun) hE
        (hremove trace s ev [] rfl) hs

/-- The event removes the task's member from the delayed set. -/
def promotes (tid : TaskId) (p : State × Event) : Bool :=
  match p.2 with
  | .run hid _ =>
    match p.1.live? hid with
    | some (.promoteNext (tid' :: _)) => tid' = tid && (p.1.redis.delayed.find? tid).isSome
    | _ => false
  | _ => false

theorem promotes_iff : promotes tid (s, ev) = true ↔
    ∃ hid o due, ev = .run hid o ∧ s.handlers[hid]? = some (.promoteNext (tid :: due)) ∧
      (s.redis.delayed.find? tid).isSome = true := by
  unfold promotes
  constructor
  · intro h
    split at h
    · next hid o hev =>
        split at h
        · next tid' due hlive =>
            rw [Bool.and_eq_true, decide_eq_true_eq] at h
            obtain ⟨rfl, hmember⟩ := h
            exact ⟨hid, o, due, hev, (State.live?_eq_some hlive).1, hmember⟩
        · cases h
    · cases h
  · rintro ⟨hid, o, due, rfl, hpc, hmember⟩
    simp [State.live?, hpc, hmember]

/-- The event happens at `time` or later. -/
def Event.NotBefore (time : Time) : Event → Prop
  | .run _ o => time ≤ o.now
  | _ => False

instance (ev : Event) (time : Time) : Decidable (ev.NotBefore time) :=
  match ev with
  | .run _ o => inferInstanceAs (Decidable (time ≤ o.now))
  | .createExecution .. | .dequeue | .promoteDue | .recoverStaleTasks | .redeliver _ | .raise .. |
    .crash _ => inferInstanceAs (Decidable False)

/-- With one clock, each job delivered once, and whatever calls raise or handlers stop: in a run in
    which no promoter removes a member that was scheduled again after that promoter's read, a retry
    leaves the delayed set, and is claimed, at its `next_attempt_at` or later. -/
theorem backoff_respected (h : (queueMode cfg).Run DeliveredOnce trace s)
    (hremove : RemovesRead trace) :
    ∀ pre u ev post, trace = pre ++ (u, ev) :: post → ∀ t ∈ u.db.tasks,
      (promotes t.id (u, ev) = true →
        ∃ nextAt, t.nextAttemptAt = some nextAt ∧ ev.NotBefore nextAt) ∧
      (claims cfg t.id (u, ev) = true →
        ∀ nextAt, t.nextAttemptAt = some nextAt → ev.NotBefore nextAt) := by
  intro pre u ev post htrace t ht
  obtain ⟨hrun, hE, u', hs⟩ := h.split htrace
  have hpre : RemovesRead pre := by
    rintro pre' v ev' post' rfl
    exact hremove pre' v ev' (post' ++ (u, ev) :: post) (by simp [htrace])
  have hheld := heldBack_run hrun hpre
  constructor
  · intro hpromotes
    obtain ⟨hid, o, due, rfl, hpc, hmember⟩ := promotes_iff.1 hpromotes
    exact hheld.removed (dueRead_run hrun) hE.1 (hremove pre u _ post htrace) hpc hmember ht rfl
  · intro hclaims nextAt hnext
    obtain ⟨hid, o, rfl, hpc⟩ := taskClaim_of_claims hs hclaims
    exact (hheld.ready _ (List.mem_of_getElem? hpc) t.id rfl t ht rfl nextAt hnext).trans hE.1.1

/-- A retry that is scheduled, promoted and claimed once. -/
def retrySchedule : List Event :=
  .createExecution "q" 0 :: runs 0 1 { now := 0 } ++ .dequeue :: runs 1 16 { now := 0 } ++
    .dequeue :: runs 2 13 (raising 0) ++ .promoteDue :: runs 3 3 { now := 1 } ++
    .dequeue :: runs 4 3 { now := 1 }

theorem backoff_respected_retry :
    ∃ trace s, (queueMode (fallbackConfig (singleTask 2))).Run DeliveredOnce trace s ∧
      ∃ p ∈ trace, ∃ t ∈ p.1.db.tasks, promotes t.id p = true ∧
        ∃ nextAt, t.nextAttemptAt = some nextAt ∧ p.2.NotBefore nextAt := by
  obtain ⟨trace, s, hrun, hcheck⟩ := (queueMode (fallbackConfig (singleTask 2))).exists_run
    (E := DeliveredOnce) (fun s ev => decide (DeliveredOnce s ev))
    (fun trace _ => Lts.everyStep removesRead trace &&
      trace.any fun p => p.1.db.tasks.rows.any fun t => promotes t.id p)
    retrySchedule (fun _ _ hE => of_decide_eq_true hE) (by decide +kernel)
  obtain ⟨hremove, hany⟩ := Bool.and_eq_true_iff.1 hcheck
  obtain ⟨⟨u, ev⟩, hmem, hrow⟩ := List.any_eq_true.1 hany
  obtain ⟨t, ht, hpromotes⟩ := List.any_eq_true.1 hrow
  obtain ⟨pre, post, htrace⟩ := List.append_of_mem hmem
  exact ⟨trace, s, hrun, _, hmem, t, ht, hpromotes,
    (backoff_respected hrun (Lts.everyStep_split hremove) pre u ev post htrace t ht).1 hpromotes⟩

/-- Promoter 3 reads the due member; promoter 4 moves it, and its task fails and is scheduled again
    before promoter 3 removes the member. -/
def rescheduledMember : List Event :=
  .createExecution "q" 0 :: runs 0 1 { now := 0 } ++ .dequeue :: runs 1 16 { now := 0 } ++
    .dequeue :: runs 2 13 (raising 0) ++ [.promoteDue, .run 3 { now := 1 }, .promoteDue] ++
    runs 4 3 { now := 1 } ++ .dequeue :: runs 5 13 (raising 1) ++ runs 3 2 { now := 1 } ++
    .dequeue :: runs 6 3 { now := 1 }

/-- The event happens to a task before its `next_attempt_at`. -/
def early (happens : TaskId → State × Event → Bool) (p : State × Event) : Bool :=
  p.1.db.tasks.rows.any fun t =>
    happens t.id p && t.nextAttemptAt.any fun nextAt => !decide (p.2.NotBefore nextAt)

theorem of_early {happens : TaskId → State × Event → Bool} (h : trace.any (early happens) = true) :
    ∃ p ∈ trace, ∃ t ∈ p.1.db.tasks, happens t.id p = true ∧
      ∃ nextAt, t.nextAttemptAt = some nextAt ∧ ¬ p.2.NotBefore nextAt := by
  obtain ⟨p, hp, hrow⟩ := List.any_eq_true.1 h
  obtain ⟨t, ht, hcond⟩ := List.any_eq_true.1 hrow
  obtain ⟨hhappens, hnext⟩ := Bool.and_eq_true_iff.1 hcond
  obtain ⟨nextAt, hsome, hlate⟩ := (Option.any_eq_true _ _).1 hnext
  exact ⟨p, hp, t, ht, hhappens, nextAt, hsome, by simpa using hlate⟩

/-- A retry can leave the delayed set, and be claimed, before its time. -/
theorem backoff_cut_short :
    ∃ trace s, (queueMode (fallbackConfig (singleTask 2))).Run DeliveredOnce trace s ∧
      (∃ p ∈ trace, ∃ t ∈ p.1.db.tasks, promotes t.id p = true ∧
        ∃ nextAt, t.nextAttemptAt = some nextAt ∧ ¬ p.2.NotBefore nextAt) ∧
      ∃ p ∈ trace, ∃ t ∈ p.1.db.tasks, claims (fallbackConfig (singleTask 2)) t.id p = true ∧
        ∃ nextAt, t.nextAttemptAt = some nextAt ∧ ¬ p.2.NotBefore nextAt := by
  obtain ⟨trace, s, hrun, hcheck⟩ := (queueMode (fallbackConfig (singleTask 2))).exists_run
    (E := DeliveredOnce) (fun s ev => decide (DeliveredOnce s ev))
    (fun trace _ => trace.any (early promotes) &&
      trace.any (early (claims (fallbackConfig (singleTask 2)))))
    rescheduledMember (fun _ _ hE => of_decide_eq_true hE) (by decide +kernel)
  obtain ⟨hpromotes, hclaims⟩ := Bool.and_eq_true_iff.1 hcheck
  exact ⟨trace, s, hrun, of_early hpromotes, of_early hclaims⟩

end AgenticExecution
