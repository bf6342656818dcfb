import AgenticExecution.DeadLetters
import AgenticExecution.FleetRefinement

set_option autoImplicit false

/-! # What the dead-letter queue says

Whatever raises or stops, an entry of the dead-letter queue is an account of a task as it ended: the row
is FAILED, with the attempts and the error of the entry, and it stays so. A task has one entry at most,
because only the update that fails it leaves one to push. -/

namespace AgenticExecution

variable {cfg : Config} {s s' : State} {ev : Event} {tid : TaskId}

/-- The row is the task the entry tells of, as the entry tells it. -/
structure DeadLetter.Tells (entry : DeadLetter) (t : Task) : Prop where
  taskId : t.id = entry.taskId
  executionId : t.executionId = entry.executionId
  agentType : t.agentType = entry.agentType
  failed : t.status = .failed
  attempts : t.attempts = entry.attempts
  error : t.error = some entry.error

/-- The entry tells of a stored row whose retries are exhausted. -/
def DeadLetter.Holds (cfg : Config) (db : Db) (entry : DeadLetter) : Prop :=
  cfg.settings.taskMaxRetries < entry.attempts ∧ ∃ t ∈ db.tasks, entry.Tells t

/-! ## Failed rows -/

/-- No update changes how a task failed. -/
theorem DeadLetter.Tells.set {entry : DeadLetter} {t : Task} (h : entry.Tells t) {now : Time}
    {u : TaskUpdate} (hg : u.guard t = true) : entry.Tells (u.set now t) := by
  have hs := h.failed
  cases u with
  | markStarted | markEnqueued => exact ⟨h.taskId, h.executionId, h.agentType, hs, h.attempts, h.error⟩
  | claimTask | skipTask | retryTask | failTask | completeStored | completeTask =>
      simp [TaskUpdate.guard, TaskStatus.claimable, hs] at hg

theorem DeadLetter.Holds.commit {entry : DeadLetter} {db : Db} (h : entry.Holds cfg db) (now : Time)
    (τ : Txn) : entry.Holds cfg (db.commit now τ) := by
  obtain ⟨hattempts, t, ht, htells⟩ := h
  have hupdate : ∀ {db' : Db} (tid : TaskId) (u : TaskUpdate), db'.tasks = db.tasks →
      ∃ t' ∈ (db'.updateTask now tid u).tasks, entry.Tells t' := by
    intro db' tid u hdb
    refine ⟨_, Db.mem_updateTask.2 ⟨t, hdb ▸ ht, rfl⟩, ?_⟩
    split
    · next hg => exact htells.set hg.2
    · exact htells
  refine ⟨hattempts, ?_⟩
  cases τ with
  | updateExecution => exact ⟨t, ht, htells⟩
  | updateTask tid u => exact hupdate tid u rfl
  | insertTasks e plan => exact ⟨t, Db.mem_insertTasks.2 (.inl ht), htells⟩
  | persistSuccess tid output stamp metrics => exact hupdate tid _ rfl

/-- The failing update leaves the row its dead letter tells of. -/
theorem holds_of_failTask {o : Oracle} {db : Db} {task : Task} {error : String}
    (hread : db.Read task) (hbudget : ¬ (task.attempts + 1 : Nat) ≤ cfg.settings.taskMaxRetries)
    (hn : db.rowcount (.updateTask task.id (.failTask (task.attempts + 1) error)) ≠ 0) :
    DeadLetter.Holds cfg (db.commit o.now (.updateTask task.id (.failTask (task.attempts + 1) error)))
      { taskId := task.id
        executionId := task.executionId
        agentType := task.agentType
        attempts := task.attempts + 1
        error := error
        failedAt := o.now } := by
  obtain ⟨t, ht, hid, hg⟩ := Table.rowcount_pos_iff.1 (Nat.pos_of_ne_zero hn)
  have hle := hread.le_of_mem ht hid
  refine ⟨not_le.1 hbudget, _, Db.set_mem_updateTask ht hid hg, ?_⟩
  exact ⟨hid, hle.executionId, hle.agentType, rfl, rfl, rfl⟩

/-! ## The invariant -/

/-- What the dead letters of a state say. -/
structure Truthful (cfg : Config) (s : State) : Prop where
  pushed : ∀ entry ∈ s.redis.dlq, entry.Holds cfg s.db
  pending : ∀ pc ∈ s.handlers, ∀ entry k, pc = .retryDeadLetter entry k → entry.Holds cfg s.db
  one : ∀ tid, s.deadLetters tid ≤ 1

/-- A dead letter, pushed or not, is one of a FAILED row. -/
theorem Truthful.failed (h : Truthful cfg s) (hpos : 0 < s.deadLetters tid) :
    ∃ t ∈ s.db.tasks, t.id = tid ∧ t.status = .failed := by
  have hrow : ∀ {entry : DeadLetter}, entry.taskId = tid → entry.Holds cfg s.db →
      ∃ t ∈ s.db.tasks, t.id = tid ∧ t.status = .failed := by
    rintro entry rfl ⟨-, t, ht, htells⟩
    exact ⟨t, ht, htells.taskId, htells.failed⟩
  by_cases hdlq : 0 < s.redis.deadLetters tid
  · obtain ⟨entry, hentry, hid⟩ := List.countP_pos_iff.1 hdlq
    exact hrow (of_decide_eq_true hid) (h.pushed entry hentry)
  · have hweight : 0 < s.weight (Pc.deadLetters tid) := by
      rw [State.deadLetters] at hpos
      omega
    obtain ⟨pc, hpc, hheld⟩ := Pool.exists_of_sum_pos _ hweight
    cases pc with
    | retryDeadLetter entry k =>
        have hid : entry.taskId = tid := by
          by_contra hne
          simp [Pc.deadLetters, hne] at hheld
        exact hrow hid (h.pending _ hpc entry k rfl)
    | _ => simp [Pc.deadLetters] at hheld

/-! ## Steps -/

theorem step_db (hs : s.step cfg ev = some s') :
    (∃ now τ, s'.db = s.db.commit now τ) ∨ s'.db.tasks = s.db.tasks := by
  cases State.stepsTo hs with
  | commit hid o pc τ k => exact .inl ⟨o.now, τ, rfl⟩
  | createExecution | dequeue | promoteDue | recoverStaleTasks | move | send | redeliver | raise
    | crash => exact .inr rfl

theorem DeadLetter.Holds.step {entry : DeadLetter} (h : entry.Holds cfg s.db)
    (hs : s.step cfg ev = some s') : entry.Holds cfg s'.db := by
  rcases step_db hs with ⟨now, τ, hdb⟩ | htasks
  · exact hdb ▸ h.commit now τ
  · rw [DeadLetter.Holds, htasks]
    exact h

/-- A dead letter is pushed by the handler that holds it. -/
theorem dlq_step (hs : s.step cfg ev = some s') {entry : DeadLetter} (hentry : entry ∈ s'.redis.dlq) :
    entry ∈ s.redis.dlq ∨ ∃ pc ∈ s.handlers, ∃ k, pc = .retryDeadLetter entry k := by
  cases State.stepsTo hs with
  | send hid o pc c k hpc hlive hact =>
      cases Pc.sends_of_act hact with
      | retryDeadLetter entry' k' =>
          rcases List.mem_append.1 hentry with hold | hnew
          · exact .inl hold
          · obtain rfl := List.mem_singleton.1 hnew
            exact .inr ⟨_, List.mem_of_getElem? hpc, k', rfl⟩
      | _ => exact .inl hentry
  | createExecution | dequeue | promoteDue | recoverStaleTasks | move | commit | redeliver | raise
    | crash => exact .inl hentry

theorem Pc.raised_deadLetters (exc : Exn) (pc : Pc) : (pc.raised exc).deadLetters tid = 0 := by
  rcases pc.raised_cases exc with h | ⟨e, error, h⟩ | ⟨task, h⟩ <;> rw [h] <;> rfl

/-- Whatever the event: the rows stay and no dead letter is added, or it is a commit. -/
theorem deadLetters_any_step (hs : s.step cfg ev = some s') :
    (∀ tid, s'.deadLetters tid ≤ s.deadLetters tid) ∨
      ∃ hid o pc τ k, ev = .run hid o ∧ s.handlers[hid]? = some pc ∧ pc.Commits cfg o s.db τ k ∧
        s'.db = s.db.commit o.now τ ∧ ∀ tid, s'.deadLetters tid + pc.deadLetters tid =
          s.deadLetters tid + (k (s.db.rowcount τ)).deadLetters tid := by
  have hset : ∀ {hid : Nat} {pc pc' : Pc}, s.handlers[hid]? = some pc →
      s' = { s with handlers := s.handlers.set hid pc' } → (∀ tid, pc'.deadLetters tid = 0) →
        ∀ tid, s'.deadLetters tid ≤ s.deadLetters tid := by
    rintro hid pc pc' hpc rfl hzero tid
    have hsum := Pool.sum_set (b := pc') (Pc.deadLetters tid) hpc
    have := hzero tid
    simp only [State.deadLetters, State.weight]
    omega
  by_cases hquiet : Uninterrupted s ev
  · rcases deadLetters_step hquiet hs with ⟨-, heq⟩ | hcommit
    · exact .inl fun tid => Nat.le_of_eq (heq tid)
    · exact .inr hcommit
  · cases State.stepsTo hs with
    | raise hid exc pc hpc hlive => exact .inl (hset hpc rfl fun tid => pc.raised_deadLetters exc)
    | crash hid pc hpc hlive => exact .inl (hset hpc rfl fun tid => rfl)
    | createExecution | dequeue | promoteDue | recoverStaleTasks | move | commit | send | redeliver =>
        exact absurd trivial hquiet

/-- Only the update that fails the task adds a dead letter of it, and then there was none. -/
theorem Truthful.one_step (h : Truthful cfg s) (hs : s.step cfg ev = some s') :
    ∀ tid, s'.deadLetters tid ≤ 1 := by
  intro tid
  have hone := h.one tid
  rcases deadLetters_any_step hs with hle | ⟨hid, o, pc, τ, k, -, -, hcommit, -, hsum⟩
  · exact Nat.le_trans (hle tid) hone
  · have hsum := hsum tid
    by_cases hfail : ∃ attempts error, τ = .updateTask tid (.failTask attempts error) ∧ s.db.rowcount τ ≠ 0
    · obtain ⟨attempts, error, rfl, hn⟩ := hfail
      obtain ⟨t, ht, hid', hg⟩ := Table.rowcount_pos_iff.1 (Nat.pos_of_ne_zero hn)
      have hrunning : t.status = .running := by simpa [TaskUpdate.guard] using hg
      have hnone : s.deadLetters tid = 0 := by
        by_contra hpos
        obtain ⟨t', ht', hid'', hfailed⟩ := h.failed (Nat.pos_of_ne_zero hpos)
        obtain rfl := Table.eq_of_key_eq ht ht' (hid'.trans hid''.symm)
        rw [hrunning] at hfailed
        cases hfailed
      have hle : (k (s.db.rowcount (.updateTask tid (.failTask attempts error)))).deadLetters tid ≤ 1 := by
        unfold Pc.deadLetters
        split
        · split <;> omega
        · omega
      omega
    · have hzero := hcommit.deadLetters_eq_zero tid (s.db.rowcount τ)
        fun hn attempts error heq => hfail ⟨attempts, error, heq, hn⟩
      omega

theorem Truthful.pending_step (hinv : Inv s) (h : Truthful cfg s) (hs : s.step cfg ev = some s') :
    ∀ pc ∈ s'.handlers, ∀ entry k, pc = .retryDeadLetter entry k → entry.Holds cfg s'.db := by
  have hzero : ∀ {pc : Pc}, (∀ tid, pc.deadLetters tid = 0) → ∀ entry k, pc ≠ .retryDeadLetter entry k := by
    rintro pc hz entry k rfl
    simpa [Pc.deadLetters] using hz entry.taskId
  refine State.forall_handlers (P := fun pc => ∀ entry k, pc = .retryDeadLetter entry k →
    entry.Holds cfg s.db) hs h.pending ?_ ?_ ?_ ?_ ?_ ?_ fun _ _ hdone => by cases hdone
  · intro pc _ hheld entry k heq
    exact (hheld entry k heq).step hs
  · intro pc hstart entry k heq
    refine absurd heq (hzero (fun tid => ?_) entry k)
    cases hstart with
    | dequeue job | redeliver job => exact job.handler_deadLetters
    | createExecution | promoteDue | recoverStaleTasks => rfl
  · intro hid o pc pc' _ _ hact _ _ entry k heq
    exact absurd heq (hzero (fun tid => ((Pc.moves_of_act hact).deadLetters tid).2) entry k)
  · intro hid o pc τ k _ hpc hcommit hdb _ entry k' heq
    cases hcommit with
    | failTask task error k'' hbudget =>
        dsimp only at heq
        by_cases hn : s.db.rowcount (.updateTask task.id (.failTask (task.attempts + 1) error)) = 0
        · rw [if_neg (not_not.2 hn)] at heq
          exact absurd heq (hzero (fun tid => by simp) entry k')
        · rw [if_pos hn] at heq
          obtain ⟨rfl, -⟩ := Pc.retryDeadLetter.inj heq
          have hread : s.db.Read task := (hinv.knows _ (List.mem_of_getElem? hpc)).1
          exact hdb ▸ holds_of_failTask hread hbudget hn
    | _ =>
        refine absurd heq (hzero (fun tid => ?_) entry k')
        simp [Pc.deadLetters, ↓apply_ite (Pc.deadLetters tid)]
  · intro hid o pc c k _ _ hsend _ _ entry k' heq
    refine absurd heq (hzero (fun tid => ?_) entry k')
    cases hsend <;> simp [Pc.deadLetters, ↓apply_ite (Pc.deadLetters tid)]
  · intro hid exc pc _ _ _ entry k heq
    exact absurd heq (hzero (fun tid => pc.raised_deadLetters exc) entry k)

theorem Truthful.step (hinv : Inv s) (h : Truthful cfg s) (hs : s.step cfg ev = some s') :
    Truthful cfg s' where
  pushed entry hentry := by
    rcases dlq_step hs hentry with hold | ⟨pc, hpc, k, heq⟩
    · exact (h.pushed entry hold).step hs
    · exact (h.pending pc hpc entry k heq).step hs
  pending := h.pending_step hinv hs
  one := h.one_step hs

theorem reachable_truthful {E : State → Event → Prop} (h : (queueMode cfg).Reachable E s) :
    Truthful cfg s := by
  refine h.invariant ⟨?_, ?_, ?_⟩ fun s ev s' hr hi _ hs => hi.step (reachable_inv hr) hs
  · simp [queueMode]
  · simp [queueMode]
  · simp [queueMode, State.deadLetters, State.weight, Redis.deadLetters]

theorem Truthful.nodup (h : Truthful cfg s) : (s.redis.dlq.map DeadLetter.taskId).Nodup := by
  refine List.nodup_iff_count_le_one.2 fun tid => ?_
  have hone := h.one tid
  have hcount : (s.redis.dlq.map DeadLetter.taskId).count tid = s.redis.deadLetters tid := by
    rw [List.count, List.countP_map, Redis.deadLetters]
    exact List.countP_congr fun entry _ => by simp
  rw [State.deadLetters] at hone
  omega

/-- In every run, with stops, raised calls, expired leases and repeated deliveries: no task has two
    dead letters, and an entry of the queue tells, from then on, of a FAILED row with its attempts and
    its error, and more attempts than `task_max_retries` allows. -/
theorem dead_letters_true {E : State → Event → Prop} (h : (queueMode cfg).Reachable E s)
    (hp : (queueMode cfg).Path E s s') :
    (s.redis.dlq.map DeadLetter.taskId).Nodup ∧
      ∀ entry ∈ s.redis.dlq, cfg.settings.taskMaxRetries < entry.attempts ∧
        ∃ t ∈ s'.db.tasks, entry.Tells t := by
  have htrue := reachable_truthful h
  refine ⟨htrue.nodup, fun entry hentry => ?_⟩
  exact h.stable (R := fun _ u => entry.Holds cfg u.db) (htrue.pushed entry hentry)
    (fun u ev u' _ hu _ hs => hu.step hs) hp

/-- The agent raises and there are no retries; then the job is delivered again and a handler stops. -/
def deadLetterSchedule : List Event :=
  .createExecution "q" 0 :: runs 0 1 { now := 0 } ++ .dequeue :: runs 1 16 { now := 0 } ++
    .dequeue :: runs 2 13 (raising 0) ++ [.redeliver (.task 1), .crash 3]

theorem dead_letters_true_failure :
    ∃ s, (queueMode (fallbackConfig (singleTask 0))).Reachable anyEvent s ∧
      s.redis.dlq.map DeadLetter.taskId = [1] ∧
      (s.redis.dlq.map DeadLetter.taskId).Nodup ∧ ∀ entry ∈ s.redis.dlq, (0 : Int) < entry.attempts ∧
        ∃ t ∈ s.db.tasks, entry.Tells t := by
  obtain ⟨s, hreach, hcheck⟩ := (queueMode (fallbackConfig (singleTask 0))).exists_reachable
    (E := anyEvent) (fun _ _ => true) (fun s => s.redis.dlq.map DeadLetter.taskId = [1])
    deadLetterSchedule (by simp [anyEvent]) (by decide +kernel)
  exact ⟨s, hreach, by simpa using hcheck, dead_letters_true hreach .refl⟩

/-! ## The list of dead letters -/

theorem Wire.lrange_last {α : Type} (l : List α) {limit : Nat} (hlimit : 0 < limit) :
    lrange l (-limit) (-1) = l.drop (l.length - limit) := by
  have hneg : -(limit : Int) < 0 := by omega
  have hfirst : (max 0 (-(limit : Int) + l.length)).toNat = l.length - limit := by omega
  simp only [lrange, if_pos hneg, if_pos (show (-1 : Int) < 0 by decide), hfirst]
  exact List.take_of_length_le (by rw [List.length_drop]; omega)

/-- Every entry the program pushed is read back. -/
theorem loads_deadLetter (codec : Codec cfg.python) (entry : DeadLetter) :
    cfg.python.loads (codec.dumps (entry.payload codec)) = some (entry.payload codec) :=
  codec.loads_dumps _ (by simp) (by simp [Json.isScalar])

/-- In every run of the worker processes, `dead_letter_entries(limit)` lists the newest `limit` dead
    letters, newest first and none skipped, no two of one task, each of a FAILED row with its attempts and
    its error. -/
theorem dead_letter_entries_true {codec : Codec cfg.python} {f : Fleet} {stops repeats : Prop}
    (h : (fleet cfg codec).Reachable (Fleet.Allows stops repeats) f) {limit : Nat} (hlimit : 0 < limit) :
    ∃ entries : List DeadLetter,
      (f.redis.dlq = entries.map fun entry => codec.dumps (entry.payload codec)) ∧
      (entries.map DeadLetter.taskId).Nodup ∧
      f.redis.deadLetterEntries cfg.python limit =
        (entries.reverse.take limit).map (DeadLetter.payload codec) ∧
      ∀ entry ∈ entries, cfg.settings.taskMaxRetries < entry.attempts ∧
        ∃ t ∈ f.db.tasks, entry.Tells t := by
  obtain ⟨s, hs, hR, -⟩ := (fleet_simulation cfg codec stops repeats).reachable h
  have htrue := reachable_truthful hs
  have hread : ∀ l : List DeadLetter,
      (l.map fun entry => codec.dumps (entry.payload codec)).filterMap cfg.python.loads =
        l.map (DeadLetter.payload codec) := by
    intro l
    rw [List.filterMap_map, ← List.filterMap_eq_map]
    exact List.filterMap_congr fun entry _ => loads_deadLetter codec entry
  refine ⟨s.redis.dlq, hR.dlq, htrue.nodup, ?_, fun entry hentry => hR.db ▸ htrue.pushed entry hentry⟩
  rw [Wire.deadLetterEntries, Wire.lrange_last _ hlimit, hR.dlq, List.length_map, ← List.map_drop, hread,
    List.take_reverse, List.map_reverse]

/-- The one attempt of each of two tasks fails, and the newer dead letter is listed. -/
theorem dead_letter_entries_true_failure :
    ∃ f, (fleet (flatConfig (singleTask 0)) flatCodec).Reachable (Fleet.Allows True True) f ∧
      ∃ older newer : DeadLetter, older.taskId ≠ newer.taskId ∧
        f.redis.dlq =
          [flatDumps (older.payload flatCodec), flatDumps (newer.payload flatCodec)] ∧
        f.redis.deadLetterEntries flatPython 1 = [newer.payload flatCodec] ∧
        ∃ t ∈ f.db.tasks, newer.Tells t := by
  obtain ⟨f, hreach, hcheck⟩ := (fleet (flatConfig (singleTask 0)) flatCodec).exists_reachable
    (E := Fleet.Allows True True) (fun _ _ => true) (fun f => f.redis.dlq.length = 2)
    ([.startWorker 0, .createExecution "q" 0, .request 0 { now := 0 }, .createExecution "r" 0,
      .request 1 { now := 0 }] ++ turns 0 80 (raising 0))
    (fun _ _ _ => ⟨fun _ => trivial, fun _ => trivial⟩) (by decide +kernel)
  have htwo : f.redis.dlq.length = 2 := by simpa using hcheck
  obtain ⟨entries, hdlq, hnodup, hlist, htrue⟩ := dead_letter_entries_true hreach (show 0 < 1 by decide)
  rw [hdlq, List.length_map] at htwo
  obtain ⟨older, newer, rfl⟩ := List.length_eq_two.1 htwo
  have hne : older.taskId ≠ newer.taskId := by simpa using hnodup
  exact ⟨f, hreach, older, newer, hne, hdlq, hlist, (htrue newer (by simp)).2⟩

end AgenticExecution
