import AgenticExecution.Machine
import AgenticExecution.WellFormed

set_option autoImplicit false

/-! # What a handler knows

`Pc.Knows db pc` is the invariant of one handler: what its locals say about the database. It only
contains facts that persist (`Pc.Knows.mono`), so the steps of other handlers never touch it, and
`Pc.act_ok` is the single case analysis over the program points: from what it knows a handler only
commits admitted transactions, only publishes jobs of enqueued tasks, and knows enough to go on. -/

namespace AgenticExecution

namespace Db

variable {db db' : Db}

/-- The task was claimed, and all its dependencies are COMPLETED. -/
def Ready (db : Db) (tid : TaskId) : Prop :=
  ∃ t ∈ db.tasks, t.id = tid ∧ t.status ≠ .pending ∧
    ∀ d ∈ db.tasks, t.DependsOn d → d.status = .completed

theorem Ready.claimed {tid : TaskId} (h : db.Ready tid) : db.Claimed tid := by
  obtain ⟨t, ht, hid, hs, -⟩ := h
  exact ⟨t, ht, hid, hs⟩

theorem Ready.mono (h : db.Le db') {tid : TaskId} (hr : db.Ready tid) : db'.Ready tid := by
  obtain ⟨t, ht, rfl, hs, hdeps⟩ := hr
  obtain ⟨t', ht', hle⟩ := h.task t ht
  refine ⟨t', ht', hle.id, hle.claimed hs, fun d' hd' hdep => ?_⟩
  rcases h.noNewTask d' hd' with ⟨d, hd, hle'⟩ | hnew
  · exact (hle'.completed (hdeps d hd (hdep.of_le hle hle'))).1
  · exact absurd (hle.executionId.symm.trans hdep.1.symm) (hnew t ht)

/-- A handler that holds a copy of a claimed row. -/
def Works (db : Db) (t : Task) : Prop := db.Ready t.id ∧ db.Read t

theorem Works.mono (h : db.Le db') {t : Task} (hw : db.Works t) : db'.Works t :=
  ⟨hw.1.mono h, hw.2.mono h⟩

theorem Read.planned {t : Task} (h : db.Read t) : db.Planned t.executionId := by
  obtain ⟨t', ht', hle⟩ := h
  exact ⟨t', ht', hle.executionId⟩

theorem Planned.submitted (hwf : db.WellFormed) {e : ExecutionId} (h : db.Planned e) :
    db.Submitted e := by
  obtain ⟨t, ht, rfl⟩ := h
  exact hwf.owner t ht

theorem Claimed.enqueued (hwf : db.WellFormed) {tid : TaskId} (h : db.Claimed tid) :
    db.Enqueued tid := by
  obtain ⟨t, ht, hid, hs⟩ := h
  exact ⟨t, ht, hid, (hwf.rows t ht).active hs⟩

/-- `part` is the context entry of the dependency at position `i`. -/
def IsContextPart (db : Db) (e : ExecutionId) (i : Int) (part : String) : Prop :=
  ∃ d ∈ db.tasks, d.executionId = e ∧ d.orderIndex = i ∧ d.status = .completed ∧
    ∃ r ∈ db.results, r.taskId = d.id ∧ part = contextPart d r

theorem IsContextPart.mono (h : db.Le db') {e : ExecutionId} {i : Int} {part : String}
    (hp : db.IsContextPart e i part) : db'.IsContextPart e i part := by
  obtain ⟨d, hd, rfl, rfl, hs, r, hr, hid, rfl⟩ := hp
  obtain ⟨d', hd', hle⟩ := h.task d hd
  refine ⟨d', hd', hle.executionId, hle.orderIndex, (hle.completed hs).1, r, h.result r hr,
    hid.trans hle.id.symm, ?_⟩
  rw [contextPart, contextPart, hle.agentType]

/-- `context` is built from all dependencies of `t`, in list order. -/
def IsContext (db : Db) (t : Task) (context : String) : Prop :=
  ∃ parts, context = join "\n\n" parts ∧
    List.Forall₂ (db.IsContextPart t.executionId) t.dependsOn parts

theorem IsContext.mono (h : db.Le db') {t : Task} {context : String} (hc : db.IsContext t context) :
    db'.IsContext t context := by
  obtain ⟨parts, rfl, hparts⟩ := hc
  exact ⟨parts, rfl, hparts.imp fun _ _ hp => hp.mono h⟩

/-- `o` is the outcome of the loaded row `t` with its stored result. -/
def IsOutcome (db : Db) (t : Task) (o : TaskOutcome) : Prop :=
  ∃ r ∈ db.results, r.taskId = t.id ∧ o = t.outcome (some r)

theorem IsOutcome.mono (h : db.Le db') {t : Task} {o : TaskOutcome} (ho : db.IsOutcome t o) :
    db'.IsOutcome t o := by
  obtain ⟨r, hr, hid, rfl⟩ := ho
  exact ⟨r, h.result r hr, hid, rfl⟩

/-- A complete read of an execution whose tasks are all COMPLETED. -/
structure Finished (db : Db) (x : Execution) (tasks : List Task) : Prop where
  planned : db.Planned x.id
  requested : db.Requested x.id x.userRequest
  loaded : db.Loaded x.id tasks
  completed : ∀ t ∈ tasks, t.status = .completed

theorem Finished.mono (h : db.Le db') {x : Execution} {tasks : List Task}
    (hf : db.Finished x tasks) : db'.Finished x tasks :=
  ⟨hf.planned.mono h, hf.requested.mono h, hf.loaded.mono h hf.planned, hf.completed⟩

end Db

/-! ## Jobs -/

/-- The job is about a row that exists. -/
def Job.Known (db : Db) : Job → Prop
  | .plan e => db.Submitted e
  | .task tid => db.Enqueued tid

theorem Job.Known.mono {db db' : Db} (h : db.Le db') {job : Job} (hj : job.Known db) :
    job.Known db' := by
  cases job with
  | plan e => exact Db.Submitted.mono h hj
  | task tid => exact Db.Enqueued.mono h hj

/-- Every job Redis holds or ever held refers to a row that is there. -/
structure Redis.Known (r : Redis) (db : Db) : Prop where
  published : ∀ job ∈ r.published, job.Known db
  queue : ∀ job ∈ r.queue, job ∈ r.published
  delayed : ∀ entry ∈ r.delayed, db.Enqueued entry.1

theorem Redis.Known.mono {db db' : Db} (h : db.Le db') {r : Redis} (hr : r.Known db) :
    r.Known db' where
  published job hj := (hr.published job hj).mono h
  queue := hr.queue
  delayed entry he := (hr.delayed entry he).mono h

/-- What is pushed is about a row that exists. -/
def Command.Known (db : Db) : Command → Prop
  | .enqueue job => job.Known db
  | .scheduleTask tid _ => db.Enqueued tid
  | _ => True

theorem Redis.Known.send {db : Db} {r : Redis} (hr : r.Known db) {c : Command} (hc : c.Known db) :
    (r.send c).Known db := by
  cases c with
  | enqueue job =>
      refine ⟨fun j hj => ?_, fun j hj => ?_, hr.delayed⟩
      · rcases List.mem_append.1 hj with hj | hj
        · exact hr.published j hj
        · obtain rfl := List.mem_singleton.1 hj
          exact hc
      · rcases List.mem_append.1 hj with hj | hj
        · exact List.mem_append_left _ (hr.queue j hj)
        · exact List.mem_append_right _ hj
  | scheduleTask tid runAt =>
      refine ⟨hr.published, hr.queue, fun entry he => ?_⟩
      rcases Table.mem_upsert.1 he with ⟨he, -⟩ | rfl
      · exact hr.delayed entry he
      · exact hc
  | removeDelayed tid =>
      exact ⟨hr.published, hr.queue, fun entry he => hr.delayed entry (Table.mem_erase.1 he).1⟩
  | pushDeadLetter entry => exact ⟨hr.published, hr.queue, hr.delayed⟩

/-! ## Handlers -/

/-- The caller of `schedule_execution` knows what it goes on with. -/
def ScheduleCaller.Knows (db : Db) : ScheduleCaller → Prop
  | .recoverStaleTasks affected => ∀ e ∈ affected, db.Planned e
  | _ => True

/-- The execution of the task `_retry_or_fail` was called for. -/
def RetryCaller.executionId : RetryCaller → ExecutionId
  | .executeTask e => e
  | .recoverStaleTasks e .. => e

/-- The caller of `_retry_or_fail` knows what it goes on with. -/
def RetryCaller.Knows (db : Db) : RetryCaller → Prop
  | .executeTask e => db.Planned e
  | .recoverStaleTasks e stale affected =>
    db.Planned e ∧ (∀ t ∈ stale, db.Read t ∧ db.Claimed t.id) ∧ ∀ e ∈ affected, db.Planned e

/-- What a handler has read holds of the rows it is about. -/
def Pc.Knows (db : Db) : Pc → Prop
  | .done | .planFail .. | .promoteSelect | .promoteNext _ | .recoverSelect => True
  | .enqueuePlan e | .planProvider e | .planGet e | .planInsert e _ => db.Submitted e
  | .planGuard e userRequest | .planLlm e userRequest => db.Requested e userRequest
  | .planRunning e | .planStarted e => db.Planned e
  | .taskProvider tid | .taskGet tid | .taskClaim tid => db.Enqueued tid
  | .taskStarted tid | .taskRefresh tid => db.Ready tid
  | .taskCheck t | .contextSelect t | .taskRollback t _ | .persist t _ => db.Works t
  | .taskStored t | .persistUpdate t .. => db.Works t ∧ db.Stored t.id
  | .contextLoad t rows rest parts => db.Works t ∧ db.Loaded t.executionId rows ∧
    (∀ d ∈ rows, t.DependsOn d → d.status = .completed) ∧
    ∃ seen, t.dependsOn = seen ++ rest ∧ List.Forall₂ (db.IsContextPart t.executionId) seen parts
  | .agentStart t context | .agentRun t context => db.Works t ∧ db.IsContext t context
  | .retryOrFail t _ k =>
    db.Read t ∧ db.Claimed t.id ∧ k.executionId = t.executionId ∧ k.Knows db
  | .retrySchedule tid _ k => db.Enqueued tid ∧ k.Knows db
  | .retryDeadLetter _ k => k.Knows db
  | .scheduleGet e k | .scheduleSelect e k | .finalizeGet e k => db.Planned e ∧ k.Knows db
  | .scheduleScan e k seen rest _ =>
    db.Planned e ∧ db.Loaded e (seen ++ rest) ∧ k.Knows db
  | .schedulePush e k seen rest tid =>
    db.Planned e ∧ db.Loaded e (seen ++ rest) ∧ db.Enqueued tid ∧ k.Knows db
  | .finalizeSelect x k => db.Planned x.id ∧ db.Requested x.id x.userRequest ∧ k.Knows db
  | .finalizeLoad x k tasks rest outcomes => db.Finished x tasks ∧
    (∃ seen, sortByIndex tasks = seen ++ rest ∧ List.Forall₂ db.IsOutcome seen outcomes) ∧ k.Knows db
  | .finalizeComplete x k tasks outcomes => db.Finished x tasks ∧
    List.Forall₂ db.IsOutcome (sortByIndex tasks) outcomes ∧ k.Knows db
  | .finalizeFail x k tasks => db.Planned x.id ∧ db.Loaded x.id tasks ∧
    (∀ t ∈ tasks, t.status.isTerminal = true) ∧ k.Knows db
  | .promotePush tid _ => db.Enqueued tid
  | .recoverAffected affected => ∀ e ∈ affected, db.Planned e

section Mono

variable {db db' : Db} (h : db.Le db')
include h

theorem ScheduleCaller.Knows.mono {k : ScheduleCaller} (hk : k.Knows db) : k.Knows db' := by
  cases k with
  | recoverStaleTasks affected => exact fun e he => (hk e he).mono h
  | planExecution | executeTask => trivial

theorem RetryCaller.Knows.mono {k : RetryCaller} (hk : k.Knows db) : k.Knows db' := by
  cases k with
  | executeTask e => exact Db.Planned.mono h hk
  | recoverStaleTasks e stale affected =>
      obtain ⟨hp, hstale, haff⟩ := hk
      exact ⟨hp.mono h, fun t ht => ⟨(hstale t ht).1.mono h, (hstale t ht).2.mono h⟩,
        fun e he => (haff e he).mono h⟩

/-- A handler keeps knowing what it knows while the database evolves. -/
theorem Pc.Knows.mono {pc : Pc} (hk : pc.Knows db) : pc.Knows db' := by
  cases pc with
  | done | planFail | promoteSelect | promoteNext | recoverSelect => trivial
  | enqueuePlan | planProvider | planGet | planInsert => exact Db.Submitted.mono h hk
  | planGuard | planLlm => exact Db.Requested.mono h hk
  | planRunning | planStarted => exact Db.Planned.mono h hk
  | taskProvider | taskGet | taskClaim | promotePush => exact Db.Enqueued.mono h hk
  | taskStarted | taskRefresh => exact Db.Ready.mono h hk
  | taskCheck | contextSelect | taskRollback | persist => exact Db.Works.mono h hk
  | taskStored | persistUpdate => exact ⟨hk.1.mono h, hk.2.mono h⟩
  | contextLoad t rows rest parts =>
      obtain ⟨hw, hl, hc, seen, hseen, hparts⟩ := hk
      exact ⟨hw.mono h, hl.mono h hw.2.planned, hc, seen, hseen,
        hparts.imp fun _ _ hp => hp.mono h⟩
  | agentStart | agentRun => exact ⟨hk.1.mono h, hk.2.mono h⟩
  | retryOrFail => exact ⟨hk.1.mono h, hk.2.1.mono h, hk.2.2.1, hk.2.2.2.mono h⟩
  | retrySchedule => exact ⟨hk.1.mono h, hk.2.mono h⟩
  | retryDeadLetter => exact RetryCaller.Knows.mono h hk
  | scheduleGet | scheduleSelect | finalizeGet => exact ⟨hk.1.mono h, hk.2.mono h⟩
  | scheduleScan => exact ⟨hk.1.mono h, hk.2.1.mono h hk.1, hk.2.2.mono h⟩
  | schedulePush =>
      exact ⟨hk.1.mono h, hk.2.1.mono h hk.1, hk.2.2.1.mono h, hk.2.2.2.mono h⟩
  | finalizeSelect => exact ⟨hk.1.mono h, hk.2.1.mono h, hk.2.2.mono h⟩
  | finalizeLoad x k tasks rest outcomes =>
      obtain ⟨hf, ⟨seen, hseen, hout⟩, hk⟩ := hk
      exact ⟨hf.mono h, ⟨seen, hseen, hout.imp fun _ _ ho => ho.mono h⟩, hk.mono h⟩
  | finalizeComplete =>
      exact ⟨hk.1.mono h, hk.2.1.imp fun _ _ ho => ho.mono h, hk.2.2.mono h⟩
  | finalizeFail => exact ⟨hk.1.mono h, hk.2.1.mono h hk.1, hk.2.2.1, hk.2.2.2.mono h⟩
  | recoverAffected => exact fun e he => (hk e he).mono h

end Mono

/-! ## Calls and returns -/

theorem ScheduleCaller.resume_knows {db : Db} {k : ScheduleCaller} (hk : k.Knows db) :
    k.resume.Knows db := by
  cases k with
  | recoverStaleTasks affected => exact hk
  | planExecution | executeTask => trivial

theorem recoverNext_knows {db : Db} {stale : List Task} {affected : List ExecutionId}
    (hstale : ∀ t ∈ stale, db.Read t ∧ db.Claimed t.id) (haff : ∀ e ∈ affected, db.Planned e) :
    (recoverNext stale affected).Knows db := by
  cases stale with
  | nil => exact haff
  | cons t rest =>
      obtain ⟨hread, hclaimed⟩ := hstale t List.mem_cons_self
      exact ⟨hread, hclaimed, rfl, hread.planned, fun u hu => hstale u (List.mem_cons_of_mem _ hu),
        haff⟩

theorem RetryCaller.resume_knows {db : Db} {k : RetryCaller} (hk : k.Knows db) :
    k.resume.Knows db := by
  cases k with
  | executeTask e => exact ⟨hk, trivial⟩
  | recoverStaleTasks e stale affected =>
      refine recoverNext_knows hk.2.1 fun e' he' => ?_
      rcases List.mem_insert_iff.1 he' with rfl | he'
      · exact hk.1
      · exact hk.2.2 e' he'

theorem Pc.raised_knows {db : Db} {pc : Pc} (exc : Exn) (hk : pc.Knows db) :
    (pc.raised exc).Knows db := by
  have hraised : ∀ k : ScheduleCaller, (k.raised exc).Knows db := by
    intro k
    cases k <;> trivial
  cases pc with
  | contextSelect => exact hk
  | contextLoad => exact hk.1
  | agentStart | agentRun => exact hk.1
  | scheduleGet | scheduleSelect | scheduleScan | schedulePush | finalizeGet | finalizeSelect
    | finalizeLoad | finalizeComplete | finalizeFail => exact hraised _
  | _ => trivial

theorem Job.handler_knows {db : Db} {job : Job} (hj : job.Known db) : job.handler.Knows db := by
  cases job <;> exact hj

end AgenticExecution
