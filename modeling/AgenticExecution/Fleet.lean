import AgenticExecution.Machine

set_option autoImplicit false

/-! # Worker processes

The platform as `jobqueue.py` and `worker.py` run it. Redis holds JSON texts. The calls of the scheduler
are made by the threads of worker processes, each in a loop of its own: a consumer pops a text and makes
the call it names, or drops it; the promoter and the reaper make theirs again and again. A process can be
asked to stop, or be killed with all its threads. -/

namespace AgenticExecution

/-! ## Payloads -/

/-- A text or a number, the values of every dict the queue writes. -/
def Json.isScalar : Json → Bool
  | .str _ | .int _ => true
  | _ => false

/-- `json.dumps`, `str` of a UUID and of a time, and `uuid.UUID` of a text (`none` when it raises), beside
    the `json.loads` of `py`. -/
structure Codec (py : Python) where
  dumps : Json → String
  uuidStr : Nat → String
  uuid : String → Option Nat
  isoformat : Time → String
  loads_dumps : ∀ fields, (fields.map Prod.fst).Nodup → (∀ p ∈ fields, p.2.isScalar = true) →
    py.loads (dumps (.obj fields)) = some (.obj fields)
  uuid_uuidStr : ∀ id, uuid (uuidStr id) = some id
  uuidStr_ne : ∀ id, uuidStr id ≠ ""

/-- `JobType`. -/
def Job.type : Job → String
  | .plan _ => "plan"
  | .task _ => "task"

/-- The id in a job. -/
def Job.id : Job → Nat
  | .plan e => e
  | .task tid => tid

section Codec

variable {py : Python} (codec : Codec py)

/-- The dict `enqueue_plan`, `enqueue_task` and `promote_due` push. -/
def Job.payload (job : Job) : Json :=
  .obj [("type", .str job.type), ("id", .str (codec.uuidStr job.id))]

/-- The dict `_retry_or_fail` pushes. -/
def DeadLetter.payload (entry : DeadLetter) : Json :=
  .obj
    [("task_id", .str (codec.uuidStr entry.taskId)),
      ("execution_id", .str (codec.uuidStr entry.executionId)),
      ("agent_type", .str entry.agentType.value),
      ("attempts", .int entry.attempts),
      ("error", .str entry.error),
      ("failed_at", .str (codec.isoformat entry.failedAt))]

/-- The call `_handle_job` makes. It makes none when a check fails, and when `job` is no dict and
    `job.get` raises, which the loop of the consumer logs. -/
def handleJob : Json → Option Job
  | .obj fields =>
    let jobType := (fields.lookup "type").getD .null
    let rawId := (fields.lookup "id").getD .null
    if !rawId.truthy then none
    else
      match codec.uuid (rawId.pyStr py) with
      | none => none
      | some jobId =>
        match jobType with
        | .str "plan" => some (.plan jobId)
        | .str "task" => some (.task jobId)
        | _ => none
  | _ => none

/-- What a consumer does with a text it popped: `dequeue` drops what is no JSON, the loop drops `null`,
    and `_handle_job` what names no call. -/
def consumed (payload : String) : Option Job :=
  match py.loads payload with
  | none => none
  | some .null => none
  | some job => handleJob codec job

end Codec

/-! ## Redis -/

/-- The keys of Redis, with the texts in them. The members of `aep:delayed` are `str(task_id)`, and stand
    here as the ids. `published` is not in Redis: the calls of the jobs the program ever pushed. -/
structure Wire where
  jobs : List String := []
  delayed : Table (ρ := TaskId × Time) Prod.fst := .empty
  dlq : List String := []
  published : List Job := []

namespace Wire

/-- What a command of a handler does to Redis. -/
def send {py : Python} (codec : Codec py) (w : Wire) : Command → Wire
  | .enqueue job =>
    { w with
      jobs := w.jobs ++ [codec.dumps (job.payload codec)]
      published := w.published ++ [job] }
  | .scheduleTask tid runAt => { w with delayed := w.delayed.upsert (tid, runAt) }
  | .removeDelayed tid => { w with delayed := w.delayed.erase tid }
  | .pushDeadLetter entry => { w with dlq := w.dlq ++ [codec.dumps (entry.payload codec)] }

/-- What the scheduler reads of Redis. -/
def view (w : Wire) : Redis := { delayed := w.delayed }

/-- `LRANGE`: negative positions count from the end. -/
def lrange {α : Type} (l : List α) (start stop : Int) : List α :=
  let first := if start < 0 then max 0 (start + l.length) else start
  let last := if stop < 0 then stop + l.length else stop
  (l.drop first.toNat).take (last - first + 1).toNat

/-- `dead_letter_entries`. -/
def deadLetterEntries (py : Python) (w : Wire) (limit : Nat) : List Json :=
  ((lrange w.dlq (-limit) (-1)).filterMap py.loads).reverse

end Wire

/-! ## Threads -/

/-- The three loops of `main`. -/
inductive ThreadLoop
  | consumer | promoter | reaper
  deriving DecidableEq

/-- Where the loop of a thread stands. -/
inductive ThreadStage
  /-- At `while not _stop.is_set()`. -/
  | top
  /-- In the body of the loop: the flag was clear, and the call is still to be made. -/
  | entered
  /-- In `dequeue`. -/
  | polling
  /-- In the call `hid`. -/
  | calling (hid : Nat)
  /-- Out of the loop, or killed. -/
  | stopped
  deriving DecidableEq

/-- A thread of a worker process. -/
structure Thread where
  /-- The process of the thread. -/
  worker : Nat
  loop : ThreadLoop
  stage : ThreadStage := .top

/-- One worker process. -/
structure Worker where
  workerConcurrency : Int
  /-- `_stop`. -/
  stop : Bool := false
  deriving DecidableEq

/-- The consumer threads `main` starts. -/
def Worker.consumers (worker : Worker) : Nat := (max 1 worker.workerConcurrency).toNat

/-- The threads `main` starts. -/
def Worker.threads (worker : Worker) (w : Nat) : List Thread :=
  List.replicate worker.consumers { worker := w, loop := .consumer } ++
    [{ worker := w, loop := .promoter }, { worker := w, loop := .reaper }]

/-- The database, Redis, and the worker processes with their threads. -/
structure Fleet where
  db : Db := {}
  redis : Wire := {}
  /-- The calls of the scheduler and the requests so far, those that are over included. -/
  handlers : List Pc := []
  workers : List Worker := []
  threads : List Thread := []
  clock : Time := 0

/-- What may happen next. -/
inductive FleetEvent
  /-- `POST /executions` commits its row. -/
  | createExecution (userRequest : String) (now : Time)
  /-- The request `hid` goes on to push the plan job. -/
  | request (hid : Nat) (o : Oracle)
  /-- The request `hid` fails or its process stops. -/
  | requestLost (hid : Nat)
  /-- Something other than the program pushes a text: one that names no call, or a call of a job the
      program pushed. -/
  | push (payload : String)
  /-- `main` starts the threads of a worker process. -/
  | startWorker (workerConcurrency : Int)
  /-- The process gets SIGINT or SIGTERM. -/
  | signal (w : Nat)
  /-- The process ends, and its threads with it. -/
  | kill (w : Nat)
  /-- Thread `t` takes its next step. -/
  | turn (t : Nat) (o : Oracle)
  /-- `dequeue` raises in thread `t`; the text Redis popped may be `lost` with the connection. -/
  | pollError (t : Nat) (lost : Bool)
  /-- The pending call of thread `t` raises. -/
  | raise (t : Nat) (exc : Exn)

namespace Fleet

section

variable (f : Fleet)

/-- Thread `t` goes on at another point of its loop. -/
def setStage (t : Nat) (stage : ThreadStage) : Fleet :=
  { f with threads := f.threads.modify t fun thread => { thread with stage := stage } }

/-- Thread `t` calls a function of the scheduler. -/
def call (t : Nat) (pc : Pc) : Fleet :=
  { f.setStage t (.calling f.handlers.length) with handlers := f.handlers ++ [pc] }

/-- The call `hid` while it is in progress. -/
def live? (hid : Nat) : Option Pc :=
  match f.handlers[hid]? with
  | some .done => none
  | found => found

/-- The call `hid` goes on. -/
def move (hid : Nat) (pc : Pc) : Fleet := { f with handlers := f.handlers.set hid pc }

/-- `_stop.is_set()`. -/
def stopping (w : Nat) : Bool := f.workers[w]?.any Worker.stop

/-- The calls the threads of process `w` are in. -/
def callsOf (w : Nat) : List Nat :=
  f.threads.filterMap fun thread =>
    match thread.stage with
    | .calling hid => if thread.worker = w then some hid else none
    | _ => none

end

variable (cfg : Config) (codec : Codec cfg.python)

/-- The state after the call `hid` did `act`. -/
def perform (f : Fleet) (hid : Nat) (now : Time) : Act → Fleet
  | .goto pc => { f.move hid pc with clock := now }
  | .commit τ k =>
    { f.move hid (k (f.db.rowcount τ)) with db := f.db.commit now τ, clock := now }
  | .send c k =>
    { f.move hid (k (f.redis.view.reply c)) with redis := f.redis.send codec c, clock := now }

/-- The next step of a thread. -/
def turn (f : Fleet) (t : Nat) (thread : Thread) (o : Oracle) : Option Fleet :=
  match thread.stage with
  | .stopped => none
  | .top => some (f.setStage t (if f.stopping thread.worker then .stopped else .entered))
  -- the flag may be set by now
  | .entered =>
    match thread.loop with
    | .consumer => some (f.setStage t .polling)
    | .promoter => some (f.call t .promoteSelect)
    | .reaper => some (f.call t .recoverSelect)
  | .polling =>
    match f.redis.jobs with
    -- the timeout elapses
    | [] => some (f.setStage t .top)
    | payload :: jobs =>
      let f := { f with redis := { f.redis with jobs := jobs } }
      match consumed codec payload with
      | none => some (f.setStage t .top)
      | some job => some (f.call t job.handler)
  | .calling hid =>
    match f.live? hid with
    -- the call returned or raised
    | none => some (f.setStage t .top)
    | some pc => some (f.perform cfg codec hid o.now (pc.act cfg o f.db f.redis.view))

/-- The text a consumer lost with its connection to Redis. -/
def lose (f : Fleet) : Fleet :=
  match f.redis.jobs with
  | [] => f
  | payload :: jobs =>
    let f := { f with redis := { f.redis with jobs := jobs } }
    match consumed codec payload with
    | none => f
    -- a call that never takes a step
    | some _ => { f with handlers := f.handlers ++ [.done] }

/-- The threads of process `w` end where they stand. -/
def kill (f : Fleet) (w : Nat) : Fleet :=
  { f with
    handlers := (f.callsOf w).foldl (fun handlers hid => handlers.set hid .done) f.handlers
    threads := f.threads.map fun thread =>
      if thread.worker = w then { thread with stage := .stopped } else thread }

/-- What an event does; `none` where it cannot happen. -/
def step (f : Fleet) : FleetEvent → Option Fleet
  | .createExecution userRequest now =>
    let x : Execution :=
      { id := f.db.executions.fresh, userRequest := strip userRequest, updatedAt := now }
    some { f with
      db := { f.db with executions := f.db.executions.insertAll [x] }
      handlers := f.handlers ++ [.enqueuePlan x.id]
      clock := now }
  | .request hid o =>
    match f.live? hid with
    | some (.enqueuePlan e) =>
      some (f.perform cfg codec hid o.now ((Pc.enqueuePlan e).act cfg o f.db f.redis.view))
    | _ => none
  | .requestLost hid =>
    match f.live? hid with
    | some (.enqueuePlan _) => some (f.move hid .done)
    | _ => none
  | .push payload =>
    if (consumed codec payload).all fun job => job ∈ f.redis.published then
      some { f with redis := { f.redis with jobs := f.redis.jobs ++ [payload] } }
    else none
  | .startWorker workerConcurrency =>
    let worker : Worker := { workerConcurrency := workerConcurrency }
    some { f with
      workers := f.workers ++ [worker]
      threads := f.threads ++ worker.threads f.workers.length }
  | .signal w => some { f with workers := f.workers.modify w fun worker => { worker with stop := true } }
  | .kill w => some (f.kill w)
  | .turn t o => f.threads[t]?.bind fun thread => f.turn cfg codec t thread o
  | .pollError t lost =>
    match f.threads[t]? with
    | some { stage := .polling, .. } =>
      some ((if lost then f.lose cfg codec else f).setStage t .top)
    | _ => none
  | .raise t exc =>
    match f.threads[t]? with
    | some { stage := .calling hid, .. } => (f.live? hid).map fun pc => f.move hid (pc.raised exc)
    | _ => none

end Fleet

/-- The platform with its processes as a transition system: nothing is there at the start. -/
def fleet (cfg : Config) (codec : Codec cfg.python) : Lts Fleet FleetEvent where
  init := {}
  step := Fleet.step cfg codec

end AgenticExecution
