import AgenticExecution.Effects
import AgenticExecution.FlatJson
import AgenticExecution.Library.Simulation

set_option autoImplicit false

/-! # Worker processes refine queue mode

Every run of the worker processes is, through the texts in Redis, a run of queue mode: the handlers are
the calls of the threads, a text that names no call is never seen, and a text something else pushed is a
second delivery. What queue mode never does, whatever the order of its steps, no fleet of workers does. -/

namespace AgenticExecution

variable {cfg : Config} {codec : Codec cfg.python} {f f' : Fleet} {s : State}

/-! ## Turns of a thread -/

/-- What a thread does in its turn, loop by loop. -/
inductive Fleet.TurnsTo (cfg : Config) (codec : Codec cfg.python) (f : Fleet) (t : Nat) (thread : Thread)
    (o : Oracle) : Fleet → Prop
  | leave (hstage : thread.stage = .top) (hstop : f.stopping thread.worker = true) :
      TurnsTo cfg codec f t thread o (f.setStage t .stopped)
  | enter (hstage : thread.stage = .top) (hstop : f.stopping thread.worker = false) :
      TurnsTo cfg codec f t thread o (f.setStage t .entered)
  | poll (hstage : thread.stage = .entered) (hloop : thread.loop = .consumer) :
      TurnsTo cfg codec f t thread o (f.setStage t .polling)
  | promote (hstage : thread.stage = .entered) (hloop : thread.loop = .promoter) :
      TurnsTo cfg codec f t thread o (f.call t .promoteSelect)
  | recover (hstage : thread.stage = .entered) (hloop : thread.loop = .reaper) :
      TurnsTo cfg codec f t thread o (f.call t .recoverSelect)
  | timeout (hstage : thread.stage = .polling) (hjobs : f.redis.jobs = []) :
      TurnsTo cfg codec f t thread o (f.setStage t .top)
  | dropped (payload : String) (jobs : List String) (hstage : thread.stage = .polling)
      (hjobs : f.redis.jobs = payload :: jobs) (hnone : consumed codec payload = none) :
      TurnsTo cfg codec f t thread o
        ({ f with redis := { f.redis with jobs := jobs } }.setStage t .top)
  | popped (payload : String) (jobs : List String) (job : Job) (hstage : thread.stage = .polling)
      (hjobs : f.redis.jobs = payload :: jobs) (hjob : consumed codec payload = some job) :
      TurnsTo cfg codec f t thread o
        ({ f with redis := { f.redis with jobs := jobs } }.call t job.handler)
  | returned (hid : Nat) (hstage : thread.stage = .calling hid) (hlive : f.live? hid = none) :
      TurnsTo cfg codec f t thread o (f.setStage t .top)
  | goesOn (hid : Nat) (pc : Pc) (hstage : thread.stage = .calling hid) (hlive : f.live? hid = some pc) :
      TurnsTo cfg codec f t thread o
        (f.perform cfg codec hid o.now (pc.act cfg o f.db f.redis.view))

theorem Fleet.turnsTo {t : Nat} {thread : Thread} {o : Oracle}
    (hs : f.turn cfg codec t thread o = some f') : f.TurnsTo cfg codec t thread o f' := by
  unfold Fleet.turn at hs
  split at hs
  · cases hs
  · next hstage =>
      obtain rfl := Option.some.inj hs
      split
      · next hstop => exact .leave hstage hstop
      · next hstop => exact .enter hstage (Bool.eq_false_iff.2 hstop)
  · next hstage =>
      split at hs <;> obtain rfl := Option.some.inj hs
      · next hloop => exact .poll hstage hloop
      · next hloop => exact .promote hstage hloop
      · next hloop => exact .recover hstage hloop
  · next hstage =>
      split at hs
      · next hjobs =>
          obtain rfl := Option.some.inj hs
          exact .timeout hstage hjobs
      · next payload jobs hjobs =>
          dsimp only at hs
          split at hs <;> obtain rfl := Option.some.inj hs
          · next hnone => exact .dropped payload jobs hstage hjobs hnone
          · next job hjob => exact .popped payload jobs job hstage hjobs hjob
  · next hid hstage =>
      split at hs <;> obtain rfl := Option.some.inj hs
      · next hlive => exact .returned hid hstage hlive
      · next pc hlive => exact .goesOn hid pc hstage hlive

/-! ## Environments -/

/-- A process stops, a call of a handler raises, or a popped text is lost. -/
def FleetEvent.Stops : FleetEvent → Prop
  | .requestLost _ | .kill _ | .raise .. | .pollError _ true => True
  | _ => False

/-- Something other than the program pushes a text. -/
def FleetEvent.Repeats : FleetEvent → Prop
  | .push _ => True
  | _ => False

/-- The event stops a handler. -/
def Event.Stops : Event → Prop
  | .raise .. | .crash _ => True
  | _ => False

/-- The event delivers a job again. -/
def Event.Repeats : Event → Prop
  | .redeliver _ => True
  | _ => False

/-- Workers may be stopped, and texts pushed by others, as far as `stops` and `repeats` say. -/
def Fleet.Allows (stops repeats : Prop) (_ : Fleet) (ev : FleetEvent) : Prop :=
  (ev.Stops → stops) ∧ (ev.Repeats → repeats)

/-- The event stops a handler or repeats a job only where that may happen. -/
def State.Allows (stops repeats : Prop) (_ : State) (ev : Event) : Prop :=
  (ev.Stops → stops) ∧ (ev.Repeats → repeats)

/-! ## The relation -/

/-- The jobs that the texts in the queue name. -/
def Wire.named (codec : Codec cfg.python) (w : Wire) : List Job := w.jobs.filterMap (consumed codec)

/-- The texts of the fleet say what the queues of the state hold, up to second deliveries. -/
structure Represents (codec : Codec cfg.python) (f : Fleet) (s : State) : Prop where
  db : s.db = f.db
  handlers : s.handlers = f.handlers
  clock : s.clock = f.clock
  delayed : s.redis.delayed = f.redis.delayed
  dlq : f.redis.dlq = s.redis.dlq.map fun entry => codec.dumps (entry.payload codec)
  published : s.redis.published = f.redis.published
  queue : s.redis.queue.Sublist (f.redis.named codec)
  known : ∀ job ∈ f.redis.named codec, job ∈ f.redis.published

/-- Without other producers the queues are the same. -/
def Refines (codec : Codec cfg.python) (repeats : Prop) (f : Fleet) (s : State) : Prop :=
  Represents codec f s ∧ (¬ repeats → s.redis.queue = f.redis.named codec)

/-! ## Texts -/

/-- A consumer makes the call the text was pushed for. -/
@[simp] theorem consumed_payload (codec : Codec cfg.python) (job : Job) :
    consumed codec (codec.dumps (job.payload codec)) = some job := by
  have hloads : cfg.python.loads (codec.dumps (job.payload codec)) = some (job.payload codec) :=
    codec.loads_dumps _ (by simp) (by simp [Json.isScalar])
  have hid : (Json.str (codec.uuidStr job.id)).truthy = true := by
    simp [Json.truthy, codec.uuidStr_ne]
  have hlookup : ([("type", Json.str job.type), ("id", Json.str (codec.uuidStr job.id))].lookup "id") =
      some (.str (codec.uuidStr job.id)) := by
    rw [List.lookup_cons, List.lookup_cons]
    rfl
  rw [consumed, hloads]
  simp only [Job.payload, handleJob, hlookup, Option.getD_some, hid, Json.pyStr, codec.uuid_uuidStr]
  cases job <;> rfl

/-! ## Reads -/

/-- The handlers read nothing of Redis but the delayed tasks. -/
theorem Pc.act_view {r : Redis} {w : Wire} (h : r.delayed = w.delayed) (o : Oracle) (db : Db) (pc : Pc) :
    pc.act cfg o db r = pc.act cfg o db w.view := by
  cases pc with
  | promoteSelect => simp only [Pc.act, Redis.due, Wire.view, h]
  | _ => rfl

theorem Redis.reply_view {r : Redis} {w : Wire} (h : r.delayed = w.delayed) (c : Command) :
    r.reply c = w.view.reply c := by
  cases c with
  | removeDelayed tid =>
      unfold Redis.reply
      exact h ▸ rfl
  | _ => rfl

theorem Represents.live? (h : Represents codec f s) (hid : Nat) : s.live? hid = f.live? hid := by
  unfold State.live? Fleet.live?
  exact h.handlers ▸ rfl

/-! ## Operations -/

variable {stops repeats : Prop}

/-- Where the threads stand does not matter. -/
theorem Refines.threads (h : Refines codec repeats f s) (threads : List Thread) (workers : List Worker) :
    Refines codec repeats { f with threads := threads, workers := workers } s :=
  ⟨⟨h.1.db, h.1.handlers, h.1.clock, h.1.delayed, h.1.dlq, h.1.published, h.1.queue, h.1.known⟩, h.2⟩

theorem Refines.setStage (h : Refines codec repeats f s) (t : Nat) (stage : ThreadStage) :
    Refines codec repeats (f.setStage t stage) s := h.threads _ f.workers

theorem Refines.move (h : Refines codec repeats f s) (hid : Nat) (pc : Pc) :
    Refines codec repeats (f.move hid pc) (s.move hid pc) := by
  refine ⟨⟨h.1.db, ?_, h.1.clock, h.1.delayed, h.1.dlq, h.1.published, h.1.queue, h.1.known⟩, h.2⟩
  exact congrArg (fun handlers => handlers.set hid pc) h.1.handlers

theorem Refines.spawn (h : Refines codec repeats f s) (pc : Pc) :
    Refines codec repeats { f with handlers := f.handlers ++ [pc] } (s.spawn pc) := by
  refine ⟨⟨h.1.db, ?_, h.1.clock, h.1.delayed, h.1.dlq, h.1.published, h.1.queue, h.1.known⟩, h.2⟩
  exact congrArg (fun handlers => handlers ++ [pc]) h.1.handlers

theorem Refines.call (h : Refines codec repeats f s) (t : Nat) (pc : Pc) :
    Refines codec repeats (f.call t pc) (s.spawn pc) := (h.setStage t _).spawn pc

/-- A command does to the texts what it does to the queues. -/
theorem Refines.send (h : Refines codec repeats f s) (c : Command) :
    Refines codec repeats { f with redis := f.redis.send codec c } { s with redis := s.redis.send c } := by
  cases c with
  | enqueue job =>
      have hnamed : (f.redis.send codec (.enqueue job)).named codec = f.redis.named codec ++ [job] := by
        simp [Wire.named, Wire.send]
      refine ⟨⟨h.1.db, h.1.handlers, h.1.clock, h.1.delayed, h.1.dlq, ?_, ?_, ?_⟩, fun hexact => ?_⟩
      · exact congrArg (fun published => published ++ [job]) h.1.published
      · exact hnamed ▸ h.1.queue.append (List.Sublist.refl [job])
      · intro job' hjob'
        rw [hnamed] at hjob'
        rcases List.mem_append.1 hjob' with hold | hnew
        · exact List.mem_append_left _ (h.1.known job' hold)
        · exact List.mem_append_right _ hnew
      · exact hnamed ▸ congrArg (fun queue => queue ++ [job]) (h.2 hexact)
  | scheduleTask tid runAt =>
      refine ⟨⟨h.1.db, h.1.handlers, h.1.clock, ?_, h.1.dlq, h.1.published, h.1.queue, h.1.known⟩, h.2⟩
      exact congrArg (fun delayed : Table Prod.fst => delayed.upsert (tid, runAt)) h.1.delayed
  | removeDelayed tid =>
      refine ⟨⟨h.1.db, h.1.handlers, h.1.clock, ?_, h.1.dlq, h.1.published, h.1.queue, h.1.known⟩, h.2⟩
      exact congrArg (fun delayed : Table Prod.fst => delayed.erase tid) h.1.delayed
  | pushDeadLetter entry =>
      refine ⟨⟨h.1.db, h.1.handlers, h.1.clock, h.1.delayed, ?_, h.1.published, h.1.queue, h.1.known⟩, h.2⟩
      show f.redis.dlq ++ [codec.dumps (entry.payload codec)] = (s.redis.dlq ++ [entry]).map _
      rw [List.map_append, ← h.1.dlq]
      rfl

theorem Refines.perform (h : Refines codec repeats f s) (hid : Nat) (now : Time) (act : Act) :
    Refines codec repeats (f.perform cfg codec hid now act) (s.perform hid now act) := by
  cases act with
  | goto pc =>
      have hmove := h.move hid pc
      exact ⟨{ hmove.1 with clock := rfl }, hmove.2⟩
  | commit τ k =>
      have hmove := h.move hid (k (f.db.rowcount τ))
      rw [State.perform, h.1.db]
      exact ⟨{ hmove.1 with clock := rfl, db := rfl }, hmove.2⟩
  | send c k =>
      have hsend := (h.send c).move hid (k (f.redis.view.reply c))
      rw [State.perform, Redis.reply_view h.1.delayed]
      exact ⟨{ hsend.1 with clock := rfl }, hsend.2⟩

/-- A call goes on as the handler does. -/
theorem Refines.run (h : Refines codec repeats f s) {hid : Nat} {pc : Pc} (hlive : f.live? hid = some pc)
    (o : Oracle) :
    ∃ s', (queueMode cfg).Path (State.Allows stops repeats) s s' ∧
      Refines codec repeats (f.perform cfg codec hid o.now (pc.act cfg o f.db f.redis.view)) s' := by
  refine ⟨s.perform hid o.now (pc.act cfg o s.db s.redis), .single ⟨.run hid o, ?_, ?_⟩, ?_⟩
  · exact ⟨fun hstop => hstop.elim, fun hrepeat => hrepeat.elim⟩
  · show (s.live? hid).map _ = _
    rw [h.1.live?, hlive]
    rfl
  · rw [h.1.db, Pc.act_view h.1.delayed]
    exact h.perform hid o.now _

/-- The texts after one that names nothing was popped. -/
theorem Refines.drop (h : Refines codec repeats f s) {payload : String} {jobs : List String}
    (hjobs : f.redis.jobs = payload :: jobs) (hnone : consumed codec payload = none) :
    Refines codec repeats { f with redis := { f.redis with jobs := jobs } } s := by
  have hnamed : f.redis.named codec = Wire.named codec { f.redis with jobs := jobs } := by
    rw [Wire.named, hjobs, List.filterMap_cons_none hnone]
    rfl
  exact ⟨⟨h.1.db, h.1.handlers, h.1.clock, h.1.delayed, h.1.dlq, h.1.published, hnamed ▸ h.1.queue,
    hnamed ▸ h.1.known⟩, fun hexact => (h.2 hexact).trans hnamed⟩

/-- A popped text that names a call is the next job of the queue, or a second delivery. -/
theorem Refines.pop (h : Refines codec repeats f s) {payload : String} {jobs : List String} {job : Job}
    (hjobs : f.redis.jobs = payload :: jobs) (hjob : consumed codec payload = some job) :
    ∃ s', (queueMode cfg).Path (State.Allows stops repeats) s s' ∧
      Refines codec repeats
        { f with
          redis := { f.redis with jobs := jobs }
          handlers := f.handlers ++ [job.handler] } s' := by
  have hnamed : f.redis.named codec = job :: jobs.filterMap (consumed codec) := by
    rw [Wire.named, hjobs, List.filterMap_cons_some hjob]
  have hknown : ∀ j ∈ jobs.filterMap (consumed codec), j ∈ f.redis.published :=
    fun j hj => h.1.known j (hnamed ▸ List.mem_cons_of_mem _ hj)
  have hhandlers : s.handlers ++ [job.handler] = f.handlers ++ [job.handler] := by rw [h.1.handlers]
  have hqueue := h.1.queue
  rw [hnamed] at hqueue
  rcases List.sublist_cons_iff.1 hqueue with hskip | ⟨queue, hhead, htail⟩
  · have hrepeats : repeats := by
      by_contra hexact
      have hlength := hskip.length_le
      rw [h.2 hexact, hnamed, List.length_cons] at hlength
      omega
    have hmem : job ∈ s.redis.published := by
      rw [h.1.published]
      exact h.1.known job (hnamed ▸ List.mem_cons_self)
    refine ⟨s.spawn job.handler, .single ⟨.redeliver job, ⟨fun hstop => hstop.elim, fun _ => hrepeats⟩,
      if_pos hmem⟩, ⟨h.1.db, hhandlers, h.1.clock, h.1.delayed, h.1.dlq, h.1.published, hskip, hknown⟩, ?_⟩
    exact fun hexact => absurd hrepeats hexact
  · refine ⟨{ s.spawn job.handler with redis := { s.redis with queue := queue } },
      .single ⟨.dequeue, ⟨fun hstop => hstop.elim, fun hrepeat => hrepeat.elim⟩, ?_⟩,
      ⟨h.1.db, hhandlers, h.1.clock, h.1.delayed, h.1.dlq, h.1.published, htail, hknown⟩, ?_⟩
    · show State.step cfg s .dequeue = _
      rw [State.step, hhead]
    · intro hexact
      have heq := h.2 hexact
      rw [hhead, hnamed] at heq
      exact (List.cons.inj heq).2

/-- A call that ends where it stands is a handler that crashed. -/
theorem Refines.crash (h : Refines codec repeats f s) (hstops : stops) (hid : Nat) :
    ∃ s', (queueMode cfg).Path (State.Allows stops repeats) s s' ∧
      Refines codec repeats (f.move hid .done) s' := by
  cases hlive : s.live? hid with
  | some pc =>
      refine ⟨s.move hid .done, .single ⟨.crash hid, ⟨fun _ => hstops, fun hrepeat => hrepeat.elim⟩, ?_⟩,
        h.move hid .done⟩
      show (s.live? hid).map _ = _
      rw [hlive]
      rfl
  | none =>
      have hself : s.move hid .done = s := by
        have hset : s.handlers.set hid .done = s.handlers := by
          unfold State.live? at hlive
          refine List.ext_getElem? fun i => ?_
          rw [List.getElem?_set]
          split
          · next hi =>
              subst hi
              split at hlive
              · next hdone => split <;> simp_all
              · split <;> simp_all
          · rfl
        rw [State.move, hset]
      exact ⟨s, .refl, hself ▸ h.move hid .done⟩

theorem Refines.crashAll (h : Refines codec repeats f s) (hstops : stops) (hids : List Nat) :
    ∃ s', (queueMode cfg).Path (State.Allows stops repeats) s s' ∧
      Refines codec repeats
        { f with handlers := hids.foldl (fun handlers hid => handlers.set hid .done) f.handlers } s' := by
  induction hids generalizing f s with
  | nil => exact ⟨s, .refl, h⟩
  | cons hid rest ih =>
      obtain ⟨s₁, hp₁, h₁⟩ := h.crash hstops hid
      obtain ⟨s₂, hp₂, h₂⟩ := ih h₁
      exact ⟨s₂, hp₁.trans hp₂, h₂⟩

/-! ## Steps -/

theorem Refines.turn (h : Refines codec repeats f s) {t : Nat} {thread : Thread} {o : Oracle}
    (hs : f.turn cfg codec t thread o = some f') :
    ∃ s', (queueMode cfg).Path (State.Allows stops repeats) s s' ∧ Refines codec repeats f' s' := by
  have hstart : ∀ (ev : Event) (pc : Pc), ¬ ev.Stops → ¬ ev.Repeats →
      (queueMode cfg).step s ev = some (s.spawn pc) →
      ∃ s', (queueMode cfg).Path (State.Allows stops repeats) s s' ∧ Refines codec repeats (f.call t pc) s' :=
    fun ev pc hstop hrepeat hstep => ⟨s.spawn pc, .single ⟨ev, ⟨fun hev => absurd hev hstop,
      fun hev => absurd hev hrepeat⟩, hstep⟩, h.call t pc⟩
  cases Fleet.turnsTo hs with
  | leave | enter | poll | timeout | returned => exact ⟨s, .refl, h.setStage t _⟩
  | promote => exact hstart .promoteDue _ id id rfl
  | recover => exact hstart .recoverStaleTasks _ id id rfl
  | dropped payload jobs _ hjobs hnone => exact ⟨s, .refl, (h.drop hjobs hnone).setStage t .top⟩
  | popped payload jobs job _ hjobs hjob =>
      obtain ⟨s', hpath, h'⟩ := h.pop hjobs hjob
      exact ⟨s', hpath, h'.setStage t _⟩
  | goesOn hid pc _ hlive => exact h.run hlive o

theorem Refines.createExecution (h : Refines codec repeats f s) (userRequest : String) (now : Time)
    (hs : f.step cfg codec (.createExecution userRequest now) = some f') :
    Refines codec repeats f' (s.createExecution userRequest now) := by
  obtain rfl := Option.some.inj hs
  refine ⟨⟨?_, ?_, rfl, h.1.delayed, h.1.dlq, h.1.published, h.1.queue, h.1.known⟩, h.2⟩
  · rw [State.createExecution, State.newExecution, h.1.db]
  · rw [State.createExecution, State.newExecution, h.1.db, State.spawn, h.1.handlers]

/-- A lost text is a job whose handler crashed before its first step. -/
theorem Refines.lose (h : Refines codec repeats f s) (hstops : stops) :
    ∃ s', (queueMode cfg).Path (State.Allows stops repeats) s s' ∧
      Refines codec repeats (f.lose cfg codec) s' := by
  unfold Fleet.lose
  cases hjobs : f.redis.jobs with
  | nil => exact ⟨s, .refl, h⟩
  | cons payload jobs =>
      cases hjob : consumed codec payload with
      | none =>
          simp only [hjob]
          exact ⟨s, .refl, h.drop hjobs hjob⟩
      | some job =>
          simp only [hjob]
          obtain ⟨s₁, hpop : (queueMode cfg).Path (State.Allows stops repeats) s s₁, h₁⟩ := h.pop hjobs hjob
          obtain ⟨s₂, hcrash, h₂⟩ := h₁.crash hstops f.handlers.length
          have hset : (f.handlers ++ [job.handler]).set f.handlers.length .done = f.handlers ++ [.done] := by
            simp
          rw [Fleet.move, hset] at h₂
          exact ⟨s₂, hpop.trans hcrash, h₂⟩

theorem Refines.step (h : Refines codec repeats f s) {ev : FleetEvent} (hE : f.Allows stops repeats ev)
    (hs : f.step cfg codec ev = some f') :
    ∃ s', (queueMode cfg).Path (State.Allows stops repeats) s s' ∧ Refines codec repeats f' s' := by
  cases ev with
  | createExecution userRequest now =>
      refine ⟨s.createExecution userRequest now, .single ⟨.createExecution userRequest now, ?_, rfl⟩,
        h.createExecution userRequest now hs⟩
      exact ⟨fun hstop => hstop.elim, fun hrepeat => hrepeat.elim⟩
  | request hid o =>
      simp only [Fleet.step] at hs
      split at hs
      · next e hlive =>
          obtain rfl := Option.some.inj hs
          exact h.run hlive o
      · cases hs
  | requestLost hid =>
      simp only [Fleet.step] at hs
      split at hs
      · obtain rfl := Option.some.inj hs
        exact h.crash (hE.1 trivial) hid
      · cases hs
  | push payload =>
      simp only [Fleet.step] at hs
      split at hs
      · next hknown =>
          obtain rfl := Option.some.inj hs
          have hnamed : Wire.named codec { f.redis with jobs := f.redis.jobs ++ [payload] } =
              f.redis.named codec ++ (consumed codec payload).toList := by
            rw [Wire.named, List.filterMap_append, Wire.named]
            cases hjob : consumed codec payload <;> simp [hjob]
          refine ⟨s, .refl, ⟨h.1.db, h.1.handlers, h.1.clock, h.1.delayed, h.1.dlq, h.1.published, ?_, ?_⟩,
            fun hexact => absurd (hE.2 trivial) hexact⟩
          · exact hnamed ▸ h.1.queue.trans (List.sublist_append_left _ _)
          · intro job hjob
            rw [hnamed] at hjob
            rcases List.mem_append.1 hjob with hold | hnew
            · exact h.1.known job hold
            · rw [Option.mem_toList.1 hnew] at hknown
              simpa using hknown
      · cases hs
  | startWorker workerConcurrency =>
      obtain rfl := Option.some.inj hs
      exact ⟨s, .refl, h.threads _ _⟩
  | signal w =>
      obtain rfl := Option.some.inj hs
      exact ⟨s, .refl, h.threads f.threads _⟩
  | kill w =>
      obtain rfl := Option.some.inj hs
      obtain ⟨s', hpath, h'⟩ := h.crashAll (hE.1 trivial) (f.callsOf w)
      exact ⟨s', hpath, h'.threads _ f.workers⟩
  | turn t o =>
      obtain ⟨thread, -, hturn⟩ := Option.bind_eq_some_iff.1 hs
      exact h.turn hturn
  | pollError t lost =>
      simp only [Fleet.step] at hs
      split at hs
      · obtain rfl := Option.some.inj hs
        cases lost with
        | false => exact ⟨s, .refl, h.setStage t .top⟩
        | true =>
            obtain ⟨s', hpath, h'⟩ := h.lose (hE.1 trivial)
            exact ⟨s', hpath, h'.setStage t .top⟩
      · cases hs
  | raise t exc =>
      simp only [Fleet.step] at hs
      split at hs
      · next hid _ =>
          obtain ⟨pc, hlive, rfl⟩ := Option.map_eq_some_iff.1 hs
          refine ⟨s.move hid (pc.raised exc), .single ⟨.raise hid exc, ?_, ?_⟩, h.move hid _⟩
          · exact ⟨fun _ => hE.1 trivial, fun hrepeat => hrepeat.elim⟩
          · show (s.live? hid).map _ = _
            rw [h.1.live?, hlive]
            rfl
      · cases hs

/-! ## The refinement -/

/-- Queue mode answers every step of the workers. -/
theorem fleet_simulation (cfg : Config) (codec : Codec cfg.python) (stops repeats : Prop) :
    Lts.Simulation (fleet cfg codec) (Fleet.Allows stops repeats) (queueMode cfg)
      (State.Allows stops repeats) (Refines codec repeats) where
  init :=
    { left :=
        { db := rfl
          handlers := rfl
          clock := rfl
          delayed := rfl
          dlq := rfl
          published := rfl
          queue := .slnil
          known := by simp [Wire.named, fleet] }
      right := fun _ => rfl }
  step _ _ hR hE hs := hR.step hE hs

/-- Every run of the worker processes, and everything that can follow it, is a run of queue mode and what
    can follow that, with the same rows and the same handlers in progress: stopped processes and lost texts
    are raised and crashed handlers, other producers are second deliveries, and there are none of these
    where there are none of those. -/
theorem fleet_refines {stops repeats : Prop}
    (h : (fleet cfg codec).Reachable (Fleet.Allows stops repeats) f)
    (hp : (fleet cfg codec).Path (Fleet.Allows stops repeats) f f') :
    ∃ s s', (queueMode cfg).Reachable (State.Allows stops repeats) s ∧ Refines codec repeats f s ∧
      (queueMode cfg).Path (State.Allows stops repeats) s s' ∧ Refines codec repeats f' s' := by
  obtain ⟨s, hs, hR⟩ := (fleet_simulation cfg codec stops repeats).reachable h
  obtain ⟨s', hpath, hR'⟩ := (fleet_simulation cfg codec stops repeats).path h hs hR hp
  exact ⟨s, s', hs, hR, hpath, hR'⟩

/-- One process with one consumer; somebody else pushes a text that is no JSON and one that is a dict of
    a wrong type, and the process is killed in the middle of its task. -/
def killedSchedule : List FleetEvent :=
  [.startWorker 1, .createExecution "q" 0, .request 0 { now := 0 }, .push "\x7b",
    .push "\x7b\"id\": 1\x7d"] ++
    turns 0 33 { now := 0 } ++ [.kill 0]

theorem fleet_refines_killed :
    ∃ f, (fleet (flatConfig (singleTask 1)) flatCodec).Reachable (Fleet.Allows True True) f ∧
      (∃ t ∈ f.db.tasks, t.status = .running) ∧
      ∃ s, (queueMode (flatConfig (singleTask 1))).Reachable (State.Allows True True) s ∧ s.db = f.db := by
  obtain ⟨f, hreach, hcheck⟩ := (fleet (flatConfig (singleTask 1)) flatCodec).exists_reachable
    (E := Fleet.Allows True True) (fun _ _ => true)
    (fun f => f.db.tasks.rows.any fun t => t.status = .running)
    killedSchedule (fun _ _ _ => ⟨fun _ => trivial, fun _ => trivial⟩) (by decide +kernel)
  have hrunning : ∃ t ∈ f.db.tasks.rows, t.status = .running := by simpa using hcheck
  obtain ⟨s, -, hs, hR, -⟩ := fleet_refines hreach .refl
  exact ⟨f, hreach, hrunning, s, hs, hR.1.db⟩

end AgenticExecution
