import AgenticExecution.FleetRefinement
import AgenticExecution.Library.Pool

set_option autoImplicit false

/-! # The threads of the workers

Every call of the scheduler in progress is made by one thread, of the loop that makes such calls, and a
thread makes one call at a time. So a process has no more jobs in progress than it has consumers. The
flag that asks a process to stop can be set between the check of a loop and its call, so each of its
threads can begin one more call, and no thread begins a second. -/

namespace AgenticExecution

variable {cfg : Config} {codec : Codec cfg.python} {f f' : Fleet}

/-! ## The loop of a call -/

/-- The loop whose call called `schedule_execution`. -/
def ScheduleCaller.loop : ScheduleCaller → ThreadLoop
  | .planExecution _ | .executeTask => .consumer
  | .recoverStaleTasks _ => .reaper

/-- The loop whose call retries the task. -/
def RetryCaller.loop : RetryCaller → ThreadLoop
  | .executeTask _ => .consumer
  | .recoverStaleTasks .. => .reaper

/-- The loop that made the call, while it is in progress; a request is made by none. -/
def Pc.loop : Pc → Option ThreadLoop
  | .done | .enqueuePlan _ => none
  | .retryOrFail _ _ k | .retrySchedule _ _ k | .retryDeadLetter _ k => some k.loop
  | .scheduleGet _ k | .scheduleSelect _ k | .scheduleScan _ k .. | .schedulePush _ k ..
  | .finalizeGet _ k | .finalizeSelect _ k | .finalizeLoad _ k .. | .finalizeComplete _ k ..
  | .finalizeFail _ k _ => some k.loop
  | .promoteSelect | .promoteNext _ | .promotePush .. => some .promoter
  | .recoverSelect | .recoverAffected _ => some .reaper
  | _ => some .consumer

/-- The call is over, or one of the loop. -/
def Pc.Of (l : ThreadLoop) (pc : Pc) : Prop := pc = .done ∨ pc.loop = some l

theorem ScheduleCaller.resume_of (k : ScheduleCaller) : k.resume.Of k.loop := by
  cases k with
  | planExecution | executeTask => exact .inl rfl
  | recoverStaleTasks => exact .inr rfl

theorem ScheduleCaller.raised_of (exc : Exn) (k : ScheduleCaller) : (k.raised exc).Of k.loop := by
  cases k with
  | planExecution => exact .inr rfl
  | executeTask | recoverStaleTasks => exact .inl rfl

theorem recoverNext_of (stale : List Task) (affected : List ExecutionId) :
    (recoverNext stale affected).Of .reaper := by
  cases stale <;> exact .inr rfl

theorem RetryCaller.resume_of (k : RetryCaller) : k.resume.Of k.loop := by
  cases k with
  | executeTask => exact .inr rfl
  | recoverStaleTasks e stale affected => exact recoverNext_of stale _

theorem finalizeTasks_of (x : Execution) (k : ScheduleCaller) (tasks : List Task) :
    (finalizeTasks x k tasks).Of k.loop := by
  unfold finalizeTasks
  split_ifs
  · exact k.resume_of
  · exact k.resume_of
  · exact .inr rfl
  · exact .inr rfl

theorem Job.handler_loop (job : Job) : job.handler.loop = some .consumer := by
  cases job <;> rfl

variable {o : Oracle} {db : Db} {r : Redis} {pc pc' : Pc} {l : ThreadLoop}

theorem Pc.Moves.of (h : pc.Moves cfg o db r pc') (hl : pc.loop = some l) : pc'.Of l := by
  cases h with
  | done => exact .inl rfl
  | planNotFound | taskNotFound | refreshNotFound | backoffOverflow | promoteDone | recoverDone =>
      exact .inl rfl
  | scheduleNotFound | finalizeNotFound =>
      obtain rfl := Option.some.inj hl
      exact ScheduleCaller.resume_of _
  | finalizeSelect =>
      obtain rfl := Option.some.inj hl
      exact finalizeTasks_of _ _ _
  | recoverSelect =>
      obtain rfl := Option.some.inj hl
      exact recoverNext_of _ _
  | _ => exact .inr hl

theorem Pc.Commits.of {τ : Txn} {k : Nat → Pc} (h : pc.Commits cfg o db τ k) (hl : pc.loop = some l)
    (n : Nat) : (k n).Of l := by
  cases h with
  | planFail => exact .inl rfl
  | planGuard | taskClaim =>
      dsimp only
      split
      · exact .inr hl
      · exact .inl rfl
  | retryTask | failTask =>
      obtain rfl := Option.some.inj hl
      dsimp only
      split
      · exact .inr rfl
      · exact RetryCaller.resume_of _
  | markEnqueued =>
      dsimp only
      split <;> exact .inr hl
  | finalizeComplete | finalizeFail =>
      obtain rfl := Option.some.inj hl
      exact ScheduleCaller.resume_of _
  | _ => exact .inr hl

theorem Pc.Sends.of {c : Command} {k : Nat → Pc} (h : pc.Sends c k) (hl : pc.loop = some l) (n : Nat) :
    (k n).Of l := by
  cases h with
  | enqueuePlan => cases hl
  | retrySchedule | retryDeadLetter =>
      obtain rfl := Option.some.inj hl
      exact RetryCaller.resume_of _
  | promoteNext =>
      dsimp only
      split <;> exact .inr hl
  | schedulePush | promotePush => exact .inr hl

theorem Pc.raised_of (exc : Exn) (hl : pc.loop = some l) : (pc.raised exc).Of l := by
  cases pc with
  | scheduleGet | scheduleSelect | scheduleScan | schedulePush | finalizeGet | finalizeSelect
    | finalizeLoad | finalizeComplete | finalizeFail =>
      obtain rfl := Option.some.inj hl
      exact ScheduleCaller.raised_of exc _
  | planProvider | planGet | planGuard | planLlm | planInsert | planRunning | planStarted
    | contextSelect | contextLoad | agentStart | agentRun => exact .inr hl
  | _ => exact .inl rfl

/-- The call goes on as one of its loop, or ends. -/
def Pc.Continues (pc pc' : Pc) : Prop :=
  (∀ l, pc.loop = some l → pc'.Of l) ∧ (pc.loop = none → pc' = .done)

theorem Pc.Continues.loop_eq (h : pc.Continues pc') (hl : pc'.loop = some l) : pc.loop = some l := by
  cases hpc : pc.loop with
  | none =>
      rw [h.2 hpc] at hl
      cases hl
  | some l' =>
      rcases h.1 l' hpc with rfl | hl'
      · cases hl
      · exact hl'.symm.trans hl

theorem Pc.raised_continues (exc : Exn) (pc : Pc) : pc.Continues (pc.raised exc) := by
  refine ⟨fun l hl => pc.raised_of exc hl, fun hl => ?_⟩
  cases pc with
  | done | enqueuePlan => rfl
  | _ => simp [Pc.loop] at hl

/-- Where a call goes on in the fleet. -/
def Fleet.next (f : Fleet) : Act → Pc
  | .goto pc => pc
  | .commit τ k => k (f.db.rowcount τ)
  | .send c k => k (f.redis.view.reply c)

theorem Fleet.perform_handlers (hid : Nat) (now : Time) (act : Act) :
    (f.perform cfg codec hid now act).handlers = f.handlers.set hid (f.next act) := by
  cases act <;> rfl

theorem Fleet.perform_threads (hid : Nat) (now : Time) (act : Act) :
    (f.perform cfg codec hid now act).threads = f.threads := by
  cases act <;> rfl

theorem Fleet.perform_workers (hid : Nat) (now : Time) (act : Act) :
    (f.perform cfg codec hid now act).workers = f.workers := by
  cases act <;> rfl

theorem Fleet.next_continues (pc : Pc) : pc.Continues (f.next (pc.act cfg o db r)) := by
  constructor
  · intro l hl
    cases hact : pc.act cfg o db r with
    | goto pc' => exact (Pc.moves_of_act hact).of hl
    | commit τ k => exact (Pc.commits_of_act hact).of hl _
    | send c k => exact (Pc.sends_of_act hact).of hl _
  · intro hl
    cases pc with
    | done | enqueuePlan => rfl
    | _ => simp [Pc.loop] at hl

/-! ## Who makes the calls -/

/-- The call a thread is in. -/
def Thread.call? (thread : Thread) : Option Nat :=
  match thread.stage with
  | .calling hid => some hid
  | _ => none

theorem Thread.call?_eq_some {thread : Thread} {hid : Nat} :
    thread.call? = some hid ↔ thread.stage = .calling hid := by
  unfold Thread.call?
  cases thread.stage <;> simp

theorem Worker.stage_of_mem {worker : Worker} {w : Nat} {thread : Thread} (h : thread ∈ worker.threads w) :
    thread.stage = .top := by
  rcases List.mem_append.1 h with hconsumer | hother
  · rw [List.eq_of_mem_replicate hconsumer]
  · rcases List.mem_cons.1 hother with rfl | hother
    · rfl
    · rw [List.mem_singleton.1 hother]

/-- Every call in progress has a thread in its loop, and only consumers poll. -/
structure Fleet.Staffed (f : Fleet) : Prop where
  owned : ∀ hid pc l, f.handlers[hid]? = some pc → pc.loop = some l →
    ∃ thread ∈ f.threads, thread.call? = some hid ∧ thread.loop = l
  polling : ∀ thread ∈ f.threads, thread.stage = .polling → thread.loop = .consumer

section Staffed

variable {t : Nat} {thread : Thread}

theorem mem_setStage {stage : ThreadStage} {thread' : Thread} (ht : f.threads[t]? = some thread)
    (h : thread' ∈ (f.setStage t stage).threads) :
    thread' ∈ f.threads ∨ thread' = { thread with stage := stage } := by
  obtain ⟨i, hi⟩ := List.mem_iff_getElem?.1 h
  rw [Fleet.setStage, List.getElem?_modify] at hi
  obtain ⟨old, hold, rfl⟩ := Option.map_eq_some_iff.1 hi
  by_cases hti : t = i
  · subst hti
    rw [ht] at hold
    obtain rfl := Option.some.inj hold
    exact .inr (if_pos rfl)
  · rw [if_neg hti]
    exact .inl (List.mem_of_getElem? hold)

/-- Thread `t` moved on, and the others stand where they stood. -/
theorem mem_setStage_of_ne {stage : ThreadStage} {thread' : Thread} (ht : f.threads[t]? = some thread)
    (h : thread' ∈ f.threads) (hne : thread' ≠ thread) : thread' ∈ (f.setStage t stage).threads := by
  obtain ⟨i, hi⟩ := List.mem_iff_getElem?.1 h
  have hti : t ≠ i := by
    rintro rfl
    rw [ht] at hi
    exact hne (Option.some.inj hi).symm
  refine List.mem_iff_getElem?.2 ⟨i, ?_⟩
  rw [Fleet.setStage, List.getElem?_modify, hi]
  exact congrArg some (if_neg hti)

theorem mem_setStage_self {stage : ThreadStage} (ht : f.threads[t]? = some thread) :
    { thread with stage := stage } ∈ (f.setStage t stage).threads := by
  refine List.mem_iff_getElem?.2 ⟨t, ?_⟩
  rw [Fleet.setStage, List.getElem?_modify, ht]
  exact congrArg some (if_pos rfl)

/-- A thread leaves a call that is over. -/
theorem Fleet.Staffed.setStage (h : f.Staffed) (ht : f.threads[t]? = some thread) {stage : ThreadStage}
    (hover : ∀ hid pc, thread.call? = some hid → f.handlers[hid]? = some pc → pc.loop = none)
    (hstage : stage = .polling → thread.loop = .consumer) : (f.setStage t stage).Staffed where
  owned hid pc l hpc hl := by
    obtain ⟨owner, howner, hcall, hloop⟩ := h.owned hid pc l hpc hl
    refine ⟨owner, mem_setStage_of_ne ht howner ?_, hcall, hloop⟩
    rintro rfl
    rw [hover hid pc hcall hpc] at hl
    cases hl
  polling thread' hthread' hpolling := by
    rcases mem_setStage ht hthread' with hold | rfl
    · exact h.polling thread' hold hpolling
    · exact hstage hpolling

/-- A call goes on. -/
theorem Fleet.Staffed.move (h : f.Staffed) {hid : Nat} {pc pc' : Pc} (hpc : f.handlers[hid]? = some pc)
    (hnext : pc.Continues pc') (hhandlers : f'.handlers = f.handlers.set hid pc')
    (hthreads : f'.threads = f.threads) : f'.Staffed where
  owned hid' pc'' l hpc' hl := by
    rw [hthreads]
    rw [hhandlers] at hpc'
    rcases Pool.getElem?_of_set hpc' with hold | ⟨rfl, rfl⟩
    · exact h.owned hid' pc'' l hold hl
    · exact h.owned hid pc l hpc (hnext.loop_eq hl)
  polling := hthreads ▸ h.polling

/-- A call nobody makes is over, or a request. -/
theorem Fleet.Staffed.append (h : f.Staffed) {pc : Pc} (hpc : pc.loop = none)
    (hhandlers : f'.handlers = f.handlers ++ [pc]) (hthreads : f'.threads = f.threads) :
    f'.Staffed where
  owned hid pc' l hpc' hl := by
    rw [hthreads]
    rw [hhandlers] at hpc'
    rcases Pool.getElem?_of_append hpc' with hold | rfl
    · exact h.owned hid pc' l hold hl
    · rw [hpc] at hl
      cases hl
  polling := hthreads ▸ h.polling

/-- A thread at the top of its loop, or in `dequeue`, makes a call. -/
theorem Fleet.Staffed.call (h : f.Staffed) (ht : f.threads[t]? = some thread)
    (hidle : thread.call? = none) {pc : Pc} (hpc : pc.loop = some thread.loop) : (f.call t pc).Staffed where
  owned hid pc' l hpc' hl := by
    have hat : (f.handlers ++ [pc])[hid]? = some pc' := hpc'
    rw [List.getElem?_append] at hat
    split at hat
    · obtain ⟨owner, howner, hcall, hloop⟩ := h.owned hid pc' l hat hl
      refine ⟨owner, mem_setStage_of_ne ht howner ?_, hcall, hloop⟩
      rintro rfl
      rw [hidle] at hcall
      cases hcall
    · next hge =>
        have hnew : hid = f.handlers.length := by
          obtain ⟨hlt, -⟩ := List.getElem?_eq_some_iff.1 hat
          rw [List.length_singleton] at hlt
          omega
        subst hnew
        obtain rfl : pc = pc' := by simpa using hat
        rw [hpc] at hl
        exact ⟨_, mem_setStage_self ht, rfl, Option.some.inj hl⟩
  polling thread' hthread' hpolling := by
    rcases mem_setStage ht hthread' with hold | rfl
    · exact h.polling thread' hold hpolling
    · cases hpolling

theorem Fleet.live?_eq_some {hid : Nat} (h : f.live? hid = some pc) : f.handlers[hid]? = some pc := by
  unfold Fleet.live? at h
  split at h
  · cases h
  · exact h

/-- A call that did not return is in progress. -/
theorem Fleet.loop_of_live?_eq_none {hid : Nat} (h : f.live? hid = none)
    (hpc : f.handlers[hid]? = some pc) : pc.loop = none := by
  unfold Fleet.live? at h
  rw [hpc] at h
  cases pc with
  | done => rfl
  | _ => cases h

theorem getElem?_of_foldl_set {hids : List Nat} {handlers : List Pc} {i : Nat}
    (h : (hids.foldl (fun handlers hid => handlers.set hid Pc.done) handlers)[i]? = some pc)
    (hne : pc ≠ .done) : i ∉ hids ∧ handlers[i]? = some pc := by
  induction hids generalizing handlers with
  | nil => exact ⟨List.not_mem_nil, h⟩
  | cons hid rest ih =>
      obtain ⟨hrest, hset⟩ := ih h
      rcases Pool.getElem?_of_set hset with hold | ⟨-, rfl⟩
      · refine ⟨fun hmem => ?_, hold⟩
        rcases List.mem_cons.1 hmem with rfl | hmem
        · rw [List.getElem?_set, if_pos rfl] at hset
          split at hset
          · exact hne (Option.some.inj hset).symm
          · cases hset
        · exact hrest hmem
      · exact absurd rfl hne

/-- A killed process leaves no call of its own in progress. -/
theorem Fleet.Staffed.kill (h : f.Staffed) (w : Nat) : (f.kill w).Staffed where
  owned hid pc l hpc hl := by
    obtain ⟨hnot, hold⟩ := getElem?_of_foldl_set hpc (by rintro rfl; cases hl)
    obtain ⟨owner, howner, hcall, hloop⟩ := h.owned hid pc l hold hl
    have hother : owner.worker ≠ w := by
      intro hw
      refine hnot (List.mem_filterMap.2 ⟨owner, howner, ?_⟩)
      unfold Thread.call? at hcall
      split at hcall
      · next hstage => simpa [hstage, hw] using hcall
      · cases hcall
    exact ⟨owner, List.mem_map.2 ⟨owner, howner, if_neg hother⟩, hcall, hloop⟩
  polling thread hthread hpolling := by
    obtain ⟨old, hold, rfl⟩ := List.mem_map.1 hthread
    split at hpolling
    · cases hpolling
    · next hw =>
        rw [if_neg hw]
        exact h.polling old hold hpolling

theorem Fleet.Staffed.turn (h : f.Staffed) (ht : f.threads[t]? = some thread)
    (hs : f.turn cfg codec t thread o = some f') : f'.Staffed := by
  have hidle : ∀ {stage : ThreadStage}, thread.stage = stage → (∀ hid, stage ≠ .calling hid) →
      thread.call? = none := by
    rintro stage rfl hne
    unfold Thread.call?
    split
    · next hid hstage => exact absurd hstage (hne hid)
    · rfl
  cases Fleet.turnsTo hs with
  | leave hstage | enter hstage =>
      have hnone := hidle hstage (by simp)
      exact h.setStage ht (by simp [hnone]) (by simp)
  | poll hstage hloop =>
      have hnone := hidle hstage (by simp)
      exact h.setStage ht (by simp [hnone]) fun _ => hloop
  | promote hstage hloop => exact h.call ht (hidle hstage (by simp)) (hloop ▸ rfl)
  | recover hstage hloop => exact h.call ht (hidle hstage (by simp)) (hloop ▸ rfl)
  | timeout hstage =>
      have hnone := hidle hstage (by simp)
      exact h.setStage ht (by simp [hnone]) (by simp)
  | dropped payload jobs hstage =>
      have hnone := hidle hstage (by simp)
      have hpopped : Fleet.Staffed { f with redis := { f.redis with jobs := jobs } } := ⟨h.owned, h.polling⟩
      exact hpopped.setStage ht (by simp [hnone]) (by simp)
  | popped payload jobs job hstage =>
      have hloop := h.polling thread (List.mem_of_getElem? ht) hstage
      have hpopped : Fleet.Staffed { f with redis := { f.redis with jobs := jobs } } := ⟨h.owned, h.polling⟩
      exact hpopped.call ht (hidle hstage (by simp)) (hloop ▸ job.handler_loop)
  | returned hid hstage hlive =>
      refine h.setStage ht (fun hid' pc hcall hpc => ?_) (by simp)
      obtain rfl : hid = hid' := by simpa [Thread.call?, hstage] using hcall
      exact Fleet.loop_of_live?_eq_none hlive hpc
  | goesOn hid pc _ hlive =>
      exact h.move (Fleet.live?_eq_some hlive) (Fleet.next_continues pc) (Fleet.perform_handlers ..)
        (Fleet.perform_threads ..)

theorem Fleet.lose_threads (cfg : Config) (codec : Codec cfg.python) (f : Fleet) :
    (f.lose cfg codec).threads = f.threads ∧ (f.lose cfg codec).workers = f.workers := by
  unfold Fleet.lose
  split
  · exact ⟨rfl, rfl⟩
  · dsimp only
    split <;> exact ⟨rfl, rfl⟩

theorem Fleet.Staffed.lose (h : f.Staffed) : (f.lose cfg codec).Staffed := by
  unfold Fleet.lose
  split
  · exact h
  · next payload jobs _ =>
      dsimp only
      split
      · exact ⟨h.owned, h.polling⟩
      · exact h.append (show Pc.loop .done = none from rfl) rfl rfl

theorem Fleet.Staffed.step (h : f.Staffed) {ev : FleetEvent} (hs : f.step cfg codec ev = some f') :
    f'.Staffed := by
  cases ev with
  | createExecution userRequest now =>
      obtain rfl := Option.some.inj hs
      exact h.append (show Pc.loop (.enqueuePlan _) = none from rfl) rfl rfl
  | request hid o =>
      simp only [Fleet.step] at hs
      split at hs
      · next e hlive =>
          obtain rfl := Option.some.inj hs
          exact h.move (Fleet.live?_eq_some hlive) (Fleet.next_continues _) (Fleet.perform_handlers ..)
            (Fleet.perform_threads ..)
      · cases hs
  | requestLost hid =>
      simp only [Fleet.step] at hs
      split at hs
      · next e hlive =>
          obtain rfl := Option.some.inj hs
          exact h.move (Fleet.live?_eq_some hlive)
            ⟨fun _ hl => absurd hl (by simp [Pc.loop]), fun _ => rfl⟩ rfl rfl
      · cases hs
  | push payload =>
      simp only [Fleet.step] at hs
      split at hs
      · obtain rfl := Option.some.inj hs
        exact ⟨h.owned, h.polling⟩
      · cases hs
  | startWorker workerConcurrency =>
      obtain rfl := Option.some.inj hs
      refine ⟨fun hid pc l hpc hl => ?_, fun thread hthread hpolling => ?_⟩
      · obtain ⟨owner, howner, hcall⟩ := h.owned hid pc l hpc hl
        exact ⟨owner, List.mem_append_left _ howner, hcall⟩
      · rcases List.mem_append.1 hthread with hold | hnew
        · exact h.polling thread hold hpolling
        · rw [Worker.stage_of_mem hnew] at hpolling
          cases hpolling
  | signal w =>
      obtain rfl := Option.some.inj hs
      exact ⟨h.owned, h.polling⟩
  | kill w =>
      obtain rfl := Option.some.inj hs
      exact h.kill w
  | turn t o =>
      obtain ⟨thread, ht, hturn⟩ := Option.bind_eq_some_iff.1 hs
      exact h.turn ht hturn
  | pollError t lost =>
      simp only [Fleet.step] at hs
      split at hs
      · next worker loop ht =>
          obtain rfl := Option.some.inj hs
          cases lost with
          | false => exact h.setStage ht (by simp [Thread.call?]) (by simp)
          | true =>
              have hthreads := (f.lose_threads cfg codec).1
              exact h.lose.setStage (hthreads.symm ▸ ht) (by simp [Thread.call?]) (by simp)
      · cases hs
  | raise t exc =>
      simp only [Fleet.step] at hs
      split at hs
      · next hid _ =>
          obtain ⟨pc, hlive, rfl⟩ := Option.map_eq_some_iff.1 hs
          exact h.move (Fleet.live?_eq_some hlive) (pc.raised_continues exc) rfl rfl
      · cases hs

theorem reachable_staffed {E : Fleet → FleetEvent → Prop} (h : (fleet cfg codec).Reachable E f) :
    f.Staffed := by
  refine h.invariant ⟨?_, ?_⟩ fun s ev s' _ hi _ hs => hi.step hs
  · simp [fleet]
  · simp [fleet]

end Staffed

/-! ## The threads of each process -/

/-- Which threads there are, wherever they stand. -/
def Fleet.roster (f : Fleet) : List (Nat × ThreadLoop) :=
  f.threads.map fun thread => (thread.worker, thread.loop)

/-- The consumers of each process. -/
def Fleet.crews (f : Fleet) : List Nat := f.workers.map Worker.consumers

/-- How many threads of a loop a process with `n` consumers has. -/
def ThreadLoop.crew (n : Nat) : ThreadLoop → Nat
  | .consumer => n
  | .promoter | .reaper => 1

/-- The threads that were started and nothing else: for each process its consumers, one promoter and one
    reaper. -/
structure Fleet.Rostered (f : Fleet) : Prop where
  consumers : f.roster.countP (fun p => p.2 = .consumer) = f.crews.sum
  promoters : f.roster.countP (fun p => p.2 = .promoter) = f.crews.length
  reapers : f.roster.countP (fun p => p.2 = .reaper) = f.crews.length
  crew : ∀ w n l, f.crews[w]? = some n → f.roster.countP (fun p => p = (w, l)) = l.crew n
  numbered : ∀ p ∈ f.roster, p.1 < f.crews.length

theorem roster_setStage (f : Fleet) (t : Nat) (stage : ThreadStage) :
    (f.setStage t stage).roster = f.roster :=
  Pool.map_modify (h := fun thread : Thread => (thread.worker, thread.loop))
    (g := fun thread => { thread with stage := stage }) (fun _ => rfl) f.threads t

/-- Threads come with their process, and stay; a process is only ever asked to stop. -/
theorem roster_step {ev : FleetEvent} (hs : f.step cfg codec ev = some f') :
    (f'.roster = f.roster ∧ f'.workers = f.workers) ∨
      (∃ worker : Worker, f'.workers = f.workers ++ [worker] ∧
        f'.threads = f.threads ++ worker.threads f.workers.length) ∨
      ∃ w, f'.roster = f.roster ∧
      f'.workers = f.workers.modify w fun worker => { worker with stop := true } := by
  cases ev with
  | createExecution userRequest now =>
      obtain rfl := Option.some.inj hs
      exact .inl ⟨rfl, rfl⟩
  | request hid o =>
      simp only [Fleet.step] at hs
      split at hs
      · obtain rfl := Option.some.inj hs
        exact .inl ⟨congrArg (List.map _) (Fleet.perform_threads ..), Fleet.perform_workers ..⟩
      · cases hs
  | requestLost hid =>
      simp only [Fleet.step] at hs
      split at hs
      · obtain rfl := Option.some.inj hs
        exact .inl ⟨rfl, rfl⟩
      · cases hs
  | push payload =>
      simp only [Fleet.step] at hs
      split at hs
      · obtain rfl := Option.some.inj hs
        exact .inl ⟨rfl, rfl⟩
      · cases hs
  | startWorker workerConcurrency =>
      obtain rfl := Option.some.inj hs
      exact .inr (.inl ⟨_, rfl, rfl⟩)
  | signal w =>
      obtain rfl := Option.some.inj hs
      exact .inr (.inr ⟨w, rfl, rfl⟩)
  | kill w =>
      obtain rfl := Option.some.inj hs
      refine .inl ⟨?_, rfl⟩
      simp only [Fleet.roster, Fleet.kill, List.map_map]
      refine List.map_congr_left fun thread _ => ?_
      by_cases hw : thread.worker = w
      · simp [hw]
      · simp [hw]
  | turn t o =>
      obtain ⟨thread, -, hturn⟩ := Option.bind_eq_some_iff.1 hs
      refine .inl ?_
      cases Fleet.turnsTo hturn with
      | goesOn hid pc => exact ⟨congrArg (List.map _) (Fleet.perform_threads ..), Fleet.perform_workers ..⟩
      | dropped | popped => exact ⟨roster_setStage { f with redis := _ } t _, rfl⟩
      | leave | enter | poll | promote | recover | timeout | returned =>
          exact ⟨roster_setStage f t _, rfl⟩
  | pollError t lost =>
      simp only [Fleet.step] at hs
      split at hs
      · obtain rfl := Option.some.inj hs
        refine .inl ?_
        cases lost with
        | false => exact ⟨roster_setStage f t _, rfl⟩
        | true =>
            obtain ⟨hthreads, hworkers⟩ := f.lose_threads cfg codec
            exact ⟨(roster_setStage (f.lose cfg codec) t _).trans (congrArg (List.map _) hthreads), hworkers⟩
      · cases hs
  | raise t exc =>
      simp only [Fleet.step] at hs
      split at hs
      · obtain ⟨pc, -, rfl⟩ := Option.map_eq_some_iff.1 hs
        exact .inl ⟨rfl, rfl⟩
      · cases hs

/-- What a process was started with, whether it was asked to stop or not. -/
theorem crews_modify (f : Fleet) (w : Nat) :
    (f.workers.modify w fun worker => { worker with stop := true }).map Worker.consumers = f.crews :=
  Pool.map_modify (h := Worker.consumers) (g := fun worker => { worker with stop := true }) (fun _ => rfl)
    f.workers w

/-- A new process brings its own threads. -/
theorem Fleet.Rostered.start (h : f.Rostered) {worker : Worker}
    (hworkers : f'.workers = f.workers ++ [worker])
    (hthreads : f'.threads = f.threads ++ worker.threads f.workers.length) : f'.Rostered := by
  have hnumber : f.workers.length = f.crews.length := (List.length_map _).symm
  have hcrews : f'.crews = f.crews ++ [worker.consumers] := by
    rw [Fleet.crews, hworkers, List.map_append]
    rfl
  have hroster : f'.roster = f.roster ++
      (List.replicate worker.consumers (f.crews.length, ThreadLoop.consumer) ++
        [(f.crews.length, .promoter), (f.crews.length, .reaper)]) := by
    rw [Fleet.roster, hthreads, List.map_append, ← hnumber]
    simp [Fleet.roster, Worker.threads]
  refine ⟨?_, ?_, ?_, fun w n l hn => ?_, fun p hp => ?_⟩
  · rw [hroster, hcrews, List.countP_append, h.consumers, List.sum_append]
    simp [List.countP_append, List.countP_replicate]
  · rw [hroster, hcrews, List.countP_append, h.promoters, List.length_append]
    simp [List.countP_append, List.countP_replicate]
  · rw [hroster, hcrews, List.countP_append, h.reapers, List.length_append]
    simp [List.countP_append, List.countP_replicate]
  · rw [hcrews, List.getElem?_append] at hn
    rw [hroster, List.countP_append]
    split at hn
    · next hlt =>
        have hne : f.crews.length ≠ w := by omega
        rw [h.crew w n l hn]
        simp [List.countP_append, List.countP_replicate, hne]
    · next hge =>
        obtain ⟨hlt, hlast⟩ := List.getElem?_eq_some_iff.1 hn
        rw [List.length_singleton] at hlt
        obtain rfl : w = f.crews.length := by omega
        have hnone : f.roster.countP (fun p => p = (f.crews.length, l)) = 0 := by
          refine List.countP_eq_zero.2 fun p hp heq => ?_
          have hlt' := h.numbered p hp
          rw [of_decide_eq_true heq] at hlt'
          exact Nat.lt_irrefl _ hlt'
        obtain rfl : worker.consumers = n := by simpa using hlast
        rw [hnone]
        cases l <;> simp [List.countP_append, List.countP_replicate, ThreadLoop.crew]
  · rw [hroster] at hp
    rw [hcrews, List.length_append, List.length_singleton]
    rcases List.mem_append.1 hp with hold | hnew
    · exact Nat.lt_succ_of_lt (h.numbered p hold)
    · have hfst : p.1 = f.crews.length := by
        rcases List.mem_append.1 hnew with hconsumer | hother
        · rw [List.eq_of_mem_replicate hconsumer]
        · simp only [List.mem_cons, List.not_mem_nil, or_false] at hother
          rcases hother with rfl | rfl <;> rfl
      omega

theorem reachable_rostered {E : Fleet → FleetEvent → Prop} (h : (fleet cfg codec).Reachable E f) :
    f.Rostered := by
  have hinit : (fleet cfg codec).init.Rostered :=
    ⟨rfl, rfl, rfl, by simp [fleet, Fleet.crews], by simp [fleet, Fleet.roster]⟩
  refine h.invariant hinit fun s ev s' _ hi _ hs => ?_
  have hsame : s'.roster = s.roster → s'.crews = s.crews → s'.Rostered := fun hroster hcrews =>
    ⟨hroster ▸ hcrews ▸ hi.consumers, hroster ▸ hcrews ▸ hi.promoters, hroster ▸ hcrews ▸ hi.reapers,
      hroster ▸ hcrews ▸ hi.crew, hroster ▸ hcrews ▸ hi.numbered⟩
  rcases roster_step hs with ⟨hroster, hworkers⟩ | ⟨worker, hworkers, hthreads⟩ | ⟨w, hroster, hworkers⟩
  · exact hsame hroster (congrArg (List.map Worker.consumers) hworkers)
  · exact hi.start hworkers hthreads
  · exact hsame hroster ((congrArg (List.map Worker.consumers) hworkers).trans (crews_modify s w))

/-! ## Jobs in progress -/

/-- The calls of a loop in progress are no more than its threads. -/
theorem Fleet.Staffed.countP_loop_le (h : f.Staffed) (l : ThreadLoop) :
    f.handlers.countP (fun pc => pc.loop = some l) ≤ f.roster.countP fun p => p.2 = l := by
  have hcalls : ((List.range f.handlers.length).filter
      fun hid => f.handlers[hid]?.any fun pc => pc.loop = some l).Subperm
        ((f.threads.filter fun thread => thread.loop = l).filterMap Thread.call?) := by
    refine List.subperm_of_subset (List.nodup_range.filter _) fun hid hmem => ?_
    obtain ⟨-, hany⟩ := List.mem_filter.1 hmem
    obtain ⟨pc, hpc, hl⟩ := (Option.any_eq_true _ _).1 hany
    obtain ⟨thread, hthread, hcall, hloop⟩ := h.owned hid pc l hpc (of_decide_eq_true hl)
    exact List.mem_filterMap.2 ⟨thread, List.mem_filter.2 ⟨hthread, by simpa using hloop⟩, hcall⟩
  calc f.handlers.countP (fun pc => pc.loop = some l)
      ≤ ((f.threads.filter fun thread => thread.loop = l).filterMap Thread.call?).length :=
        (Pool.countP_eq_length_filter_range _ _).trans_le hcalls.length_le
    _ ≤ (f.threads.filter fun thread => thread.loop = l).length := List.length_filterMap_le _ _
    _ = f.roster.countP fun p => p.2 = l := by
        rw [Fleet.roster, List.countP_map, List.countP_eq_length_filter]
        rfl

/-- At any time, whatever raised, stopped or was killed, no more jobs are in progress than the processes
    have consumers, `max(1, WORKER_CONCURRENCY)` each, and no more promotions and recoveries than there
    are processes; and each call in progress is held by a thread of the loop that makes such calls. -/
theorem calls_in_progress_le {E : Fleet → FleetEvent → Prop} (h : (fleet cfg codec).Reachable E f) :
    f.handlers.countP (fun pc => pc.loop = some .consumer) ≤ (f.workers.map Worker.consumers).sum ∧
      f.handlers.countP (fun pc => pc.loop = some .promoter) ≤ f.workers.length ∧
      f.handlers.countP (fun pc => pc.loop = some .reaper) ≤ f.workers.length ∧
      ∀ hid pc l, f.handlers[hid]? = some pc → pc.loop = some l →
        ∃ thread ∈ f.threads, thread.stage = .calling hid ∧ thread.loop = l := by
  have hstaffed := reachable_staffed h
  have hrostered := reachable_rostered h
  have hlength : f.crews.length = f.workers.length := List.length_map _
  refine ⟨?_, ?_, ?_, fun hid pc l hpc hl => ?_⟩
  · exact (hstaffed.countP_loop_le .consumer).trans_eq hrostered.consumers
  · exact (hstaffed.countP_loop_le .promoter).trans_eq (hrostered.promoters.trans hlength)
  · exact (hstaffed.countP_loop_le .reaper).trans_eq (hrostered.reapers.trans hlength)
  · obtain ⟨thread, hthread, hcall, hloop⟩ := hstaffed.owned hid pc l hpc hl
    exact ⟨thread, hthread, Thread.call?_eq_some.1 hcall, hloop⟩

/-- Two executions are submitted, and two processes with a consumer each are busy with them. -/
theorem calls_in_progress_le_busy :
    ∃ f, (fleet (flatConfig (singleTask 1)) flatCodec).Reachable (Fleet.Allows True True) f ∧
      f.handlers.countP (fun pc => pc.loop = some .consumer) = 2 ∧
      f.handlers.countP (fun pc => pc.loop = some .consumer) ≤ (f.workers.map Worker.consumers).sum := by
  obtain ⟨f, hreach, hcheck⟩ := (fleet (flatConfig (singleTask 1)) flatCodec).exists_reachable
    (E := Fleet.Allows True True) (fun _ _ => true)
    (fun f => f.handlers.countP (fun pc => pc.loop = some .consumer) = 2)
    ([.startWorker 1, .startWorker 0, .createExecution "q" 0, .request 0 { now := 0 },
      .createExecution "r" 0, .request 1 { now := 0 }] ++ turns 0 4 { now := 0 } ++ turns 3 4 { now := 0 })
    (fun _ _ _ => ⟨fun _ => trivial, fun _ => trivial⟩) (by decide +kernel)
  exact ⟨f, hreach, of_decide_eq_true hcheck, (calls_in_progress_le hreach).1⟩

/-! ## Shutdown -/

variable {w : Nat} {l : ThreadLoop} {ev : FleetEvent} {trace : List (Fleet × FleetEvent)}

/-- In this step a thread of process `w` in the loop `l` makes a new call. -/
def Fleet.begins (cfg : Config) (codec : Codec cfg.python) (w : Nat) (l : ThreadLoop)
    (p : Fleet × FleetEvent) : Bool :=
  match p.2 with
  | .turn t o =>
    p.1.threads[t]?.any fun thread =>
      (thread.worker = w && thread.loop = l) &&
        (p.1.turn cfg codec t thread o).any fun f => p.1.handlers.length < f.handlers.length
  | _ => false

/-- The check of the flag is over, and the call is still to be made. -/
def ThreadStage.ready : ThreadStage → Bool
  | .entered | .polling => true
  | .top | .calling _ | .stopped => false

/-- The threads of process `w` in the loop `l` that can begin a call without a check of the flag. -/
def Fleet.ready (f : Fleet) (w : Nat) (l : ThreadLoop) : Nat :=
  f.threads.countP fun thread => (thread.worker = w && thread.loop = l) && thread.stage.ready

theorem ready_setStage {t : Nat} {thread : Thread} (ht : f.threads[t]? = some thread)
    (stage : ThreadStage) :
    (f.setStage t stage).ready w l +
        ((thread.worker = w && thread.loop = l) && thread.stage.ready : Bool).toNat =
      f.ready w l + ((thread.worker = w && thread.loop = l) && stage.ready : Bool).toNat :=
  Pool.countP_modify
    (fun thread : Thread => ((thread.worker = w && thread.loop = l) && thread.stage.ready : Bool))
    (fun thread => { thread with stage := stage }) ht

theorem setStage_self {t : Nat} {thread : Thread} (ht : f.threads[t]? = some thread) :
    (f.setStage t thread.stage).threads = f.threads := by
  refine List.ext_getElem? fun i => ?_
  rw [Fleet.setStage, List.getElem?_modify]
  split
  · next hti =>
      subst hti
      rw [ht]
      rfl
  · exact congrFun Option.map_id_fun' _

/-- After the flag is set a turn does not make its thread ready, and one that makes a call leaves it
    no longer ready. -/
theorem Fleet.TurnsTo.stopping {t : Nat} {thread : Thread} {o : Oracle}
    (h : f.TurnsTo cfg codec t thread o f') (ht : f.threads[t]? = some thread)
    (hstop : f.stopping thread.worker = true) :
    ∃ stage : ThreadStage, f'.threads = (f.setStage t stage).threads ∧
      stage.ready.toNat + (decide (f.handlers.length < f'.handlers.length)).toNat ≤
        thread.stage.ready.toNat := by
  have hquiet : ∀ stage : ThreadStage, stage.ready.toNat ≤ thread.stage.ready.toNat →
      stage.ready.toNat + (decide (f.handlers.length < f.handlers.length)).toNat ≤
        thread.stage.ready.toNat := by
    intro stage hle
    simpa using hle
  have hcall : ∀ p : Prop, [Decidable p] → thread.stage.ready = true →
      (ThreadStage.calling f.handlers.length).ready.toNat + (decide p).toNat ≤
        thread.stage.ready.toNat := by
    intro p _ hready
    rw [hready]
    exact (Nat.zero_add _).trans_le (Bool.toNat_le _)
  cases h with
  | leave => exact ⟨.stopped, rfl, hquiet .stopped (Nat.zero_le _)⟩
  | enter _ hgo =>
      rw [hstop] at hgo
      cases hgo
  | poll hstage => exact ⟨.polling, rfl, hquiet .polling (Nat.le_of_eq (by rw [hstage]; rfl))⟩
  | promote hstage | recover hstage | popped _ _ _ hstage =>
      exact ⟨.calling f.handlers.length, rfl, hcall _ (by rw [hstage]; rfl)⟩
  | timeout | dropped | returned => exact ⟨.top, rfl, hquiet .top (Nat.zero_le _)⟩
  | goesOn hid pc =>
      refine ⟨thread.stage, (Fleet.perform_threads ..).trans (setStage_self ht).symm, ?_⟩
      rw [Fleet.perform_handlers, List.length_set]
      exact hquiet thread.stage (Nat.le_refl _)

/-- After the flag is set, a thread that makes a call was ready and no longer is, and none gets ready. -/
theorem ready_turn {t : Nat} {thread : Thread} {o : Oracle} (ht : f.threads[t]? = some thread)
    (hs : f.turn cfg codec t thread o = some f') (hw : f.stopping w = true) :
    f'.ready w l + ((thread.worker = w && thread.loop = l) &&
        decide (f.handlers.length < f'.handlers.length) : Bool).toNat ≤ f.ready w l := by
  by_cases hmine : thread.worker = w ∧ thread.loop = l
  · obtain ⟨rfl, rfl⟩ := hmine
    obtain ⟨stage, hthreads, hle⟩ := (Fleet.turnsTo hs).stopping ht hw
    have hset := ready_setStage (w := thread.worker) (l := thread.loop) ht stage
    have hready : f'.ready thread.worker thread.loop =
        (f.setStage t stage).ready thread.worker thread.loop := by
      rw [Fleet.ready, hthreads]
      rfl
    simp only [decide_true, Bool.and_self, Bool.true_and] at hset ⊢
    omega
  · have hfalse : (decide (thread.worker = w) && decide (thread.loop = l)) = false := by
      simpa using hmine
    have hset : ∀ stage, (f.setStage t stage).ready w l = f.ready w l := by
      intro stage
      have hset := ready_setStage (w := w) (l := l) ht stage
      rwa [hfalse, Bool.false_and, Bool.false_and] at hset
    rw [hfalse, Bool.false_and]
    cases Fleet.turnsTo hs with
    | goesOn hid pc => exact Nat.le_of_eq (by rw [Fleet.ready, Fleet.perform_threads]; rfl)
    | _ => exact Nat.le_of_eq (hset _)

theorem ready_setStage_le {t : Nat} {thread : Thread} (ht : f.threads[t]? = some thread)
    {stage : ThreadStage} (hstage : stage.ready = false) :
    (f.setStage t stage).ready w l ≤ f.ready w l := by
  have hset := ready_setStage (w := w) (l := l) ht stage
  rw [hstage, Bool.and_false, Bool.toNat_false] at hset
  omega

theorem ready_kill_le (f : Fleet) (w' : Nat) : (f.kill w').ready w l ≤ f.ready w l := by
  rw [Fleet.ready, Fleet.kill, List.countP_map]
  refine List.countP_mono_left fun thread _ => ?_
  simp only [Function.comp_apply]
  split <;> simp [ThreadStage.ready]

/-- No other step makes a thread of the process ready. -/
theorem ready_step (hs : f.step cfg codec ev = some f') (hw : f.stopping w = true) :
    f'.ready w l + (Fleet.begins cfg codec w l (f, ev)).toNat ≤ f.ready w l := by
  cases ev with
  | turn t o =>
      obtain ⟨thread, ht, hturn⟩ := Option.bind_eq_some_iff.1 hs
      have hready := ready_turn (l := l) ht hturn hw
      simpa [Fleet.begins, ht, hturn] using hready
  | createExecution userRequest now =>
      obtain rfl := Option.some.inj hs
      exact Nat.le_refl _
  | request hid o =>
      simp only [Fleet.step] at hs
      split at hs
      · obtain rfl := Option.some.inj hs
        exact Nat.le_of_eq (by rw [Fleet.ready, Fleet.perform_threads]; rfl)
      · cases hs
  | requestLost hid =>
      simp only [Fleet.step] at hs
      split at hs
      · obtain rfl := Option.some.inj hs
        exact Nat.le_refl _
      · cases hs
  | push payload =>
      simp only [Fleet.step] at hs
      split at hs
      · obtain rfl := Option.some.inj hs
        exact Nat.le_refl _
      · cases hs
  | startWorker workerConcurrency =>
      obtain rfl := Option.some.inj hs
      have hnew : (Worker.threads { workerConcurrency := workerConcurrency } f.workers.length).countP
          (fun thread => (thread.worker = w && thread.loop = l) && thread.stage.ready) = 0 := by
        refine List.countP_eq_zero.2 fun thread hthread => ?_
        simp [Worker.stage_of_mem hthread, ThreadStage.ready]
      rw [Fleet.ready, List.countP_append, hnew]
      exact Nat.le_refl _
  | signal w' =>
      obtain rfl := Option.some.inj hs
      exact Nat.le_refl _
  | kill w' =>
      obtain rfl := Option.some.inj hs
      exact ready_kill_le f w'
  | pollError t lost =>
      simp only [Fleet.step] at hs
      split at hs
      · next worker loop ht =>
          obtain rfl := Option.some.inj hs
          have hthreads := (f.lose_threads cfg codec).1
          have hready : (f.lose cfg codec).ready w l = f.ready w l := by
            rw [Fleet.ready, hthreads]
            rfl
          cases lost with
          | false => exact ready_setStage_le ht rfl
          | true => exact hready ▸ ready_setStage_le (hthreads.symm ▸ ht) rfl
      · cases hs
  | raise t exc =>
      simp only [Fleet.step] at hs
      split at hs
      · obtain ⟨pc, -, rfl⟩ := Option.map_eq_some_iff.1 hs
        exact Nat.le_refl _
      · cases hs

/-- The stop flag is never cleared, and the process keeps its size. -/
theorem stopping_step (hs : f.step cfg codec ev = some f') (hw : f.stopping w = true) :
    f'.stopping w = true ∧ f'.crews[w]? = f.crews[w]? := by
  obtain ⟨worker, hworker, hstop⟩ := (Option.any_eq_true _ _).1 hw
  have hcrew : f.crews[w]? = some worker.consumers := by
    rw [Fleet.crews, List.getElem?_map, hworker]
    rfl
  rcases roster_step hs with ⟨-, hworkers⟩ | ⟨worker', hworkers, -⟩ | ⟨w', -, hworkers⟩
  · rw [Fleet.stopping, Fleet.crews, hworkers]
    exact ⟨hw, rfl⟩
  · have hold : f'.workers[w]? = some worker := by
      rw [hworkers, List.getElem?_append_left (List.getElem?_eq_some_iff.1 hworker).1, hworker]
    rw [Fleet.stopping, hcrew, Fleet.crews, List.getElem?_map, hold]
    exact ⟨hstop, rfl⟩
  · have hcrews : f'.crews = f.crews :=
      (congrArg (List.map Worker.consumers) hworkers).trans (crews_modify f w')
    rw [Fleet.stopping, hworkers, List.getElem?_modify, hworker, hcrews]
    refine ⟨?_, rfl⟩
    by_cases heq : w' = w
    · simp [heq]
    · simp [heq, hstop]

/-- Only the threads of the process can be ready. -/
theorem Fleet.Rostered.ready_le (h : f.Rostered) {n : Nat} (hn : f.crews[w]? = some n) :
    f.ready w l ≤ l.crew n := by
  rw [← h.crew w n l hn, Fleet.roster, List.countP_map]
  refine List.countP_mono_left fun thread _ hready => ?_
  obtain ⟨hmine, -⟩ := Bool.and_eq_true_iff.1 hready
  obtain ⟨hworker, hloop⟩ := Bool.and_eq_true_iff.1 hmine
  have hworker := of_decide_eq_true hworker
  have hloop := of_decide_eq_true hloop
  simp [hworker, hloop]

/-- The calls the threads of process `w` in the loop `l` began after it was asked to stop. -/
def lateCalls (cfg : Config) (codec : Codec cfg.python) (w : Nat) (l : ThreadLoop)
    (trace : List (Fleet × FleetEvent)) : Nat :=
  trace.countP fun p => p.1.stopping w && Fleet.begins cfg codec w l p

/-- Before the flag is set no call is late; afterwards the threads that are ready pay for the late calls. -/
theorem lateCalls_run {E : Fleet → FleetEvent → Prop} (h : (fleet cfg codec).Run E trace f) :
    (f.stopping w = false → lateCalls cfg codec w l trace = 0) ∧
      ∀ n, f.crews[w]? = some n → f.stopping w = true →
        lateCalls cfg codec w l trace + f.ready w l ≤ l.crew n := by
  induction h with
  | nil => exact ⟨fun _ => rfl, fun n hn => by simp [fleet, Fleet.crews] at hn⟩
  | @snoc trace u u' ev hrun hE hs ih =>
      obtain ⟨hbefore, hafter⟩ := ih
      have hreach' := hrun.reachable.step hE hs
      have hsnoc : lateCalls cfg codec w l (trace ++ [(u, ev)]) =
          lateCalls cfg codec w l trace + (u.stopping w && Fleet.begins cfg codec w l (u, ev)).toNat := by
        rw [lateCalls, List.countP_append, List.countP_singleton, ← lateCalls]
        cases u.stopping w && Fleet.begins cfg codec w l (u, ev) <;> rfl
      rw [hsnoc]
      cases hu : u.stopping w with
      | false =>
          rw [hbefore hu]
          refine ⟨fun _ => rfl, fun n hn _ => ?_⟩
          have hready := (reachable_rostered hreach').ready_le (l := l) hn
          simpa using hready
      | true =>
          obtain ⟨hstop, hcrews⟩ := stopping_step hs hu
          refine ⟨fun hfalse => absurd (hstop.symm.trans hfalse) (by simp), fun n hn _ => ?_⟩
          have hle := hafter n (hcrews ▸ hn) hu
          have hready := ready_step (l := l) hs hu
          rw [Bool.true_and]
          omega

theorem Worker.cast_consumers (worker : Worker) :
    (worker.consumers : Int) = max 1 worker.workerConcurrency :=
  Int.toNat_of_nonneg (le_trans (by decide) (le_max_left _ _))

/-- Graceful shutdown: wherever its threads stand when a process is asked to stop, from then on its
    consumers begin at most `max(1, WORKER_CONCURRENCY)` more jobs, and its promoter and its reaper at most
    one more call each. -/
theorem shutdown_begins_le {E : Fleet → FleetEvent → Prop} (h : (fleet cfg codec).Run E trace f)
    {worker : Worker} (hw : f.workers[w]? = some worker) :
    (lateCalls cfg codec w .consumer trace : Int) ≤ max 1 worker.workerConcurrency ∧
      lateCalls cfg codec w .promoter trace ≤ 1 ∧ lateCalls cfg codec w .reaper trace ≤ 1 := by
  have hcrew : f.crews[w]? = some worker.consumers := by
    rw [Fleet.crews, List.getElem?_map, hw]
    rfl
  have hle : ∀ l : ThreadLoop, lateCalls cfg codec w l trace ≤ l.crew worker.consumers := by
    intro l
    obtain ⟨hbefore, hafter⟩ := lateCalls_run (w := w) (l := l) h
    cases hstop : f.stopping w with
    | false => exact (hbefore hstop).trans_le (Nat.zero_le _)
    | true => exact (Nat.le_add_right _ _).trans (hafter _ hcrew hstop)
  refine ⟨?_, hle .promoter, hle .reaper⟩
  rw [← worker.cast_consumers]
  exact Int.ofNat_le.2 (hle .consumer)

/-- The process is asked to stop while its one consumer waits for a job and its promoter has just found
    the flag clear: each of them begins one more call, and the reaper does nothing. -/
def stoppedSchedule : List FleetEvent :=
  [.startWorker 1] ++ turns 0 2 { now := 0 } ++ turns 1 1 { now := 0 } ++
    [.signal 0, .createExecution "q" 0, .request 0 { now := 0 }, .createExecution "r" 0,
      .request 1 { now := 0 }] ++
    turns 0 20 { now := 0 } ++ turns 1 5 { now := 0 } ++ turns 2 1 { now := 0 }

theorem shutdown_begins_le_one :
    ∃ trace f, (fleet (flatConfig (singleTask 1)) flatCodec).Run (Fleet.Allows True True) trace f ∧
      (∀ thread ∈ f.threads, thread.stage = .stopped) ∧ f.redis.jobs.length = 2 ∧
      lateCalls (flatConfig (singleTask 1)) flatCodec 0 .consumer trace = 1 ∧
      lateCalls (flatConfig (singleTask 1)) flatCodec 0 .promoter trace = 1 ∧
      (lateCalls (flatConfig (singleTask 1)) flatCodec 0 .consumer trace : Int) ≤ max 1 1 := by
  obtain ⟨trace, f, hrun, hcheck⟩ := (fleet (flatConfig (singleTask 1)) flatCodec).exists_run
    (E := Fleet.Allows True True) (fun _ _ => true)
    (fun trace f => decide ((∀ thread ∈ f.threads, thread.stage = .stopped) ∧ f.redis.jobs.length = 2 ∧
      lateCalls (flatConfig (singleTask 1)) flatCodec 0 .consumer trace = 1 ∧
      lateCalls (flatConfig (singleTask 1)) flatCodec 0 .promoter trace = 1 ∧
      f.workers[0]? = some ({ workerConcurrency := 1, stop := true } : Worker)))
    stoppedSchedule (fun _ _ _ => ⟨fun _ => trivial, fun _ => trivial⟩) (by decide +kernel)
  obtain ⟨hstopped, hjobs, hconsumer, hpromoter, hworker⟩ := of_decide_eq_true hcheck
  exact ⟨trace, f, hrun, hstopped, hjobs, hconsumer, hpromoter, (shutdown_begins_le hrun hworker).1⟩

end AgenticExecution
