import AgenticExecution.Completion
import AgenticExecution.EventStream
import Mathlib.Data.List.Destutter

set_option autoImplicit false

/-! # What a stream shows

The update events are the snapshots without repetitions, and `done` closes the stream right after the
first snapshot of a finished execution. That snapshot is not torn: when the execution row read COMPLETED,
its tasks and their results were final, whatever was committed before they were read. -/

namespace AgenticExecution

variable {cfg : Config} {e : ExecutionId} {s s' : Streaming} {db db' : Db}
  {trace : List (Streaming × StreamingEvent)} {payload : ExecutionRead}

section Destutter

variable {α : Type} [DecidableEq α]

theorem destutter'_snoc (b a : α) (l : List α) :
    (l ++ [a]).destutter' (· ≠ ·) b =
      if (b :: l).getLast? = some a then l.destutter' (· ≠ ·) b
      else l.destutter' (· ≠ ·) b ++ [a] := by
  induction l generalizing b with
  | nil =>
      show [a].destutter' (· ≠ ·) b = _
      rw [List.destutter'_singleton]
      by_cases h : b = a <;> simp [h]
  | cons c l ih =>
      rw [List.cons_append, List.destutter'_cons, List.destutter'_cons, ih, ih, List.getLast?_cons_cons]
      by_cases h : b = c
      · subst h
        simp
      · simp only [ne_eq, h, not_false_eq_true, if_true]
        split_ifs <;> rfl

/-- A list without repetitions of neighbours, one element on. -/
theorem destutter_snoc (a : α) (l : List α) :
    (l ++ [a]).destutter (· ≠ ·) =
      if l.getLast? = some a then l.destutter (· ≠ ·) else l.destutter (· ≠ ·) ++ [a] := by
  cases l with
  | nil => simp
  | cons b l => exact destutter'_snoc b a l

end Destutter

/-! ## Complete payloads -/

/-- The payload shows the final result, and every task of the execution COMPLETED with its result. -/
structure Db.Shown (db : Db) (e : ExecutionId) (payload : ExecutionRead) : Prop where
  finalResult : payload.finalResult ≠ none
  completed : ∀ r ∈ payload.tasks, r.status = .completed ∧
    ∃ result ∈ db.results, result.taskId = r.id ∧ r.result = some result.output
  planned : db.Planned e
  every : ∀ t ∈ db.tasks, t.executionId = e → ∃ r ∈ payload.tasks, r.id = t.id

theorem Db.Shown.mono (hle : db.Le db') (h : db.Shown e payload) : db'.Shown e payload where
  finalResult := h.finalResult
  completed r hr := by
    obtain ⟨hs, result, hmem, hid, hout⟩ := h.completed r hr
    exact ⟨hs, result, hle.result result hmem, hid, hout⟩
  planned := h.planned.mono hle
  every t' ht' he := by
    obtain ⟨t, ht, htt'⟩ := hle.task_origin h.planned ht' he
    obtain ⟨r, hr, hid⟩ := h.every t ht (htt'.executionId.symm.trans he)
    exact ⟨r, hr, hid.trans htt'.id.symm⟩

/-- What the rest of a snapshot rests on when its execution row was COMPLETED. -/
structure Db.Showing (db : Db) (x : Execution) (rest : List Task) (reads : List TaskRead) : Prop where
  sealed : db.Sealed x
  restCompleted : ∀ t ∈ rest, t.status = .completed ∧ db.Stored t.id
  readsCompleted : ∀ r ∈ reads, r.status = .completed ∧
    ∃ result ∈ db.results, result.taskId = r.id ∧ r.result = some result.output
  every : ∀ t ∈ db.tasks, t.executionId = x.id →
    (∃ u ∈ rest, u.id = t.id) ∨ ∃ r ∈ reads, r.id = t.id

theorem Db.Showing.mono {x : Execution} {rest : List Task} {reads : List TaskRead} (hle : db.Le db')
    (h : db.Showing x rest reads) : db'.Showing x rest reads where
  sealed := h.sealed.mono hle
  restCompleted t ht := ⟨(h.restCompleted t ht).1, (h.restCompleted t ht).2.mono hle⟩
  readsCompleted r hr := by
    obtain ⟨hs, result, hmem, hid, hout⟩ := h.readsCompleted r hr
    exact ⟨hs, result, hle.result result hmem, hid, hout⟩
  every t' ht' he := by
    obtain ⟨t, ht, htt'⟩ := hle.task_origin h.sealed.planned ht' he
    rw [htt'.id]
    exact h.every t ht (htt'.executionId.symm.trans he)

namespace Db.Showing

variable {x : Execution} {t : Task} {rest : List Task} {reads : List TaskRead}

/-- The rows that are selected of a COMPLETED execution are COMPLETED, with stored results. -/
theorem selected (hwf : db.WellFormed) (h : db.Sealed x) :
    db.Showing x (sortByIndex (db.tasksOf x.id)) [] := by
  have hrow : ∀ t, t ∈ sortByIndex (db.tasksOf x.id) ↔ t ∈ db.tasks ∧ t.executionId = x.id := by
    intro t
    rw [sortByIndex, List.mem_insertionSort, mem_tasksOf]
  constructor
  case sealed => exact h
  case restCompleted =>
    intro t ht
    obtain ⟨ht, he⟩ := (hrow t).1 ht
    have hcompleted := h.task ht he
    exact ⟨hcompleted, (hwf.rows t ht).stored hcompleted⟩
  case readsCompleted => simp
  case every => exact fun t ht he => .inl ⟨t, (hrow t).2 ⟨ht, he⟩, rfl⟩

/-- The result of the next task is there when it is loaded. -/
theorem loaded (h : db.Showing x (t :: rest) reads) :
    db.Showing x rest (reads ++ [t.modelValidate (db.results.find? t.id)]) := by
  constructor
  case sealed => exact h.sealed
  case restCompleted => exact fun u hu => h.restCompleted u (List.mem_cons_of_mem _ hu)
  case readsCompleted =>
    intro r hr
    rcases List.mem_append.1 hr with hr | hr
    · exact h.readsCompleted r hr
    · obtain rfl := List.mem_singleton.1 hr
      obtain ⟨hcompleted, result, hmem, hid⟩ := h.restCompleted t List.mem_cons_self
      refine ⟨hcompleted, result, hmem, hid, ?_⟩
      show (db.results.find? t.id).map TaskResult.output = _
      rw [Table.find?_eq_some_iff.2 ⟨hmem, hid⟩]
      rfl
  case every =>
    intro u hu he
    rcases h.every u hu he with ⟨v, hv, hid⟩ | ⟨r, hr, hid⟩
    · rcases List.mem_cons.1 hv with rfl | hv
      · exact .inr ⟨_, List.mem_append_right _ (List.mem_singleton.2 rfl), hid⟩
      · exact .inl ⟨v, hv, hid⟩
    · exact .inr ⟨r, List.mem_append_left _ hr, hid⟩

theorem finalResult (h : db.Showing x rest reads) : x.finalResult ≠ none := by
  obtain ⟨tasks, outcomes, -, -, hres, -⟩ := h.sealed
  rw [hres]
  exact Option.some_ne_none _

/-- Once all results are loaded, the payload is complete. -/
theorem shown (h : db.Showing x [] reads) : db.Shown x.id (x.modelValidate reads) where
  finalResult := h.finalResult
  completed := h.readsCompleted
  planned := h.sealed.planned
  every t ht he := (h.every t ht he).resolve_left (by simp)

end Db.Showing

/-- What the stream has read of a COMPLETED execution at each point. -/
def StreamPc.Knows (db : Db) (e : ExecutionId) : StreamPc → Prop
  | .selectTasks x => x.id = e ∧ (x.status = .completed → db.Sealed x)
  | .loadResults x rest reads =>
    x.id = e ∧ (x.status = .completed → db.Showing x rest reads)
  | .compare payload => payload.status = .completed → db.Shown e payload
  | .poll | .getExecution | .yieldDone | .closed => True

theorem StreamPc.Knows.mono {pc : StreamPc} (hle : db.Le db') (h : pc.Knows db e) :
    pc.Knows db' e := by
  cases pc with
  | selectTasks x => exact ⟨h.1, fun hs => (h.2 hs).mono hle⟩
  | loadResults x rest reads => exact ⟨h.1, fun hs => (h.2 hs).mono hle⟩
  | compare payload => exact fun hs => (h hs).mono hle
  | poll | getExecution | yieldDone | closed => trivial

/-- All that the stream has sent or is about to send of a COMPLETED execution is complete. -/
structure Stream.Sound (st : Stream) (db : Db) (e : ExecutionId) : Prop where
  knows : st.pc.Knows db e
  sent : ∀ payload, .update payload ∈ st.events → payload.status = .completed → db.Shown e payload

theorem Stream.Sound.init (db : Db) (e : ExecutionId) : Stream.Sound {} db e where
  knows := trivial
  sent payload hmem := by cases hmem

theorem Stream.Sound.mono {st : Stream} (hle : db.Le db') (h : st.Sound db e) : st.Sound db' e where
  knows := h.knows.mono hle
  sent payload hmem hs := (h.sent payload hmem hs).mono hle

theorem Stream.Sound.step {st st' : Stream} {timeUp : Bool} (hwf : db.WellFormed)
    (hsealed : db.AllSealed) (h : st.Sound db e) (hs : st.step e timeUp db = some st') :
    st'.Sound db e := by
  obtain ⟨pc, last, events⟩ := st
  obtain ⟨hknows, hsent⟩ := h
  cases pc with
  | poll =>
      obtain rfl := Option.some.inj hs
      refine ⟨?_, hsent⟩
      show (if timeUp then StreamPc.closed else .getExecution).Knows db e
      split_ifs <;> trivial
  | getExecution =>
      simp only [Stream.step] at hs
      split at hs
      · obtain rfl := Option.some.inj hs
        exact ⟨trivial, by simpa [Stream.yield] using hsent⟩
      · next x hfind =>
          obtain rfl := Option.some.inj hs
          obtain ⟨hx, hid⟩ := Table.find?_eq_some_iff.1 hfind
          exact ⟨⟨hid, fun hst => hsealed x hx hst⟩, hsent⟩
  | selectTasks x =>
      obtain rfl := Option.some.inj hs
      exact ⟨⟨hknows.1, fun hst => .selected hwf (hknows.2 hst)⟩, hsent⟩
  | loadResults x rest reads =>
      obtain ⟨rfl, hshowing⟩ := hknows
      cases rest with
      | nil =>
          obtain rfl := Option.some.inj hs
          exact ⟨fun hst => (hshowing hst).shown, hsent⟩
      | cons t rest =>
          obtain rfl := Option.some.inj hs
          exact ⟨⟨rfl, fun hst => (hshowing hst).loaded⟩, hsent⟩
  | compare payload =>
      simp only [Stream.step] at hs
      split at hs
      · obtain rfl := Option.some.inj hs
        refine ⟨?_, ?_⟩
        · show (if payload.status.isTerminal then StreamPc.yieldDone else .poll).Knows db e
          split_ifs <;> trivial
        · intro payload' hmem hst
          rcases List.mem_append.1 hmem with hmem | hmem
          · exact hsent payload' hmem hst
          · obtain rfl := StreamEvent.update.inj (List.mem_singleton.1 hmem)
            exact hknows hst
      · obtain rfl := Option.some.inj hs
        exact ⟨trivial, by simpa [Stream.yield] using hsent⟩
  | yieldDone =>
      obtain rfl := Option.some.inj hs
      exact ⟨trivial, by simpa [Stream.yield] using hsent⟩
  | closed => cases hs

/-! ## What the stream has sent -/

/-- How the events end: without `done` while the stream is open, and then with the update of a finished
    execution before it. -/
def Stream.Shape (st : Stream) : Prop :=
  match st.pc with
  | .yieldDone => .done ∉ st.events ∧
    ∃ pre payload, st.events = pre ++ [.update payload] ∧ payload.status.isTerminal = true
  | .closed => .done ∈ st.events → ∃ pre payload, st.events = pre ++ [.update payload, .done] ∧
    .done ∉ pre ∧ payload.status.isTerminal = true
  | _ => .done ∉ st.events ∧ ∀ payload, st.lastPayload = some payload →
    payload.status.isTerminal = false

/-- What was sent against what was observed. -/
structure Streamed (trace : List (Streaming × StreamingEvent)) (st : Stream) : Prop where
  updates : st.updates = (observed trace).destutter (· ≠ ·)
  last : st.lastPayload = (observed trace).getLast?
  shape : st.Shape
  finished : (∃ payload ∈ observed trace, payload.status.isTerminal = true) ↔
    .done ∈ st.events ∨ st.pc = .yieldDone

theorem Streamed.init : Streamed [] {} where
  updates := rfl
  last := rfl
  shape := by
    refine ⟨List.not_mem_nil, fun payload hp => ?_⟩
    cases hp
  finished := by
    constructor
    · rintro ⟨payload, hmem, -⟩
      cases hmem
    · rintro (hmem | hpc)
      · cases hmem
      · cases hpc

theorem Stream.updates_yield (st : Stream) (event : StreamEvent) (pc : StreamPc) :
    (st.yield event pc).updates = st.updates ++ (match event with
      | .update payload => [payload]
      | _ => []) := by
  show (st.events ++ [event]).filterMap _ = _
  rw [List.filterMap_append]
  cases event <;> rfl

/-- A step that compares nothing and yields no update. -/
theorem Streamed.quiet {st st' : Stream} {p : Streaming × StreamingEvent} (h : Streamed trace st)
    (hobs : observation p = none) (hupdates : st'.updates = st.updates)
    (hlast : st'.lastPayload = st.lastPayload) (hshape : st'.Shape)
    (hdone : (.done ∈ st'.events ∨ st'.pc = .yieldDone) ↔ (.done ∈ st.events ∨ st.pc = .yieldDone)) :
    Streamed (trace ++ [p]) st' := by
  have hsame : observed (trace ++ [p]) = observed trace := by
    simp [observed, hobs]
  exact ⟨by rw [hupdates, hsame, h.updates], by rw [hlast, hsame, h.last], hshape, by
    rw [hsame, h.finished, hdone]⟩

/-- While the stream is open no observed execution was finished, so the next one decides. -/
theorem Streamed.finished_snoc {st : Stream} (h : Streamed trace st) (hopen : .done ∉ st.events)
    (hpc : st.pc ≠ .yieldDone) : (∃ payload' ∈ observed trace ++ [payload],
      payload'.status.isTerminal = true) ↔ payload.status.isTerminal = true := by
  constructor
  · rintro ⟨payload', hmem, hterm⟩
    rcases List.mem_append.1 hmem with hmem | hmem
    · exact absurd (h.finished.1 ⟨payload', hmem, hterm⟩) (by simp [hopen, hpc])
    · rwa [List.mem_singleton.1 hmem] at hterm
  · exact fun hterm => ⟨payload, by simp, hterm⟩

/-- A snapshot that differs from the last one is sent. -/
theorem Streamed.changed {st : Stream} {p : Streaming × StreamingEvent} (h : Streamed trace st)
    (hobs : observation p = some payload) (hpc : st.pc = .compare payload)
    (hne : some payload ≠ st.lastPayload) :
    Streamed (trace ++ [p])
      { st.yield (.update payload) (if payload.status.isTerminal then .yieldDone else .poll) with
        lastPayload := some payload } := by
  obtain ⟨hopen, -⟩ : StreamEvent.done ∉ st.events ∧ _ := by simpa only [Stream.Shape, hpc] using h.shape
  have hsnoc : observed (trace ++ [p]) = observed trace ++ [payload] := by simp [observed, hobs]
  have hopen' : StreamEvent.done ∉ st.events ++ [.update payload] := by simp [hopen]
  constructor
  case updates =>
    have hdiffers : ¬ (observed trace).getLast? = some payload := fun heq => hne (heq.symm.trans h.last.symm)
    rw [hsnoc, destutter_snoc, if_neg hdiffers, ← h.updates]
    exact st.updates_yield (.update payload) .poll
  case last => simp [hsnoc]
  case shape =>
    cases hterm : payload.status.isTerminal with
    | true => exact ⟨hopen', st.events, payload, rfl, hterm⟩
    | false =>
        refine ⟨hopen', fun payload' hp => ?_⟩
        obtain rfl := Option.some.inj hp
        exact hterm
  case finished =>
    rw [hsnoc, h.finished_snoc hopen (by simp [hpc])]
    cases hterm : payload.status.isTerminal <;> simp [Stream.yield, hopen]

/-- A snapshot that was sent last is not sent again. -/
theorem Streamed.repeated {st : Stream} {p : Streaming × StreamingEvent} (h : Streamed trace st)
    (hobs : observation p = some payload) (hpc : st.pc = .compare payload)
    (hlast : st.lastPayload = some payload) : Streamed (trace ++ [p]) (st.yield .keepalive .poll) := by
  obtain ⟨hopen, hunfinished⟩ : StreamEvent.done ∉ st.events ∧ ∀ payload, st.lastPayload = some payload →
      payload.status.isTerminal = false := by simpa only [Stream.Shape, hpc] using h.shape
  have hsnoc : observed (trace ++ [p]) = observed trace ++ [payload] := by simp [observed, hobs]
  have hopen' : StreamEvent.done ∉ st.events ++ [.keepalive] := by simp [hopen]
  constructor
  case updates =>
    rw [hsnoc, destutter_snoc, if_pos (h.last ▸ hlast), ← h.updates, Stream.updates_yield, List.append_nil]
  case last =>
    rw [hsnoc, List.getLast?_concat]
    exact hlast
  case shape => exact ⟨hopen', hunfinished⟩
  case finished =>
    rw [hsnoc, h.finished_snoc hopen (by simp [hpc]), hunfinished payload hlast]
    simp [Stream.yield, hopen]

theorem Streamed.step {timeUp : Bool} {st' : Stream} (h : Streamed trace s.stream)
    (hs : s.stream.step e timeUp s.state.db = some st') :
    Streamed (trace ++ [(s, .stream timeUp)]) st' := by
  obtain ⟨state, pc, last, events⟩ := s
  have hshape := h.shape
  cases pc with
  | poll =>
      obtain rfl := Option.some.inj hs
      obtain ⟨hopen, hlast⟩ : StreamEvent.done ∉ events ∧ _ := hshape
      refine h.quiet rfl rfl rfl ?_ ?_
      · cases timeUp with
        | true => exact fun hdone => absurd hdone hopen
        | false => exact ⟨hopen, hlast⟩
      · cases timeUp <;> simp [Stream.goto]
  | getExecution =>
      obtain ⟨hopen, hlast⟩ : StreamEvent.done ∉ events ∧ _ := hshape
      simp only [Stream.step] at hs
      split at hs
      · obtain rfl := Option.some.inj hs
        have hopen' : StreamEvent.done ∉ events ++ [.error] := by simp [hopen]
        refine h.quiet rfl ?_ rfl (fun hdone => absurd hdone hopen') ?_
        · rw [Stream.updates_yield, List.append_nil]
        · simp [Stream.yield]
      · obtain rfl := Option.some.inj hs
        exact h.quiet rfl rfl rfl ⟨hopen, hlast⟩ (by simp [Stream.goto])
  | selectTasks x =>
      obtain rfl := Option.some.inj hs
      obtain ⟨hopen, hlast⟩ : StreamEvent.done ∉ events ∧ _ := hshape
      exact h.quiet rfl rfl rfl ⟨hopen, hlast⟩ (by simp [Stream.goto])
  | loadResults x rest reads =>
      obtain ⟨hopen, hlast⟩ : StreamEvent.done ∉ events ∧ _ := hshape
      cases rest with
      | nil | cons t rest =>
          obtain rfl := Option.some.inj hs
          exact h.quiet rfl rfl rfl ⟨hopen, hlast⟩ (by simp [Stream.goto])
  | compare payload =>
      simp only [Stream.step] at hs
      split at hs
      · next hne =>
          obtain rfl := Option.some.inj hs
          exact h.changed rfl rfl hne
      · next heq =>
          obtain rfl := Option.some.inj hs
          exact h.repeated rfl rfl (not_not.1 heq).symm
  | yieldDone =>
      obtain rfl := Option.some.inj hs
      obtain ⟨hopen, pre, payload, hevents, hterm⟩ : StreamEvent.done ∉ events ∧ ∃ pre payload,
        events = pre ++ [StreamEvent.update payload] ∧ payload.status.isTerminal = true := hshape
      refine h.quiet rfl ?_ rfl (fun _ => ⟨pre, payload, ?_, ?_, hterm⟩) ?_
      · rw [Stream.updates_yield, List.append_nil]
      · simp [Stream.yield, hevents]
      · exact fun hmem => hopen (hevents ▸ List.mem_append_left _ hmem)
      · simp [Stream.yield]
  | closed => cases hs

/-! ## Runs -/

theorem platform_step {ev : Event} (hs : (streaming cfg e).step s (.platform ev) = some s') :
    ∃ state, s.state.step cfg ev = some state ∧ s' = { s with state := state } := by
  change (s.state.step cfg ev).map (fun state => { s with state := state }) = some s' at hs
  cases hstep : s.state.step cfg ev with
  | none => rw [hstep] at hs; cases hs
  | some state =>
      rw [hstep] at hs
      exact ⟨state, rfl, (Option.some.inj hs).symm⟩

theorem stream_step {timeUp : Bool} (hs : (streaming cfg e).step s (.stream timeUp) = some s') :
    ∃ st, s.stream.step e timeUp s.state.db = some st ∧ s' = { s with stream := st } := by
  change (s.stream.step e timeUp s.state.db).map (fun st => { s with stream := st }) = some s' at hs
  cases hstep : s.stream.step e timeUp s.state.db with
  | none => rw [hstep] at hs; cases hs
  | some st =>
      rw [hstep] at hs
      exact ⟨st, rfl, (Option.some.inj hs).symm⟩

/-- The platform does not notice the stream. -/
theorem streaming_state {E : Streaming → StreamingEvent → Prop} (h : (streaming cfg e).Reachable E s) :
    (queueMode cfg).Reachable anyEvent s.state := by
  refine h.invariant (I := fun s : Streaming => (queueMode cfg).Reachable anyEvent s.state) ?_ ?_
  · show (queueMode cfg).Reachable anyEvent (queueMode cfg).init
    exact ⟨[], .nil⟩
  · intro s ev s' _ hr _ hs
    cases ev with
    | platform ev =>
        obtain ⟨state, hstep, rfl⟩ := platform_step hs
        exact hr.step trivial hstep
    | stream timeUp =>
        obtain ⟨st, -, rfl⟩ := stream_step hs
        exact hr

theorem streamed_run {E : Streaming → StreamingEvent → Prop} (h : (streaming cfg e).Run E trace s) :
    Streamed trace s.stream := by
  refine Lts.Run.invariant (I := fun trace (s : Streaming) => Streamed trace s.stream) ?_ ?_ h
  · exact .init
  · intro trace s ev s' _ hi _ hs
    cases ev with
    | platform ev =>
        obtain ⟨state, -, rfl⟩ := platform_step hs
        exact hi.quiet rfl rfl rfl hi.shape Iff.rfl
    | stream timeUp =>
        obtain ⟨st, hstep, rfl⟩ := stream_step hs
        exact hi.step hstep

theorem reachable_sound {E : Streaming → StreamingEvent → Prop} (h : (streaming cfg e).Reachable E s) :
    s.stream.Sound s.state.db e := by
  refine h.invariant (I := fun s : Streaming => s.stream.Sound s.state.db e) (.init _ _) ?_
  intro s ev s' hr hi _ hs
  have hstate := streaming_state hr
  cases ev with
  | platform ev =>
      obtain ⟨state, hstep, rfl⟩ := platform_step hs
      exact hi.mono (step_le hstate hstep)
  | stream timeUp =>
      obtain ⟨st, hstep, rfl⟩ := stream_step hs
      exact hi.step (reachable_inv hstate).wellFormed (reachable_allSealed hstate) hstep

/-- Whatever the workers do between its reads: the update events are the observed snapshots without
    repetitions; `done` was sent, or is sent next, exactly if one of them was of a finished execution;
    it was sent once at most, and last; and before it stands the update of the finished execution, which,
    if that is COMPLETED, shows its final result and every task COMPLETED with its result. -/
theorem stream_faithful {E : Streaming → StreamingEvent → Prop}
    (h : (streaming cfg e).Run E trace s) :
    s.stream.updates = (observed trace).destutter (· ≠ ·) ∧
    ((∃ payload ∈ observed trace, payload.status.isTerminal = true) ↔
      .done ∈ s.stream.events ∨ s.stream.pc = .yieldDone) ∧
    (.done ∈ s.stream.events → s.stream.pc = .closed ∧
      ∃ pre payload, s.stream.events = pre ++ [.update payload, .done] ∧ .done ∉ pre ∧
        payload.status.isTerminal = true ∧
        (payload.status = .completed → payload.finalResult ≠ none ∧
          (∀ r ∈ payload.tasks, r.status = .completed ∧
            ∃ result ∈ s.state.db.results, result.taskId = r.id ∧ r.result = some result.output) ∧
          ∀ t ∈ s.state.db.tasks, t.executionId = e → ∃ r ∈ payload.tasks, r.id = t.id)) := by
  have hstreamed := streamed_run h
  refine ⟨hstreamed.updates, hstreamed.finished, fun hdone => ?_⟩
  have hsound := reachable_sound h.reachable
  have hshape := hstreamed.shape
  cases hpc : s.stream.pc with
  | closed =>
      rw [Stream.Shape, hpc] at hshape
      obtain ⟨pre, payload, hevents, hpre, hterm⟩ := hshape hdone
      refine ⟨rfl, pre, payload, hevents, hpre, hterm, fun hst => ?_⟩
      have hshown := hsound.sent payload (by simp [hevents]) hst
      exact ⟨hshown.finalResult, hshown.completed, hshown.every⟩
  | poll | getExecution | selectTasks | loadResults | compare | yieldDone =>
      rw [Stream.Shape, hpc] at hshape
      exact absurd hdone hshape.1

/-- A poll of an execution that has just been submitted, one while its tasks run, and one at its end,
    after which the stream closes. -/
def polledSchedule : List StreamingEvent :=
  (completionSchedule.take 2).map .platform ++ List.replicate 5 (.stream false) ++
    ((completionSchedule.drop 2).take 40).map .platform ++ List.replicate 8 (.stream false) ++
    (completionSchedule.drop 42).map .platform ++ List.replicate 9 (.stream false)

theorem stream_faithful_completed :
    ∃ trace s, (streaming (fallbackConfig {}) 1).Run (fun _ _ => True) trace s ∧
      s.stream.events.length = 4 ∧ ∃ pre payload, s.stream.events = pre ++ [.update payload, .done] ∧
        payload.status = .completed ∧ ∀ r ∈ payload.tasks, r.status = .completed := by
  obtain ⟨trace, s, hrun, hcheck⟩ := (streaming (fallbackConfig {}) 1).exists_run
    (E := fun _ _ => True) (fun _ _ => true)
    (fun _ s => s.stream.events.length == 4 && s.stream.events.contains .done &&
      s.stream.updates.all fun payload => payload.status ≠ .failed) polledSchedule
    (fun _ _ _ => trivial) (by decide +kernel)
  obtain ⟨⟨hlength, hdone⟩, hnot⟩ : (s.stream.events.length = 4 ∧ .done ∈ s.stream.events) ∧
      ∀ payload ∈ s.stream.updates, payload.status ≠ .failed := by
    simpa using hcheck
  obtain ⟨-, pre, payload, hevents, -, hterm, hcompleted⟩ := (stream_faithful hrun).2.2 hdone
  have hst : payload.status = .completed := by
    have hne : payload.status ≠ .failed := hnot payload (by simp [Stream.updates, hevents])
    cases hs : payload.status with
    | completed => rfl
    | failed => exact absurd hs hne
    | pending | planning | running => simp [hs, ExecutionStatus.isTerminal] at hterm
  exact ⟨trace, s, hrun, hlength, pre, payload, hevents, hst, fun r hr => ((hcompleted hst).2.1 r hr).1⟩

end AgenticExecution
