import AgenticExecution.Streaming
import AgenticExecution.Library.EventSource

set_option autoImplicit false

/-! # The text of the event stream

What `stream_execution_events` writes to the connection, and what the `EventSource` of a browser makes of
it. The connection may cut the text anywhere, and end anywhere: the browser has then been told a beginning
of what the stream observed, and once it has been told `done`, all of it. -/

namespace AgenticExecution

/-- The snapshot goes through `json.dumps` and the browser's `JSON.parse` unchanged, in one line. -/
structure Transmits (dumps : ExecutionRead → String) (parse : String → Option ExecutionRead)
    (payload : ExecutionRead) : Prop where
  parse_dumps : parse (dumps payload) = some payload
  line : '\n' ∉ (dumps payload).toList ∧ '\r' ∉ (dumps payload).toList

/-- The text of one yield of `event_stream`; `dumps` is `json.dumps` of the dumped model. -/
def StreamEvent.text (dumps : ExecutionRead → String) : StreamEvent → String
  | .update payload => "event: update\ndata: " ++ dumps payload ++ "\n\n"
  | .done => "event: done\ndata: \x7b\x7d\n\n"
  | .error => "event: error\ndata: " ++ "\x7b\"detail\": \"not found\"\x7d" ++ "\n\n"
  | .keepalive => ": keepalive\n\n"

/-- The characters sent so far. -/
def Stream.text (dumps : ExecutionRead → String) (st : Stream) : List Char :=
  st.events.flatMap fun ev => (ev.text dumps).toList

/-- The type of an update event. -/
def updateType : List Char := "update".toList

/-- The type of the event that ends the stream. -/
def doneType : List Char := "done".toList

/-- The closing event. -/
def doneItem : EventSource.Item := .event { type := doneType, data := "\x7b\x7d".toList }

/-- The event for an execution that does not exist. -/
def errorItem : EventSource.Item :=
  .event { type := "error".toList, data := "\x7b\"detail\": \"not found\"\x7d".toList }

/-- A comment, which no listener gets. -/
def keepaliveItem : EventSource.Item := .comment " keepalive".toList

variable (dumps : ExecutionRead → String) (parse : String → Option ExecutionRead)

/-- What a yield writes, as an item of the format. -/
def StreamEvent.item : StreamEvent → EventSource.Item
  | .update payload => .event { type := updateType, data := (dumps payload).toList }
  | .done => doneItem
  | .error => errorItem
  | .keepalive => keepaliveItem

/-- The event a browser dispatches for a yield. -/
def StreamEvent.dispatched (ev : StreamEvent) : Option EventSource.Event := (ev.item dumps).event?

/-- The snapshots the listener for `update` decodes. -/
def snapshots (events : List EventSource.Event) : List ExecutionRead :=
  events.filterMap fun ev =>
    if ev.type = updateType then parse (String.ofList ev.data) else none

variable {dumps parse} {cfg : Config} {e : ExecutionId} {trace : List (Streaming × StreamingEvent)}
  {s : Streaming}

theorem StreamEvent.text_eq (ev : StreamEvent) :
    (ev.text dumps).toList = (ev.item dumps).text := by
  cases ev with
  | update payload =>
      show ("event: update\ndata: " ++ dumps payload ++ "\n\n").toList = _
      rw [String.toList_append, String.toList_append]
      rfl
  | done =>
      show "event: done\ndata: \x7b\x7d\n\n".toList = doneItem.text
      decide +kernel
  | error =>
      show ("event: error\ndata: " ++ "\x7b\"detail\": \"not found\"\x7d" ++ "\n\n").toList =
        errorItem.text
      decide +kernel
  | keepalive =>
      show ": keepalive\n\n".toList = keepaliveItem.text
      decide +kernel

theorem StreamEvent.item_wellFormed {ev : StreamEvent}
    (h : ∀ payload, ev = .update payload → Transmits dumps parse payload) :
    (ev.item dumps).WellFormed := by
  cases ev with
  | update payload =>
      have htype : updateType ≠ [] ∧ '\n' ∉ updateType ∧ '\r' ∉ updateType := by decide +kernel
      exact ⟨htype.1, htype.2, (h payload rfl).line⟩
  | done => exact ⟨by decide +kernel, by decide +kernel, by decide +kernel⟩
  | error => exact ⟨by decide +kernel, by decide +kernel, by decide +kernel⟩
  | keepalive => exact ⟨by decide +kernel, by decide +kernel⟩

theorem flatMap_text (events : List StreamEvent) :
    (events.flatMap fun ev => (ev.text dumps).toList) =
      EventSource.write (events.map (StreamEvent.item dumps)) := by
  unfold EventSource.write
  rw [List.flatMap_map]
  exact List.flatMap_congr fun ev _ => ev.text_eq

theorem items_wellFormed {events : List StreamEvent}
    (h : ∀ payload, .update payload ∈ events → Transmits dumps parse payload) :
    ∀ item ∈ events.map (StreamEvent.item dumps), item.WellFormed := by
  intro item hitem
  obtain ⟨ev, hev, rfl⟩ := List.mem_map.1 hitem
  exact StreamEvent.item_wellFormed fun payload hpayload => h payload (hpayload ▸ hev)

/-- Of the whole text a browser reads the events of the stream, without the keepalives. -/
theorem read_text {st : Stream}
    (h : ∀ payload, .update payload ∈ st.events → Transmits dumps parse payload) :
    EventSource.read (st.text dumps) = st.events.filterMap (StreamEvent.dispatched dumps) := by
  unfold Stream.text
  rw [flatMap_text, EventSource.read_write (items_wellFormed h), List.filterMap_map]
  rfl

/-- The text of the events, and of one more update as far as `n` characters of its data. -/
def cutText (dumps : ExecutionRead → String) (events : List StreamEvent) (payload : ExecutionRead)
    (n : Nat) : List Char :=
  (events.flatMap fun ev => (ev.text dumps).toList) ++
    ("event: update\ndata: ".toList ++ (dumps payload).toList.take n)

theorem cutText_prefix (before : List StreamEvent) (payload : ExecutionRead) (n : Nat)
    (after : List StreamEvent) :
    cutText dumps before payload n <+:
      (before ++ .update payload :: after).flatMap fun ev => (ev.text dumps).toList := by
  have hnext : (StreamEvent.text dumps (.update payload)).toList =
      "event: update\ndata: ".toList ++ ((dumps payload).toList ++ "\n\n".toList) := by
    show ("event: update\ndata: " ++ dumps payload ++ "\n\n").toList = _
    rw [String.toList_append, String.toList_append, List.append_assoc]
  unfold cutText
  rw [List.flatMap_append, List.flatMap_cons, hnext, List.append_assoc, List.append_assoc]
  refine (List.prefix_append_right_inj _).2 ((List.prefix_append_right_inj _).2 ?_)
  exact (List.take_prefix n _).trans (List.prefix_append _ _)

/-- A browser cut off within the data of an update has dispatched what came before it. -/
theorem read_cutText {events : List StreamEvent}
    (h : ∀ payload, .update payload ∈ events → Transmits dumps parse payload)
    {payload : ExecutionRead} (hpayload : Transmits dumps parse payload) (n : Nat) :
    EventSource.read (cutText dumps events payload n) =
      events.filterMap (StreamEvent.dispatched dumps) := by
  have hhead : "event: update\ndata: ".toList = EventSource.eventField ++ ':' :: ' ' :: updateType ++
      '\n' :: (EventSource.dataField ++ [':', ' ']) := by decide +kernel
  have hdata : '\n' ∉ (dumps payload).toList.take n ∧ '\r' ∉ (dumps payload).toList.take n :=
    ⟨fun hmem => hpayload.line.1 (List.mem_of_mem_take hmem),
      fun hmem => hpayload.line.2 (List.mem_of_mem_take hmem)⟩
  have htype : '\n' ∉ updateType ∧ '\r' ∉ updateType := by decide +kernel
  have hcut := EventSource.read_write_cut (items_wellFormed h) htype hdata
  rw [List.filterMap_map] at hcut
  refine Eq.trans ?_ hcut
  unfold cutText
  rw [flatMap_text, hhead]
  simp only [List.append_assoc, List.cons_append, List.nil_append]

theorem snapshots_dispatched {events : List StreamEvent}
    (h : ∀ payload, .update payload ∈ events → Transmits dumps parse payload) :
    snapshots parse (events.filterMap (StreamEvent.dispatched dumps)) =
      Stream.updates { events } := by
  unfold snapshots Stream.updates
  rw [List.filterMap_filterMap]
  refine List.filterMap_congr fun ev hev => ?_
  cases ev with
  | update payload =>
      show (if updateType = updateType then parse (String.ofList (dumps payload).toList)
        else none) = some payload
      rw [if_pos rfl, String.ofList_toList, (h payload hev).parse_dumps]
  | done => rfl
  | error => rfl
  | keepalive => rfl

theorem eq_done_of_dispatched {ev : StreamEvent} {x : EventSource.Event}
    (h : ev.dispatched dumps = some x) (htype : x.type = doneType) : ev = .done := by
  cases ev with
  | done => rfl
  | update payload =>
      obtain rfl := Option.some.inj h
      exact absurd htype (by decide +kernel : updateType ≠ doneType)
  | error =>
      obtain rfl := Option.some.inj h
      exact absurd htype (by decide +kernel : "error".toList ≠ doneType)
  | keepalive => cases h

/-- Of the events dispatched only the last can be `done`: a part of them with a `done` is all of them. -/
theorem eq_of_done {events : List StreamEvent} {pre : List StreamEvent} {payload : ExecutionRead}
    (hevents : events = pre ++ [.update payload, .done]) (hpre : .done ∉ pre)
    {received : List EventSource.Event}
    (hreceived : received <+: events.filterMap (StreamEvent.dispatched dumps))
    (hdone : ∃ ev ∈ received, ev.type = doneType) :
    received = events.filterMap (StreamEvent.dispatched dumps) := by
  have hsplit : events.filterMap (StreamEvent.dispatched dumps) =
      (pre ++ [StreamEvent.update payload]).filterMap (StreamEvent.dispatched dumps) ++
        [{ type := doneType, data := "\x7b\x7d".toList }] := by
    rw [hevents, List.append_cons, List.filterMap_append]
    rfl
  rw [hsplit] at hreceived ⊢
  rcases List.prefix_concat_iff.1 hreceived with heq | hearlier
  · exact heq
  · obtain ⟨ev, hev, htype⟩ := hdone
    obtain ⟨sent, hsent, hdispatched⟩ := List.mem_filterMap.1 (hearlier.subset hev)
    obtain rfl := eq_done_of_dispatched hdispatched htype
    rcases List.mem_append.1 hsent with hold | hlast
    · exact absurd hold hpre
    · cases List.mem_singleton.1 hlast

/-- Every snapshot sent was observed. -/
theorem Streamed.observed {st : Stream} {payload : ExecutionRead} (h : Streamed trace st)
    (hmem : .update payload ∈ st.events) : payload ∈ observed trace := by
  have hupdate : payload ∈ st.updates := List.mem_filterMap.2 ⟨_, hmem, rfl⟩
  rw [h.updates] at hupdate
  exact (List.destutter_sublist (· ≠ ·) _).subset hupdate

/-- Before `done` stands the update of a finished execution. -/
theorem Streamed.done {st : Stream} (h : Streamed trace st) (hdone : .done ∈ st.events) :
    ∃ pre payload, st.events = pre ++ [.update payload, .done] ∧ .done ∉ pre ∧
      payload.status.isTerminal = true := by
  have hshape := h.shape
  cases hpc : st.pc with
  | closed =>
      rw [Stream.Shape, hpc] at hshape
      exact hshape hdone
  | poll | getExecution | selectTasks | loadResults | compare | yieldDone =>
      rw [Stream.Shape, hpc] at hshape
      exact absurd hdone hshape.1

/-- A browser that has received any beginning of the text, in whatever pieces, has dispatched a beginning
    of the stream's events, and decoded a beginning of the observed snapshots without repetitions; once
    it has dispatched `done`, it has decoded all of them, and the last is of a finished execution. -/
theorem received_faithful {E : Streaming → StreamingEvent → Prop}
    (h : (streaming cfg e).Run E trace s)
    (hjson : ∀ payload ∈ observed trace, Transmits dumps parse payload) {received : List Char}
    (hreceived : received <+: s.stream.text dumps) :
    EventSource.read received <+: s.stream.events.filterMap (StreamEvent.dispatched dumps) ∧
    snapshots parse (EventSource.read received) <+: (observed trace).destutter (· ≠ ·) ∧
    ((∃ ev ∈ EventSource.read received, ev.type = doneType) →
      snapshots parse (EventSource.read received) = (observed trace).destutter (· ≠ ·) ∧
      ∃ payload, (snapshots parse (EventSource.read received)).getLast? = some payload ∧
        payload.status.isTerminal = true) := by
  have hstreamed := streamed_run h
  have htransmits : ∀ payload, .update payload ∈ s.stream.events → Transmits dumps parse payload :=
    fun payload hpayload => hjson payload (hstreamed.observed hpayload)
  have hread : EventSource.read received <+: s.stream.events.filterMap (StreamEvent.dispatched dumps) :=
    read_text htransmits ▸ EventSource.read_prefix hreceived
  have hall : snapshots parse (s.stream.events.filterMap (StreamEvent.dispatched dumps)) =
      (observed trace).destutter (· ≠ ·) :=
    (snapshots_dispatched htransmits).trans hstreamed.updates
  refine ⟨hread, hall ▸ hread.filterMap _, fun hdone => ?_⟩
  obtain ⟨ev, hev, htype⟩ := hdone
  obtain ⟨sent, hsent, hdispatched⟩ := List.mem_filterMap.1 (hread.subset hev)
  obtain rfl := eq_done_of_dispatched hdispatched htype
  obtain ⟨pre, payload, hevents, hpre, hterminal⟩ := hstreamed.done hsent
  have hwhole := eq_of_done hevents hpre hread ⟨ev, hev, htype⟩
  rw [hwhole]
  refine ⟨hall, payload, ?_, hterminal⟩
  rw [snapshots_dispatched htransmits]
  unfold Stream.updates
  rw [hevents, List.append_cons, List.filterMap_append, List.filterMap_append]
  simp

/-- An execution whose planning model does not answer. Its stream reads it three times, before the job
    of the plan is taken and after the failure. -/
def failedSchedule : List StreamingEvent :=
  (.createExecution "Summarize the report" 0 :: runs 0 1 { now := 0 }).map .platform ++
  List.replicate 10 (.stream false) ++
  (.dequeue :: runs 1 3 { now := 0 } ++ .raise 1 ⟨"LLMError", "no answer"⟩ ::
    runs 1 1 { now := 0 }).map .platform ++
  List.replicate 6 (.stream false)

/-- What the stream reads first. -/
def pendingPayload : ExecutionRead where
  id := 1
  userRequest := "Summarize the report"
  status := .pending
  finalResult := none
  error := none
  startedAt := none
  completedAt := none
  durationMs := none
  totalTokens := none
  costUsd := none
  updatedAt := 0
  tasks := []

/-- What it reads last. -/
def failedPayload : ExecutionRead :=
  { pendingPayload with
    status := .failed
    error := some "Planning failed: LLMError: no answer" }

/-- What `json.dumps` makes of an execution that was not started; its texts need no escapes. -/
def unstartedText (payload : ExecutionRead) : String :=
  "\x7b\"id\": \"00000000-0000-0000-0000-000000000001\", \"user_request\": \"" ++
  payload.userRequest ++ "\", \"status\": \"" ++ payload.status.value ++
  "\", \"final_result\": null, \"error\": " ++
  ((payload.error.map fun error => "\"" ++ error ++ "\"").getD "null") ++
  ", \"started_at\": null, \"completed_at\": null, \"duration_ms\": null, " ++
  "\"total_tokens\": null, \"cost_usd\": null, \"created_at\": \"1970-01-01T00:00:00Z\", " ++
  "\"updated_at\": \"1970-01-01T00:00:00Z\", \"tasks\": []\x7d"

/-- `JSON.parse` of the two. -/
def unstartedParse (text : String) : Option ExecutionRead :=
  [pendingPayload, failedPayload].find? fun payload => unstartedText payload = text

theorem unstartedText_line (payload : ExecutionRead) {c : Char} (hc : c = '\n' ∨ c = '\r')
    (hrequest : c ∉ payload.userRequest.toList) (hstatus : c ∉ payload.status.value.toList)
    (herror : c ∉ ((payload.error.map fun error => "\"" ++ error ++ "\"").getD "null").toList) :
    c ∉ (unstartedText payload).toList := by
  unfold unstartedText
  simp only [String.toList_append, List.mem_append, not_or, and_assoc]
  refine ⟨?_, hrequest, ?_, hstatus, ?_, herror, ?_⟩
  all_goals
    obtain rfl | rfl := hc <;> decide +kernel

theorem transmits_pendingPayload : Transmits unstartedText unstartedParse pendingPayload where
  parse_dumps := List.find?_cons_of_pos (by simp)
  line := ⟨unstartedText_line _ (.inl rfl) (by decide +kernel) (by decide +kernel) (by decide +kernel),
    unstartedText_line _ (.inr rfl) (by decide +kernel) (by decide +kernel) (by decide +kernel)⟩

theorem transmits_failedPayload : Transmits unstartedText unstartedParse failedPayload where
  parse_dumps := by
    have hne : ¬ unstartedText pendingPayload = unstartedText failedPayload := by decide +kernel
    unfold unstartedParse
    rw [List.find?_cons_of_neg (by simpa using hne), List.find?_cons_of_pos (by simp)]
  line := ⟨unstartedText_line _ (.inl rfl) (by decide +kernel) (by decide +kernel) (by decide +kernel),
    unstartedText_line _ (.inr rfl) (by decide +kernel) (by decide +kernel) (by decide +kernel)⟩

theorem received_faithful_failed :
    ∃ trace s received, (streaming (fallbackConfig {}) 1).Run (fun _ _ => True) trace s ∧
      received <+: s.stream.text unstartedText ∧
      snapshots unstartedParse (EventSource.read received) = [pendingPayload] ∧
      snapshots unstartedParse (EventSource.read (s.stream.text unstartedText)) =
        [pendingPayload, failedPayload] := by
  obtain ⟨trace, s, hrun, hcheck⟩ := (streaming (fallbackConfig {}) 1).exists_run
    (E := fun _ _ => True) (fun _ _ => true)
    (fun trace s => observed trace == [pendingPayload, pendingPayload, failedPayload] &&
      s.stream.events == [.update pendingPayload, .keepalive, .update failedPayload, .done])
    failedSchedule (fun _ _ _ => trivial) (by decide +kernel)
  obtain ⟨hobserved, hevents⟩ := Bool.and_eq_true_iff.1 hcheck
  have hobserved : observed trace = [pendingPayload, pendingPayload, failedPayload] :=
    eq_of_beq hobserved
  have hevents : s.stream.events =
      [.update pendingPayload, .keepalive, .update failedPayload, .done] := eq_of_beq hevents
  have hjson : ∀ payload ∈ observed trace, Transmits unstartedText unstartedParse payload := by
    rw [hobserved]
    exact List.forall_mem_cons.2 ⟨transmits_pendingPayload,
      List.forall_mem_cons.2 ⟨transmits_pendingPayload,
        List.forall_mem_singleton.2 transmits_failedPayload⟩⟩
  have hfirst : ∀ payload, .update payload ∈ [StreamEvent.update pendingPayload, .keepalive] →
      Transmits unstartedText unstartedParse payload := by
    intro payload hmem
    obtain rfl : payload = pendingPayload := by simpa using hmem
    exact transmits_pendingPayload
  have hdistinct : [pendingPayload, pendingPayload, failedPayload].destutter (· ≠ ·) =
      [pendingPayload, failedPayload] := by decide +kernel
  -- The connection breaks in the data of the second update.
  refine ⟨trace, s, cutText unstartedText [.update pendingPayload, .keepalive] failedPayload 60, hrun,
    ?_, ?_, ?_⟩
  · unfold Stream.text
    rw [hevents]
    exact cutText_prefix [.update pendingPayload, .keepalive] failedPayload 60 [.done]
  · rw [read_cutText hfirst transmits_failedPayload 60]
    exact snapshots_dispatched hfirst
  · have hdone : ∃ ev ∈ EventSource.read (s.stream.text unstartedText), ev.type = doneType := by
      rw [read_text (fun payload hmem => hjson payload ((streamed_run hrun).observed hmem)), hevents]
      exact ⟨_, List.mem_filterMap.2 ⟨.done, by simp, rfl⟩, rfl⟩
    rw [((received_faithful hrun hjson (List.prefix_refl _)).2.2 hdone).1, hobserved, hdistinct]

end AgenticExecution
