import AgenticExecution.Agent

set_option autoImplicit false

/-! # The conversation of an agent run

The messages grow by exchanges: a response that requests tools, and one observation for each of its
calls. What a run does is read off its log: which messages went to the LLM, what it replied, and which
tools were run. -/

namespace AgenticExecution

namespace Message

/-- The message is an observation. -/
def isTool : Message → Bool
  | .tool _ _ _ => true
  | _ => false

/-- The message carries the observation of the call. -/
def Answers (call : ToolCall) (m : Message) : Prop :=
  ∃ content, m = .tool call.id call.name content

end Message

/-- A prompt and whole exchanges after it. -/
inductive Transcript : List Message → Prop
  | prompt (content : String) : Transcript [.user content]
  | exchange {messages : List Message} (h : Transcript messages) (content : String)
      {calls : List ToolCall} {observations : List Message}
      (hanswers : List.Forall₂ Message.Answers calls observations) :
      Transcript (messages ++ .assistant content calls :: observations)

/-- Right after an assistant message with tool calls stand the observations of its calls, one for each
    and in their order, and then no further one. -/
def Paired (messages : List Message) : Prop :=
  ∀ before content calls after, messages = before ++ .assistant content calls :: after → calls ≠ [] →
    ∃ observations rest, after = observations ++ rest ∧
      List.Forall₂ Message.Answers calls observations ∧ ∀ m ∈ rest.head?, m.isTool = false

theorem isTool_of_answers {calls : List ToolCall} {observations : List Message}
    (h : List.Forall₂ Message.Answers calls observations) :
    ∀ m ∈ observations, m.isTool = true := by
  induction h with
  | nil => simp
  | cons hm _ ih =>
      obtain ⟨content, rfl⟩ := hm
      exact List.forall_mem_cons.2 ⟨rfl, ih⟩

theorem Transcript.paired {messages : List Message} (h : Transcript messages) : Paired messages := by
  induction h with
  | prompt content =>
      intro before content calls after hsplit _
      cases before with
      | nil => simp at hsplit
      | cons m before => simp at hsplit
  | @exchange messages _ content calls observations hanswers ih =>
      intro before content' calls' after hsplit hcalls
      rw [List.append_eq_append_iff] at hsplit
      obtain ⟨new, rfl, hnew⟩ | ⟨old, rfl, hold⟩ := hsplit
      · -- The message stands in the new exchange, whose observations are tool messages.
        cases new with
        | nil =>
            obtain ⟨hassistant, rfl⟩ := List.cons.inj hnew
            obtain ⟨-, rfl⟩ := Message.assistant.inj hassistant
            exact ⟨observations, [], by simp, hanswers, by simp⟩
        | cons m new =>
            obtain ⟨-, rfl⟩ := List.cons.inj hnew
            have := isTool_of_answers hanswers (.assistant content' calls') (by simp)
            cases this
      · cases old with
        | nil =>
            obtain ⟨hassistant, rfl⟩ := List.cons.inj hold
            obtain ⟨-, rfl⟩ := Message.assistant.inj hassistant
            exact ⟨after, [], by simp, hanswers, by simp⟩
        | cons m old =>
            obtain ⟨rfl, rfl⟩ := List.cons.inj hold
            obtain ⟨answered, rest, rfl, hanswered, hhead⟩ := ih before content' calls' old rfl hcalls
            refine ⟨answered, rest ++ .assistant content calls :: observations, by simp, hanswered, ?_⟩
            cases rest with
            | nil => simp [Message.isTool]
            | cons m rest => simpa using hhead

/-! ## What the calls of a response leave behind -/

section

variable (settings : AgentSettings) (tools : List Tool)

/-- The observation of a call, where it becomes the message at `position`. -/
def toolObservation (position : Nat) (call : ToolCall) : Message :=
  .tool call.id call.name
    (match toolByName tools call.name with
    | none => "ERROR: unknown tool '" ++ call.name ++ "'"
    | some tool => (executeTool settings tool position call.arguments).content)

/-- The observations of several calls, from `position` on. -/
def toolObservations : Nat → List ToolCall → List Message
  | _, [] => []
  | position, call :: rest =>
    toolObservation settings tools position call :: toolObservations (position + 1) rest

end

/-- The chat calls in a log, with their replies. -/
def AgentEvent.chat? : AgentEvent → Option (List Message × Except Exn LLMResponse)
  | .chat messages reply => some (messages, reply)
  | .tool _ _ _ => none

/-- The chat calls of a run. -/
def AgentLoop.chats (s : AgentLoop) : List (List Message × Except Exn LLMResponse) :=
  s.log.filterMap AgentEvent.chat?

variable {agent : Agent} {settings : AgentSettings} {tools : List Tool} {s s' : AgentLoop}
  {response : LLMResponse} {calls : List ToolCall}

theorem answers_toolObservations (position : Nat) (calls : List ToolCall) :
    List.Forall₂ Message.Answers calls (toolObservations settings tools position calls) := by
  induction calls generalizing position with
  | nil => exact .nil
  | cons call rest ih => exact .cons ⟨_, rfl⟩ (ih (position + 1))

theorem length_toolObservations (settings : AgentSettings) (tools : List Tool) (position : Nat)
    (calls : List ToolCall) :
    (toolObservations settings tools position calls).length = calls.length :=
  (answers_toolObservations position calls).length_eq.symm

/-- What is said and counted once the calls of a response are answered. -/
structure Answered (settings : AgentSettings) (tools : List Tool) (calls : List ToolCall)
    (s s' : AgentLoop) : Prop where
  messages : s'.messages = s.messages ++ toolObservations settings tools s.messages.length calls
  toolCallsMade : s'.toolCallsMade = s.toolCallsMade + calls.length
  chats : s'.chats = s.chats
  promptTokens : s'.promptTokens = s.promptTokens
  completionTokens : s'.completionTokens = s.completionTokens

theorem answered_runToolCall (settings : AgentSettings) (tools : List Tool) (s : AgentLoop)
    (call : ToolCall) :
    Answered settings tools [call] s (runToolCall settings tools s call) := by
  have hchats (result : ToolResult) : (s.ran call result).chats = s.chats := by
    simp [AgentLoop.chats, AgentLoop.ran, AgentEvent.chat?]
  unfold runToolCall
  cases htool : toolByName tools call.name with
  | none =>
      refine ⟨?_, rfl, rfl, rfl, rfl⟩
      simp [AgentLoop.observed, toolObservations, toolObservation, htool]
  | some tool =>
      refine ⟨?_, rfl, hchats _, rfl, rfl⟩
      simp [AgentLoop.observed, AgentLoop.ran, toolObservations, toolObservation, htool]

theorem answered_calls (settings : AgentSettings) (tools : List Tool) (calls : List ToolCall)
    (s : AgentLoop) :
    Answered settings tools calls s (calls.foldl (runToolCall settings tools) s) := by
  induction calls generalizing s with
  | nil => exact ⟨by simp [toolObservations], by simp, rfl, rfl, rfl⟩
  | cons call rest ih =>
      have hcall := answered_runToolCall settings tools s call
      have hrest := ih (runToolCall settings tools s call)
      refine ⟨?_, ?_, hrest.chats.trans hcall.chats, hrest.promptTokens.trans hcall.promptTokens,
        hrest.completionTokens.trans hcall.completionTokens⟩
      · rw [List.foldl_cons, hrest.messages, hcall.messages, List.length_append, List.append_assoc]
        rfl
      · rw [List.foldl_cons, hrest.toolCallsMade, hcall.toolCallsMade, List.length_singleton,
          List.length_cons]
        omega

/-- A turn appends one exchange and one chat call. -/
structure TurnTaken (settings : AgentSettings) (tools : List Tool) (response : LLMResponse)
    (s s' : AgentLoop) : Prop where
  messages : s'.messages = s.messages ++ .assistant response.text response.toolCalls ::
    toolObservations settings tools (s.messages.length + 1) response.toolCalls
  toolCallsMade : s'.toolCallsMade = s.toolCallsMade + response.toolCalls.length
  chats : s'.chats = s.chats ++ [(s.messages, .ok response)]
  promptTokens : s'.promptTokens = s.promptTokens + response.promptTokens.getD 0
  completionTokens : s'.completionTokens = s.completionTokens + response.completionTokens.getD 0

theorem chats_chatted (s : AgentLoop) (reply : Except Exn LLMResponse) :
    (s.chatted reply).chats = s.chats ++ [(s.messages, reply)] := by
  simp [AgentLoop.chats, AgentLoop.chatted, AgentEvent.chat?]

theorem turnTaken (settings : AgentSettings) (tools : List Tool) (s : AgentLoop)
    (response : LLMResponse) :
    TurnTaken settings tools response s (Agent.turn settings tools s response) := by
  have h := answered_calls settings tools response.toolCalls
    (((s.chatted (.ok response)).received response).requested response)
  have hlength :
      (((s.chatted (.ok response)).received response).requested response).messages.length =
        s.messages.length + 1 := List.length_append
  refine ⟨?_, h.toolCallsMade, h.chats.trans (chats_chatted s _), h.promptTokens, h.completionTokens⟩
  have hmessages := h.messages
  rw [hlength] at hmessages
  refine hmessages.trans ?_
  show (s.messages ++ [_]) ++ _ = _
  rw [List.append_assoc]
  rfl

/-! ## Rules for the loop -/

/-- What holds before every turn holds however the loop is left. -/
theorem loop_rule {I : Nat → AgentLoop → Prop} {Q : AgentLoop × Option Exn → Prop}
    (hexhausted : ∀ s, I 0 s → Q (s, none))
    (hraised : ∀ n s exc, I (n + 1) s → agent.chat tools s.messages = .error exc →
      Q (s.chatted (.error exc), some exc))
    (hanswer : ∀ n s response, I (n + 1) s → agent.chat tools s.messages = .ok response →
      response.toolCalls = [] → Q ((s.chatted (.ok response)).received response, none))
    (hturn : ∀ n s response, I (n + 1) s → agent.chat tools s.messages = .ok response →
      response.toolCalls ≠ [] → I n (Agent.turn settings tools s response)) (n : Nat) (s : AgentLoop)
    (h : I n s) : Q (agent.loop settings tools n s) := by
  induction n generalizing s with
  | zero => exact hexhausted s h
  | succ n ih =>
      unfold Agent.loop
      split
      · rename_i exc hreply
        exact hraised n s exc h hreply
      · rename_i response hreply
        split_ifs with hcalls
        · exact hanswer n s response h hreply (List.isEmpty_iff.1 hcalls)
        · exact ih _ (hturn n s response h hreply fun hnil => hcalls (List.isEmpty_iff.2 hnil))

/-- A run ends where its loop was left. -/
theorem run_final (agent : Agent) (registry : String → Option Tool) (settings : AgentSettings)
    (taskDescription context : String) :
    (agent.run registry settings taskDescription context).final =
      (agent.loop settings (agent.tools registry settings) (Agent.turns settings)
        (Agent.start taskDescription context)).1 := by
  unfold Agent.run
  dsimp only
  split <;> rename_i hloop <;> rw [hloop]

theorem run_result (agent : Agent) (registry : String → Option Tool) (settings : AgentSettings)
    (taskDescription context : String) :
    (agent.run registry settings taskDescription context).result =
      match (agent.loop settings (agent.tools registry settings) (Agent.turns settings)
        (Agent.start taskDescription context)).2 with
      | some exc => .error exc
      | none => .ok (agent.output (agent.run registry settings taskDescription context).final) := by
  rw [run_final]
  unfold Agent.run
  dsimp only
  split <;> rename_i hloop <;> rw [hloop]

/-! ## Accounting -/

/-- A token count summed over chat calls; a missing one counts as `0`. -/
def tokens (count : LLMResponse → Option Int) (chats : List (List Message × Except Exn LLMResponse)) :
    Int :=
  (chats.map fun chat =>
    match chat.2 with
    | .ok response => (count response).getD 0
    | .error _ => 0).sum

/-- The counters and the messages fit the chat calls made, and a call is left for each further turn. -/
structure Ledger (bound turnsLeft : Nat) (s : AgentLoop) : Prop where
  transcript : Transcript s.messages
  sent : ∀ chat ∈ s.chats, Transcript chat.1
  bounded : s.chats.length + turnsLeft ≤ bound
  toolCallsMade : s.toolCallsMade = s.messages.countP Message.isTool
  promptTokens : s.promptTokens = tokens LLMResponse.promptTokens s.chats
  completionTokens : s.completionTokens = tokens LLMResponse.completionTokens s.chats

/-- A run whose conversation is well formed and whose output is exact. -/
structure Accounted (settings : AgentSettings) (run : AgentRun) : Prop where
  chats : (run.final.chats.length : Int) ≤ max 1 settings.agentMaxToolIterations
  paired : ∀ chat ∈ run.final.chats, Paired chat.1
  toolCalls : ∀ output, run.result = .ok output →
    output.toolCalls = run.final.messages.countP Message.isTool
  promptTokens : ∀ output, run.result = .ok output →
    output.promptTokens = tokens LLMResponse.promptTokens run.final.chats
  completionTokens : ∀ output, run.result = .ok output →
    output.completionTokens = tokens LLMResponse.completionTokens run.final.chats
  totalTokens : ∀ output, run.result = .ok output →
    output.totalTokens = output.promptTokens + output.completionTokens

theorem tokens_append (count : LLMResponse → Option Int)
    (chats chats' : List (List Message × Except Exn LLMResponse)) :
    tokens count (chats ++ chats') = tokens count chats + tokens count chats' := by
  unfold tokens
  rw [List.map_append, List.sum_append]

theorem countP_isTool_toolObservations (position : Nat) (calls : List ToolCall) :
    (toolObservations settings tools position calls).countP Message.isTool = calls.length := by
  rw [← length_toolObservations settings tools position calls, List.countP_eq_length]
  exact isTool_of_answers (answers_toolObservations position calls)

variable {bound n : Nat}

/-- A chat call sends the conversation so far and takes one of the calls that are left. -/
theorem Ledger.afterChat (h : Ledger bound (n + 1) s) {reply : Except Exn LLMResponse}
    (hchats : s'.chats = s.chats ++ [(s.messages, reply)]) :
    (∀ chat ∈ s'.chats, Transcript chat.1) ∧ s'.chats.length + n ≤ bound := by
  have hbounded := h.bounded
  rw [hchats, List.length_append, List.length_singleton]
  exact ⟨List.forall_mem_append.2 ⟨h.sent, List.forall_mem_singleton.2 h.transcript⟩, by omega⟩

theorem Ledger.raised (h : Ledger bound (n + 1) s) (exc : Exn) :
    Ledger bound n (s.chatted (.error exc)) := by
  obtain ⟨hsent, hbounded⟩ := h.afterChat (chats_chatted s (.error exc))
  refine ⟨h.transcript, hsent, hbounded, h.toolCallsMade, ?_, ?_⟩
  · rw [chats_chatted, tokens_append, ← h.promptTokens]
    exact (add_zero _).symm
  · rw [chats_chatted, tokens_append, ← h.completionTokens]
    exact (add_zero _).symm

theorem Ledger.received (h : Ledger bound (n + 1) s) (response : LLMResponse) :
    Ledger bound n ((s.chatted (.ok response)).received response) := by
  have hchats : ((s.chatted (.ok response)).received response).chats =
      s.chats ++ [(s.messages, .ok response)] := chats_chatted s _
  obtain ⟨hsent, hbounded⟩ := h.afterChat hchats
  refine ⟨h.transcript, hsent, hbounded, h.toolCallsMade, ?_, ?_⟩
  · rw [hchats, tokens_append, ← h.promptTokens]
    simp [tokens, AgentLoop.received, AgentLoop.chatted]
  · rw [hchats, tokens_append, ← h.completionTokens]
    simp [tokens, AgentLoop.received, AgentLoop.chatted]

theorem Ledger.turn (h : Ledger bound (n + 1) s) (response : LLMResponse) :
    Ledger bound n (Agent.turn settings tools s response) := by
  have hturn := turnTaken settings tools s response
  have hreceived := h.received response
  have hchats : (Agent.turn settings tools s response).chats =
      ((s.chatted (.ok response)).received response).chats := hturn.chats.trans (chats_chatted s _).symm
  refine ⟨?_, ?_, ?_, ?_, ?_, ?_⟩
  · rw [hturn.messages]
    exact h.transcript.exchange _ (answers_toolObservations _ _)
  · rw [hchats]
    exact hreceived.sent
  · rw [hchats]
    exact hreceived.bounded
  · rw [hturn.toolCallsMade, hturn.messages, h.toolCallsMade, List.countP_append, List.countP_cons,
      countP_isTool_toolObservations]
    simp [Message.isTool]
  · rw [hchats, hturn.promptTokens]
    exact hreceived.promptTokens
  · rw [hchats, hturn.completionTokens]
    exact hreceived.completionTokens

theorem ledger_start (bound : Nat) (taskDescription context : String) :
    Ledger bound bound (Agent.start taskDescription context) where
  transcript := .prompt _
  sent := by simp [AgentLoop.chats, Agent.start]
  bounded := by simp [AgentLoop.chats, Agent.start]
  toolCallsMade := by simp [Agent.start, Message.isTool]
  promptTokens := by simp [AgentLoop.chats, Agent.start, tokens]
  completionTokens := by simp [AgentLoop.chats, Agent.start, tokens]

theorem ledger_loop (agent : Agent) (settings : AgentSettings) (tools : List Tool)
    (h : Ledger bound n s) : ∃ m, Ledger bound m (agent.loop settings tools n s).1 := by
  refine loop_rule (I := Ledger bound) (Q := fun r => ∃ m, Ledger bound m r.1) ?_ ?_ ?_ ?_ n s h
  · exact fun s h => ⟨0, h⟩
  · exact fun n s exc h _ => ⟨n, h.raised exc⟩
  · exact fun n s response h _ _ => ⟨n, h.received response⟩
  · exact fun n s response h _ _ => h.turn response

/-- However a run ends, it made at most `max(1, agent_max_tool_iterations)` chat calls on well-formed
    conversations; and what it returns counts its tool messages and sums its tokens. -/
theorem Agent.run_accounted (agent : Agent) (registry : String → Option Tool)
    (settings : AgentSettings) (taskDescription context : String) :
    Accounted settings (agent.run registry settings taskDescription context) := by
  obtain ⟨m, h⟩ := ledger_loop agent settings (agent.tools registry settings)
    (ledger_start (turns settings) taskDescription context)
  rw [← run_final agent registry settings taskDescription context] at h
  have hreturned : ∀ output, (agent.run registry settings taskDescription context).result = .ok output →
      output = agent.output (agent.run registry settings taskDescription context).final := by
    intro output houtput
    rw [run_result] at houtput
    split at houtput
    · cases houtput
    · exact (Except.ok.inj houtput).symm
  refine ⟨?_, fun chat hchat => (h.sent chat hchat).paired, ?_, ?_, ?_, ?_⟩
  · have hbounded := h.bounded
    unfold turns at hbounded
    omega
  · intro output houtput
    rw [hreturned output houtput]
    exact h.toolCallsMade
  · intro output houtput
    rw [hreturned output houtput]
    exact h.promptTokens
  · intro output houtput
    rw [hreturned output houtput]
    exact h.completionTokens
  · intro output houtput
    rw [hreturned output houtput]
    rfl

end AgenticExecution
