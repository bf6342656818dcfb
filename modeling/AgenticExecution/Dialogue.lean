import AgenticExecution.Transcript
import Mathlib.Data.List.Chain

set_option autoImplicit false

/-! # What an API is told

A provider sends the whole conversation in every request. A `Dialect` is the format one API speaks: how a
provider writes a request and takes a reply, and, apart from the provider, what a request and a reply say.
Whatever the dialect, the requests of a run tell one dialogue, and a run cannot tell which dialect it is
carried in. -/

namespace AgenticExecution

/-! ## What is said -/

/-- What one message says. The name of a tool does not go with its result. -/
inductive Spoken
  | user (content : String)
  | assistant (text : String) (calls : List ToolCall)
  | result (toolCallId content : String)

/-- What the message says. -/
def Message.spoken : Message → Spoken
  | .user content => .user content
  | .assistant content toolCalls => .assistant content toolCalls
  | .tool toolCallId _ content => .result toolCallId content

/-- The conversation, where `waiting` are calls still to be answered: results stand right behind their
    calls and in their order. -/
def converse : List ToolCall → List Spoken → Option (List Message)
  | [], [] => some []
  | [], .user content :: rest => (converse [] rest).map (.user content :: ·)
  | [], .assistant text calls :: rest => (converse calls rest).map (.assistant text calls :: ·)
  | call :: waiting, .result toolCallId content :: rest =>
    if toolCallId = call.id then
      (converse waiting rest).map (.tool toolCallId call.name content :: ·)
    else none
  | _, _ => none

theorem converse_answers {calls : List ToolCall} {observations : List Message}
    (h : List.Forall₂ Message.Answers calls observations) :
    converse calls (observations.map Message.spoken) = some observations := by
  induction h with
  | nil => rfl
  | cons hm _ ih =>
      obtain ⟨content, rfl⟩ := hm
      simp [converse, Message.spoken, ih]

theorem converse_append {waiting : List ToolCall} {said said' : List Spoken}
    {messages messages' : List Message} (h : converse waiting said = some messages)
    (h' : converse [] said' = some messages') :
    converse waiting (said ++ said') = some (messages ++ messages') := by
  fun_induction converse waiting said generalizing messages with
  | case1 =>
      obtain rfl := Option.some.inj h
      exact h'
  | case2 content rest ih =>
      obtain ⟨read, hread, rfl⟩ := Option.map_eq_some_iff.1 h
      simp [converse, ih hread]
  | case3 text calls rest ih =>
      obtain ⟨read, hread, rfl⟩ := Option.map_eq_some_iff.1 h
      simp [converse, ih hread]
  | case4 call waiting content rest ih =>
      obtain ⟨read, hread, rfl⟩ := Option.map_eq_some_iff.1 h
      simp [converse, ih hread]
  | case5 => cases h
  | case6 => cases h

/-- A conversation can be told without the names of its tools. -/
theorem Transcript.converse {messages : List Message} (h : Transcript messages) :
    converse [] (messages.map Message.spoken) = some messages := by
  induction h with
  | prompt content => rfl
  | exchange _ content hanswers ih =>
      rw [List.map_append]
      refine converse_append ih ?_
      simp [Message.spoken, AgenticExecution.converse, converse_answers hanswers]

/-! ## Dialects -/

/-- The keyword arguments of a call of an SDK. -/
abbrev Request := List (String × Json)

/-- What a request says. -/
structure Reading where
  system : String
  tools : List ToolSpec
  messages : List Message

/-- What a reply says: its text, all the calls it asks for, and the tokens it was billed with. -/
structure Answer where
  text : String
  toolCalls : List ToolCall
  promptTokens : Option Int := none
  completionTokens : Option Int := none

/-- The answer as a provider of the model hands it on. -/
def Answer.response (model : String) (answer : Answer) : LLMResponse where
  text := answer.text
  model := model
  promptTokens := answer.promptTokens
  completionTokens := answer.completionTokens
  toolCalls := answer.toolCalls

/-- The tool calls of the message meet the condition. -/
def Message.Carried (Carries : ToolCall → Prop) : Message → Prop
  | .assistant _ toolCalls => ∀ call ∈ toolCalls, Carries call
  | _ => True

/-- How a provider and its API speak: `request` and `response` are the provider's, `hear` and `Says` read
    what goes over the wire. The API may not carry every JSON value as the arguments of a call, but it
    carries those it sent itself. -/
structure Dialect where
  model : String
  Reply : Type
  request : List Message → String → Option (List ToolSpec) → Request
  response : Reply → Except Exn LLMResponse
  hear : Request → Option (String × List ToolSpec × List Spoken)
  Says : Reply → Answer → Prop
  Carries : ToolCall → Prop
  hear_request : ∀ messages system tools, (∀ m ∈ messages, m.Carried Carries) →
    hear (request messages system tools) = some (system, tools.getD [], messages.map Message.spoken)
  response_iff : ∀ reply r,
    response reply = .ok r ↔ ∃ answer, Says reply answer ∧ r = answer.response model
  carries_says : ∀ reply answer, Says reply answer → ∀ call ∈ answer.toolCalls, Carries call

/-- The specs a run passes to `chat`. -/
def Agent.advertised (tools : List Tool) : Option (List ToolSpec) :=
  if (tools.map Tool.spec).isEmpty then none else some (tools.map Tool.spec)

/-- What the agent says when it sends the messages. -/
def Agent.saying (agent : Agent) (tools : List Tool) (messages : List Message) : Reading where
  system := agent.systemPrompt
  tools := tools.map Tool.spec
  messages := messages

/-- The agent with another provider. -/
def Agent.over (agent : Agent) (llm : LLMProvider) : Agent := { agent with llm }

theorem Agent.advertised_getD (tools : List Tool) :
    (Agent.advertised tools).getD [] = tools.map Tool.spec := by
  unfold Agent.advertised
  split_ifs with h
  · exact (List.isEmpty_iff.1 h).symm
  · rfl

namespace Dialect

variable (d : Dialect)

/-- The provider of the dialect; `create` is the call of its SDK. -/
def provider (create : Request → Except Exn d.Reply) : LLMProvider where
  model := d.model
  chat messages system tools := (create (d.request messages system tools)).bind d.response

/-- What a request says to an API that accepts results only for the calls they answer. -/
def reading (request : Request) : Option Reading :=
  (d.hear request).bind fun p =>
    (converse [] p.2.2).map fun messages => { system := p.1, tools := p.2.1, messages }

/-- A conversation the dialect can tell. -/
structure Tells (messages : List Message) : Prop where
  transcript : Transcript messages
  carried : ∀ m ∈ messages, m.Carried d.Carries

/-- The later request says what the earlier one said, then what the API replied to it, and then the
    results of the calls in that reply. -/
def Follows (create : Request → Except Exn d.Reply) (request request' : Request) : Prop :=
  ∃ said reply answer observations, d.reading request = some said ∧
    create request = .ok reply ∧ d.Says reply answer ∧ answer.toolCalls ≠ [] ∧
    List.Forall₂ Message.Answers answer.toolCalls observations ∧
    d.reading request' = some
      { said with messages := said.messages ++ .assistant answer.text answer.toolCalls :: observations }

/-- The requests of one run: the first says `opening`, each one follows the one before, and each says
    the messages its call of `chat` was given. -/
structure Dialogue (create : Request → Except Exn d.Reply) (opening : Reading)
    (given : List (List Message)) (requests : List Request) : Prop where
  opened : ∃ request, requests.head? = some request ∧ d.reading request = some opening
  continued : requests.IsChain (d.Follows create)
  told : List.Forall₂ (fun messages request => d.reading request = some { opening with messages })
    given requests

/-- What the SDK gave is the answer, in its own format; an exception is passed on. -/
inductive Delivers : Except Exn d.Reply → Except Exn Answer → Prop
  | said {reply : d.Reply} {answer : Answer} (h : d.Says reply answer) :
      Delivers (.ok reply) (.ok answer)
  | raised (exc : Exn) : Delivers (.error exc) (.error exc)

/-- The API replies to every request with what `answer` says to its reading. -/
def Serves (create : Request → Except Exn d.Reply) (answer : Reading → Except Exn Answer) : Prop :=
  ∀ request said, d.reading request = some said → d.Delivers (create request) (answer said)

variable {d} {agent : Agent} {settings : AgentSettings} {tools : List Tool}
  {create : Request → Except Exn d.Reply} {s : AgentLoop} {messages : List Message}

theorem Tells.reading (h : d.Tells messages) (system : String) (tools : Option (List ToolSpec)) :
    d.reading (d.request messages system tools) =
      some { system, tools := tools.getD [], messages } := by
  unfold Dialect.reading
  rw [d.hear_request messages system tools h.carried]
  simp [h.transcript.converse]

theorem tells_start (d : Dialect) (taskDescription context : String) :
    d.Tells (Agent.start taskDescription context).messages where
  transcript := .prompt _
  carried := List.forall_mem_singleton.2 trivial

theorem Tells.turn (h : d.Tells s.messages) {response : LLMResponse}
    (hcarries : ∀ call ∈ response.toolCalls, d.Carries call) :
    d.Tells (Agent.turn settings tools s response).messages := by
  have hturn := (turnTaken settings tools s response).messages
  have hanswers : List.Forall₂ Message.Answers response.toolCalls
      (toolObservations settings tools (s.messages.length + 1) response.toolCalls) :=
    answers_toolObservations _ _
  refine ⟨hturn ▸ h.transcript.exchange _ hanswers, ?_⟩
  rw [hturn]
  refine List.forall_mem_append.2 ⟨h.carried, List.forall_mem_cons.2 ⟨hcarries, ?_⟩⟩
  intro m hm
  have htool := isTool_of_answers hanswers m hm
  cases m with
  | tool => trivial
  | user => cases htool
  | assistant => cases htool

theorem chat_eq (hllm : agent.llm = d.provider create) (tools : List Tool)
    (messages : List Message) :
    agent.chat tools messages =
      (create (d.request messages agent.systemPrompt (Agent.advertised tools))).bind d.response := by
  unfold Agent.chat
  rw [hllm]
  rfl

/-- What `chat` returned was said in a reply. -/
theorem says_chat (hllm : agent.llm = d.provider create) {response : LLMResponse}
    (h : agent.chat tools messages = .ok response) :
    ∃ reply answer,
      create (d.request messages agent.systemPrompt (Agent.advertised tools)) = .ok reply ∧
        d.Says reply answer ∧ response = answer.response d.model := by
  rw [chat_eq hllm] at h
  cases hreply : create (d.request messages agent.systemPrompt (Agent.advertised tools)) with
  | error exc =>
      rw [hreply] at h
      cases h
  | ok reply =>
      rw [hreply] at h
      obtain ⟨answer, hsays, hresponse⟩ := (d.response_iff reply response).1 h
      exact ⟨reply, answer, rfl, hsays, hresponse⟩

theorem carries_chat (hllm : agent.llm = d.provider create) {response : LLMResponse}
    (h : agent.chat tools messages = .ok response) : ∀ call ∈ response.toolCalls, d.Carries call := by
  obtain ⟨reply, answer, -, hsays, rfl⟩ := says_chat hllm h
  exact d.carries_says reply answer hsays

/-! ## A run tells one dialogue -/

/-- The requests of a run. -/
def requests (d : Dialect) (agent : Agent) (tools : List Tool) (s : AgentLoop) : List Request :=
  s.chats.map fun chat => d.request chat.1 agent.systemPrompt (Agent.advertised tools)

/-- The requests made, and the one that would be made now. -/
def withNext (d : Dialect) (agent : Agent) (tools : List Tool) (s : AgentLoop) : List Request :=
  d.requests agent tools s ++ [d.request s.messages agent.systemPrompt (Agent.advertised tools)]

/-- The messages given to the calls of `chat` made, and to the one that would be made now. -/
def givenNext (s : AgentLoop) : List (List Message) := s.chats.map Prod.fst ++ [s.messages]

/-- The dialogue so far, with `n` of `bound` turns left. -/
structure Telling (d : Dialect) (agent : Agent) (tools : List Tool)
    (create : Request → Except Exn d.Reply) (opening : List Message) (bound n : Nat) (s : AgentLoop) :
    Prop where
  tells : d.Tells s.messages
  dialogue : d.Dialogue create (agent.saying tools opening) (givenNext s) (d.withNext agent tools s)
  started : n < bound → s.chats ≠ []

variable {opening : List Message} {bound n : Nat} {response : LLMResponse}

theorem Tells.reading_saying (h : d.Tells messages) (agent : Agent) (tools : List Tool) :
    d.reading (d.request messages agent.systemPrompt (Agent.advertised tools)) =
      some (agent.saying tools messages) := by
  rw [h.reading, Agent.advertised_getD]
  rfl

theorem given_chatted (s : AgentLoop) (reply : Except Exn LLMResponse) :
    (s.chatted reply).chats.map Prod.fst = givenNext s := by
  rw [chats_chatted, List.map_append]
  rfl

theorem requests_chatted (d : Dialect) (agent : Agent) (tools : List Tool) (s : AgentLoop)
    (reply : Except Exn LLMResponse) :
    d.requests agent tools (s.chatted reply) = d.withNext agent tools s := by
  unfold requests withNext
  rw [chats_chatted, List.map_append]
  rfl

theorem telling_start (d : Dialect) (agent : Agent) (tools : List Tool)
    (create : Request → Except Exn d.Reply) (bound : Nat) (taskDescription context : String) :
    d.Telling agent tools create [.user (Agent.buildUserPrompt taskDescription context)] bound bound
      (Agent.start taskDescription context) := by
  have htells := d.tells_start taskDescription context
  have hreading := htells.reading_saying agent tools
  exact
    { tells := htells
      dialogue :=
        { opened := ⟨_, rfl, hreading⟩
          continued := List.isChain_singleton _
          told := .cons hreading .nil }
      started := fun h => absurd h (lt_irrefl bound) }

theorem follows_turn (hllm : agent.llm = d.provider create) (h : d.Tells s.messages)
    (hreply : agent.chat tools s.messages = .ok response) (hcalls : response.toolCalls ≠ []) :
    d.Follows create (d.request s.messages agent.systemPrompt (Agent.advertised tools))
      (d.request (Agent.turn settings tools s response).messages agent.systemPrompt
        (Agent.advertised tools)) := by
  have htells : d.Tells (Agent.turn settings tools s response).messages :=
    h.turn (carries_chat hllm hreply)
  have hmessages := (turnTaken settings tools s response).messages
  obtain ⟨reply, answer, hcreate, hsays, rfl⟩ := says_chat hllm hreply
  have hanswers : List.Forall₂ Message.Answers answer.toolCalls
      (toolObservations settings tools (s.messages.length + 1) answer.toolCalls) :=
    answers_toolObservations _ _
  refine ⟨_, reply, answer, _, h.reading _ _, hcreate, hsays, hcalls, hanswers, ?_⟩
  rw [htells.reading, hmessages]
  rfl

theorem Telling.turn (hllm : agent.llm = d.provider create)
    (h : d.Telling agent tools create opening bound (n + 1) s)
    (hreply : agent.chat tools s.messages = .ok response) (hcalls : response.toolCalls ≠ []) :
    d.Telling agent tools create opening bound n (Agent.turn settings tools s response) := by
  have hchats := (turnTaken settings tools s response).chats
  have htells : d.Tells (Agent.turn settings tools s response).messages :=
    h.tells.turn (carries_chat hllm hreply)
  have hrequests : d.requests agent tools (Agent.turn settings tools s response) =
      d.withNext agent tools s := by
    unfold requests withNext
    rw [hchats, List.map_append]
    rfl
  have hgiven : (Agent.turn settings tools s response).chats.map Prod.fst = givenNext s := by
    rw [hchats, List.map_append]
    rfl
  refine ⟨htells, ⟨?_, ?_, ?_⟩, fun _ => ?_⟩
  · obtain ⟨request, hhead, hreading⟩ := h.dialogue.opened
    refine ⟨request, ?_, hreading⟩
    unfold withNext
    rw [hrequests, List.head?_append, hhead]
    rfl
  · unfold withNext
    rw [hrequests]
    refine h.dialogue.continued.append (List.isChain_singleton _) ?_
    intro request hlast request' hnext
    unfold withNext at hlast
    rw [List.getLast?_append] at hlast
    obtain rfl := Option.some.inj hlast
    obtain rfl := Option.some.inj hnext
    exact follows_turn hllm h.tells hreply hcalls
  · unfold givenNext withNext
    rw [hgiven, hrequests]
    exact List.rel_append h.dialogue.told (.cons (htells.reading_saying agent tools) .nil)
  · rw [hchats]
    exact List.append_ne_nil_of_right_ne_nil _ (List.cons_ne_nil _ _)

theorem Telling.dialogue_requests (h : d.Telling agent tools create opening bound n s)
    (hstarted : s.chats ≠ []) :
    d.Dialogue create (agent.saying tools opening) (s.chats.map Prod.fst)
      (d.requests agent tools s) := by
  have hne : d.requests agent tools s ≠ [] := fun hnil => hstarted (List.map_eq_nil_iff.1 hnil)
  obtain ⟨request, hhead, hreading⟩ := h.dialogue.opened
  have htold := List.forall₂_take s.chats.length h.dialogue.told
  refine ⟨⟨request, ?_, hreading⟩, h.dialogue.continued.left_of_append, ?_⟩
  · unfold withNext at hhead
    rwa [List.head?_append_of_ne_nil _ hne] at hhead
  · unfold givenNext withNext requests at htold
    rwa [List.take_left' (List.length_map _), List.take_left' (List.length_map _)] at htold

/-- However a run ends, its requests tell one dialogue that opens with its prompt. -/
theorem dialogue_run (agent : Agent) (hllm : agent.llm = d.provider create)
    (registry : String → Option Tool) (settings : AgentSettings) (taskDescription context : String) :
    d.Dialogue create
      { system := agent.systemPrompt
        tools := (agent.tools registry settings).map Tool.spec
        messages := [.user (Agent.buildUserPrompt taskDescription context)] }
      ((agent.run registry settings taskDescription context).final.chats.map Prod.fst)
      (d.requests agent (agent.tools registry settings)
        (agent.run registry settings taskDescription context).final) := by
  rw [run_final]
  refine loop_rule
    (I := d.Telling agent (agent.tools registry settings) create _ (Agent.turns settings))
    (Q := fun r => d.Dialogue create (agent.saying (agent.tools registry settings) _)
      (r.1.chats.map Prod.fst) (d.requests agent (agent.tools registry settings) r.1))
    ?_ ?_ ?_ ?_ _ _ (d.telling_start agent (agent.tools registry settings) create
      (Agent.turns settings) taskDescription context)
  · intro s h
    have hturns : 0 < Agent.turns settings := by
      unfold Agent.turns
      omega
    exact h.dialogue_requests (h.started hturns)
  · intro n s exc h _
    rw [given_chatted, requests_chatted]
    exact h.dialogue
  · intro n s response h _ _
    have hrequests : d.requests agent (agent.tools registry settings)
        ((s.chatted (.ok response)).received response) =
          d.withNext agent (agent.tools registry settings) s :=
      requests_chatted d agent _ s (.ok response)
    have hgiven : ((s.chatted (.ok response)).received response).chats.map Prod.fst = givenNext s :=
      given_chatted s (.ok response)
    rw [hgiven, hrequests]
    exact h.dialogue
  · intro n s response h hreply hcalls
    exact h.turn hllm hreply hcalls

/-! ## A run does not depend on the dialect -/

/-- Two agents that get the same replies take the same turns. -/
theorem loop_congr (agent agent' : Agent) {I : List Message → Prop}
    (hchat : ∀ messages, I messages → agent.chat tools messages = agent'.chat tools messages)
    (hturn : ∀ s response, I s.messages → agent.chat tools s.messages = .ok response →
      I (Agent.turn settings tools s response).messages)
    (n : Nat) {s : AgentLoop} (h : I s.messages) :
    agent.loop settings tools n s = agent'.loop settings tools n s := by
  induction n generalizing s with
  | zero => rfl
  | succ n ih =>
      unfold Agent.loop
      rw [← hchat s.messages h]
      split
      · rfl
      · rename_i response hreply
        split_ifs
        · rfl
        · exact ih (hturn s response h hreply)

theorem run_congr {agent agent' : Agent} {registry : String → Option Tool}
    {taskDescription context : String}
    (htools : agent.tools registry settings = agent'.tools registry settings)
    (hmodel : agent.llm.model = agent'.llm.model)
    (hloop : agent.loop settings (agent.tools registry settings) (Agent.turns settings)
        (Agent.start taskDescription context) =
      agent'.loop settings (agent.tools registry settings) (Agent.turns settings)
        (Agent.start taskDescription context)) :
    agent.run registry settings taskDescription context =
      agent'.run registry settings taskDescription context := by
  have houtput : agent.output = agent'.output := by
    funext s
    unfold Agent.output
    rw [hmodel]
  unfold Agent.run
  dsimp only
  rw [hloop, ← htools, houtput]

/-- The provider without a dialect between it and the model. -/
def direct (model : String) (answer : Reading → Except Exn Answer) : LLMProvider where
  model := model
  chat messages system tools :=
    (answer { system, tools := tools.getD [], messages }).map (Answer.response model)

theorem Delivers.bind_response {reply : Except Exn d.Reply} {answer : Except Exn Answer}
    (h : d.Delivers reply answer) : reply.bind d.response = answer.map (Answer.response d.model) := by
  cases h with
  | said h => exact (d.response_iff _ _).2 ⟨_, h, rfl⟩
  | raised exc => rfl

/-- Through a provider whose API serves a model, an agent runs as if it spoke to the model itself. -/
theorem run_direct {answer : Reading → Except Exn Answer} (hserves : d.Serves create answer)
    (agent : Agent) (registry : String → Option Tool) (settings : AgentSettings)
    (taskDescription context : String) :
    (agent.over (d.provider create)).run registry settings taskDescription context =
      (agent.over (direct d.model answer)).run registry settings taskDescription context := by
  refine run_congr rfl rfl (loop_congr _ _ (I := d.Tells) ?_ ?_ _ (d.tells_start taskDescription context))
  · intro messages h
    exact (hserves _ _ (h.reading agent.systemPrompt _)).bind_response
  · intro s response h hreply
    exact h.turn (carries_chat rfl hreply)

end Dialect

end AgenticExecution
