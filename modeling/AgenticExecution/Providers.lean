import AgenticExecution.Dialogue
import AgenticExecution.FlatJson
import AgenticExecution.Observations

set_option autoImplicit false

/-! # The OpenAI and the Anthropic provider

`chat` of either provider turns the messages into keyword arguments of its SDK, and the reply of the SDK
into a response. Beside each stands a reader of its requests, which takes the JSON apart again, and a
relation that states what a reply says, piece by piece. -/

namespace AgenticExecution

/-! ## Reading JSON -/

/-- The value under the key of an object. -/
def Json.get? (key : String) : Json → Option Json
  | .obj fields => fields.lookup key
  | _ => none

/-- The text of a string. -/
def Json.text? : Json → Option String
  | .str s => some s
  | _ => none

/-- The items of a list. -/
def Json.items? : Json → Option (List Json)
  | .arr items => some items
  | _ => none

/-- The text under the key of an object. -/
def Json.getText? (key : String) (j : Json) : Option String := (j.get? key).bind Json.text?

/-- A list written item by item reads item by item. -/
theorem mapM_map {α β γ : Type} {write : α → β} {read : β → Option γ} {meaning : α → γ} {l : List α}
    (h : ∀ a ∈ l, read (write a) = some (meaning a)) :
    (l.map write).mapM read = some (l.map meaning) := by
  induction l with
  | nil => rfl
  | cons a rest ih =>
      obtain ⟨ha, hrest⟩ := List.forall_mem_cons.1 h
      rw [List.map_cons, List.mapM_cons, ha, ih hrest]
      rfl

/-- `json.dumps` beside the `json.loads` of `py`: what was loaded can be dumped and loaded again. -/
structure JsonDumps (py : Python) where
  dumps : Json → String
  loads_dumps : ∀ text v, py.loads text = some v → py.loads (dumps v) = some v
  loads_empty : py.loads "\x7b\x7d" = some (.obj [])

/-- The settings a provider is built from; `temperature` is printed. -/
structure ProviderConfig where
  model : String
  temperature : String
  maxTokens : Int

/-! ## OpenAI -/

namespace OpenAI

/-- `tc.function`. -/
structure FunctionCall where
  name : String
  arguments : Option String

/-- An element of `message.tool_calls` in a reply. -/
structure ReplyToolCall where
  id : String
  function : FunctionCall

/-- `choice.message`. -/
structure ReplyMessage where
  content : Option String
  toolCalls : Option (List ReplyToolCall)

/-- `resp.usage`. -/
structure Usage where
  promptTokens : Option Int
  completionTokens : Option Int

/-- What `chat.completions.create` returns; a choice stands as its message. -/
structure Completion where
  choices : List ReplyMessage
  usage : Option Usage

/-- An element of `tool_calls` in a request. -/
def apiToolCall (dumps : Json → String) (tc : ToolCall) : Json :=
  .obj [("id", .str tc.id), ("type", .str "function"),
    ("function", .obj [("name", .str tc.name), ("arguments", .str (dumps tc.arguments))])]

/-- An element of `api_messages`. -/
def apiMessage (dumps : Json → String) : Message → Json
  | .tool toolCallId _ content =>
    .obj [("role", .str "tool"), ("tool_call_id", .str toolCallId), ("content", .str content)]
  | .assistant content toolCalls =>
    if toolCalls.isEmpty then .obj [("role", .str "assistant"), ("content", .str content)]
    else
      .obj [("role", .str "assistant"), ("content", if content = "" then .null else .str content),
        ("tool_calls", .arr (toolCalls.map (apiToolCall dumps)))]
  | .user content => .obj [("role", .str "user"), ("content", .str content)]

/-- The message in front. -/
def systemMessage (system : String) : Json := .obj [("role", .str "system"), ("content", .str system)]

/-- `api_messages`. -/
def apiMessages (dumps : Json → String) (messages : List Message) (system : String) : List Json :=
  (if system = "" then [] else [systemMessage system]) ++ messages.map (apiMessage dumps)

/-- An element of `tools` in a request. -/
def apiTool (t : ToolSpec) : Json :=
  .obj [("type", .str "function"),
    ("function", .obj [("name", .str t.name), ("description", .str t.description),
      ("parameters", t.parameters)])]

/-- `kwargs`. -/
def kwargs (dumps : Json → String) (config : ProviderConfig) (messages : List Message)
    (system : String) (tools : Option (List ToolSpec)) : Request :=
  [("model", .str config.model), ("messages", .arr (apiMessages dumps messages system)),
    ("temperature", .float config.temperature), ("max_tokens", .int config.maxTokens)] ++
    if (tools.getD []).isEmpty then []
    else [("tools", .arr ((tools.getD []).map apiTool)), ("tool_choice", .str "auto")]

/-- `json.loads(tc.function.arguments or "{}")`, or an empty dict where it raises. -/
def arguments (py : Python) (tc : ReplyToolCall) : Json :=
  let text := tc.function.arguments.getD ""
  (py.loads (if text = "" then "\x7b\x7d" else text)).getD (.obj [])

/-- An element of `tool_calls` in the response. -/
def toolCall (py : Python) (tc : ReplyToolCall) : ToolCall where
  id := tc.id
  name := tc.function.name
  arguments := arguments py tc

/-- What `chat` makes of a reply. -/
def response (py : Python) (model : String) (resp : Completion) : Except Exn LLMResponse :=
  match resp.choices with
  | [] => .error ⟨"IndexError", "list index out of range"⟩
  | message :: _ =>
    .ok
      { text := message.content.getD ""
        model := model
        promptTokens := resp.usage.bind Usage.promptTokens
        completionTokens := resp.usage.bind Usage.completionTokens
        toolCalls := (message.toolCalls.getD []).map (toolCall py) }

/-- `OpenAIProvider`; `create` is `self._client.chat.completions.create`. -/
def provider (py : Python) (dumps : Json → String) (config : ProviderConfig)
    (create : Request → Except Exn Completion) : LLMProvider where
  model := config.model
  chat messages system tools :=
    (create (kwargs dumps config messages system tools)).bind (response py config.model)

/-! ### Its requests, read -/

/-- The call in an element of `tool_calls`. -/
def readToolCall (py : Python) (j : Json) : Option ToolCall := do
  let id ← j.getText? "id"
  let function ← j.get? "function"
  let name ← function.getText? "name"
  let arguments ← (function.getText? "arguments").bind py.loads
  return { id, name, arguments }

/-- A `null` content is an empty text. -/
def readContent (j : Json) : Option String :=
  match j.get? "content" with
  | some .null => some ""
  | some (.str s) => some s
  | _ => none

/-- What an element of `messages` says. -/
def readMessage (py : Python) (j : Json) : Option Spoken :=
  match j.getText? "role" with
  | some "user" => (readContent j).map .user
  | some "assistant" =>
    match j.get? "tool_calls" with
    | none => (readContent j).map (.assistant · [])
    | some calls => do
      let text ← readContent j
      let calls ← calls.items?
      return .assistant text (← calls.mapM (readToolCall py))
  | some "tool" => do
    let toolCallId ← j.getText? "tool_call_id"
    return .result toolCallId (← readContent j)
  | _ => none

/-- The system prompt stands in front, if there is one. -/
def readMessages (py : Python) (items : List Json) : Option (String × List Spoken) :=
  match items.head? with
  | none => some ("", [])
  | some first =>
    if first.getText? "role" = some "system" then do
      let system ← readContent first
      return (system, ← items.tail.mapM (readMessage py))
    else (items.mapM (readMessage py)).map ("", ·)

/-- The spec in an element of `tools`. -/
def readTool (j : Json) : Option ToolSpec := do
  let function ← j.get? "function"
  let name ← function.getText? "name"
  let description ← function.getText? "description"
  return { name, description, parameters := ← function.get? "parameters" }

/-- What a request says: its system prompt, its tools, its messages. -/
def hear (py : Python) (request : Request) : Option (String × List ToolSpec × List Spoken) := do
  let items ← (Json.obj request).get? "messages"
  let messages ← items.items?
  let tools ← (((Json.obj request).get? "tools").getD (.arr [])).items?
  let said ← readMessages py messages
  return (said.1, ← tools.mapM readTool, said.2)

variable {py : Python} {dumps : Json → String}

theorem readToolCall_apiToolCall {call : ToolCall}
    (h : py.loads (dumps call.arguments) = some call.arguments) :
    readToolCall py (apiToolCall dumps call) = some call := by
  have harguments : readToolCall py (apiToolCall dumps call) =
      (py.loads (dumps call.arguments)).bind fun arguments =>
        some { id := call.id, name := call.name, arguments } := rfl
  rw [harguments, h]
  rfl

theorem readTool_apiTool (t : ToolSpec) : readTool (apiTool t) = some t := rfl

theorem readMessage_apiMessage {m : Message}
    (h : m.Carried fun call => py.loads (dumps call.arguments) = some call.arguments) :
    readMessage py (apiMessage dumps m) = some m.spoken := by
  cases m with
  | user content => rfl
  | tool toolCallId name content => rfl
  | assistant content toolCalls =>
      have hread : (toolCalls.map (apiToolCall dumps)).mapM (readToolCall py) = some toolCalls := by
        rw [mapM_map fun call hcall => readToolCall_apiToolCall (h call hcall), List.map_id']
      simp only [apiMessage]
      split_ifs with hcalls hcontent
      · obtain rfl := List.isEmpty_iff.1 hcalls
        rfl
      · subst hcontent
        show ((toolCalls.map (apiToolCall dumps)).mapM (readToolCall py)).bind
          (fun calls => some (Spoken.assistant "" calls)) = _
        rw [hread]
        rfl
      · show ((toolCalls.map (apiToolCall dumps)).mapM (readToolCall py)).bind
          (fun calls => some (Spoken.assistant content calls)) = _
        rw [hread]
        rfl

theorem role_apiMessage (dumps : Json → String) (m : Message) :
    (apiMessage dumps m).getText? "role" ≠ some "system" := by
  cases m with
  | user content =>
      show some "user" ≠ some "system"
      decide
  | tool toolCallId name content =>
      show some "tool" ≠ some "system"
      decide
  | assistant content toolCalls =>
      have hrole : (apiMessage dumps (.assistant content toolCalls)).getText? "role" =
          some "assistant" := by
        simp only [apiMessage]
        split_ifs <;> rfl
      rw [hrole]
      decide

theorem readMessages_apiMessages {messages : List Message} (system : String)
    (h : ∀ m ∈ messages, m.Carried fun call =>
      py.loads (dumps call.arguments) = some call.arguments) :
    readMessages py (apiMessages dumps messages system) =
      some (system, messages.map Message.spoken) := by
  have hread : (messages.map (apiMessage dumps)).mapM (readMessage py) =
      some (messages.map Message.spoken) :=
    mapM_map fun m hm => readMessage_apiMessage (h m hm)
  unfold apiMessages
  split_ifs with hsystem
  · subst hsystem
    cases messages with
    | nil => rfl
    | cons m rest =>
        show (if (apiMessage dumps m).getText? "role" = some "system" then _ else _) = _
        rw [if_neg (role_apiMessage dumps m), List.nil_append, hread]
        rfl
  · show ((messages.map (apiMessage dumps)).mapM (readMessage py)).bind
      (fun said => some (system, said)) = _
    rw [hread]
    rfl

theorem hear_kwargs (config : ProviderConfig) {messages : List Message} (system : String)
    (tools : Option (List ToolSpec))
    (h : ∀ m ∈ messages, m.Carried fun call =>
      py.loads (dumps call.arguments) = some call.arguments) :
    hear py (kwargs dumps config messages system tools) =
      some (system, tools.getD [], messages.map Message.spoken) := by
  have hsaid := readMessages_apiMessages system h
  have htools : ((tools.getD []).map apiTool).mapM readTool = some (tools.getD []) := by
    rw [mapM_map fun t _ => readTool_apiTool t, List.map_id']
  unfold kwargs
  split_ifs with hempty
  · rw [List.isEmpty_iff.1 hempty]
    show (readMessages py (apiMessages dumps messages system)).bind
      (fun said => some (said.1, [], said.2)) = _
    rw [hsaid]
    rfl
  · show (readMessages py (apiMessages dumps messages system)).bind
      (fun said => (((tools.getD []).map apiTool).mapM readTool).bind
        fun tools => some (said.1, tools, said.2)) = _
    rw [hsaid, htools]
    rfl

/-! ### Its replies, read -/

/-- The JSON value a text of arguments stands for. Without a text, and where the text is no JSON, it is
    the empty object. -/
inductive Arguments (py : Python) : Option String → Json → Prop
  | missing : Arguments py none (.obj [])
  | empty : Arguments py (some "") (.obj [])
  | loaded {text : String} {v : Json} (hne : text ≠ "") (h : py.loads text = some v) :
      Arguments py (some text) v
  | unreadable {text : String} (hne : text ≠ "") (h : py.loads text = none) :
      Arguments py (some text) (.obj [])

/-- The reply asks for the call. -/
structure ReplyToolCall.Asks (py : Python) (tc : ReplyToolCall) (call : ToolCall) : Prop where
  id : call.id = tc.id
  name : call.name = tc.function.name
  arguments : Arguments py tc.function.arguments call.arguments

/-- A reply says the text of its first choice and asks for every call in it, in their order. -/
structure Completion.Says (py : Python) (resp : Completion) (answer : Answer) : Prop where
  message : ∃ message ∈ resp.choices.head?, answer.text = message.content.getD "" ∧
    List.Forall₂ (ReplyToolCall.Asks py) (message.toolCalls.getD []) answer.toolCalls
  promptTokens : answer.promptTokens = resp.usage.bind Usage.promptTokens
  completionTokens : answer.completionTokens = resp.usage.bind Usage.completionTokens

theorem arguments_iff (json : JsonDumps py) (tc : ReplyToolCall) (v : Json) :
    Arguments py tc.function.arguments v ↔ v = arguments py tc := by
  obtain ⟨id, name, written⟩ := tc
  unfold arguments
  dsimp only
  cases written with
  | none =>
      rw [Option.getD_none, if_pos rfl, json.loads_empty]
      refine ⟨fun h => ?_, fun h => h ▸ .missing⟩
      cases h
      rfl
  | some text =>
      rw [Option.getD_some]
      by_cases hempty : text = ""
      · subst hempty
        rw [if_pos rfl, json.loads_empty]
        refine ⟨fun h => ?_, fun h => h ▸ .empty⟩
        cases h with
        | empty => rfl
        | loaded hne => exact absurd rfl hne
        | unreadable hne => exact absurd rfl hne
      · rw [if_neg hempty]
        cases hloads : py.loads text with
        | none =>
            refine ⟨fun h => ?_, fun h => h ▸ .unreadable hempty hloads⟩
            cases h with
            | empty => rfl
            | loaded _ h => cases hloads.symm.trans h
            | unreadable => rfl
        | some loaded =>
            refine ⟨fun h => ?_, fun h => h ▸ .loaded hempty hloads⟩
            cases h with
            | empty => exact absurd rfl hempty
            | loaded _ h => exact Option.some.inj (h.symm.trans hloads)
            | unreadable _ h => cases h.symm.trans hloads

theorem asks_iff (json : JsonDumps py) (tc : ReplyToolCall) (call : ToolCall) :
    tc.Asks py call ↔ call = toolCall py tc := by
  constructor
  · intro h
    obtain ⟨id, name, arguments⟩ := call
    obtain ⟨rfl, rfl, harguments⟩ := h
    rw [(arguments_iff json tc arguments).1 harguments]
    rfl
  · rintro rfl
    exact ⟨rfl, rfl, (arguments_iff json tc _).2 rfl⟩

theorem asks_all_iff (json : JsonDumps py) (tcs : List ReplyToolCall) (calls : List ToolCall) :
    List.Forall₂ (ReplyToolCall.Asks py) tcs calls ↔ calls = tcs.map (toolCall py) := by
  constructor
  · intro h
    induction h with
    | nil => rfl
    | cons hasks _ ih => rw [List.map_cons, ih, (asks_iff json _ _).1 hasks]
  · rintro rfl
    exact List.forall₂_map_right_iff.2 (List.forall₂_same.2 fun tc _ => (asks_iff json tc _).2 rfl)

theorem response_iff (json : JsonDumps py) (model : String) (resp : Completion) (r : LLMResponse) :
    response py model resp = .ok r ↔ ∃ answer, resp.Says py answer ∧ r = answer.response model := by
  obtain ⟨choices, usage⟩ := resp
  cases choices with
  | nil =>
      constructor
      · intro h
        cases h
      · rintro ⟨answer, hsays, -⟩
        obtain ⟨message, hmem, -⟩ := hsays.message
        cases hmem
  | cons message rest =>
      constructor
      · intro h
        obtain rfl := Except.ok.inj h
        exact ⟨⟨_, _, _, _⟩, ⟨⟨message, rfl, rfl, (asks_all_iff json _ _).2 rfl⟩, rfl, rfl⟩, rfl⟩
      · rintro ⟨⟨text, calls, prompt, completion⟩, hsays, rfl⟩
        obtain ⟨⟨message', hmem, htext, hcalls⟩, hprompt, hcompletion⟩ := hsays
        obtain rfl := Option.some.inj hmem
        dsimp only at htext hcalls hprompt hcompletion
        obtain rfl := (asks_all_iff json _ _).1 hcalls
        subst htext hprompt hcompletion
        rfl

/-- The arguments of a reply were loaded, so they can be dumped and loaded again. -/
theorem loads_dumps_arguments (json : JsonDumps py) {written : Option String} {v : Json}
    (h : Arguments py written v) : py.loads (json.dumps v) = some v := by
  cases h with
  | missing => exact json.loads_dumps _ _ json.loads_empty
  | empty => exact json.loads_dumps _ _ json.loads_empty
  | loaded _ h => exact json.loads_dumps _ _ h
  | unreadable => exact json.loads_dumps _ _ json.loads_empty

theorem carries_asked (json : JsonDumps py) {tcs : List ReplyToolCall} {calls : List ToolCall}
    (h : List.Forall₂ (ReplyToolCall.Asks py) tcs calls) :
    ∀ call ∈ calls, py.loads (json.dumps call.arguments) = some call.arguments := by
  induction h with
  | nil => exact List.forall_mem_nil _
  | cons hasks _ ih =>
      exact List.forall_mem_cons.2 ⟨loads_dumps_arguments json hasks.arguments, ih⟩

/-- The dialect of `OpenAIProvider`. -/
def dialect (json : JsonDumps py) (config : ProviderConfig) : Dialect where
  model := config.model
  Reply := Completion
  request := kwargs json.dumps config
  response := response py config.model
  hear := hear py
  Says := Completion.Says py
  Carries call := py.loads (json.dumps call.arguments) = some call.arguments
  hear_request _ system tools h := hear_kwargs config system tools h
  response_iff := response_iff json config.model
  carries_says _ _ h := by
    obtain ⟨message, -, -, hcalls⟩ := h.message
    exact carries_asked json hcalls

end OpenAI

/-! ## Anthropic -/

namespace Anthropic

/-- A block of `resp.content`. -/
inductive ContentBlock
  | text (text : String)
  | toolUse (id name : String) (input : Json)
  /-- A block of another type. -/
  | other

/-- `resp.usage`. -/
structure Usage where
  inputTokens : Option Int
  outputTokens : Option Int

/-- What `messages.create` returns. -/
structure Reply where
  content : List ContentBlock
  usage : Option Usage

/-- The block of a call. -/
def apiToolUse (tc : ToolCall) : Json :=
  .obj [("type", .str "tool_use"), ("id", .str tc.id), ("name", .str tc.name),
    ("input", tc.arguments)]

/-- An element of `api_messages`. -/
def apiMessage : Message → Json
  | .assistant content toolCalls =>
    if toolCalls.isEmpty then .obj [("role", .str "assistant"), ("content", .str content)]
    else
      .obj [("role", .str "assistant"),
        ("content", .arr
          ((if content = "" then [] else [.obj [("type", .str "text"), ("text", .str content)]]) ++
            toolCalls.map apiToolUse))]
  | .tool toolCallId _ content =>
    .obj [("role", .str "user"),
      ("content", .arr [.obj [("type", .str "tool_result"), ("tool_use_id", .str toolCallId),
        ("content", .str content)]])]
  | .user content => .obj [("role", .str "user"), ("content", .str content)]

/-- An element of `tools` in a request. -/
def apiTool (t : ToolSpec) : Json :=
  .obj [("name", .str t.name), ("description", .str t.description), ("input_schema", t.parameters)]

/-- `kwargs`. -/
def kwargs (config : ProviderConfig) (messages : List Message) (system : String)
    (tools : Option (List ToolSpec)) : Request :=
  [("model", .str config.model), ("max_tokens", .int config.maxTokens),
    ("temperature", .float config.temperature), ("system", .str system),
    ("messages", .arr (messages.map apiMessage))] ++
    if (tools.getD []).isEmpty then [] else [("tools", .arr ((tools.getD []).map apiTool))]

/-- The text a block adds to `text_parts`. -/
def ContentBlock.text? : ContentBlock → Option String
  | .text s => some s
  | _ => none

/-- The call a block adds to `tool_calls`, with `block.input or {}`. -/
def ContentBlock.toolCall? : ContentBlock → Option ToolCall
  | .toolUse id name input =>
    some { id, name, arguments := if input.truthy then input else .obj [] }
  | _ => none

/-- What `chat` makes of a reply. -/
def response (model : String) (resp : Reply) : LLMResponse where
  text := String.join (resp.content.filterMap ContentBlock.text?)
  model := model
  promptTokens := resp.usage.bind Usage.inputTokens
  completionTokens := resp.usage.bind Usage.outputTokens
  toolCalls := resp.content.filterMap ContentBlock.toolCall?

/-- `AnthropicProvider`; `create` is `self._client.messages.create`. -/
def provider (config : ProviderConfig) (create : Request → Except Exn Reply) : LLMProvider where
  model := config.model
  chat messages system tools :=
    (create (kwargs config messages system tools)).map (response config.model)

/-! ### Its requests, read -/

/-- The result in a block of a message of the user. -/
def readToolResult (j : Json) : Option Spoken := do
  if j.getText? "type" = some "tool_result" then
    let toolCallId ← j.getText? "tool_use_id"
    return .result toolCallId (← j.getText? "content")
  else none

/-- The text or the tool call of a block the assistant said. -/
def readBlock (j : Json) : Option (String ⊕ ToolCall) :=
  match j.getText? "type" with
  | some "text" => (j.getText? "text").map .inl
  | some "tool_use" => do
    let id ← j.getText? "id"
    let name ← j.getText? "name"
    return .inr { id, name, arguments := ← j.get? "input" }
  | _ => none

/-- What a message of the assistant says whose blocks were read as `said`. -/
def saidBlocks (said : List (String ⊕ ToolCall)) : Spoken :=
  .assistant (String.join (said.filterMap Sum.getLeft?)) (said.filterMap Sum.getRight?)

/-- A message of the user may hold several results. -/
def readMessage (j : Json) : Option (List Spoken) :=
  match j.getText? "role", j.get? "content" with
  | some "user", some (.str content) => some [.user content]
  | some "user", some (.arr blocks) => blocks.mapM readToolResult
  | some "assistant", some (.str content) => some [.assistant content []]
  | some "assistant", some (.arr blocks) =>
    (blocks.mapM readBlock).map fun said => [saidBlocks said]
  | _, _ => none

/-- The spec in an element of `tools`. -/
def readTool (j : Json) : Option ToolSpec := do
  let name ← j.getText? "name"
  let description ← j.getText? "description"
  return { name, description, parameters := ← j.get? "input_schema" }

/-- What a request says: its system prompt, its tools, its messages. -/
def hear (request : Request) : Option (String × List ToolSpec × List Spoken) := do
  let system ← (Json.obj request).getText? "system"
  let items ← (Json.obj request).get? "messages"
  let messages ← items.items?
  let tools ← (((Json.obj request).get? "tools").getD (.arr [])).items?
  let said ← messages.mapM readMessage
  return (system, ← tools.mapM readTool, said.flatten)

theorem readTool_apiTool (t : ToolSpec) : readTool (apiTool t) = some t := rfl

theorem readBlock_apiToolUse (call : ToolCall) : readBlock (apiToolUse call) = some (.inr call) := rfl

theorem filterMap_inr (calls : List ToolCall) :
    (calls.map (Sum.inr : ToolCall → String ⊕ ToolCall)).filterMap Sum.getLeft? = [] ∧
      (calls.map (Sum.inr : ToolCall → String ⊕ ToolCall)).filterMap Sum.getRight? = calls := by
  induction calls with
  | nil => exact ⟨rfl, rfl⟩
  | cons call rest ih => simpa using ih

theorem saidBlocks_calls (calls : List ToolCall) :
    saidBlocks (calls.map .inr) = .assistant "" calls := by
  obtain ⟨hleft, hright⟩ := filterMap_inr calls
  unfold saidBlocks
  rw [hleft, hright]
  rfl

theorem saidBlocks_text (content : String) (calls : List ToolCall) :
    saidBlocks (.inl content :: calls.map .inr) = .assistant content calls := by
  obtain ⟨hleft, hright⟩ := filterMap_inr calls
  unfold saidBlocks
  simp only [List.filterMap_cons, Sum.getLeft?_inl, Sum.getRight?_inl, hleft, hright]
  simp [String.join]

theorem readMessage_apiMessage (m : Message) : readMessage (apiMessage m) = some [m.spoken] := by
  cases m with
  | user content => rfl
  | tool toolCallId name content => rfl
  | assistant content toolCalls =>
      have hread : (toolCalls.map apiToolUse).mapM readBlock = some (toolCalls.map .inr) :=
        mapM_map fun call _ => readBlock_apiToolUse call
      simp only [apiMessage]
      split_ifs with hcalls hcontent
      · obtain rfl := List.isEmpty_iff.1 hcalls
        rfl
      · subst hcontent
        show ((toolCalls.map apiToolUse).mapM readBlock).map (fun said => [saidBlocks said]) = _
        rw [hread, Option.map_some, saidBlocks_calls]
        rfl
      · have hblocks : ((.obj [("type", .str "text"), ("text", .str content)]) ::
            toolCalls.map apiToolUse).mapM readBlock = some (.inl content :: toolCalls.map .inr) := by
          rw [List.mapM_cons, hread]
          rfl
        show (((.obj [("type", .str "text"), ("text", .str content)]) ::
          toolCalls.map apiToolUse).mapM readBlock).map (fun said => [saidBlocks said]) = _
        rw [hblocks, Option.map_some, saidBlocks_text]
        rfl

theorem hear_kwargs (config : ProviderConfig) (messages : List Message) (system : String)
    (tools : Option (List ToolSpec)) :
    hear (kwargs config messages system tools) =
      some (system, tools.getD [], messages.map Message.spoken) := by
  have hsaid : (messages.map apiMessage).mapM readMessage =
      some (messages.map fun m => [m.spoken]) :=
    mapM_map fun m _ => readMessage_apiMessage m
  have htools : ((tools.getD []).map apiTool).mapM readTool = some (tools.getD []) := by
    rw [mapM_map fun t _ => readTool_apiTool t, List.map_id']
  have hflat : (messages.map fun m => [m.spoken]).flatten = messages.map Message.spoken := by
    rw [List.flatten_eq_flatMap, List.flatMap_map, List.map_eq_flatMap]
    rfl
  unfold kwargs
  split_ifs with hempty
  · rw [List.isEmpty_iff.1 hempty]
    show ((messages.map apiMessage).mapM readMessage).bind
      (fun said => some (system, [], said.flatten)) = _
    rw [hsaid, ← hflat]
    rfl
  · show ((messages.map apiMessage).mapM readMessage).bind
      (fun said => (((tools.getD []).map apiTool).mapM readTool).bind
        fun tools => some (system, tools, said.flatten)) = _
    rw [hsaid, htools, ← hflat]
    rfl

/-! ### Its replies, read -/

/-- What the blocks say: their texts joined, and a call for every block of a tool, in their order. A block
    without an input stands for a call with the empty object. -/
inductive Said : List ContentBlock → String → List ToolCall → Prop
  | done : Said [] "" []
  | text {blocks : List ContentBlock} {rest : String} {calls : List ToolCall} (s : String)
      (h : Said blocks rest calls) : Said (.text s :: blocks) (s ++ rest) calls
  | toolUse {blocks : List ContentBlock} {rest : String} {calls : List ToolCall} (id name : String)
      {input : Json} (hinput : input.truthy = true) (h : Said blocks rest calls) :
      Said (.toolUse id name input :: blocks) rest ({ id, name, arguments := input } :: calls)
  | bareUse {blocks : List ContentBlock} {rest : String} {calls : List ToolCall} (id name : String)
      {input : Json} (hinput : input.truthy = false) (h : Said blocks rest calls) :
      Said (.toolUse id name input :: blocks) rest ({ id, name, arguments := .obj [] } :: calls)
  | other {blocks : List ContentBlock} {rest : String} {calls : List ToolCall}
      (h : Said blocks rest calls) : Said (.other :: blocks) rest calls

/-- A reply says what its blocks say. -/
structure Reply.Says (resp : Reply) (answer : Answer) : Prop where
  content : Said resp.content answer.text answer.toolCalls
  promptTokens : answer.promptTokens = resp.usage.bind Usage.inputTokens
  completionTokens : answer.completionTokens = resp.usage.bind Usage.outputTokens

theorem filterMap_toolCall?_toolUse (id name : String) (input : Json) (rest : List ContentBlock) :
    (ContentBlock.toolUse id name input :: rest).filterMap ContentBlock.toolCall? =
      { id, name, arguments := if input.truthy then input else .obj [] } ::
        rest.filterMap ContentBlock.toolCall? := rfl

theorem join_text (s : String) (rest : List ContentBlock) :
    String.join ((ContentBlock.text s :: rest).filterMap ContentBlock.text?) =
      s ++ String.join (rest.filterMap ContentBlock.text?) := String.join_cons

theorem said_blocks (blocks : List ContentBlock) :
    Said blocks (String.join (blocks.filterMap ContentBlock.text?))
      (blocks.filterMap ContentBlock.toolCall?) := by
  induction blocks with
  | nil => exact .done
  | cons block rest ih =>
      cases block with
      | text s =>
          rw [join_text]
          exact .text s ih
      | toolUse id name input =>
          rw [filterMap_toolCall?_toolUse]
          split_ifs with hinput
          · exact .toolUse id name hinput ih
          · exact .bareUse id name (Bool.eq_false_iff.2 hinput) ih
      | other => exact .other ih

theorem Said.eq {blocks : List ContentBlock} {text : String} {calls : List ToolCall}
    (h : Said blocks text calls) :
    text = String.join (blocks.filterMap ContentBlock.text?) ∧
      calls = blocks.filterMap ContentBlock.toolCall? := by
  induction h with
  | done => exact ⟨rfl, rfl⟩
  | text s _ ih =>
      obtain ⟨rfl, rfl⟩ := ih
      exact ⟨(join_text _ _).symm, rfl⟩
  | toolUse id name hinput _ ih =>
      obtain ⟨rfl, rfl⟩ := ih
      rw [filterMap_toolCall?_toolUse, if_pos hinput]
      exact ⟨rfl, rfl⟩
  | bareUse id name hinput _ ih =>
      obtain ⟨rfl, rfl⟩ := ih
      rw [filterMap_toolCall?_toolUse, if_neg (Bool.eq_false_iff.1 hinput)]
      exact ⟨rfl, rfl⟩
  | other _ ih => exact ih

theorem response_iff (model : String) (resp : Reply) (r : LLMResponse) :
    (.ok (response model resp) : Except Exn LLMResponse) = .ok r ↔
      ∃ answer, resp.Says answer ∧ r = answer.response model := by
  constructor
  · intro h
    obtain rfl := Except.ok.inj h
    exact ⟨⟨_, _, _, _⟩, ⟨said_blocks resp.content, rfl, rfl⟩, rfl⟩
  · rintro ⟨⟨text, calls, prompt, completion⟩, ⟨hcontent, hprompt, hcompletion⟩, rfl⟩
    obtain ⟨htext, hcalls⟩ := hcontent.eq
    dsimp only at htext hcalls hprompt hcompletion
    subst htext hcalls hprompt hcompletion
    rfl

/-- The dialect of `AnthropicProvider`. -/
def dialect (config : ProviderConfig) : Dialect where
  model := config.model
  Reply := Reply
  request := kwargs config
  response reply := .ok (response config.model reply)
  hear := hear
  Says := Reply.Says
  Carries _ := True
  hear_request messages system tools _ := hear_kwargs config messages system tools
  response_iff := response_iff config.model
  carries_says _ _ _ _ _ := trivial

theorem provider_eq (config : ProviderConfig) (create : Request → Except Exn Reply) :
    provider config create = (dialect config).provider create := by
  have hchat (messages : List Message) (system : String) (tools : Option (List ToolSpec)) :
      (provider config create).chat messages system tools =
        ((dialect config).provider create).chat messages system tools := by
    show (create (kwargs config messages system tools)).map _ =
      (create (kwargs config messages system tools)).bind _
    cases create (kwargs config messages system tools) <;> rfl
  show LLMProvider.mk config.model (provider config create).chat =
    LLMProvider.mk config.model ((dialect config).provider create).chat
  exact congrArg (LLMProvider.mk config.model)
    (funext fun messages => funext fun system => funext fun tools => hchat messages system tools)

end Anthropic

/-! ## Runs -/

section

variable {py : Python} (json : JsonDumps py) (config : ProviderConfig) (agent : Agent)
  (registry : String → Option Tool) (settings : AgentSettings) (taskDescription context : String)

/-- Over OpenAI the requests of a run tell one dialogue: the system prompt, the tools and the prompt of
    the run; then each time what was said before, the reply of the API, and the results of its calls. -/
theorem openAI_dialogue (create : Request → Except Exn OpenAI.Completion) :
    (OpenAI.dialect json config).Dialogue create
      { system := agent.systemPrompt
        tools := (agent.tools registry settings).map Tool.spec
        messages := [.user (Agent.buildUserPrompt taskDescription context)] }
      (((agent.over (OpenAI.provider py json.dumps config create)).run registry settings
        taskDescription context).final.chats.map Prod.fst)
      ((OpenAI.dialect json config).requests agent (agent.tools registry settings)
        ((agent.over (OpenAI.provider py json.dumps config create)).run registry settings
          taskDescription context).final) :=
  Dialect.dialogue_run (agent.over ((OpenAI.dialect json config).provider create)) rfl
    registry settings taskDescription context

/-- Over Anthropic they tell one too, each result in a message of the user. -/
theorem anthropic_dialogue (create : Request → Except Exn Anthropic.Reply) :
    (Anthropic.dialect config).Dialogue create
      { system := agent.systemPrompt
        tools := (agent.tools registry settings).map Tool.spec
        messages := [.user (Agent.buildUserPrompt taskDescription context)] }
      (((agent.over (Anthropic.provider config create)).run registry settings taskDescription
        context).final.chats.map Prod.fst)
      ((Anthropic.dialect config).requests agent (agent.tools registry settings)
        ((agent.over (Anthropic.provider config create)).run registry settings taskDescription
          context).final) := by
  rw [Anthropic.provider_eq]
  exact Dialect.dialogue_run (agent.over ((Anthropic.dialect config).provider create)) rfl
    registry settings taskDescription context

/-- Where both APIs serve one model, a run over either provider is the same run. -/
theorem run_interchanged {create : Request → Except Exn OpenAI.Completion}
    {create' : Request → Except Exn Anthropic.Reply} {answer : Reading → Except Exn Answer}
    (hopenAI : (OpenAI.dialect json config).Serves create answer)
    (hanthropic : (Anthropic.dialect config).Serves create' answer) :
    (agent.over (OpenAI.provider py json.dumps config create)).run registry settings taskDescription
        context =
      (agent.over (Anthropic.provider config create')).run registry settings taskDescription context := by
  rw [Anthropic.provider_eq]
  exact (Dialect.run_direct hopenAI agent registry settings taskDescription context).trans
    (Dialect.run_direct hanthropic agent registry settings taskDescription context).symm

end

/-! ## One model behind both APIs -/

/-- `json.dumps` of flat objects. -/
def flatJson : JsonDumps flatPython where
  dumps := flatDumps
  loads_dumps _ _ h := by
    obtain ⟨fields, rfl, hscalar⟩ := scalar_of_flatLoads h
    exact flatLoads_flatDumps hscalar
  loads_empty := flatLoads_flatDumps (List.forall_mem_nil _)

/-- The arguments of a call, as the API writes them. -/
def productText : String := "\x7b\"expression\": \"6 * 7\"\x7d"

theorem loads_productText :
    flatPython.loads productText = some (.obj [("expression", .str "6 * 7")]) := by
  have htext : productText = flatDumps (.obj [("expression", .str "6 * 7")]) := by decide +kernel
  have hscalar : ∀ p ∈ [("expression", Json.str "6 * 7")], p.2.isScalar = true :=
    List.forall_mem_singleton.2 rfl
  rw [htext]
  exact flatLoads_flatDumps hscalar

/-- One configuration for both providers. -/
def mockConfig : ProviderConfig := { model := "mock-model", temperature := "0.2", maxTokens := 1024 }

/-- What both APIs raise on a request that is no conversation. -/
def badRequest : Exn := ⟨"BadRequestError", "messages do not form a conversation"⟩

/-- A model that asks for two tools at once, and then answers. -/
def multiplyingAnswer (said : Reading) : Except Exn Answer :=
  if said.messages.any Message.isTool then .ok { text := "It is 42.", toolCalls := [] }
  else
    .ok
      { text := "Let me see."
        toolCalls :=
          [⟨"call_calc", "calculator", .obj [("expression", .str "6 * 7")]⟩,
            ⟨"call_page", "fetch_url", .obj []⟩]
        promptTokens := some 30 }

/-- The OpenAI API before that model. -/
def multiplyingCompletion (request : Request) : Except Exn OpenAI.Completion :=
  match (OpenAI.dialect flatJson mockConfig).reading request with
  | none => .error badRequest
  | some said =>
    if said.messages.any Message.isTool then
      .ok { choices := [{ content := some "It is 42.", toolCalls := none }], usage := none }
    else
      .ok
        { choices := [{ content := some "Let me see."
                        toolCalls := some
                          [⟨"call_calc", "calculator", some productText⟩,
                            ⟨"call_page", "fetch_url", none⟩] }]
          usage := some { promptTokens := some 30, completionTokens := none } }

/-- The Anthropic API before it. -/
def multiplyingReply (request : Request) : Except Exn Anthropic.Reply :=
  match (Anthropic.dialect mockConfig).reading request with
  | none => .error badRequest
  | some said =>
    if said.messages.any Message.isTool then .ok { content := [.text "It is 42."], usage := none }
    else
      .ok
        { content :=
            [.text "Let me ", .other, .toolUse "call_calc" "calculator"
                (.obj [("expression", .str "6 * 7")]),
              .text "see.", .toolUse "call_page" "fetch_url" (.obj [])]
          usage := some { inputTokens := some 30, outputTokens := none } }

theorem serves_multiplyingCompletion :
    (OpenAI.dialect flatJson mockConfig).Serves multiplyingCompletion multiplyingAnswer := by
  intro request said h
  unfold multiplyingCompletion multiplyingAnswer
  rw [h]
  dsimp only
  split_ifs
  · exact .said ⟨⟨_, rfl, rfl, .nil⟩, rfl, rfl⟩
  · refine .said ⟨⟨_, rfl, rfl, .cons ⟨rfl, rfl, ?_⟩ (.cons ⟨rfl, rfl, .missing⟩ .nil)⟩, rfl, rfl⟩
    exact .loaded (by decide +kernel) loads_productText

theorem serves_multiplyingReply :
    (Anthropic.dialect mockConfig).Serves multiplyingReply multiplyingAnswer := by
  intro request said h
  unfold multiplyingReply multiplyingAnswer
  rw [h]
  dsimp only
  split_ifs
  · exact .said ⟨.text "It is 42." .done, rfl, rfl⟩
  · refine .said ⟨.text "Let me " (.other (.toolUse _ _ rfl (.text "see." (.bareUse _ _ rfl .done)))),
      rfl, rfl⟩

/-- The model is spoken to twice. -/
theorem chats_multiplying :
    ((analysisAgent.over (Dialect.direct "mock-model" multiplyingAnswer)).run onlyCalculator {}
      "Compute 6 * 7" "").final.chats.length = 2 := rfl

theorem openAI_dialogue_multiplying :
    ∃ given requests, requests.length = 2 ∧
      (OpenAI.dialect flatJson mockConfig).Dialogue multiplyingCompletion
        { system := analysisAgent.systemPrompt
          tools := (analysisAgent.tools onlyCalculator {}).map Tool.spec
          messages := [.user (Agent.buildUserPrompt "Compute 6 * 7" "")] }
        given requests := by
  refine ⟨_, _, ?_, openAI_dialogue flatJson mockConfig analysisAgent onlyCalculator {}
    "Compute 6 * 7" "" multiplyingCompletion⟩
  have hrun := Dialect.run_direct serves_multiplyingCompletion analysisAgent onlyCalculator {}
    "Compute 6 * 7" ""
  refine (List.length_map _).trans ?_
  exact (congrArg (fun run => run.final.chats.length) hrun).trans chats_multiplying

theorem anthropic_dialogue_multiplying :
    ∃ given requests, requests.length = 2 ∧
      (Anthropic.dialect mockConfig).Dialogue multiplyingReply
        { system := analysisAgent.systemPrompt
          tools := (analysisAgent.tools onlyCalculator {}).map Tool.spec
          messages := [.user (Agent.buildUserPrompt "Compute 6 * 7" "")] }
        given requests := by
  refine ⟨_, _, ?_, anthropic_dialogue mockConfig analysisAgent onlyCalculator {} "Compute 6 * 7" ""
    multiplyingReply⟩
  have hrun := Dialect.run_direct serves_multiplyingReply analysisAgent onlyCalculator {}
    "Compute 6 * 7" ""
  rw [Anthropic.provider_eq]
  refine (List.length_map _).trans ?_
  exact (congrArg (fun run => run.final.chats.length) hrun).trans chats_multiplying

theorem run_interchanged_multiplying :
    (analysisAgent.over (OpenAI.provider flatPython flatJson.dumps mockConfig
        multiplyingCompletion)).run onlyCalculator {} "Compute 6 * 7" "" =
      (analysisAgent.over (Anthropic.provider mockConfig multiplyingReply)).run onlyCalculator {}
        "Compute 6 * 7" "" :=
  run_interchanged flatJson mockConfig analysisAgent onlyCalculator {} "Compute 6 * 7" ""
    serves_multiplyingCompletion serves_multiplyingReply

end AgenticExecution
