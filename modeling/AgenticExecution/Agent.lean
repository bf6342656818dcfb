import AgenticExecution.Calculator

set_option autoImplicit false

/-! # Agents and their tools

`Agent.run` talks to the LLM in turns. A response that requests tools is answered by running them and
appending what they gave to the messages, one message per call; a response that requests none ends the
run, and so does the bound on the number of turns. -/

namespace AgenticExecution

/-- A tool call requested by the model. -/
structure ToolCall where
  id : String
  name : String
  arguments : Json

/-- `LLMResponse`, without what no caller reads. -/
structure LLMResponse where
  text : String := ""
  model : String := ""
  promptTokens : Option Int := none
  completionTokens : Option Int := none
  toolCalls : List ToolCall := []

/-- A message of the conversation, by its role. -/
inductive Message
  | user (content : String)
  | assistant (content : String) (toolCalls : List ToolCall)
  | tool (toolCallId name content : String)

/-- `ToolSpec`: what the LLM is told of a tool. -/
structure ToolSpec where
  name : String
  description : String
  parameters : Json

/-- `ToolResult`. -/
structure ToolResult where
  ok : Bool
  output : String := ""
  error : Option String := none

/-- What the executor sees of a run of a tool. -/
inductive ToolOutcome
  | returned (output : String)
  | raised (exc : Exn)
  /-- Nothing came in time, or the tool raised `TimeoutError` itself. -/
  | timedOut

/-- What a run gives may change from one moment to the next. -/
structure Tool where
  name : String
  description : String
  parameters : Json
  run (moment : Nat) (args : List (String × Json)) : ToolOutcome

/-- `tool.spec`. -/
def Tool.spec (tool : Tool) : ToolSpec where
  name := tool.name
  description := tool.description
  parameters := tool.parameters

/-- `LLMProvider`. -/
structure LLMProvider where
  model : String
  chat (messages : List Message) (system : String) (tools : Option (List ToolSpec)) :
    Except Exn LLMResponse

/-- The settings an agent reads. -/
structure AgentSettings where
  toolsEnabled : Bool := true
  /-- As it is printed. -/
  toolTimeoutSeconds : String := "10.0"
  agentMaxToolIterations : Int := 3

/-- `Agent`, by what its subclasses set. -/
structure Agent where
  llm : LLMProvider
  toolNames : List String
  systemPrompt : String

/-! ## Running a tool -/

/-- `get_tools(names)` on the registry. -/
def getTools (registry : String → Option Tool) (names : List String) : List Tool :=
  names.filterMap registry

/-- `execute_tool(tool, arguments)`. -/
def executeTool (settings : AgentSettings) (tool : Tool) (moment : Nat) (arguments : Json) :
    ToolResult :=
  let args := match arguments with
    | .obj fields => fields
    | _ => []
  match tool.run moment args with
  | .returned output => { ok := true, output }
  | .timedOut =>
    { ok := false
      error := some ("tool '" ++ tool.name ++ "' timed out after " ++
        settings.toolTimeoutSeconds ++ "s") }
  | .raised exc => { ok := false, error := some exc.describe }

/-- `result.output if result.ok else f"ERROR: {result.error}"`. -/
def ToolResult.content (result : ToolResult) : String :=
  if result.ok then result.output else "ERROR: " ++ result.error.getD "None"

/-- `CalculatorTool`. -/
def calculatorTool {F : Type} (py : Numerics F)
    (parse : String → Except Calculator.ParseError (Node F)) : Tool where
  name := "calculator"
  description := "Evaluate a basic arithmetic expression, e.g. '12 * (3 + 4)' or 'sqrt(144)'. " ++
    "Supports + - * / // % **, parentheses and sqrt/abs/round/min/max/floor/ceil/log."
  parameters := .obj [("type", .str "object"),
    ("properties", .obj [("expression", .obj [("type", .str "string"),
      ("description", .str "Arithmetic expression to evaluate")])]),
    ("required", .arr [.str "expression"])]
  run _ args :=
    match args.lookup "self", args.lookup "expression" with
    | some _, _ => .raised ⟨"TypeError",
        "CalculatorTool.run() got multiple values for argument 'self'"⟩
    | none, none => .raised ⟨"TypeError",
        "CalculatorTool.run() missing 1 required positional argument: 'expression'"⟩
    | none, some expression =>
      match Calculator.run py parse expression with
      | .ok output => .returned output
      | .error exc => .raised exc

/-! ## The loop -/

/-- What a run does outside itself: it calls the LLM, and it runs a tool, whose observation goes to
    `position` in the messages. -/
inductive AgentEvent
  | chat (messages : List Message) (reply : Except Exn LLMResponse)
  | tool (position : Nat) (call : ToolCall) (result : ToolResult)

/-- The local variables of `Agent.run`, and what it has done. -/
structure AgentLoop where
  messages : List Message
  promptTokens : Int := 0
  completionTokens : Int := 0
  toolCallsMade : Int := 0
  response : Option LLMResponse := none
  log : List AgentEvent := []

namespace AgentLoop

/-- The call of `chat`. -/
def chatted (s : AgentLoop) (reply : Except Exn LLMResponse) : AgentLoop :=
  { s with log := s.log ++ [.chat s.messages reply] }

/-- The counters take in a response. -/
def received (s : AgentLoop) (response : LLMResponse) : AgentLoop :=
  { s with
    response := some response
    promptTokens := s.promptTokens + response.promptTokens.getD 0
    completionTokens := s.completionTokens + response.completionTokens.getD 0 }

/-- The assistant message of a response. -/
def requested (s : AgentLoop) (response : LLMResponse) : AgentLoop :=
  { s with messages := s.messages ++ [.assistant response.text response.toolCalls] }

/-- A tool was run. -/
def ran (s : AgentLoop) (call : ToolCall) (result : ToolResult) : AgentLoop :=
  { s with log := s.log ++ [.tool s.messages.length call result] }

/-- The tool message of a call. -/
def observed (s : AgentLoop) (call : ToolCall) (content : String) : AgentLoop :=
  { s with
    toolCallsMade := s.toolCallsMade + 1
    messages := s.messages ++ [.tool call.id call.name content] }

end AgentLoop

/-- `tool_by_name.get(name)`; of two tools of one name the later one counts. -/
def toolByName (tools : List Tool) (name : String) : Option Tool :=
  tools.reverse.find? (·.name = name)

/-- One pass of the loop over the calls of a response. -/
def runToolCall (settings : AgentSettings) (tools : List Tool) (s : AgentLoop) (call : ToolCall) :
    AgentLoop :=
  match toolByName tools call.name with
  | none => s.observed call ("ERROR: unknown tool '" ++ call.name ++ "'")
  | some tool =>
    let result := executeTool settings tool s.messages.length call.arguments
    (s.ran call result).observed call result.content

namespace Agent

/-- `build_user_prompt`. -/
def buildUserPrompt (taskDescription context : String) : String :=
  let contextBlock := if strip context = "" then "(no prior context)" else strip context
  "Task: " ++ taskDescription ++ "\n\n" ++ "Context from previous steps:\n" ++ contextBlock ++ "\n\n" ++
    "Use tools if helpful, then produce your output for this task."

/-- The tools of a run. -/
def tools (agent : Agent) (registry : String → Option Tool) (settings : AgentSettings) : List Tool :=
  if settings.toolsEnabled then getTools registry agent.toolNames else []

/-- `self.llm.chat(messages, system=self.system_prompt, tools=tool_specs or None)`. -/
def chat (agent : Agent) (tools : List Tool) (messages : List Message) : Except Exn LLMResponse :=
  let toolSpecs := tools.map Tool.spec
  agent.llm.chat messages agent.systemPrompt (if toolSpecs.isEmpty then none else some toolSpecs)

/-- A turn whose response requests tools. -/
def turn (settings : AgentSettings) (tools : List Tool) (s : AgentLoop) (response : LLMResponse) :
    AgentLoop :=
  response.toolCalls.foldl (runToolCall settings tools)
    (((s.chatted (.ok response)).received response).requested response)

/-- The loop over the turns; the exception is the one `chat` raised. -/
def loop (agent : Agent) (settings : AgentSettings) (tools : List Tool) :
    Nat → AgentLoop → AgentLoop × Option Exn
  | 0, s => (s, none)
  | n + 1, s =>
    match agent.chat tools s.messages with
    | .error exc => (s.chatted (.error exc), some exc)
    | .ok response =>
      if response.toolCalls.isEmpty then ((s.chatted (.ok response)).received response, none)
      else agent.loop settings tools n (turn settings tools s response)

/-- What is returned once the loop is left. -/
def output (agent : Agent) (s : AgentLoop) : AgentOutput :=
  let text := (s.response.map LLMResponse.text).getD ""
  let model := (s.response.map LLMResponse.model).getD ""
  { text := if text = "" then "(no answer produced)" else text
    promptTokens := s.promptTokens
    completionTokens := s.completionTokens
    totalTokens := s.promptTokens + s.completionTokens
    toolCalls := s.toolCallsMade
    model := if model = "" then agent.llm.model else model }

/-- `range(max(1, settings.agent_max_tool_iterations))`. -/
def turns (settings : AgentSettings) : Nat := (max 1 settings.agentMaxToolIterations).toNat

/-- The local variables before the first turn. -/
def start (taskDescription context : String) : AgentLoop where
  messages := [.user (buildUserPrompt taskDescription context)]

end Agent

/-- A run that has ended. -/
structure AgentRun where
  final : AgentLoop
  result : Except Exn AgentOutput

/-- `Agent.run`. -/
def Agent.run (agent : Agent) (registry : String → Option Tool) (settings : AgentSettings)
    (taskDescription context : String) : AgentRun :=
  let tools := agent.tools registry settings
  match agent.loop settings tools (turns settings) (start taskDescription context) with
  | (s, some exc) => { final := s, result := .error exc }
  | (s, none) => { final := s, result := .ok (agent.output s) }

end AgenticExecution
