import AgenticExecution.Transcript
import AgenticExecution.CalculatorBounds

set_option autoImplicit false

/-! # Whether the model sees what its tools gave

An observation waits in the messages for the next chat call. The last turn the bound allows has no next
chat call: if its response requests tools they are run all the same, for nobody, and the text returned
is the one that came with the request. -/

namespace AgenticExecution

/-- The observation of every tool run stands, at its place, in the messages of a later chat call. -/
def Observed (log : List AgentEvent) : Prop :=
  ∀ before position call result after, log = before ++ .tool position call result :: after →
    ∃ messages reply, AgentEvent.chat messages reply ∈ after ∧
      messages[position]? = some (.tool call.id call.name result.content)

/-- The tools were run for the model, and the text returned is that of a response without requests. -/
structure ReachesModel (run : AgentRun) : Prop where
  observed : Observed run.final.log
  answered : ∀ output, run.result = .ok output → ∃ messages response,
    (messages, .ok response) ∈ run.final.chats ∧ response.toolCalls = [] ∧ output.text = response.text

section

variable (agent : Agent) (settings : AgentSettings) (tools : List Tool) (prompt : String)

/-- The conversation after `k` exchanges with the model. -/
def conversation : Nat → List Message
  | 0 => [.user prompt]
  | k + 1 =>
    match agent.chat tools (conversation k) with
    | .ok response => conversation k ++ .assistant response.text response.toolCalls ::
        toolObservations settings tools ((conversation k).length + 1) response.toolCalls
    | .error _ => conversation k

/-- The reply asks for a tool. -/
def RequestsTools : Except Exn LLMResponse → Prop
  | .ok response => response.toolCalls ≠ []
  | .error _ => False

/-- A reply that ends the run with a text of its own, or with an exception. -/
def Conclusive : Except Exn LLMResponse → Prop
  | .ok response => response.toolCalls = [] ∧ response.text ≠ ""
  | .error _ => True

/-- Of the replies of the first `bound` turns one requests no tools, and the first such one is
    conclusive. -/
def Concludes (bound : Nat) : Prop :=
  ∃ k < bound,
    (∀ i < k, RequestsTools (agent.chat tools (conversation agent settings tools prompt i))) ∧
      Conclusive (agent.chat tools (conversation agent settings tools prompt k))

end

variable {agent : Agent} {settings : AgentSettings} {tools : List Tool} {prompt : String}
  {s : AgentLoop} {reply : Except Exn LLMResponse}

theorem not_requestsTools (h : Conclusive reply) : ¬ RequestsTools reply := by
  cases reply with
  | error exc => exact id
  | ok response => exact not_not.2 h.1

/-! ## Observations keep their place -/

/-- The observation of every tool run so far stands in the messages. -/
def InPlace (s : AgentLoop) : Prop :=
  ∀ position call result, AgentEvent.tool position call result ∈ s.log →
    s.messages[position]? = some (.tool call.id call.name result.content)

theorem getElem?_append_of_some {messages : List Message} {position : Nat} {m : Message}
    (h : messages[position]? = some m) (more : List Message) :
    (messages ++ more)[position]? = some m := by
  obtain ⟨hposition, -⟩ := List.getElem?_eq_some_iff.1 h
  rw [List.getElem?_append_left hposition, h]

theorem InPlace.chatted (h : InPlace s) (reply : Except Exn LLMResponse) :
    InPlace (s.chatted reply) := by
  intro position call result hmem
  obtain hmem | hmem := List.mem_append.1 hmem
  · exact h position call result hmem
  · simp at hmem

theorem InPlace.runToolCall (h : InPlace s) (call : ToolCall) :
    InPlace (runToolCall settings tools s call) := by
  intro position call' result hmem
  unfold AgenticExecution.runToolCall at hmem ⊢
  cases htool : toolByName tools call.name with
  | none =>
      rw [htool] at hmem
      exact getElem?_append_of_some (h position call' result hmem) _
  | some tool =>
      rw [htool] at hmem
      obtain hmem | hmem := List.mem_append.1 hmem
      · exact getElem?_append_of_some (h position call' result hmem) _
      · obtain ⟨rfl, rfl, rfl⟩ := AgentEvent.tool.inj (List.mem_singleton.1 hmem)
        exact List.getElem?_concat_length

theorem InPlace.turn (h : InPlace s) (response : LLMResponse) :
    InPlace (Agent.turn settings tools s response) := by
  have hrequested : InPlace (((s.chatted (.ok response)).received response).requested response) :=
    fun position call result hmem =>
      getElem?_append_of_some (h.chatted (.ok response) position call result hmem) _
  exact List.foldlRecOn response.toolCalls (AgenticExecution.runToolCall settings tools) hrequested
    fun s hs call _ => hs.runToolCall call

/-- The next chat call gets every observation there is. -/
theorem InPlace.observed (h : InPlace s) (reply : Except Exn LLMResponse) :
    Observed (s.chatted reply).log := by
  intro before position call result after hsplit
  obtain rfl | ⟨after, last, rfl⟩ := List.eq_nil_or_concat' after
  · have hlast := congrArg List.getLast? hsplit
    simp [AgentLoop.chatted] at hlast
  · rw [← List.cons_append, ← List.append_assoc] at hsplit
    obtain ⟨hlog, hlast⟩ := List.append_inj' hsplit rfl
    obtain rfl := List.singleton_inj.1 hlast
    refine ⟨s.messages, reply, by simp, h position call result ?_⟩
    rw [hlog]
    simp

/-! ## The run and the conversation -/

/-- The run is before turn `j` and every response so far requested tools. -/
structure AtTurn (agent : Agent) (settings : AgentSettings) (tools : List Tool) (prompt : String)
    (j : Nat) (s : AgentLoop) : Prop where
  messages : s.messages = conversation agent settings tools prompt j
  inPlace : InPlace s
  requested : ∀ i < j, RequestsTools (agent.chat tools (conversation agent settings tools prompt i))
  chats : ∀ chat ∈ s.chats, RequestsTools chat.2

variable {j : Nat} {response : LLMResponse}

theorem atTurn_start (taskDescription context : String) :
    AtTurn agent settings tools (Agent.buildUserPrompt taskDescription context) 0
      (Agent.start taskDescription context) where
  messages := rfl
  inPlace := by simp [InPlace, Agent.start]
  requested := by simp
  chats := by simp [AgentLoop.chats, Agent.start]

theorem AtTurn.turn (h : AtTurn agent settings tools prompt j s)
    (hreply : agent.chat tools s.messages = .ok response) (hcalls : response.toolCalls ≠ []) :
    AtTurn agent settings tools prompt (j + 1) (Agent.turn settings tools s response) := by
  have hturn := turnTaken settings tools s response
  rw [h.messages] at hreply
  refine ⟨?_, h.inPlace.turn response, ?_, ?_⟩
  · rw [hturn.messages, h.messages, conversation, hreply]
  · intro i hi
    obtain hi | rfl := Nat.lt_succ_iff_lt_or_eq.1 hi
    · exact h.requested i hi
    · rw [hreply]
      exact hcalls
  · rw [hturn.chats]
    exact List.forall_mem_append.2 ⟨h.chats, List.forall_mem_singleton.2 hcalls⟩

/-- At the first reply without requests it is known whether the run concludes. -/
theorem AtTurn.concludes_iff (h : AtTurn agent settings tools prompt j s) {bound : Nat}
    (hj : j < bound) (hreply : ¬ RequestsTools (agent.chat tools s.messages)) :
    Concludes agent settings tools prompt bound ↔ Conclusive (agent.chat tools s.messages) := by
  rw [h.messages] at hreply ⊢
  constructor
  · rintro ⟨k, -, hrequested, hconclusive⟩
    obtain hk | rfl | hk := Nat.lt_trichotomy k j
    · exact absurd (h.requested k hk) (not_requestsTools hconclusive)
    · exact hconclusive
    · exact absurd (hrequested j hk) hreply
  · exact fun hconclusive => ⟨j, hj, h.requested, hconclusive⟩

/-- What `ReachesModel` says about the way the loop was left. -/
def Fed (agent : Agent) (left : AgentLoop × Option Exn) : Prop :=
  Observed left.1.log ∧ (left.2 = none → ∃ messages response,
    (messages, .ok response) ∈ left.1.chats ∧ response.toolCalls = [] ∧
      (agent.output left.1).text = response.text)

theorem AtTurn.fed_of_answer (h : AtTurn agent settings tools prompt j s)
    (hcalls : response.toolCalls = []) :
    Fed agent ((s.chatted (.ok response)).received response, none) ↔ response.text ≠ "" := by
  have hchats : ((s.chatted (.ok response)).received response).chats =
      s.chats ++ [(s.messages, .ok response)] := chats_chatted s _
  have htext : (agent.output ((s.chatted (.ok response)).received response)).text =
      if response.text = "" then "(no answer produced)" else response.text := rfl
  constructor
  · rintro ⟨-, hanswered⟩ hempty
    obtain ⟨messages, response', hmem, hcalls', htext'⟩ := hanswered rfl
    rw [hchats] at hmem
    obtain hmem | hmem := List.mem_append.1 hmem
    · exact h.chats _ hmem hcalls'
    · obtain ⟨-, hresponse⟩ := Prod.mk.inj (List.mem_singleton.1 hmem)
      obtain rfl := Except.ok.inj hresponse
      rw [htext, if_pos hempty, hempty] at htext'
      exact absurd htext' (by decide)
  · intro hne
    refine ⟨h.inPlace.observed (.ok response), fun _ => ⟨s.messages, response, ?_, hcalls, ?_⟩⟩
    · rw [hchats]
      exact List.mem_append_right _ (List.mem_singleton_self _)
    · rw [htext, if_neg hne]

theorem fed_loop_iff {bound : Nat} (n : Nat) (s : AgentLoop)
    (h : ∃ j, j + n = bound ∧ AtTurn agent settings tools prompt j s) :
    Fed agent (agent.loop settings tools n s) ↔ Concludes agent settings tools prompt bound := by
  refine loop_rule (I := fun n s => ∃ j, j + n = bound ∧ AtTurn agent settings tools prompt j s)
    (Q := fun left => Fed agent left ↔ Concludes agent settings tools prompt bound) ?_ ?_ ?_ ?_ n s h
  · rintro s ⟨j, rfl, hj⟩
    refine iff_of_false ?_ ?_
    · rintro ⟨-, hanswered⟩
      obtain ⟨messages, response, hmem, hcalls, -⟩ := hanswered rfl
      exact hj.chats _ hmem hcalls
    · rintro ⟨k, hk, -, hconclusive⟩
      exact not_requestsTools hconclusive (hj.requested k hk)
  · rintro n s exc ⟨j, rfl, hj⟩ hreply
    rw [hj.concludes_iff (by omega) (by rw [hreply]; exact id), hreply]
    exact iff_of_true ⟨hj.inPlace.observed _, fun hnone => by cases hnone⟩ trivial
  · rintro n s response ⟨j, rfl, hj⟩ hreply hcalls
    rw [hj.concludes_iff (by omega) (by rw [hreply]; exact not_not.2 hcalls), hreply,
      hj.fed_of_answer hcalls]
    exact (and_iff_right hcalls).symm
  · rintro n s response ⟨j, rfl, hj⟩ hreply hcalls
    exact ⟨j + 1, by omega, hj.turn hreply hcalls⟩

/-- The observations of a run reach the model and a response without requests gives its text exactly
    when the model concludes within the turns the run has. -/
theorem Agent.run_reachesModel_iff (agent : Agent) (registry : String → Option Tool)
    (settings : AgentSettings) (taskDescription context : String) :
    ReachesModel (agent.run registry settings taskDescription context) ↔
      Concludes agent settings (agent.tools registry settings)
        (buildUserPrompt taskDescription context) (turns settings) := by
  rw [← fed_loop_iff (turns settings) (start taskDescription context)
    ⟨0, Nat.zero_add _, atTurn_start taskDescription context⟩]
  have hfinal := run_final agent registry settings taskDescription context
  have hresult := run_result agent registry settings taskDescription context
  constructor
  · rintro ⟨hobserved, hanswered⟩
    rw [hfinal] at hobserved hanswered
    refine ⟨hobserved, fun hnone => ?_⟩
    rw [hnone, hfinal] at hresult
    exact hanswered _ hresult
  · rintro ⟨hobserved, hanswered⟩
    refine ⟨?_, fun output houtput => ?_⟩
    · rw [hfinal]
      exact hobserved
    · rw [hresult, hfinal] at houtput
      split at houtput
      · cases houtput
      · rename_i hnone
        obtain rfl := Except.ok.inj houtput
        rw [hfinal]
        exact hanswered hnone

/-! ## One turn -/

/-- A model that has `6 * 7` computed and then answers. -/
def multiplying : LLMProvider where
  model := "mock-model"
  chat messages _ _ :=
    if messages.any Message.isTool then .ok { text := "It is 42.", model := "mock-model" }
    else .ok
      { model := "mock-model"
        toolCalls := [⟨"call_calc", "calculator", .obj [("expression", .str "6 * 7")]⟩] }

/-- An agent with two tools, of which one is registered below. -/
def analysisAgent : Agent where
  llm := multiplying
  toolNames := ["calculator", "fetch_url"]
  systemPrompt := "You are an analysis agent."

/-- The calculator is registered, on `6 * 7`. -/
def onlyCalculator (name : String) : Option Tool :=
  if name = "calculator" then
    some (calculatorTool Calculator.withoutFloats
      fun _ => .ok (.binOp (.constant (.int 6)) .mult (.constant (.int 7))))
  else none

/-- With one turn the product is computed, no chat call comes after it, and no answer is returned. -/
theorem analysisAgent_unheard :
    ¬ ReachesModel (analysisAgent.run onlyCalculator { agentMaxToolIterations := 1 }
        "Compute 6 * 7" "") ∧
      (analysisAgent.run onlyCalculator { agentMaxToolIterations := 1 } "Compute 6 * 7" "").result =
        .ok { text := "(no answer produced)", toolCalls := 1, model := "mock-model" } := by
  constructor
  · rintro ⟨hobserved, -⟩
    -- The tool was run after the only chat call.
    obtain ⟨messages, reply, hmem, -⟩ := hobserved [_] 2 _ _ [] rfl
    cases hmem
  · rfl

end AgenticExecution
