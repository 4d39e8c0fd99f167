import NucLlm.Lib.Exec
import NucLlm.AgentLoop.Context
import NucLlm.AgentLoop.KeyOrder

/-!
# The agent loop

`Agent.run` with its checkpoints.  Everything outside the loop answers as a
function of the history of events so far: the model, the tools, the guards and
the moment the process dies.  The checkpoint file survives a death; a later
launch starts from it.
-/

namespace NucLlm.AgentLoop

/-! ## What the loop exchanges -/

/-- An `AssistantTurn`. -/
structure Turn where
  text : String
  toolCalls : List ToolCall
  usage : Usage
  rawContent : Option (List Json)

/-- The two exceptions of a backend; an exception is known by its `repr`. -/
inductive LlmError where
  | retryable (repr : String)
  | fatal (repr : String)

/-- What `llm.complete` does: a turn, an LLM error, or any other exception. -/
inductive Completion where
  | turn (t : Turn)
  | llmError (e : LlmError)
  | raises (repr : String)

inductive TokenCount where
  | tokens (n : ℤ)
  | llmError (e : LlmError)
  | raises (repr : String)

structure ToolResult where
  ok : Bool
  output : String
  usage : Usage

def ToolResult.asText (r : ToolResult) : String := (if r.ok then "" else "ERROR: ") ++ r.output

structure Rejection where
  guard : String
  reason : String
  message : String
  calls : List ToolCall

/-- What `guard.check` does. -/
inductive Verdict where
  | accepts
  | rejects (r : Rejection)
  | raises

inductive StopReason where
  | completed
  | maxSteps
  | llmError
  | budgetExhausted
  | rejected
deriving DecidableEq

structure AgentResult where
  stopReason : StopReason
  finalText : String
  steps : ℕ
  toolCalls : ℕ
  error : Option String
  messages : List Entry
  usage : Usage
  costUsd : Option ℚ
  compactions : ℕ
  resumedFrom : Option ℕ
  guardRejections : ℕ
  guardRecoveries : ℕ

/-- The state that is saved; `result` is there when it is done. -/
structure Checkpoint where
  task : String
  steps : ℕ
  toolCalls : ℕ
  compactions : ℕ
  usage : Usage
  messages : List Entry
  guardRejections : ℕ
  guardRecoveries : ℕ
  charsPerToken : ℚ
  observations : ℕ
  llmState : Option Json
  result : Option (StopReason × String × Option String)
  lastStopReason : Option StopReason
  error : Option String

/-- What the file holds of a state: it is written with `sort_keys`. -/
def Checkpoint.dumped (c : Checkpoint) : Checkpoint :=
  { c with
    messages := c.messages.map Entry.sortKeys
    llmState := c.llmState.map Json.sortKeys }

inductive Event where
  | launched (task : String)
  | restored (llmState : Json)
  | request (messages : List Entry) (tools : List Json)
  | countTokens (messages : List Entry) (tools : List Json)
  | dispatched (calls : List ToolCall)
  | ran (call : ToolCall) (result : ToolResult)
  | saved (checkpoint : Checkpoint)

abbrev History := List Event

structure Config where
  systemPrompt : String
  maxSteps : ℕ
  maxObservationChars : ℕ
  maxAttempts : ℕ
  contextBudget : Option ContextBudget
  parallelTools : Bool
  maxParallel : ℕ
  maxTotalTokens : Option ℤ
  maxCostUsd : Option ℚ
  model : String
  writeTtl : String
  exactTokenCheck : Bool
  exactTokenMargin : ℤ
  wrapUpOnMaxSteps : Bool
  wrapUpPrompt : String
  maxGuardRetries : ℤ
  guards : List (History → String → Verdict)
  toolSpecs : List Json
  parallelSafe : String → Bool

/-- What the loop runs in.  `complete` sees the request as the last event; a
tool run in the pool sees the history at the start of the batch. -/
structure World where
  complete : History → Completion
  countTokens : Option (History → TokenCount)
  dispatch : History → ℕ → ToolCall → ToolResult
  notes : History → Option String
  checkpointState : Option (History → Json)
  restoresState : Bool
  dies : History → Bool
  repr : String → String
  fixed4 : ℚ → String

/-- How a process ends without a result. -/
inductive Stop where
  | died
  | raised (repr : String)

structure St where
  file : Option Checkpoint
  history : History

def St.init : St := ⟨none, []⟩

abbrev M (α : Type) := Exec Stop St α

/-- One call of `run`: a fresh or a reused process with its own settings. -/
structure Launch where
  config : Config
  task : String
  checkpointed : Bool
  estimator : Estimator

/-- The variables of the loop. -/
structure Loop where
  messages : List Entry
  steps : ℕ
  toolCalls : ℕ
  compactions : ℕ
  usage : Usage
  guardRejections : ℕ
  guardRecoveries : ℕ
  estimator : Estimator
  resumedFrom : Option ℕ

/-! ## Text -/

/-- `truncate_observation`, which raises when nothing may be kept. -/
def truncateObservation (text : String) (maxChars : ℕ) : Option String :=
  let chars := text.toList
  if maxChars = 0 then none
  else if chars.length ≤ maxChars then some text
  else
    let head := maxChars * 2 / 3
    let tail := maxChars - head
    let cut := chars.length - head - tail
    let marker := s!"\n... [TRUNCATED: {cut} of {chars.length} chars elided] ...\n"
    some <| String.ofList (chars.take head) ++ marker ++
      String.ofList (chars.drop (chars.length - tail))

/-- `str.isspace` of a character. -/
def isSpace (c : Char) : Bool :=
  let n := c.toNat
  decide ((9 ≤ n ∧ n ≤ 13) ∨ (28 ≤ n ∧ n ≤ 32) ∨ n = 0x85 ∨ n = 0xa0 ∨ n = 0x1680 ∨
    (0x2000 ≤ n ∧ n ≤ 0x200a) ∨ n = 0x2028 ∨ n = 0x2029 ∨ n = 0x202f ∨ n = 0x205f ∨ n = 0x3000)

/-- `_system_prompt`: the notes of earlier runs follow the prompt. -/
def systemPromptWith (prompt : String) : Option String → String
  | none => prompt
  | some notes =>
      if notes.toList.all isSpace then prompt
      else prompt ++ "\n\nNotes you saved in previous runs (scratchpad):\n" ++
        String.ofList (notes.toList.reverse.dropWhile (· = '\n')).reverse

/-- `run_guards`: the first rejection wins, a guard that raises is skipped. -/
def runGuards (history : History) (text : String) :
    List (History → String → Verdict) → Option Rejection
  | [] => none
  | g :: gs =>
      match g history text with
      | .rejects r => some r
      | .accepts | .raises => runGuards history text gs

/-! ## Effects -/

section Effects

variable (w : World) (l : Launch)

/-- Every event may be the last of its process. -/
def emit (ev : Event) : M Unit := do
  Exec.modify fun s ↦ { s with history := s.history ++ [ev] }
  let s ← Exec.get
  if w.dies s.history then Exec.fail .died else pure ()

/-- Sizing divides by the ratio of the estimator. -/
def checkRatio (est : Estimator) : M Unit :=
  if est.charsPerToken = 0 then Exec.fail (.raised "ZeroDivisionError") else pure ()

def snapshot (L : Loop) (messages : List Entry) (history : History)
    (result : Option (StopReason × String × Option String)) (lastStopReason : Option StopReason)
    (error : Option String) : Checkpoint :=
  { task := l.task
    steps := L.steps
    toolCalls := L.toolCalls
    compactions := L.compactions
    usage := L.usage
    messages := messages.map Entry.strip
    guardRejections := L.guardRejections
    guardRecoveries := L.guardRecoveries
    charsPerToken := L.estimator.charsPerToken
    observations := L.estimator.observations
    llmState := w.checkpointState.map fun f ↦ f history
    result := result
    lastStopReason := lastStopReason
    error := error }

/-- `save`: the file is replaced at once, then the process may die. -/
def save (L : Loop) (messages : List Entry)
    (result : Option (StopReason × String × Option String)) (lastStopReason : Option StopReason)
    (error : Option String) : M Unit :=
  if l.checkpointed then do
    let s ← Exec.get
    let c := snapshot w l L messages s.history result lastStopReason error
    Exec.modify fun s ↦ { s with file := some c.dumped }
    emit w (.saved c)
  else pure ()

/-- The cost of the usage, when the model has a name; `cost_usd` may raise. -/
def currentCost (usage : Usage) : M (Option ℚ) :=
  if l.config.model = "" then pure none
  else Exec.ofOption (.raised "ValueError") (usage.costUsd l.config.model l.config.writeTtl)

def agentResult (L : Loop) (reason : StopReason) (text : String) (error : Option String)
    (cost : Option ℚ) : AgentResult :=
  ⟨reason, text, L.steps, L.toolCalls, error, L.messages, L.usage, cost, L.compactions,
    L.resumedFrom, L.guardRejections, L.guardRecoveries⟩

/-- A completed run is saved as done, any other stays live at the messages in
`persist`. -/
def saveEnd (L : Loop) (reason : StopReason) (text : String) (error : Option String)
    (persist : List Entry) : M Unit :=
  if reason = .completed then save w l L L.messages (some (reason, text, error)) none none
  else save w l L persist none (some reason) error

/-- `finish`. -/
def finish (L : Loop) (reason : StopReason) (text : String) (error : Option String)
    (persist : List Entry) : M AgentResult := do
  let cost ← currentCost l L.usage
  saveEnd w l L reason text error persist
  pure (agentResult L reason text error cost)

/-- `_budget_exceeded`. -/
def budgetExceeded (usage : Usage) : M (Option String) :=
  match l.config.maxTotalTokens.filter fun cap ↦ decide (cap ≤ usage.total) with
  | some cap => pure (some s!"token cap: {usage.total} >= {cap}")
  | none =>
      match l.config.maxCostUsd with
      | none => pure none
      | some cap => do
          let cost ← currentCost l usage
          match cost with
          | none =>
              pure (some s!"cost cap set but model {w.repr l.config.model} is unpriced")
          | some cost =>
              pure (if cap ≤ cost then some s!"cost cap: ${w.fixed4 cost} >= ${w.fixed4 cap}"
                else none)

/-- One call of `llm.complete`. -/
def askOnce (messages : List Entry) (tools : List Json) : M (Except LlmError Turn) := do
  emit w (.request messages tools)
  let s ← Exec.get
  match w.complete s.history with
  | .turn t => pure (.ok t)
  | .llmError e => pure (.error e)
  | .raises repr => Exec.fail (.raised repr)

/-- The attempts that `retry_call` has left, after the error `last`. -/
def attempt (messages : List Entry) (tools : List Json) : ℕ → String → M (Except String Turn)
  | 0, last =>
      let text := s!"gave up after {l.config.maxAttempts} attempts: {last}"
      pure (.error s!"RetriesExhausted({w.repr text})")
  | rem + 1, _ => do
      let c ← askOnce w messages tools
      match c with
      | .ok t => pure (.ok t)
      | .error (.retryable repr) => attempt messages tools rem repr
      | .error (.fatal repr) => pure (.error repr)

/-- `_complete_with_retry`: a turn, or the `repr` of the error that ends the run. -/
def completeWithRetry (est : Estimator) (messages : List Entry) (tools : List Json) :
    M (Except String Turn) := do
  checkRatio est
  if l.config.maxAttempts = 0 then Exec.fail (.raised "ValueError")
  else attempt w l messages tools l.config.maxAttempts ""

/-! ## Tools -/

def dispatchSerial : ℕ → List ToolCall → M (List ToolResult)
  | _, [] => pure []
  | i, c :: cs => do
      let s ← Exec.get
      let r := w.dispatch s.history i c
      emit w (.ran c r)
      let rs ← dispatchSerial (i + 1) cs
      pure (r :: rs)

/-- The results of the pool, in call order whatever finished first. -/
def dispatchPool (history : History) : ℕ → List ToolCall → M (List ToolResult)
  | _, [] => pure []
  | i, c :: cs => do
      let r := w.dispatch history i c
      emit w (.ran c r)
      let rs ← dispatchPool history (i + 1) cs
      pure (r :: rs)

/-- `_dispatch_all`: in parallel only if every tool of the batch is safe. -/
def dispatchAll (calls : List ToolCall) : M (List ToolResult) := do
  emit w (.dispatched calls)
  let safe := calls.all fun c ↦ l.config.parallelSafe c.name
  if l.config.parallelTools && decide (1 < calls.length) && safe then
    if l.config.maxParallel = 0 then Exec.fail (.raised "ValueError")
    else do
      let s ← Exec.get
      dispatchPool w s.history 0 calls
  else dispatchSerial w 0 calls

/-- The tool message for one call. -/
def toolMessage (call : ToolCall) (r : ToolResult) : Option Entry :=
  (truncateObservation r.asText l.config.maxObservationChars).map fun observation ↦
    ⟨.tool observation call.callId call.name r.ok none, none⟩

/-- The messages of `zip(turn.tool_calls, results)`, in call order. -/
def toolMessages : List ToolCall → List ToolResult → Option (List Entry)
  | c :: cs, r :: rs => do
      let e ← toolMessage l c r
      let es ← toolMessages cs rs
      pure (e :: es)
  | _, _ => some []

def toolUsage (results : List ToolResult) : Usage :=
  results.foldl (fun u r ↦ if r.usage.isZero then u else u + r.usage) {}

/-! ## One step -/

def withCompaction (L : Loop) (budget : ContextBudget) : Loop :=
  let (messages, report) := compact L.messages budget L.estimator l.config.toolSpecs
  { L with
    messages := messages
    compactions := L.compactions + if report.changed then 1 else 0 }

/-- `_maybe_exact_check`. -/
def maybeExactCheck (L : Loop) (budget : ContextBudget) : M Loop :=
  match w.countTokens with
  | none => pure L
  | some count =>
      let heuristic := L.estimator.estimate L.messages l.config.toolSpecs
      if l.config.exactTokenMargin < |heuristic - budget.target| then pure L
      else do
        emit w (.countTokens L.messages l.config.toolSpecs)
        let s ← Exec.get
        match count s.history with
        | .raises repr => Exec.fail (.raised repr)
        | .llmError _ => pure L
        | .tokens exact => do
            let chars := charsOf L.messages l.config.toolSpecs
            let L := { L with estimator := L.estimator.observe chars exact }
            if exact ≤ budget.target then pure L
            else do
              checkRatio L.estimator
              pure (withCompaction l L budget)

/-- The head of a step: compaction, when a context budget is set. -/
def fitContext (L : Loop) : M Loop :=
  match l.config.contextBudget with
  | none => pure L
  | some budget => do
      checkRatio L.estimator
      let L := withCompaction l L budget
      if l.config.exactTokenCheck then maybeExactCheck w l L budget else pure L

def assistantEntry (t : Turn) : Entry := ⟨.assistant t.text t.toolCalls t.rawContent, none⟩

/-- The blocks a recovered turn gains. -/
def toolUseBlock (c : ToolCall) : Json :=
  .obj [("type", .str "tool_use"), ("id", .str c.callId), ("name", .str c.name),
    ("input", .obj c.args)]

/-- The turn rewritten by a guard that recovered its calls. -/
def Turn.recover (t : Turn) (calls : List ToolCall) : Turn :=
  { t with
    toolCalls := calls
    rawContent := t.rawContent.map fun blocks ↦ blocks ++ calls.map toolUseBlock }

/-- The caps are checked again when tools have spent tokens themselves. -/
def budgetAfterTools (used usage : Usage) : M (Option String) :=
  if used.isZero then pure none else budgetExceeded w l usage

/-- Dispatch of a turn whose calls are in `before ++ [its message]` already. -/
def runTools (L : Loop) (before : List Entry) (t : Turn) : M (Loop ⊕ AgentResult) := do
  let L := { L with messages := before ++ [assistantEntry t] }
  let exceeded ← budgetExceeded w l L.usage
  match exceeded with
  | some exceeded => do
      -- the calls never ran: the turn is returned but not persisted
      let r ← finish w l L .budgetExhausted t.text (some exceeded) before
      pure (.inr r)
  | none => do
      let results ← dispatchAll w l t.toolCalls
      let answers ← Exec.ofOption (.raised "ValueError") (toolMessages l t.toolCalls results)
      let used := toolUsage results
      let L := { L with
        messages := before ++ assistantEntry t :: answers
        toolCalls := L.toolCalls + answers.length
        usage := if used.isZero then L.usage else L.usage + used }
      let exceeded ← budgetAfterTools w l used L.usage
      match exceeded with
      | some exceeded => do
          let r ← finish w l L .budgetExhausted t.text (some exceeded) L.messages
          pure (.inr r)
      | none => do
          save w l L L.messages none none none
          pure (.inl L)

/-- A turn without tool calls: completed, sent back, or recovered by a guard. -/
def judgeText (L : Loop) (before : List Entry) (t : Turn) : M (Loop ⊕ AgentResult) := do
  let s ← Exec.get
  let L := { L with messages := before ++ [assistantEntry t] }
  match runGuards s.history t.text l.config.guards with
  | none => do
      let r ← finish w l L .completed t.text none L.messages
      pure (.inr r)
  | some rejection =>
      match rejection.calls with
      | c :: cs =>
          runTools w l { L with guardRecoveries := L.guardRecoveries + 1 } before
            (t.recover (c :: cs))
      | [] => do
          let L := { L with
            guardRejections := L.guardRejections + 1
            messages := L.messages ++ [⟨.user rejection.message none, none⟩] }
          if l.config.maxGuardRetries - L.guardRejections < 0 then do
            let error := s!"{rejection.guard}: {rejection.reason}"
            let r ← finish w l L .rejected t.text (some error) L.messages
            pure (.inr r)
          else do
            save w l L L.messages none none none
            pure (.inl L)

/-- One turn of the `while` loop: the variables for the next, or the result. -/
def step (L : Loop) : M (Loop ⊕ AgentResult) := do
  let L ← fitContext w l { L with steps := L.steps + 1 }
  let charsSent := charsOf L.messages l.config.toolSpecs
  let L := { L with messages := L.messages.map Entry.cached }
  let turn ← completeWithRetry w l L.estimator L.messages l.config.toolSpecs
  match turn with
  | .error repr => do
      let r ← finish w l L .llmError "" (some repr) L.messages
      pure (.inr r)
  | .ok t => do
      let input := t.usage.totalInput
      let L := { L with
        usage := L.usage + t.usage
        estimator := if 0 < input then L.estimator.observe charsSent input else L.estimator }
      checkRatio L.estimator
      if t.toolCalls.isEmpty then judgeText w l L L.messages t else runTools w l L L.messages t

/-! ## The run -/

/-- After the last step: the wrap-up answer, when it is asked for. -/
def wrapUp (L : Loop) : M AgentResult :=
  if l.config.wrapUpOnMaxSteps then do
    let asked := (L.messages ++ [Entry.mk (.user l.config.wrapUpPrompt none) none]).map Entry.cached
    let turn ← completeWithRetry w l L.estimator asked []
    match turn with
    | .error repr =>
        let L := { L with messages := asked.dropLast }
        finish w l L .maxSteps "" (some s!"wrap-up failed: {repr}") L.messages
    | .ok t => do
        let L := { L with
          usage := L.usage + t.usage
          messages := asked ++ [Entry.mk (.assistant t.text [] none) none] }
        save w l L L.messages none none none
        finish w l L .maxSteps t.text none L.messages
  else finish w l L .maxSteps "" none L.messages

/-- The `while` loop with the steps that are left. -/
def loop : ℕ → Loop → M AgentResult
  | 0, L => wrapUp w l L
  | rem + 1, L => do
      let next ← step w l L
      match next with
      | .inl L => loop rem L
      | .inr r => pure r

def Checkpoint.toLoop (c : Checkpoint) (est : Estimator) : Loop :=
  { messages := c.messages
    steps := c.steps
    toolCalls := c.toolCalls
    compactions := c.compactions
    usage := c.usage
    guardRejections := c.guardRejections
    guardRecoveries := c.guardRecoveries
    estimator := if c.observations = 0 then est
      else { est with charsPerToken := c.charsPerToken, observations := c.observations }
    resumedFrom := some c.steps }

/-- `llm.restore_state`, for a backend that has it. -/
def restore (c : Checkpoint) : M Unit :=
  match c.llmState with
  | some st => if w.restoresState then emit w (.restored st) else pure ()
  | none => pure ()

def resume (c : Checkpoint) : M AgentResult :=
  if c.task ≠ l.task then Exec.fail (.raised "ValueError")
  else do
    restore w c
    let L := c.toLoop l.estimator
    match c.result with
    | some (reason, text, error) => do
        -- a completed run is replayed without a request
        let cost ← currentCost l L.usage
        pure (agentResult L reason text error cost)
    | none => loop w l (l.config.maxSteps - L.steps) L

def start : M AgentResult := do
  let s ← Exec.get
  let prompt := systemPromptWith l.config.systemPrompt (w.notes s.history)
  let L : Loop :=
    { messages := [⟨.system prompt, none⟩, ⟨.user l.task none, none⟩]
      steps := 0
      toolCalls := 0
      compactions := 0
      usage := {}
      guardRejections := 0
      guardRecoveries := 0
      estimator := l.estimator
      resumedFrom := none }
  save w l L L.messages none none none
  loop w l l.config.maxSteps L

/-- `Agent.run`. -/
def run : M AgentResult := do
  emit w (.launched l.task)
  let s ← Exec.get
  match if l.checkpointed then s.file else none with
  | some c => resume w l c
  | none => start w l

end Effects

/-- Launches one after the other, each finding the file the last one left. -/
def campaign (w : World) (launches : List Launch) : St :=
  launches.foldl (fun s l ↦ (run w l s).2) St.init

end NucLlm.AgentLoop
