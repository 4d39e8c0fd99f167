import NucLlm.AgentLoop.Agent

/-!
# The Anthropic adapter

Replies of the Messages API become turns, with their content blocks kept as
they came; a history becomes the body of a request, in which these blocks are
replayed.
-/

namespace NucLlm.AgentLoop

/-! ## JSON objects -/

def Json.get? (key : String) : Json → Option Json
  | .obj fields => fields.lookup key
  | _ => none

def Json.str? : Json → Option String
  | .str s => some s
  | _ => none

/-- Whether Python takes a decoded value for true. -/
def Json.truthy : Json → Bool
  | .null => false
  | .bool b => b
  | .num text => !(["0", "0.0", "-0.0"].contains text)
  | .str s => s ≠ ""
  | .arr xs => !xs.isEmpty
  | .obj fields => !fields.isEmpty

/-- `d[key] = value`. -/
def setField (key : String) (value : Json) : List (String × Json) → List (String × Json)
  | [] => [(key, value)]
  | (k, v) :: fields =>
      if k = key then (key, value) :: fields else (k, v) :: setField key value fields

/-- `d.update(other)`. -/
def updateFields (fields other : List (String × Json)) : List (String × Json) :=
  other.foldl (fun fields f ↦ setField f.1 f.2 fields) fields

/-! ## Replies -/

/-- A content block of a reply, with what else the provider put in it. -/
inductive Block where
  | text (content : String) (rest : List (String × Json))
  | toolUse (id : Option String) (name : String) (input : Option Json)
      (rest : List (String × Json))
  | other (type : String) (rest : List (String × Json)) (htype : type ≠ "text" ∧ type ≠ "tool_use")

namespace Block

def json : Block → Json
  | .text content rest => .obj (("type", .str "text") :: ("text", .str content) :: rest)
  | .toolUse id name input rest =>
      .obj (("type", .str "tool_use") :: (id.toList.map fun id ↦ ("id", .str id)) ++
        ("name", .str name) :: (input.toList.map fun input ↦ ("input", input)) ++ rest)
  | .other type rest _ => .obj (("type", .str type) :: rest)

def text? : Block → Option String
  | .text content _ => some content
  | _ => none

/-- The arguments of a call: an object, or a note that there was none. -/
def args (input : Json) : List (String × Json) :=
  if input.truthy then
    match input with
    | .obj fields => fields
    | input => [("error", .str "tool input was not an object"), ("input", input)]
  else []

def call? : Block → Option ToolCall
  | .toolUse id name input _ => some ⟨name, args (input.getD .null), id.getD ""⟩
  | _ => none

end Block

/-- A response of the API, with the category of its `stop_details`. -/
structure ApiMessage where
  content : List Block
  stopReason : String
  refusalCategory : String
  usage : Usage

/-- `str.strip`. -/
def pyStrip (s : String) : String :=
  String.ofList ((s.toList.dropWhile isSpace).reverse.dropWhile isSpace).reverse

def ApiMessage.refused (m : ApiMessage) : Bool := decide (m.stopReason = "refusal")

def ApiMessage.text (m : ApiMessage) : String :=
  let text := pyStrip ("\n".intercalate (m.content.filterMap Block.text?))
  if m.refused then
    let category := if m.refusalCategory = "" then "unspecified" else m.refusalCategory
    (if text = "" then "" else text ++ "\n") ++ s!"[model refused: {category}]"
  else text

/-- `parse_api_message`: a refused turn is never acted on. -/
def parseApiMessage (m : ApiMessage) : Turn where
  text := m.text
  toolCalls := if m.refused then [] else m.content.filterMap Block.call?
  usage := m.usage
  rawContent := if m.content.isEmpty then none else some (m.content.map Block.json)

/-- What a request to the API comes to. -/
inductive ApiOutcome where
  | message (m : ApiMessage)
  | llmError (e : LlmError)
  | raises (repr : String)

def ApiOutcome.completion : ApiOutcome → Completion
  | .message m => .turn (parseApiMessage m)
  | .llmError e => .llmError e
  | .raises repr => .raises repr

/-- A world whose model is behind the API. -/
def World.overApi (w : World) (api : History → ApiOutcome) : World :=
  { w with complete := fun h ↦ (api h).completion }

/-! ## Messages on the wire -/

def wireMessage (role : String) (content : Json) : Json :=
  .obj [("role", .str role), ("content", content)]

def textBlock (text : String) : Json := .obj [("type", .str "text"), ("text", .str text)]

def toolResultBlock (content toolCallId : String) (ok : Bool) : Json :=
  .obj (("type", .str "tool_result") :: ("tool_use_id", .str toolCallId) ::
    ("content", .str content) :: if ok then [] else [("is_error", .bool true)])

/-- The calls as blocks; a call without an id gets the next one. -/
def callBlocks (ids : ℕ) : List ToolCall → List Json × ℕ
  | [] => ([], ids)
  | c :: cs =>
      if c.callId = "" then
        let (blocks, ids') := callBlocks (ids + 1) cs
        (toolUseBlock { c with callId := s!"toolu_{ids + 1}" } :: blocks, ids')
      else
        let (blocks, ids') := callBlocks ids cs
        (toolUseBlock c :: blocks, ids')

/-- The blocks of an assistant message: the provider's own, or rebuilt ones. -/
def assistantBlocks (ids : ℕ) (content : String) (toolCalls : List ToolCall) :
    Option (List Json) → List Json × ℕ
  | some (b :: bs) => (b :: bs, ids)
  | _ =>
      let (calls, ids) := callBlocks ids toolCalls
      let blocks := (if content = "" then [] else [textBlock content]) ++ calls
      (if blocks.isEmpty then [textBlock "(no content)"] else blocks, ids)

/-- The variables of `to_anthropic_messages`; `ids` counts the ids made. -/
structure Rendering where
  systemParts : List String
  out : List Json
  pendingResults : List Json
  ids : ℕ

namespace Rendering

/-- `flush_results`. -/
def flush (r : Rendering) : Rendering :=
  if r.pendingResults.isEmpty then r
  else { r with
    out := r.out ++ [wireMessage "user" (.arr r.pendingResults)]
    pendingResults := [] }

def add (r : Rendering) : Message → Rendering
  | .system content => { r with systemParts := r.systemParts ++ [content] }
  | .tool content toolCallId _ ok _ =>
      { r with pendingResults := r.pendingResults ++ [toolResultBlock content toolCallId ok] }
  | .user content _ =>
      let r := r.flush
      { r with out := r.out ++ [wireMessage "user" (.str content)] }
  | .assistant content toolCalls rawContent =>
      let r := r.flush
      let (blocks, ids) := assistantBlocks r.ids content toolCalls rawContent
      { r with out := r.out ++ [wireMessage "assistant" (.arr blocks)], ids := ids }

end Rendering

/-- The rendering of a history when `ids` ids have been made. -/
def rendering (ids : ℕ) (messages : List Message) : Rendering :=
  (messages.foldl Rendering.add ⟨[], [], [], ids⟩).flush

/-- `to_anthropic_messages`. -/
def toAnthropicMessages (ids : ℕ) (messages : List Message) : String × List Json :=
  let r := rendering ids messages
  ("\n\n".intercalate (r.systemParts.filter (· ≠ "")), r.out)

/-! ## Cache markers -/

def cacheMovingBreakpoints : ℕ := 2

def isUser (m : Json) : Bool :=
  match m.get? "role" with
  | some (.str role) => role = "user"
  | _ => false

/-- A user message in block form, if it has text. -/
def shapeUser (m : Json) : Json :=
  match m, m.get? "content" with
  | .obj fields, some (.str s) =>
      if isUser m ∧ s ≠ "" then .obj (setField "content" (.arr [textBlock s]) fields) else m
  | _, _ => m

def markBlock (cache : List (String × Json)) : Json → Json
  | .obj fields => .obj (setField "cache_control" (.obj cache) fields)
  | b => b

/-- The marker goes on the last block. -/
def markMessage (cache : List (String × Json)) (m : Json) : Json :=
  match m, m.get? "content" with
  | .obj fields, some (.arr blocks) =>
      .obj (setField "content"
        (.arr (blocks.modify (blocks.length - 1) (markBlock cache))) fields)
  | _, _ => m

/-- Mark the first `n` user messages. -/
def markUsers (cache : List (String × Json)) : ℕ → List Json → List Json
  | _, [] => []
  | 0, ms => ms
  | n + 1, m :: ms =>
      if isUser m then markMessage cache m :: markUsers cache n ms
      else m :: markUsers cache (n + 1) ms

/-- The user messages of a body, in block form and the newest ones marked. -/
def markMessages (cache : List (String × Json)) (ms : List Json) : List Json :=
  (markUsers cache cacheMovingBreakpoints (ms.map shapeUser).reverse).reverse

/-- `apply_cache_markers`. -/
def applyCacheMarkers (cache body : List (String × Json)) : List (String × Json) :=
  let body :=
    match body.lookup "system", body.lookup "tools" with
    | some system, tools =>
        if system.truthy then
          setField "system" (.arr [.obj [("type", .str "text"), ("text", system),
            ("cache_control", .obj cache)]]) body
        else markTools cache tools body
    | none, tools => markTools cache tools body
  match body.lookup "messages" with
  | some (.arr ms) => setField "messages" (.arr (markMessages cache ms)) body
  | _ => body
where
  markTools (cache : List (String × Json)) (tools : Option Json) (body : List (String × Json)) :
      List (String × Json) :=
    match tools with
    | some (.arr tools) =>
        setField "tools" (.arr (tools.modify (tools.length - 1) (markBlock cache))) body
    | _ => body

/-! ## Request bodies -/

/-- The settings of `AnthropicAPILLM` that shape a body. -/
structure AdapterConfig where
  model : String
  maxTokens : ℤ
  effort : String
  thinking : Option Json
  extraBody : List (String × Json)
  stream : Bool
  cache : List (String × Json)
  fallbacks : Option Json
  serverCompaction : Bool

def toolSpec (t : Json) : Option Json := do
  let name ← t.get? "name"
  pure <| .obj [("name", name), ("description", (t.get? "description").getD (.str "")),
    ("input_schema", (t.get? "input_schema").getD
      (.obj [("type", .str "object"), ("properties", .obj [])]))]

/-- The fields of a body before `extra_body` and the cache markers. -/
def baseFields (cfg : AdapterConfig) (system : String) (ms tools : List Json) :
    List (String × Json) :=
  [("model", .str cfg.model), ("max_tokens", .num (toString cfg.maxTokens)), ("messages", .arr ms)]
    ++ (if system = "" then [] else [("system", .str system)])
    ++ (if tools.isEmpty then [] else [("tools", .arr tools)])
    ++ (match cfg.thinking with | some thinking => [("thinking", thinking)] | none => [])
    ++ (if cfg.effort = "" then [] else [("output_config", .obj [("effort", .str cfg.effort)])])
    ++ (match cfg.fallbacks with | some fallbacks => [("fallbacks", fallbacks)] | none => [])
    ++ (if cfg.serverCompaction then
      [("context_management",
        .obj [("edits", .arr [.obj [("type", .str "compact_20260112")]])])] else [])

/-- `build_body`; a tool specification without a name raises. -/
def buildBody (cfg : AdapterConfig) (ids : ℕ) (messages : List Message) (tools : List Json) :
    Option (List (String × Json)) := do
  let (system, ms) := toAnthropicMessages ids messages
  let specs ← tools.mapM toolSpec
  let body := updateFields (baseFields cfg system ms specs) cfg.extraBody
  pure (if cfg.cache.isEmpty then body else applyCacheMarkers cfg.cache body)

/-- The body that `complete` posts. -/
def completeBody (cfg : AdapterConfig) (ids : ℕ) (messages : List Message) (tools : List Json) :
    Option (List (String × Json)) :=
  (buildBody cfg ids messages tools).map fun body ↦
    if cfg.stream then setField "stream" (.bool true) body else body

/-- The body that `count_tokens` posts. -/
def countTokensBody (cfg : AdapterConfig) (ids : ℕ) (messages : List Message)
    (tools : List Json) : Option (List (String × Json)) :=
  (buildBody cfg ids messages tools).map fun body ↦
    body.filter fun f ↦ f.1 ≠ "max_tokens" ∧ f.1 ≠ "fallbacks" ∧ f.1 ≠ "context_management"

end NucLlm.AgentLoop
