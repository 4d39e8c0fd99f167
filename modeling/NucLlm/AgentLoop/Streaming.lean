import NucLlm.AgentLoop.Anthropic

/-!
# Streamed replies

Server-sent events are read line by line and accumulated into the response that the API would
have sent in one piece.  Decoded objects are lists of fields; what Python raises on is `none`, and
the decoder of JSON texts is a parameter.
-/

namespace NucLlm.AgentLoop

/-- A decoded object. -/
abbrev Fields := List (String × Json)

/-! ## Reading fields -/

/-- `d.get(key, "")`, where it is a text. -/
def textAt (key : String) (d : Fields) : Option String :=
  match d.lookup key with
  | none => some ""
  | some (.str s) => some s
  | some _ => none

/-- `d.get(key) or {}`. -/
def dictAt (key : String) (d : Fields) : Option Fields :=
  match d.lookup key with
  | none => some []
  | some (.obj fields) => some fields
  | some j => if j.truthy then none else some []

/-- `d.get(key) or []`. -/
def listAt (key : String) (d : Fields) : Option (List Json) :=
  match d.lookup key with
  | none => some []
  | some (.arr xs) => some xs
  | some j => if j.truthy then none else some []

/-- The field of a list with `n` elements that an index denotes. -/
def pyIndex (n : ℕ) (i : ℤ) : Option ℕ :=
  if 0 ≤ i then (if i < n then some i.toNat else none)
  else if 0 ≤ n + i then some (n + i).toNat else none

/-- What is left of a line behind a prefix. -/
def after (start line : String) : Option String :=
  if start.toList.isPrefixOf line.toList then
    some (String.ofList (line.toList.drop start.toList.length))
  else none

/-! ## Events -/

/-- The event under way. -/
structure Frame where
  eventType : Option String := none
  dataLines : List String := []

section Streaming

variable (loads : String → Option Json)

/-- `_flush`: no event, or one. -/
def Frame.flush (f : Frame) : Option (List (String × Json)) :=
  if f.dataLines.isEmpty then some []
  else
    let data := (loads ("\n".intercalate f.dataLines)).getD (.obj [])
    match f.eventType.filter (· ≠ ""), data with
    | some eventType, _ => some [(eventType, data)]
    | none, .obj fields => some [(((fields.lookup "type").bind Json.str?).getD "", data)]
    | none, _ => none

def Frame.line (f : Frame) (line : String) : Frame :=
  match after ":" line, after "event:" line, after "data:" line with
  | some _, _, _ => f
  | none, some rest, _ => { f with eventType := some (pyStrip rest) }
  | none, none, some rest => { f with dataLines := f.dataLines ++ [pyStrip rest] }
  | none, none, none => f

/-- `parse_sse_events`, with the event under way. -/
def parseSseEvents : Frame → List String → Option (List (String × Json))
  | f, [] => f.flush loads
  | f, line :: lines =>
      if line = "" then do
        let event ← f.flush loads
        let events ← parseSseEvents {} lines
        pure (event ++ events)
      else parseSseEvents (f.line line) lines

/-! ## Accumulation -/

/-- The variables of `accumulate_stream`; `message` is without its content and usage. -/
structure Accumulator where
  message : Fields := [("stop_reason", .null)]
  usage : Fields := []
  blocks : List (Option Fields) := []

/-- The fields of `other` with some names, where it has them. -/
def copyFields (names : List String) (other fields : Fields) : Fields :=
  names.foldl (fun fields name ↦ match other.lookup name with
    | some value => setField name value fields
    | none => fields) fields

def Accumulator.messageStart (acc : Accumulator) (data : Fields) : Option Accumulator := do
  let msg ← dictAt "message" data
  let usage ← dictAt "usage" msg
  pure { acc with
    message := copyFields ["id", "model", "role", "type"] msg acc.message
    usage := usage }

/-- `block.setdefault("type", "text")`. -/
def withType (block : Fields) : Fields :=
  if (block.lookup "type").isSome then block else block ++ [("type", .str "text")]

def Accumulator.blockStart (acc : Accumulator) (data : Fields) : Option Accumulator := do
  let idx ← match data.lookup "index" with
    | none => some (acc.blocks.length : ℤ)
    | some (.num text) => text.toInt?
    | some _ => none
  let block ← dictAt "content_block" data
  let blocks := acc.blocks ++ List.replicate (idx + 1 - acc.blocks.length).toNat none
  let i ← pyIndex blocks.length idx
  pure { acc with blocks := blocks.set i (some (withType block)) }

/-- `block[key] = block.get(key, "") + text`. -/
def appendText (key text : String) (block : Fields) : Option Fields :=
  (textAt key block).map fun s ↦ setField key (.str (s ++ text)) block

/-- A delta of a kind that is not known appends its texts to the fields of their names. -/
def appendFields (delta block : Fields) : Option Fields :=
  delta.foldlM (fun block field ↦ match field with
    | (key, .str text) => if key = "type" then some block else appendText key text block
    | _ => some block) block

def applyDelta (delta block : Fields) : Option Fields :=
  match delta.lookup "type" with
  | some (.str "text_delta") => do appendText "text" (← textAt "text" delta) block
  | some (.str "thinking_delta") => do appendText "thinking" (← textAt "thinking" delta) block
  | some (.str "signature_delta") => do appendText "signature" (← textAt "signature" delta) block
  | some (.str "input_json_delta") => do
      appendText "_partial_json" (← textAt "partial_json" delta) block
  | _ => appendFields delta block

/-- The input that a streamed text comes to. -/
def streamedInput (raw : String) : Json :=
  if pyStrip raw = "" then .obj []
  else (loads raw).getD
    (.obj [("error", .str "malformed streamed tool input JSON"), ("raw", .str raw)])

def stopBlock (block : Fields) : Option Fields :=
  match block.lookup "_partial_json" with
  | none => some block
  | some (.str raw) =>
      some (setField "input" (streamedInput loads raw)
        (block.filter fun f ↦ f.1 ≠ "_partial_json"))
  | some _ => none

/-- Change the block that an event is about, if it is there. -/
def Accumulator.onBlock (acc : Accumulator) (data : Fields) (f : Fields → Option Fields) :
    Option Accumulator :=
  match data.lookup "index" with
  | none | some .null => some acc
  | some (.num text) => do
      let idx ← text.toInt?
      if acc.blocks.length ≤ idx then pure acc
      else do
        let i ← pyIndex acc.blocks.length idx
        match acc.blocks[i]? with
        | some (some block) => do
            let block ← f block
            pure { acc with blocks := acc.blocks.set i (some block) }
        | _ => pure acc
  | some _ => none

def Accumulator.messageDelta (acc : Accumulator) (data : Fields) : Option Accumulator := do
  let delta ← dictAt "delta" data
  let usage ← dictAt "usage" data
  pure { acc with
    message := copyFields ["stop_reason", "stop_sequence"] delta acc.message
    usage := updateFields acc.usage (usage.filter fun f ↦ match f.2 with
      | .null => false
      | _ => true) }

/-- One event, which is no error; what is not known changes nothing. -/
def Accumulator.step (acc : Accumulator) (eventType : String) (data : Json) : Option Accumulator :=
  match eventType, data with
  | "message_start", .obj data => acc.messageStart data
  | "content_block_start", .obj data => acc.blockStart data
  | "content_block_delta", .obj data => acc.onBlock data fun block ↦ do
      applyDelta (← dictAt "delta" data) block
  | "content_block_stop", .obj data => acc.onBlock data (stopBlock loads)
  | "message_delta", .obj data => acc.messageDelta data
  | "message_start", _ | "content_block_start", _ | "content_block_delta", _
  | "content_block_stop", _ | "message_delta", _ => none
  | _, _ => some acc

/-- The message with the blocks that have been started. -/
def Accumulator.finish (acc : Accumulator) : Fields :=
  ("content", .arr (acc.blocks.reduceOption.map .obj)) :: ("usage", .obj acc.usage) :: acc.message

/-- The error of an `error` event. -/
def streamError (data : Json) : Option (String × String) :=
  match data with
  | .obj data => do
      let err ← dictAt "error" data
      pure ((((err.lookup "type").bind Json.str?).getD "error"),
        ((err.lookup "message").bind Json.str?).getD "stream error")
  | _ => none

/-- `accumulate_stream`: the message, and the error that has cut it short. -/
def accumulateStream : Accumulator → List (String × Json) →
    Option (Fields × Option (String × String))
  | acc, [] => some (acc.finish, none)
  | acc, (eventType, data) :: events =>
      if eventType = "error" then (streamError data).map fun err ↦ (acc.finish, some err)
      else do accumulateStream (← acc.step loads eventType data) events

/-- The response that a stream of lines comes to. -/
def streamResponse (lines : List String) : Option (Fields × Option (String × String)) := do
  accumulateStream loads {} (← parseSseEvents loads {} lines)

end Streaming

/-! ## Turns -/

/-- `int(u.get(key) or 0)`. -/
def countAt (key : String) (u : Fields) : Option ℤ :=
  match u.lookup key with
  | none => some 0
  | some (.num text) => text.toInt?
  | some j => if j.truthy then none else some 0

/-- `Usage.from_api`. -/
def usageOf (u : Fields) : Option Usage := do
  let cc ← dictAt "cache_creation" u
  pure ⟨← countAt "input_tokens" u, ← countAt "output_tokens" u,
    ← countAt "cache_read_input_tokens" u, ← countAt "cache_creation_input_tokens" u,
    ← countAt "ephemeral_5m_input_tokens" cc, ← countAt "ephemeral_1h_input_tokens" cc⟩

/-- A text that may be missing. -/
def stringOr (default key : String) (d : Fields) : Option String :=
  match d.lookup key with
  | none => some default
  | some (.str s) => some (if s = "" then default else s)
  | some j => if j.truthy then none else some default

/-- The texts and the calls of the blocks. -/
def readBlocks : List Json → Option (List String × List ToolCall)
  | [] => some ([], [])
  | .obj block :: blocks => do
      let (texts, calls) ← readBlocks blocks
      match block.lookup "type" with
      | some (.str "text") => pure ((← textAt "text" block) :: texts, calls)
      | some (.str "tool_use") => do
          let name ← (block.lookup "name").bind Json.str?
          let id ← textAt "id" block
          pure (texts, ⟨name, Block.args ((block.lookup "input").getD .null), id⟩ :: calls)
      | _ => pure (texts, calls)
  | _ :: _ => none

/-- `parse_api_message` of a decoded response. -/
def parseResponse (data : Fields) : Option Turn := do
  let content ← listAt "content" data
  let (texts, calls) ← readBlocks content
  let stop ← stringOr "" "stop_reason" data
  let usage ← usageOf (← dictAt "usage" data)
  let text := pyStrip ("\n".intercalate texts)
  let rawContent := if content.isEmpty then none else some content
  if stop = "refusal" then do
    let category ← stringOr "unspecified" "category" (← dictAt "stop_details" data)
    pure ⟨(if text = "" then "" else text ++ "\n") ++ s!"[model refused: {category}]", [], usage,
      rawContent⟩
  else pure ⟨text, calls, usage, rawContent⟩

end NucLlm.AgentLoop
