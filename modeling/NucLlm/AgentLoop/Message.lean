import NucLlm.Lib.Paired
import Mathlib.Data.Rat.Defs
import Mathlib.Algebra.Order.Ring.Rat
import Mathlib.Algebra.GroupWithZero.Nat

/-!
# Messages of the agent loop

The provider-neutral message dicts, with the cost that `_msg_chars` caches on
them, and the token usage of a completion.
-/

namespace NucLlm.AgentLoop

/-! ## JSON -/

/-- JSON values; a number is the text it prints as. -/
inductive Json where
  | null
  | bool (b : Bool)
  | num (text : String)
  | str (s : String)
  | arr (xs : List Json)
  | obj (fields : List (String × Json))

/-- The length of a character in an ASCII JSON string. -/
def charLen (c : Char) : ℕ :=
  if c = '"' ∨ c = '\\' ∨ c = '\n' ∨ c = '\r' ∨ c = '\t' ∨ c.toNat = 8 ∨ c.toNat = 12 then 2
  else if 32 ≤ c.toNat ∧ c.toNat ≤ 126 then 1
  else if c.toNat ≤ 0xffff then 6
  else 12

def strLen (s : String) : ℕ := (s.toList.map charLen).sum + 2

mutual

/-- `len(json.dumps(x, sort_keys=True))`. -/
def Json.dumpsLen : Json → ℕ
  | .null => 4
  | .bool true => 4
  | .bool false => 5
  | .num text => text.length
  | .str s => strLen s
  | .arr xs => itemsLen xs + 2 * (xs.length - 1) + 2
  | .obj fields => fieldsLen fields + 2 * (fields.length - 1) + 2

def itemsLen : List Json → ℕ
  | [] => 0
  | x :: xs => x.dumpsLen + itemsLen xs

def fieldsLen : List (String × Json) → ℕ
  | [] => 0
  | (key, x) :: fields => strLen key + 2 + x.dumpsLen + fieldsLen fields

end

/-! ## Usage -/

structure Usage where
  inputTokens : ℤ := 0
  outputTokens : ℤ := 0
  cacheReadInputTokens : ℤ := 0
  cacheCreationInputTokens : ℤ := 0
  cacheCreation5mTokens : ℤ := 0
  cacheCreation1hTokens : ℤ := 0

namespace Usage

def totalInput (u : Usage) : ℤ :=
  u.inputTokens + u.cacheReadInputTokens + u.cacheCreationInputTokens

def total (u : Usage) : ℤ := u.totalInput + u.outputTokens

def isZero (u : Usage) : Bool := decide (u.total = 0)

protected def add (u v : Usage) : Usage :=
  ⟨u.inputTokens + v.inputTokens, u.outputTokens + v.outputTokens,
    u.cacheReadInputTokens + v.cacheReadInputTokens,
    u.cacheCreationInputTokens + v.cacheCreationInputTokens,
    u.cacheCreation5mTokens + v.cacheCreation5mTokens,
    u.cacheCreation1hTokens + v.cacheCreation1hTokens⟩

instance : Add Usage := ⟨Usage.add⟩

/-- `PRICES_PER_MTOK`: dollars per million input and output tokens. -/
def pricesPerMtok : List (String × ℚ × ℚ) :=
  [("claude-fable-5", 10, 50), ("claude-opus-5", 5, 25), ("claude-opus-4-8", 5, 25),
    ("claude-opus-4-7", 5, 25), ("claude-opus-4-6", 5, 25), ("claude-sonnet-5", 3, 15),
    ("claude-sonnet-4-6", 3, 15), ("claude-haiku-4-5", 1, 5)]

/-- `_write_factor`, which raises on an unknown TTL. -/
def writeFactor (writeTtl : String) : Option ℚ :=
  if writeTtl = "5m" then some (5 / 4) else if writeTtl = "1h" then some 2 else none

/-- `cost_usd`: nothing when it raises, else the cost of a priced model. -/
def costUsd (u : Usage) (model writeTtl : String) : Option (Option ℚ) :=
  match pricesPerMtok.find? (·.1 = model) with
  | none => (writeFactor writeTtl).map fun _ ↦ none
  | some (_, inp, out) =>
      let breakdown := u.cacheCreation5mTokens + u.cacheCreation1hTokens
      let priced : ℚ := u.cacheCreation5mTokens * (5 / 4) + u.cacheCreation1hTokens * 2
      let remainder := u.cacheCreationInputTokens - breakdown
      let cost (write : ℚ) : ℚ := (u.inputTokens * inp + u.cacheReadInputTokens * inp / 10 +
        write * inp + u.outputTokens * out) / 1000000
      if 0 < remainder then
        (writeFactor writeTtl).map fun factor ↦ some (cost (priced + remainder * factor))
      else some (some (cost priced))

end Usage

/-! ## Messages -/

structure ToolCall where
  name : String
  args : List (String × Json)
  callId : String

/-- A message; `droppedSteps` marks a drop stub, `elidedChars` an elided
observation. -/
inductive Message where
  | system (content : String)
  | user (content : String) (droppedSteps : Option ℕ)
  | assistant (content : String) (toolCalls : List ToolCall) (rawContent : Option (List Json))
  | tool (content toolCallId toolName : String) (ok : Bool) (elidedChars : Option ℕ)

namespace Message

def content : Message → String
  | system content => content
  | user content _ => content
  | assistant content _ _ => content
  | tool content _ _ _ _ => content

def toolCalls : Message → List ToolCall
  | assistant _ toolCalls _ => toolCalls
  | _ => []

def rawContent : Message → Option (List Json)
  | assistant _ _ rawContent => rawContent
  | _ => none

def droppedSteps : Message → Option ℕ
  | user _ droppedSteps => droppedSteps
  | _ => none

def isAssistant : Message → Bool
  | assistant _ _ _ => true
  | _ => false

def isTool : Message → Bool
  | tool _ _ _ _ _ => true
  | _ => false

/-- A tool observation that has not been elided. -/
def isFullObservation : Message → Bool
  | tool _ _ _ _ none => true
  | _ => false

/-- The tool call a message answers, by its id and the tool's name. -/
def answers : Message → Option (String × String)
  | tool _ toolCallId toolName _ _ => some (toolCallId, toolName)
  | _ => none

def callKeys (m : Message) : List (String × String) := m.toolCalls.map fun c ↦ (c.callId, c.name)

/-- What `_msg_chars` computes when nothing is cached. -/
def chars (m : Message) : ℕ :=
  match m.rawContent with
  | some (b :: bs) => itemsLen (b :: bs) + 8
  | _ => m.content.length + 8 +
      (m.toolCalls.map fun c ↦ c.name.length + (Json.obj c.args).dumpsLen + 8).sum

end Message

/-- A message dict of the history, with its `_chars` entry if it has one. -/
structure Entry where
  msg : Message
  chars : Option ℕ := none

namespace Entry

/-- `_msg_chars`: the cached cost, or the computed one. -/
def msgChars (e : Entry) : ℕ := e.chars.getD e.msg.chars

/-- The entry after `_msg_chars` has cached its cost. -/
def cached (e : Entry) : Entry := ⟨e.msg, some e.msgChars⟩

/-- `strip_message`. -/
def strip (e : Entry) : Entry := ⟨e.msg, none⟩

def callKeys (e : Entry) : List (String × String) := e.msg.callKeys

def answers (e : Entry) : Option (String × String) := e.msg.answers

@[simp] theorem callKeys_cached (e : Entry) : e.cached.callKeys = e.callKeys := rfl

@[simp] theorem answers_cached (e : Entry) : e.cached.answers = e.answers := rfl

@[simp] theorem callKeys_strip (e : Entry) : e.strip.callKeys = e.callKeys := rfl

@[simp] theorem answers_strip (e : Entry) : e.strip.answers = e.answers := rfl

theorem answers_eq_none (e : Entry) : e.answers = none ↔ e.msg.isTool = false := by
  obtain ⟨msg, _⟩ := e
  cases msg <;> simp [answers, Message.answers, Message.isTool]

end Entry

/-- Every call of an assistant message is answered at once, by its id and the
tool's name, and nothing else is. -/
abbrev WellPaired (messages : List Entry) : Prop := Paired Entry.callKeys Entry.answers messages

end NucLlm.AgentLoop
