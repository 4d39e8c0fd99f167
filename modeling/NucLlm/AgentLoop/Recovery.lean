import Mathlib.Data.String.Basic
import NucLlm.Lib.Pattern
import NucLlm.AgentLoop.Anthropic

/-!
# Calls recovered from text

A final reply that is a tool call written as text is read as one, its arguments
are fitted to the tool's parameters, and the call is proposed if the tool is safe
to run.  What a registry does with a call stands next to it.
-/

namespace NucLlm.AgentLoop.Recovery

open NucLlm.Pattern

abbrev Text := List Char

local instance lawfulText : LawfulBEq Text := inferInstance

/-- A float, by what it stands for. -/
inductive PyFloat where
  | finite (q : ℚ)
  | infinite (negative : Bool)
  | nan
deriving DecidableEq

/-- What `json` and `ast.literal_eval` give; `other` is a tuple, a set, bytes and the like. -/
inductive Value where
  | none
  | bool (b : Bool)
  | int (n : ℤ)
  | float (x : PyFloat)
  | str (s : Text)
  | list (items : List Value)
  | dict (entries : List (Value × Value))
  | other (repr : Text)

abbrev Args := List (Text × Value)

/-- What a reader of the standard library comes to: `invalid` is its `ValueError` or
`SyntaxError`. -/
inductive Reading (α : Type) where
  | value (a : α)
  | invalid
  | raises

/-- The parts of the standard library that are used. -/
structure Python where
  literalEval : Text → Reading Value
  rawDecode : Text → Reading Value
  decimal : Char → Bool
  alnum : Char → Bool
  int : Text → Option ℤ
  float : Text → Option PyFloat
  str : Value → Text
  dumps : Value → Option Text
  repr : Text → String

/-! ## Tools -/

/-- The type names of a schema. -/
inductive SchemaType where
  | string
  | integer
  | number
  | boolean
  | array
  | object
  | null
  | unknown (name : Text)
deriving DecidableEq

/-- The `type` of a parameter. -/
inductive Wanted where
  | any
  | one (t : SchemaType)
  | oneOf (ts : List SchemaType)
deriving DecidableEq

structure Tool where
  name : Text
  params : List (Text × Wanted)
  required : List Text
  parallelSafe : Bool

/-- Tools of different names: `register` refuses a second one. -/
structure ToolRegistry where
  tools : List Tool
  distinct : (tools.map Tool.name).Nodup

namespace ToolRegistry

def names (r : ToolRegistry) : List Text := r.tools.map Tool.name

def get (r : ToolRegistry) (name : Text) : Option Tool := r.tools.find? fun t ↦ t.name = name

end ToolRegistry

structure Call where
  name : Text
  args : Args

/-- What becomes of a call: it is refused with a text, or the tool is run on it. -/
inductive Dispatched where
  | refused (output : String)
  | ran (tool : Tool) (args : Args)

/-- `dispatch`, up to the run of the tool. -/
def dispatch (P : Python) (r : ToolRegistry) (c : Call) : Dispatched :=
  match r.get c.name with
  | none =>
    let known := ", ".intercalate ((r.names.map String.ofList).mergeSort fun a b ↦ decide (a ≤ b))
    .refused s!"unknown tool {P.repr c.name}; available: {known}"
  | some tool =>
    let missing := tool.required.filter fun k ↦ k ∉ c.args.map Prod.fst
    let unexpected := (c.args.map Prod.fst).filter fun k ↦ k ∉ tool.params.map Prod.fst
    if missing ≠ [] then
      let keys := ", ".intercalate (missing.map String.ofList)
      .refused s!"tool {P.repr c.name} missing required args: {keys}"
    else if unexpected ≠ [] then
      let keys := ", ".intercalate (unexpected.map String.ofList)
      .refused s!"tool {P.repr c.name} got unexpected args: {keys}"
    else .ran tool c.args

/-! ## Arguments written as in Python -/

/-- `str.strip`. -/
def strip (s : Text) : Text := ((s.dropWhile isSpace).reverse.dropWhile isSpace).reverse

def isBlank (s : Text) : Bool := (strip s).isEmpty

/-- The loop of `_split_top_level`: the pieces that are done, and the one in work. -/
def splitFrom : Text → ℤ → Option Char → List Text → Text → List Text × Text
  | [], _, _, parts, cur => (parts, cur)
  | '\\' :: c :: rest, depth, some q, parts, cur =>
    splitFrom rest depth (some q) parts (cur ++ ['\\', c])
  | c :: rest, depth, some q, parts, cur =>
    splitFrom rest depth (if c = q then none else some q) parts (cur ++ [c])
  | c :: rest, depth, none, parts, cur =>
    if c ∈ ['"', '\''] then splitFrom rest depth (some c) parts (cur ++ [c])
    else if c ∈ ['(', '[', '{'] then splitFrom rest (depth + 1) none parts (cur ++ [c])
    else if c ∈ [')', ']', '}'] then splitFrom rest (depth - 1) none parts (cur ++ [c])
    else if c = ',' ∧ depth = 0 then splitFrom rest depth none (parts ++ [cur]) []
    else splitFrom rest depth none parts (cur ++ [c])

/-- `_split_top_level`. -/
def splitTopLevel (s : Text) : List Text :=
  let (parts, cur) := splitFrom s 0 none [] []
  let parts := if !isBlank cur || parts ≠ [] then parts ++ [cur] else parts
  parts.filter fun p ↦ !isBlank p

def lower (s : Text) : Text := s.map Char.toLower

/-- `_coerce`; `none` where an exception escapes. -/
def coerce (P : Python) (raw : Text) : Option Value :=
  let v := strip raw
  if v = [] then some (.str [])
  else match P.literalEval v with
    | .value x => some x
    | .raises => none
    | .invalid =>
      if lower v = ['t', 'r', 'u', 'e'] then some (.bool true)
      else if lower v = ['f', 'a', 'l', 's', 'e'] then some (.bool false)
      else if lower v ∈ [['n', 'u', 'l', 'l'], ['n', 'o', 'n', 'e']] then some .none
      else some (.str v)

def identStart (c : Char) : Bool :=
  ('a' ≤ c && c ≤ 'z') || ('A' ≤ c && c ≤ 'Z') || c = '_'

def identChar (c : Char) : Bool := identStart c || ('0' ≤ c && c ≤ '9')

/-- `re.fullmatch(r"[A-Za-z_][A-Za-z0-9_]*", k)`. -/
def isIdent : Text → Bool
  | [] => false
  | c :: rest => identStart c && rest.all identChar

/-- `args[key] = value`. -/
def setArg (key : Text) (value : Value) : Args → Args
  | [] => [(key, value)]
  | (k, v) :: args => if k = key then (key, value) :: args else (k, v) :: setArg key value args

/-- `parse_python_call_args`: no arguments if a part is positional or has no name. -/
def parseCallArgs (P : Python) (argtext : Text) : Option (Option Args) :=
  go (splitTopLevel argtext) []
where
  go : List Text → Args → Option (Option Args)
    | [], out => some (some out)
    | part :: parts, out =>
      if '=' ∉ part then some none
      else
        let key := strip (part.takeWhile (· ≠ '='))
        if !isIdent key then some none
        else do
          let value ← coerce P ((part.dropWhile (· ≠ '=')).drop 1)
          go parts (setArg key value out)

/-! ## Fitting to the schema -/

/-- What becomes of one argument. -/
inductive Fitted where
  | kept (v : Value)
  | refused
  | raises

/-- `re.fullmatch(r"-?\d+", s)`. -/
def isWhole (P : Python) (s : Text) : Bool :=
  match s with
  | '-' :: digits => !digits.isEmpty && digits.all P.decimal
  | digits => !digits.isEmpty && digits.all P.decimal

def isBoolText (s : Text) : Bool :=
  decide (lower (strip s) ∈ [['t', 'r', 'u', 'e'], ['f', 'a', 'l', 's', 'e']])

/-- The scalar coercions of `_fit_schema`. -/
def fitValue (P : Python) : Wanted → Value → Fitted
  | .one .string, .str s => .kept (.str s)
  | .one .string, .none => .kept (.str [])
  | .one .string, .list items => (P.dumps (.list items)).elim .raises fun s ↦ .kept (.str s)
  | .one .string, .dict entries => (P.dumps (.dict entries)).elim .raises fun s ↦ .kept (.str s)
  | .one .string, v => .kept (.str (P.str v))
  | .one .integer, .str s =>
    if isWhole P (strip s) then (P.int s).elim .raises fun n ↦ .kept (.int n) else .kept (.str s)
  | .one .number, .str s => (P.float s).elim .refused fun x ↦ .kept (.float x)
  | .one .boolean, .str s =>
    if isBoolText s then .kept (.bool (lower (strip s) = ['t', 'r', 'u', 'e'])) else .kept (.str s)
  | .one .integer, .bool _ => .refused
  | .one .integer, .float (.finite q) =>
    if q.den = 1 then .kept (.int q.num) else .kept (.float (.finite q))
  | _, v => .kept v

/-- The loop of `_fit_schema` over the arguments. -/
def fitArgs (P : Python) (params : List (Text × Wanted)) : Args → Option (Option Args)
  | [] => some (some [])
  | (k, v) :: args =>
    match fitValue P ((params.lookup k).getD .any) v with
    | .raises => none
    | .refused => some none
    | .kept v => do
      let fitted ← fitArgs P params args
      pure (fitted.map fun args ↦ (k, v) :: args)

/-- `_fit_schema`. -/
def fitSchema (P : Python) (args : Args) (tool : Tool) : Option (Option Args) :=
  let keys := args.map Prod.fst
  if !(keys.all fun k ↦ k ∈ tool.params.map Prod.fst) then some none
  else if !(tool.required.all fun k ↦ k ∈ keys) then some none
  else fitArgs P tool.params args

/-! ## Patterns -/

def space : Pattern := one isSpace

def spaces : Pattern := many space

def ident : Pattern := group 0 (seq (one identStart) (many (one identChar)))

/-- `_CALL_PREFIX`. -/
def callPrefix : Pattern :=
  opt (choice [
    concat [word ['t', 'o', 'o', 'l'], spaces, word ['c', 'a', 'l', 'l'], spaces, opt (char ':')],
    concat [word ['c', 'a', 'l', 'l'], opt (word ['i', 'n', 'g']), spaces, opt (char ':')],
    concat [word ['u', 's', 'e'], opt (concat [many1 space, word ['t', 'h', 'e']]),
      opt (concat [many1 space, word ['t', 'o', 'o', 'l']]), spaces, opt (char ':')],
    concat [word ['r', 'u', 'n'], spaces, opt (char ':')]])

/-- `_PY_CALL`: group 0 is the name, group 1 the arguments. -/
def pyCall : Pattern :=
  concat [spaces, callPrefix, spaces, opt (char '`'), ident, opt (char '`'), spaces, char '(',
    group 1 (many (one fun _ ↦ true)), char ')', spaces, opt (char '`'), spaces, atEnd]

/-- A character under `re.I`. -/
def folded (c : Char) : Char :=
  if c.toNat = 0x130 ∨ c.toNat = 0x131 then 'i'
  else if c.toNat = 0x17f then 's'
  else if c.toNat = 0x212a then 'k'
  else c.toLower

def anyCase (cs : List Char) : Pattern := concat (cs.map fun c ↦ one fun d ↦ folded d = c)

/-- `_BARE_MENTION`. -/
def bareMention : Pattern :=
  concat [spaces,
    choice [
      concat [anyCase ['t', 'o', 'o', 'l'], spaces, anyCase ['c', 'a', 'l', 'l']],
      anyCase ['c', 'a', 'l', 'l'],
      concat [anyCase ['u', 's', 'e'], spaces, anyCase ['t', 'o', 'o', 'l']],
      anyCase ['t', 'o', 'o', 'l'],
      anyCase ['c', 'a', 'l', 'l', 'i', 'n', 'g'],
      anyCase ['r', 'u', 'n']],
    spaces, opt (char ':'), spaces, opt (char '`'),
    group 0 (seq (one fun c ↦ identStart (folded c)) (many (one fun c ↦ identChar (folded c)))),
    opt (char '`'), spaces, opt (one (· ∈ ['.', '!'])), spaces, atEnd]

/-- `_XML_CALL`. -/
def xmlCall (P : Python) : Pattern :=
  concat [char '<', spaces,
    choice [
      anyCase "tool_call".toList, anyCase "function_calls".toList, anyCase "invoke".toList,
      anyCase "tool_use".toList, anyCase "antml:invoke".toList,
      anyCase "antml:function_calls".toList],
    boundary fun c ↦ P.alnum c || c = '_']

/-- `_JSON_NAME`. -/
def jsonName : Pattern :=
  concat [char '"', word ['n', 'a', 'm', 'e'], char '"', spaces, char ':', spaces, char '"', ident,
    char '"']

def attrName : Pattern :=
  concat [word ['n', 'a', 'm', 'e'], spaces, char '=', spaces, char '"', ident, char '"']

/-! ## Detection -/

inductive Reason where
  | xmlToolCall
  | pythonToolCall
  | bareToolMention
  | malformedJsonToolCall
deriving DecidableEq

def Reason.text : Reason → String
  | .xmlToolCall => "xml_tool_call"
  | .pythonToolCall => "python_tool_call"
  | .bareToolMention => "bare_tool_mention"
  | .malformedJsonToolCall => "malformed_json_tool_call"

structure Hit where
  reason : Reason
  name : Option Text
  args : Option Args

def Value.text? : Value → Option Text
  | .str s => some s
  | _ => Option.none

/-- `obj.get(key)`. -/
def field (key : Text) (entries : List (Value × Value)) : Option Value :=
  entries.findSome? fun e ↦ if e.1.text? = some key then some e.2 else none

def isLineBreak (c : Char) : Bool :=
  let n := c.toNat
  decide ((10 ≤ n ∧ n ≤ 13) ∨ (28 ≤ n ∧ n ≤ 30) ∨ n = 0x85 ∨ n = 0x2028 ∨ n = 0x2029)

/-- `body.splitlines()[-1].strip()` of a body that ends in no line break. -/
def lastLine (body : Text) : Text := strip (body.reverse.takeWhile fun c ↦ !isLineBreak c).reverse

/-- `_first_json_object`. -/
def firstJsonObject (P : Python) : Text → Option (Option (List (Value × Value)))
  | [] => some none
  | c :: rest =>
    if c = '{' then
      match P.rawDecode (c :: rest) with
      | .raises => none
      | .value (.dict entries) => some (some entries)
      | _ => firstJsonObject P rest
    else firstJsonObject P rest

/-- `args`, else `input`, else `arguments` of an object, if it is an object; no arguments where all
three are absent. -/
def argsOf (entries : List (Value × Value)) : Option Args :=
  match ((field "args".toList entries).or (field "input".toList entries)).or
      (field "arguments".toList entries) with
  | none => some []
  | some (.dict args) => some (args.filterMap fun e ↦ e.1.text?.map fun k ↦ (k, e.2))
  | some _ => none

/-- A Python call of a tool. -/
def pyCallOf (names : List Text) (candidate : Text) : Option (Text × Text) :=
  match pyCall.match? candidate with
  | some m => if m.group 0 ∈ names then some (m.group 0, m.group 1) else none
  | none => none

/-- `detect`; the outer `none` is an exception. -/
def detect (P : Python) (names : List Text) (text : Text) : Option (Option Hit) :=
  let body := strip text
  if body = [] then some none
  else if ((xmlCall P).search body).isSome then
    let name := ((attrName.search body).or (jsonName.search body)).bind fun m ↦
      if m.group 0 ∈ names then some (m.group 0) else none
    some (some ⟨.xmlToolCall, name, none⟩)
  else match (pyCallOf names body).or (pyCallOf names (lastLine body)) with
    | some (name, argtext) => do
      let args ← parseCallArgs P argtext
      pure (some ⟨.pythonToolCall, some name, args⟩)
    | none =>
      match (bareMention.match? body).bind fun m ↦
          if m.group 0 ∈ names then some (m.group 0) else none with
      | some name => some (some ⟨.bareToolMention, some name, some []⟩)
      | none =>
        match (jsonName.search body).bind fun m ↦
            if m.group 0 ∈ names then some (m.group 0) else none with
        | none => some none
        | some name => do
          let obj ← firstJsonObject P body
          match obj with
          | none => pure (some ⟨.malformedJsonToolCall, some name, none⟩)
          | some entries =>
            if (field "name".toList entries).bind Value.text? = some name then
              pure (some ⟨.malformedJsonToolCall, some name, argsOf entries⟩)
            else pure none

/-! ## The guard -/

structure GuardContext where
  registry : ToolRegistry
  toolCallHint : Option Text

def GuardContext.hintClause (ctx : GuardContext) : String :=
  match ctx.toolCallHint with
  | some (c :: hint) => " — " ++ String.ofList (strip (c :: hint))
  | _ => " (the structured tool-calling interface, not text)"

structure Rejection where
  guard : String
  reason : String
  message : String
  calls : List Call
  detail : String

/-- `s.split()`. -/
def words (s : Text) : List Text := (s.splitBy fun c d ↦ isSpace c == isSpace d).filter (!isBlank ·)

/-- `_snippet`. -/
def snippet (s : Text) : String :=
  let s := [' '].intercalate (words s)
  String.ofList (if s.length ≤ 120 then s else s.take 119 ++ ['…'])

structure ProseToolCallGuard where
  recover : Bool
  recoverUnsafe : Bool

/-- The call that is recovered from what was detected. -/
def recovered (P : Python) (g : ProseToolCallGuard) (ctx : GuardContext) (hit : Hit) :
    Option (Option Call) :=
  match hit.name, hit.args with
  | some name, some args =>
    match ctx.registry.get name with
    | some tool =>
      if g.recover ∧ (g.recoverUnsafe ∨ tool.parallelSafe) then do
        let fitted ← fitSchema P args tool
        pure (fitted.map fun args ↦ ⟨name, args⟩)
      else some none
    | none => some none
  | _, _ => some none

/-- The nudge. -/
def nudge (ctx : GuardContext) (hit : Hit) (detail : String) : String :=
  let what := if hit.reason = .xmlToolCall then
      "a tool call in an XML-tag format this harness does not use"
    else "a tool call written as plain text"
  let target := match hit.name with
    | some (c :: name) => s!"`{String.ofList (c :: name)}`"
    | _ => "a tool"
  s!"Your previous reply looked like {what} ({detail}), so NOTHING was run. " ++
    s!"To call {target} you must use the tool-calling interface{ctx.hintClause}. " ++
    s!"If you meant to call {target}, emit that call now; if you are finished, " ++
    "reply with your final answer as plain text and no tool call."

/-- `ProseToolCallGuard.check`. -/
def check (P : Python) (g : ProseToolCallGuard) (ctx : GuardContext) (text : Text) :
    Option (Option Rejection) := do
  let found ← detect P ctx.registry.names text
  match found with
  | none => pure none
  | some hit =>
    let call ← recovered P g ctx hit
    let detail := snippet text
    match call with
    | some call => pure (some ⟨"prose_tool_call", hit.reason.text, "", [call], detail⟩)
    | none => pure (some ⟨"prose_tool_call", hit.reason.text, nudge ctx hit detail, [], detail⟩)

end NucLlm.AgentLoop.Recovery
