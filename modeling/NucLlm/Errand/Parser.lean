import NucLlm.Errand.Lexer

/-!
# The Errand parser

Recursive descent over the tokens.  The trees are those of the source: their
numbers are what the host made of them.  Calls that nest are charged to the room
on the stack.
-/

namespace NucLlm.Errand.Source

/-! ## Trees -/

inductive Expr (φ : Type) where
  | str (s : Str)
  | num (value : Number φ) (line : ℕ)
  | bool (value : Bool) (line : ℕ)
  | name (name : String) (line : ℕ)
  | call (name : String) (args : List (Expr φ)) (line : ℕ)
  | rescue (left right : Expr φ) (line : ℕ)
  | cmp (op : CmpOp) (left right : Expr φ) (line : ℕ)

inductive Stmt (φ : Type) where
  | letStmt (name : String) (expr : Expr φ) (line : ℕ)
  | ifStmt (cond : Expr φ) (thenBody elseBody : List (Stmt φ)) (line : ℕ)
  | emitStmt (expr : Expr φ) (line : ℕ)

/-- Prompt speed in tokens per second, or the measured curve. -/
inductive Prefill (φ : Type) where
  | e1
  | rate (tokensPerS : φ)

structure Lane (φ : Type) where
  name : String
  url : String
  model : String
  prefill : Prefill φ
  decode : φ
  fixed : φ
  ctx : Option ℕ
  tools : Bool
  line : ℕ
  coldPenalty : φ
  coldAfter : Option φ

structure Budget (φ : Type) where
  name : String
  timeS : Option φ
  tokens : Option ℕ
  line : ℕ

structure Task (φ : Type) where
  name : String
  params : List String
  lane : String
  budget : Option String
  retry : ℕ
  backoffS : φ
  system : Option Str
  user : Str
  reply : ℕ
  expect : Option Expect
  line : ℕ

structure Flow (φ : Type) where
  name : String
  params : List String
  budget : Option String
  body : List (Stmt φ)
  line : ℕ

/-- The declarations of each kind, in their order. -/
structure Program (φ : Type) where
  lanes : List (Lane φ)
  budgets : List (Budget φ)
  tasks : List (Task φ)
  flows : List (Flow φ)

def forbiddenPorts : List ℕ := [8001]

def laneKeys : List String :=
  ["url", "model", "prefill", "decode", "fixed", "ctx", "tools", "cold_penalty", "cold_after"]

def expectKinds : List String := ["one_of", "contains", "nonempty", "json"]

def keywords : List String :=
  ["lane", "budget", "task", "flow", "on", "within", "retry", "backoff", "let", "if", "else",
    "emit", "rescue", "true", "false"]

/-! ## Strings -/

def isNameStart (c : Char) : Bool :=
  ('A' ≤ c && c ≤ 'Z') || ('a' ≤ c && c ≤ 'z') || c = '_'

def isNameCont (c : Char) : Bool := isNameStart c || ('0' ≤ c && c ≤ '9')

/-- What `_INTERP` matches, or a character between two matches. -/
inductive Piece where
  | char (c : Char)
  | openBrace
  | closeBrace
  | ref (name : String)
  | lone (c : Char)

/-- The name behind an open brace, if a closing brace ends it, and the text behind that. -/
def refName (cs : List Char) : Option (String × List Char) :=
  let name := cs.takeWhile isNameCont
  match name, cs.dropWhile isNameCont with
  | c :: _, '}' :: rest => if isNameStart c then some (String.ofList name, rest) else none
  | _, _ => none

/-- The matches of `_INTERP` in a text, and the characters between them. -/
def pieces : ℕ → List Char → List Piece
  | 0, _ => []
  | _ + 1, [] => []
  | n + 1, '{' :: '{' :: cs => .openBrace :: pieces n cs
  | n + 1, '}' :: '}' :: cs => .closeBrace :: pieces n cs
  | n + 1, '{' :: cs =>
      match refName cs with
      | some (name, rest) => .ref name :: pieces n rest
      | none => .lone '{' :: pieces n cs
  | n + 1, '}' :: cs => .lone '}' :: pieces n cs
  | n + 1, c :: cs => .char c :: pieces n cs

@[simp] theorem pieces_zero (cs : List Char) : pieces 0 cs = [] := by rw [pieces]

/-- The parts from a piece on, with the text before it.  Every match puts text into the buffer,
be it empty, so a name has a text before it. -/
def splitFrom (line : ℕ) : List Piece → List Char → List Part → Except ParseError (List Part)
  | [], buf, parts =>
      .ok (if !buf.isEmpty || parts.isEmpty then parts ++ [.text (String.ofList buf)] else parts)
  | .char c :: ps, buf, parts => splitFrom line ps (buf ++ [c]) parts
  | .openBrace :: ps, buf, parts => splitFrom line ps (buf ++ ['{']) parts
  | .closeBrace :: ps, buf, parts => splitFrom line ps (buf ++ ['}']) parts
  | .ref name :: ps, buf, parts =>
      splitFrom line ps [] (parts ++ [.text (String.ofList buf), .ref name])
  | .lone c :: _, _, _ =>
      let brace := String.ofList [c]
      .error {
        msg := s!"lone '{brace}' in string (use '{brace}{brace}' for a literal brace)"
        line := line }

theorem splitFrom_nil (line : ℕ) (buf : List Char) (parts : List Part) :
    splitFrom line [] buf parts =
      .ok (if !buf.isEmpty || parts.isEmpty then parts ++ [.text (String.ofList buf)]
        else parts) := by
  rw [splitFrom]

/-- `split_interpolation`. -/
def splitInterpolation (text : String) (line : ℕ) : Except ParseError (List Part) :=
  splitFrom line (pieces text.length text.toList) [] []

/-! ## Tokens -/

structure ParseState (φ : Type) where
  toks : List (Token φ)
  i : ℕ

variable {φ : Type}

abbrev Parsing (φ α : Type) := Asking φ (ParseState φ) α

def raise {α : Type} (msg : String) (line : ℕ) (col : ℕ := 0) : Parsing φ α :=
  Exec.fail (.parseError { msg, line, col })

def raiseIf (cond : Bool) (msg : String) (line : ℕ) (col : ℕ := 0) : Parsing φ Unit :=
  if cond then raise msg line col else pure ()

def peek (k : ℕ) : Parsing φ (Token φ) := do
  let s ← Exec.get
  Exec.ofOption .indexError
    s.state.toks[min (s.state.i + k) (s.state.toks.length - 1)]?

def isEof : Tok φ → Bool
  | .eof => true
  | _ => false

def advance : Parsing φ (Token φ) := do
  let s ← Exec.get
  let t ← Exec.ofOption .indexError s.state.toks[s.state.i]?
  if isEof t.tok then pure t
  else do
    Exec.modify fun s ↦ { s with state := { s.state with i := s.state.i + 1 } }
    pure t

/-- What a token is asked to be, and what is read from it. -/
abbrev Pick (φ α : Type) := Tok φ → Option α

namespace Pick

def name : Pick φ String
  | .name s => some s
  | _ => none

def string : Pick φ String
  | .string s => some s
  | _ => none

def number : Pick φ (Number φ)
  | .number n => some n
  | _ => none

def keyword (word : String) : Pick φ Unit
  | .name s => if s = word then some () else none
  | _ => none

/-- A token of a type that has one value. -/
def symbol (type : String) : Pick φ Unit := fun t ↦ if t.type = type then some () else none

end Pick

/-- `at`. -/
def at_ {α : Type} (pick : Pick φ α) : Parsing φ Bool := do
  let t ← peek 0
  pure (pick t.tok).isSome

section

variable (host : Python φ)

/-- `repr(t.value) if t.value is not None else t.type`. -/
def got (t : Tok φ) : String := (t.repr? host).getD t.type

/-- `repr(t.value)`. -/
def shown (t : Tok φ) : String := (t.repr? host).getD "None"

def expect {α : Type} (pick : Pick φ α) (want : String) : Parsing φ (α × Token φ) := do
  let t ← peek 0
  match pick t.tok with
  | none => raise s!"expected {want}, got {got host t.tok}" t.line t.col
  | some a => do
      let t ← advance
      pure (a, t)

def expectKw (word : String) : Parsing φ (Token φ) := do
  let (_, t) ← expect host (.keyword word) (host.repr word)
  pure t

def expectSymbol (type : String) : Parsing φ Unit := do
  let _ ← expect host (.symbol type) type

/-- A loop that reads tokens. -/
def whileTokens {ι α : Type} (body : ι → Parsing φ (Pass ι α)) (a : ι) : Parsing φ α := do
  let s ← Exec.get
  Exec.loop .endless body (s.state.toks.length + 1) a

def skipNewlines : Parsing φ Unit :=
  whileTokens (fun _ ↦ do
    if ← at_ (.symbol "NEWLINE") then
      let _ ← advance
      pure (.again ())
    else pure (.done ())) ()

def name (what : String) : Parsing φ (String × Token φ) := do
  let (s, t) ← expect host .name what
  let word := host.repr s
  raiseIf (keywords.contains s) s!"{word} is a keyword, not a {what}" t.line t.col
  pure (s, t)

def number (what : String) : Parsing φ (Number φ) := do
  let (n, _) ← expect host .number what
  pure n

/-- `float(value)`. -/
def toFloat : Number φ → Parsing φ φ
  | .int n => floatInt host n
  | .float x => pure x

/-- `int(value)`. -/
def toInt : Number φ → Parsing φ ℕ
  | .int n => pure n
  | .float x => intFloat host x

/-- A duration; a bare number is seconds. -/
def duration (what : String) : Parsing φ φ := do
  let t ← peek 0
  match t.tok with
  | .duration x => do
      let _ ← advance
      pure x
  | .number n => do
      let _ ← advance
      toFloat host n
  | tok =>
      raise s!"expected a duration (e.g. 90s, 2m) for {what}, got {shown host tok}" t.line t.col

/-! ## Lanes and budgets -/

/-- The keys of a lane that have been read. -/
structure LaneFields (φ : Type) where
  url : Option String := none
  model : Option String := none
  prefill : Option (Prefill φ) := none
  decode : Option φ := none
  fixed : Option φ := none
  coldPenalty : Option φ := none
  coldAfter : Option φ := none
  ctx : Option ℕ := none
  tools : Option Bool := none

/-- `key in fields`. -/
def LaneFields.has (f : LaneFields φ) (key : String) : Bool :=
  if key = "url" then f.url.isSome
  else if key = "model" then f.model.isSome
  else if key = "prefill" then f.prefill.isSome
  else if key = "decode" then f.decode.isSome
  else if key = "fixed" then f.fixed.isSome
  else if key = "cold_penalty" then f.coldPenalty.isSome
  else if key = "cold_after" then f.coldAfter.isSome
  else if key = "ctx" then f.ctx.isSome
  else if key = "tools" then f.tools.isSome
  else false

/-- The value of a key of a lane. -/
def laneField (key : String) (f : LaneFields φ) : Parsing φ (LaneFields φ) :=
  if key = "url" then do
    let (s, _) ← expect host .string s!"string for {key}"
    pure { f with url := some s }
  else if key = "model" then do
    let (s, _) ← expect host .string s!"string for {key}"
    pure { f with model := some s }
  else if key = "prefill" then do
    if ← at_ (.keyword "e1") then
      let _ ← advance
      pure { f with prefill := some .e1 }
    else
      let n ← number host "prefill tokens/s"
      let x ← toFloat host n
      pure { f with prefill := some (.rate x) }
  else if key = "decode" then do
    let n ← number host "decode tokens/s"
    let x ← toFloat host n
    pure { f with decode := some x }
  else if key = "fixed" then do
    let x ← duration host "fixed"
    pure { f with fixed := some x }
  else if key = "cold_penalty" then do
    let x ← duration host "cold_penalty"
    pure { f with coldPenalty := some x }
  else if key = "cold_after" then do
    let x ← duration host "cold_after"
    pure { f with coldAfter := some x }
  else if key = "ctx" then do
    let n ← number host "ctx tokens"
    let n ← toInt host n
    pure { f with ctx := some n }
  else if key = "tools" then do
    let (s, t) ← expect host .name "yes|no"
    let word := host.repr s
    raiseIf (s ≠ "yes" && s ≠ "no") s!"tools wants yes|no, got {word}" t.line t.col
    pure { f with tools := some (s = "yes") }
  else pure f

def laneFields : Parsing φ (LaneFields φ) :=
  whileTokens (fun f ↦ do
    if ← at_ (.symbol "RBRACE") then pure (.done f)
    else
      let (key, t) ← expect host .name "lane key"
      let word := host.repr key
      let wanted := ", ".intercalate laneKeys
      raiseIf (!laneKeys.contains key) s!"unknown lane key {word} (want one of {wanted})"
        t.line t.col
      raiseIf (f.has key) s!"duplicate lane key {word}" t.line t.col
      let f ← laneField host key f
      skipNewlines
      pure (.again f)) {}

/-- The checks of a lane, and the lane. -/
def laneOf (nm : String) (line : ℕ) (f : LaneFields φ) : Parsing φ (Lane φ) := do
  let lane := host.repr nm
  raiseIf f.url.isNone s!"lane {lane} needs url" line
  raiseIf f.decode.isNone s!"lane {lane} needs decode" line
  raiseIf f.prefill.isNone s!"lane {lane} needs prefill (tokens/s or e1)" line
  let url ← Exec.ofOption (.keyError "url") f.url
  let parsed ← urlSplit host url
  let quotedUrl := host.repr url
  raiseIf ((parsed.scheme ≠ "http" && parsed.scheme ≠ "https") || parsed.hostname.all (· = ""))
    s!"lane {lane}: url must be http(s)://host[:port], got {quotedUrl}" line
  let given ← urlPort parsed
  let port := match given.filter (· ≠ 0) with
    | some port => port
    | none => if parsed.scheme = "https" then 443 else 80
  raiseIf (forbiddenPorts.contains port)
    s!"lane {lane}: port {port} is the frontier lane (forbidden by rule)" line
  let decode ← Exec.ofOption (.keyError "decode") f.decode
  raiseIf (!host.isPositive decode) s!"lane {lane}: decode must be positive" line
  let prefill ← Exec.ofOption (.keyError "prefill") f.prefill
  let slow := match prefill with
    | .e1 => false
    | .rate r => !host.isPositive r
  raiseIf slow s!"lane {lane}: prefill must be positive" line
  raiseIf (f.coldPenalty.isSome && f.coldAfter.isNone)
    s!"lane {lane}: cold_penalty needs cold_after (else it never applies)" line
  raiseIf (f.coldAfter.isSome && !host.isPositive (f.coldPenalty.getD host.zero))
    s!"lane {lane}: cold_after needs a positive cold_penalty" line
  pure {
    name := nm
    url := url
    model := f.model.getD nm
    prefill := prefill
    decode := decode
    fixed := f.fixed.getD host.zero
    ctx := f.ctx
    tools := f.tools.getD false
    line := line
    coldPenalty := f.coldPenalty.getD host.zero
    coldAfter := f.coldAfter }

def lane : Parsing φ (Lane φ) := do
  let head ← expectKw host "lane"
  let (nm, _) ← name host "lane name"
  expectSymbol host "LBRACE"
  skipNewlines
  let f ← laneFields host
  expectSymbol host "RBRACE"
  laneOf host nm head.line f

/-- The seconds and the tokens of a budget. -/
def budgetFields : Parsing φ (Option φ × Option ℕ) :=
  whileTokens (fun f ↦ do
    if ← at_ (.symbol "RBRACE") then pure (.done f)
    else
      let (key, t) ← expect host .name "time|tokens"
      let f ←
        if key = "time" then do
          raiseIf f.1.isSome "duplicate time" t.line t.col
          let x ← duration host "time"
          pure (some x, f.2)
        else if key = "tokens" then do
          raiseIf f.2.isSome "duplicate tokens" t.line t.col
          let n ← number host "tokens"
          let n ← toInt host n
          pure (f.1, some n)
        else
          let word := host.repr key
          raise s!"budget key must be time or tokens, got {word}" t.line t.col
      skipNewlines
      pure (.again f)) (none, none)

def budget : Parsing φ (Budget φ) := do
  let head ← expectKw host "budget"
  let (nm, _) ← name host "budget name"
  let quotedName := host.repr nm
  expectSymbol host "LBRACE"
  skipNewlines
  let (timeS, tokens) ← budgetFields host
  expectSymbol host "RBRACE"
  raiseIf (timeS.isNone && tokens.isNone) s!"budget {quotedName} declares nothing" head.line
  raiseIf (timeS.any (fun t ↦ !host.isPositive t) || tokens.any (· = 0))
    s!"budget {quotedName}: limits must be positive" head.line
  pure ⟨nm, timeS, tokens, head.line⟩

/-! ## Tasks -/

/-- The names between parentheses. -/
def params : Parsing φ (List String) := do
  expectSymbol host "LPAREN"
  let out ←
    if ← at_ (.symbol "RPAREN") then pure []
    else whileTokens (fun out ↦ do
      let (p, t) ← name host "parameter"
      let word := host.repr p
      raiseIf (out.contains p) s!"duplicate parameter {word}" t.line t.col
      if ← at_ (.symbol "COMMA") then
        let _ ← advance
        pure (.again (out ++ [p]))
      else pure (.done (out ++ [p]))) []
  expectSymbol host "RPAREN"
  pure out

def interpolated (s : String) (line : ℕ) : Parsing φ Str :=
  match splitInterpolation s line with
  | .ok parts => pure ⟨parts, line⟩
  | .error e => Exec.fail (.parseError e)

def string : Parsing φ Str := do
  let (s, t) ← expect host .string "string"
  interpolated s t.line

def expectClause : Parsing φ Expect := do
  let kinds := "|".intercalate expectKinds
  let (kind, t) ← expect host .name kinds
  let word := host.repr kind
  raiseIf (!expectKinds.contains kind) s!"expect wants {kinds}, got {word}" t.line t.col
  if kind = "one_of" then
    let options ← whileTokens (fun options ↦ do
      let t ← peek 0
      match Pick.string t.tok with
      | some s => do
          let _ ← advance
          pure (.again (options ++ [s]))
      | none => pure (.done options)) ([] : List String)
    match options with
    | [] => raise "expect one_of needs at least one string" t.line t.col
    | first :: rest => pure (.oneOf first rest)
  else if kind = "contains" then
    let (s, _) ← expect host .string "string"
    pure (.contains s)
  else if kind = "nonempty" then pure .nonempty
  else pure .json

/-- What may stand between the lane of a task and its body. -/
structure TaskOptions (φ : Type) where
  budget : Option String := none
  retry : ℕ := 0
  backoffS : φ
  seen : List String := []

def optionWord : Pick φ String
  | .name s => if ["within", "retry", "backoff"].contains s then some s else none
  | _ => none

/-- Retries are not negative: numbers have no sign. -/
def taskOptions (line : ℕ) : Parsing φ (TaskOptions φ) :=
  whileTokens (fun o ↦ do
    let t ← peek 0
    match optionWord t.tok with
    | none => pure (.done o)
    | some kw => do
        let _ ← advance
        raiseIf (o.seen.contains kw) s!"duplicate {kw}" line
        let o := { o with seen := kw :: o.seen }
        if kw = "within" then
          let (b, _) ← name host "budget name"
          pure (.again { o with budget := some b })
        else if kw = "retry" then
          let n ← number host "retry count"
          let n ← toInt host n
          pure (.again { o with retry := n })
        else
          let x ← duration host "backoff"
          raiseIf (host.isNegative x) "backoff must be >= 0" line
          pure (.again { o with backoffS := x })) { backoffS := host.one }

structure TaskFields where
  system : Option Str := none
  user : Option Str := none
  reply : ℕ := 64
  expect : Option Expect := none
  seen : List String := []

def taskField (nm key : String) (t : Token φ) (f : TaskFields) : Parsing φ TaskFields := do
  let word := host.repr key
  raiseIf (f.seen.contains key) s!"duplicate {key} in task {host.repr nm}" t.line t.col
  let f := { f with seen := key :: f.seen }
  if key = "system" then
    let s ← string host
    pure { f with system := some s }
  else if key = "user" then
    let s ← string host
    pure { f with user := some s }
  else if key = "reply" then
    let n ← number host "reply tokens"
    let n ← toInt host n
    raiseIf (n = 0) "reply must be >= 1" t.line t.col
    pure { f with reply := n }
  else if key = "expect" then
    let clause ← expectClause host
    pure { f with expect := some clause }
  else raise s!"task key must be system/user/reply/expect, got {word}" t.line t.col

def taskFields (nm : String) : Parsing φ TaskFields :=
  whileTokens (fun f ↦ do
    if ← at_ (.symbol "RBRACE") then pure (.done f)
    else
      let (key, t) ← expect host .name "system|user|reply|expect"
      let f ← taskField host nm key t f
      skipNewlines
      pure (.again f)) {}

/-- The names a prompt interpolates are parameters. -/
def checkPrompt (nm : String) (params : List String) (s : Str) : List String → Parsing φ Unit
  | [] => pure ()
  | ref :: refs => do
      let task := host.repr nm
      raiseIf (!params.contains ref)
        s!"task {task} interpolates \x7b{ref}\x7d which is not a parameter" s.line
      checkPrompt nm params s refs

def task : Parsing φ (Task φ) := do
  let head ← expectKw host "task"
  let (nm, _) ← name host "task name"
  let params ← params host
  let _ ← expectKw host "on"
  let (lane, _) ← name host "lane name"
  let o ← taskOptions host head.line
  expectSymbol host "LBRACE"
  skipNewlines
  let f ← taskFields host nm
  expectSymbol host "RBRACE"
  match f.user with
  | none =>
      let quotedName := host.repr nm
      raise s!"task {quotedName} needs a user prompt" head.line
  | some user => do
      match f.system with
      | some s => checkPrompt host nm params s (interpolatedNames s)
      | none => pure ()
      checkPrompt host nm params user (interpolatedNames user)
      pure {
        name := nm
        params := params
        lane := lane
        budget := o.budget
        retry := o.retry
        backoffS := o.backoffS
        system := f.system
        user := user
        reply := f.reply
        expect := f.expect
        line := head.line }

/-! ## Expressions and statements -/

/-- A call for which there is no room on the stack. -/
def noFrame {α σ : Type} : Asking φ σ α := do
  ask (.frame 0)
  Exec.fail .recursionError

/-- The arguments of a call, up to the closing parenthesis. -/
def arguments (arg : Parsing φ (Expr φ)) : Parsing φ (List (Expr φ)) :=
  whileTokens (fun args ↦ do
    let a ← arg
    if ← at_ (.symbol "COMMA") then
      let _ ← advance
      pure (.again (args ++ [a]))
    else pure (.done (args ++ [a]))) []

def comparison : Pick φ CmpOp
  | .eqEq => some .eq
  | .neq => some .ne
  | _ => none

mutual

/-- `expr`, with so much room on the stack. -/
def expr : ℕ → Parsing φ (Expr φ)
  | 0 => noFrame
  | left + 1 => rescue left

def rescue : ℕ → Parsing φ (Expr φ)
  | 0 => noFrame
  | left + 1 => do
      let e ← cmp left
      whileTokens (fun e ↦ do
        if ← at_ (.keyword "rescue") then
          let t ← advance
          let other ← cmp left
          pure (.again (.rescue e other t.line))
        else pure (.done e)) e

def cmp : ℕ → Parsing φ (Expr φ)
  | 0 => noFrame
  | left + 1 => do
      let e ← unary left
      let t ← peek 0
      match comparison t.tok with
      | none => pure e
      | some op => do
          let _ ← advance
          let other ← unary left
          let u ← peek 0
          raiseIf (comparison u.tok).isSome "chained comparison is not allowed" u.line u.col
          pure (.cmp op e other t.line)

def unary : ℕ → Parsing φ (Expr φ)
  | 0 => noFrame
  | left + 1 => do
      let t ← peek 0
      match t.tok with
      | .string s => do
          let _ ← advance
          let str ← interpolated s t.line
          pure (.str str)
      | .number n => do
          let _ ← advance
          pure (.num n t.line)
      | .lparen => do
          let _ ← advance
          let e ← expr left
          expectSymbol host "RPAREN"
          pure e
      | .name s =>
          if s = "true" || s = "false" then do
            let _ ← advance
            pure (.bool (s = "true") t.line)
          else do
            let word := host.repr s
            raiseIf (keywords.contains s) s!"unexpected keyword {word}" t.line t.col
            let _ ← advance
            if ← at_ (.symbol "LPAREN") then
              let _ ← advance
              let args ← if ← at_ (.symbol "RPAREN") then pure [] else arguments (expr left)
              expectSymbol host "RPAREN"
              pure (.call s args t.line)
            else pure (.name s t.line)
      | tok => raise s!"expected an expression, got {got host tok}" t.line t.col

end

mutual

def block : ℕ → Parsing φ (List (Stmt φ))
  | 0 => noFrame
  | left + 1 => do
      expectSymbol host "LBRACE"
      skipNewlines
      let stmts ← whileTokens (fun stmts ↦ do
        if ← at_ (.symbol "RBRACE") then pure (.done stmts)
        else
          let s ← stmt left
          if !(← at_ (.symbol "RBRACE")) then
            let _ ← expect host (.symbol "NEWLINE") "newline or '\x7d'"
          skipNewlines
          pure (.again (stmts ++ [s]))) []
      expectSymbol host "RBRACE"
      pure stmts

def stmt : ℕ → Parsing φ (Stmt φ)
  | 0 => noFrame
  | left + 1 => do
      let t ← peek 0
      if ← at_ (.keyword "let") then
        let _ ← advance
        let (nm, _) ← name host "binding name"
        expectSymbol host "EQ"
        let e ← expr host left
        pure (.letStmt nm e t.line)
      else if ← at_ (.keyword "if") then ifStmt left
      else if ← at_ (.keyword "emit") then
        let _ ← advance
        let e ← expr host left
        pure (.emitStmt e t.line)
      else raise s!"expected let/if/emit, got {shown host t.tok}" t.line t.col

def ifStmt : ℕ → Parsing φ (Stmt φ)
  | 0 => noFrame
  | left + 1 => do
      let head ← expectKw host "if"
      let cond ← expr host left
      let thenBody ← block left
      let elseBody ←
        if ← at_ (.keyword "else") then do
          let _ ← advance
          if ← at_ (.keyword "if") then
            let s ← ifStmt left
            pure [s]
          else block left
        else pure []
      pure (.ifStmt cond thenBody elseBody head.line)

end

/-! ## Programs -/

def flow : Parsing φ (Flow φ) := do
  let head ← expectKw host "flow"
  let (nm, _) ← name host "flow name"
  let params ← params host
  let budget ←
    if ← at_ (.keyword "within") then do
      let _ ← advance
      let (b, _) ← name host "budget name"
      pure (some b)
    else pure none
  let body ← block host host.frames
  pure ⟨nm, params, budget, body, head.line⟩

/-- `_add`: the name is new in its table. -/
def checkNew (kind nm : String) (line : ℕ) (table : List (String × ℕ)) : Parsing φ Unit :=
  match table.find? (·.1 = nm) with
  | none => pure ()
  | some (_, first) =>
      let quotedName := host.repr nm
      raise s!"duplicate {kind} {quotedName} (first at line {first})" line

def declaration (prog : Program φ) : Parsing φ (Program φ) := do
  let t ← peek 0
  if ← at_ (.keyword "lane") then
    let l ← lane host
    checkNew host "lane" l.name l.line (prog.lanes.map fun l ↦ (l.name, l.line))
    pure { prog with lanes := prog.lanes ++ [l] }
  else if ← at_ (.keyword "budget") then
    let b ← budget host
    checkNew host "budget" b.name b.line (prog.budgets.map fun b ↦ (b.name, b.line))
    pure { prog with budgets := prog.budgets ++ [b] }
  else if ← at_ (.keyword "task") then
    let k ← task host
    checkNew host "task" k.name k.line (prog.tasks.map fun k ↦ (k.name, k.line))
    pure { prog with tasks := prog.tasks ++ [k] }
  else if ← at_ (.keyword "flow") then
    let f ← flow host
    checkNew host "flow" f.name f.line (prog.flows.map fun f ↦ (f.name, f.line))
    pure { prog with flows := prog.flows ++ [f] }
  else raise s!"expected lane/budget/task/flow, got {shown host t.tok}" t.line t.col

def program : Parsing φ (Program φ) := do
  skipNewlines
  whileTokens (fun prog ↦ do
    if ← at_ (.symbol "EOF") then pure (.done prog)
    else
      let prog ← declaration host prog
      skipNewlines
      pure (.again prog)) ⟨[], [], [], []⟩

/-! ## Linking -/

namespace Program

variable (p : Program φ)

def lane? (name : String) : Option (Lane φ) := p.lanes.find? (·.name = name)

def budget? (name : String) : Option (Budget φ) := p.budgets.find? (·.name = name)

def task? (name : String) : Option (Task φ) := p.tasks.find? (·.name = name)

def flow? (name : String) : Option (Flow φ) := p.flows.find? (·.name = name)

def isBuiltin (name : String) : Bool := (builtins.find? (·.1 = name)).isSome

/-- The number of arguments `name` takes: a task's, a flow's or a builtin's. -/
def arity? (name : String) : Option ℕ :=
  match p.task? name with
  | some t => some t.params.length
  | none =>
      match p.flow? name with
      | some f => some f.params.length
      | none => (builtins.find? (·.1 = name)).map Prod.snd

end Program

def checkRefs (line : ℕ) (scope : List String) : List String → Parsing φ Unit
  | [] => pure ()
  | ref :: refs => do
      raiseIf (!scope.contains ref) s!"\x7b{ref}\x7d is not bound here" line
      checkRefs line scope refs

/-- `_check_expr`, with so much room on the stack. -/
def checkExpr (p : Program φ) (scope : List String) : ℕ → Expr φ → Parsing φ Unit
  | 0, _ => noFrame
  | left + 1, e =>
      match e with
      | .str s => checkRefs s.line scope (interpolatedNames s)
      | .num _ _ | .bool _ _ => pure ()
      | .name name line =>
          let quotedName := host.repr name
          raiseIf (!scope.contains name) s!"{quotedName} is not bound here" line
      | .call name args line => do
          args.forM fun a ↦ checkExpr p scope left a
          let quotedName := host.repr name
          match p.arity? name with
          | none => raise s!"unknown task/flow/builtin {quotedName}" line
          | some want =>
              raiseIf (args.length ≠ want)
                s!"{quotedName} takes {want} argument(s), got {args.length}" line
      | .rescue l r _ | .cmp _ l r _ => do
          checkExpr p scope left l
          checkExpr p scope left r

/-- `_check_block`, with so much room on the stack. -/
def checkBlock (p : Program φ) : ℕ → List String → List (Stmt φ) → Parsing φ Unit
  | 0, _, _ => noFrame
  | left + 1, scope, stmts => do
      let _ ← stmts.foldlM (fun scope s ↦
        match s with
        | .letStmt name e line => do
            checkExpr host p scope left e
            let quotedName := host.repr name
            raiseIf (scope.contains name)
              s!"{quotedName} is already bound in this block (no rebinding)" line
            pure (name :: scope)
        | .ifStmt cond thenBody elseBody _ => do
            checkExpr host p scope left cond
            checkBlock p left scope thenBody
            checkBlock p left scope elseBody
            pure scope
        | .emitStmt e _ => do
            checkExpr host p scope left e
            pure scope) scope

def linkTask (p : Program φ) (t : Task φ) : Parsing φ Unit := do
  let task := host.repr t.name
  let laneName := host.repr t.lane
  raiseIf (p.lane? t.lane).isNone s!"task {task}: unknown lane {laneName}" t.line
  let budget := host.repr (t.budget.getD "")
  raiseIf (t.budget.any fun b ↦ (p.budget? b).isNone)
    s!"task {task}: unknown budget {budget}" t.line
  raiseIf (Program.isBuiltin t.name) s!"task {task} shadows a builtin" t.line
  let lane ← Exec.ofOption (.keyError t.lane) (p.lane? t.lane)
  let ctx := lane.ctx.getD 0
  raiseIf (lane.ctx.any fun ctx ↦ decide (ctx ≤ t.reply))
    s!"task {task}: reply {t.reply} cannot fit lane {laneName} ctx {ctx}" t.line

def linkFlow (p : Program φ) (f : Flow φ) : Parsing φ Unit := do
  let flow := host.repr f.name
  let budget := host.repr (f.budget.getD "")
  raiseIf (f.budget.any fun b ↦ (p.budget? b).isNone)
    s!"flow {flow}: unknown budget {budget}" f.line
  raiseIf ((p.task? f.name).isSome || Program.isBuiltin f.name)
    s!"flow {flow} collides with a task or builtin" f.line
  checkBlock host p host.frames f.params f.body

/-- `link`. -/
def link (p : Program φ) : Parsing φ (Program φ) := do
  p.tasks.forM (linkTask host p)
  p.flows.forM (linkFlow host p)
  pure p

/-- `parse_program` behind the lexer, and `link`. -/
def parseTokens : Parsing φ (Program φ) := do
  let prog ← program host
  let t ← peek 0
  raiseIf (!(isEof t.tok)) s!"unexpected {shown host t.tok}" t.line t.col
  link host prog

/-- `parse`, with the log of what it asked. -/
def parse (src : String) : Except Raised (Program φ) × List (Ask φ) :=
  match Lexer.tokenize host ⟨⟨src.toList, 1, 1, 0, []⟩, []⟩ with
  | (.error (.lexError msg line col), s) => (.error (.parseError { msg, line, col }), s.asked)
  | (.error e, s) => (.error e, s.asked)
  | (.ok toks, s) =>
      match parseTokens host ⟨⟨toks, 0⟩, s.asked⟩ with
      | (result, s) => (result, s.asked)

end

end NucLlm.Errand.Source
