import NucLlm.Errand.Link
import NucLlm.Lib.Consume

/-!
# The Errand lexer

Newlines are statement separators; they are suppressed inside parentheses but not
inside braces, consecutive newlines collapse, and none is emitted first.  What the
lexer and the parser ask of the host is kept in a log: texts to convert, URLs to
split, frames for nested calls.
-/

namespace NucLlm.Errand

inductive DurationUnit where
  | ms
  | s
  | m
  | h
deriving DecidableEq

/-- What `urlparse` makes of a URL; `none` for the port is a `ValueError` of `.port`. -/
structure Url where
  scheme : String
  hostname : Option String
  port : Option (Option ℕ)

/-- The host: characters, conversions and the room for nested calls.  `φ` are its floats. -/
structure Python (φ : Type) where
  isDigit : Char → Bool
  /-- The digits that `int` and `float` take. -/
  isDecimal : Char → Bool
  digit : Char → ℕ
  isAlpha : Char → Bool
  isAlnum : Char → Bool
  /-- The float of decimal digits with at most one point among them. -/
  ofText : List Char → φ
  /-- `float(n)`, or an `OverflowError`. -/
  ofInt : ℕ → Option φ
  /-- `int(x)`, or an `OverflowError`. -/
  trunc : φ → Option ℕ
  /-- The seconds of so many units. -/
  inUnit : φ → DurationUnit → φ
  isPositive : φ → Bool
  isNegative : φ → Bool
  zero : φ
  one : φ
  /-- `urlparse`, or a `ValueError`. -/
  urlparse : String → Option Url
  repr : String → String
  reprFloat : φ → String
  /-- The calls that fit on the stack. -/
  frames : ℕ
  isAlnum_of_isAlpha : ∀ c, isAlpha c = true → isAlnum c = true

inductive Number (φ : Type) where
  | int (n : ℕ)
  | float (x : φ)

/-- The type of a token with the value that tokens of this type have. -/
inductive Tok (φ : Type) where
  | name (s : String)
  | number (n : Number φ)
  | duration (x : φ)
  | string (s : String)
  | lparen
  | rparen
  | lbrace
  | rbrace
  | comma
  | eq
  | eqEq
  | neq
  | newline
  | eof

namespace Tok

variable {φ : Type}

/-- `type`. -/
def type : Tok φ → String
  | name _ => "NAME"
  | number _ => "NUMBER"
  | duration _ => "DURATION"
  | string _ => "STRING"
  | lparen => "LPAREN"
  | rparen => "RPAREN"
  | lbrace => "LBRACE"
  | rbrace => "RBRACE"
  | comma => "COMMA"
  | eq => "EQ"
  | eqEq => "EQEQ"
  | neq => "NEQ"
  | newline => "NEWLINE"
  | eof => "EOF"

def isNewline : Tok φ → Bool
  | newline => true
  | _ => false

/-- `repr(value)`, where there is a value. -/
def repr? (host : Python φ) : Tok φ → Option String
  | name s => some (host.repr s)
  | number (.int n) => some (toString n)
  | number (.float x) => some (host.reprFloat x)
  | duration x => some (host.reprFloat x)
  | string s => some (host.repr s)
  | lparen => some "'('"
  | rparen => some "')'"
  | lbrace => some "'\x7b'"
  | rbrace => some "'\x7d'"
  | comma => some "','"
  | eq => some "'='"
  | eqEq => some "'=='"
  | neq => some "'!='"
  | newline => none
  | eof => none

end Tok

structure Token (φ : Type) where
  tok : Tok φ
  line : ℕ
  col : ℕ

/-- What can be raised; `endless` stands for a loop that does not end. -/
inductive Raised where
  | lexError (msg : String) (line col : ℕ)
  | parseError (e : ParseError)
  | valueError
  | overflowError
  | recursionError
  | keyError (key : String)
  | indexError
  | endless

/-- What is asked of the host. -/
inductive Ask (φ : Type) where
  | int (text : List Char)
  | float (text : List Char)
  | floatOf (n : ℕ)
  | intOf (x : φ)
  | url (url : String)
  | port (url : Url)
  | frame (left : ℕ)

variable {φ : Type} (host : Python φ)

/-- The most digits that `int` takes. -/
def maxStrDigits : ℕ := 4300

/-- The number that digits write. -/
def Python.ofDigits (text : List Char) : ℕ := text.foldl (fun n c ↦ 10 * n + host.digit c) 0

/-- The host does not raise. -/
def Python.answers : Ask φ → Bool
  | .int text => text.all host.isDecimal && decide (text.length ≤ maxStrDigits)
  | .float text => text.all fun c ↦ host.isDecimal c || c = '.'
  | .floatOf n => (host.ofInt n).isSome
  | .intOf x => (host.trunc x).isSome
  | .url url => (host.urlparse url).isSome
  | .port url => url.port.isSome
  | .frame left => decide (left ≠ 0)

/-- A state with a log of what has been asked. -/
structure Logged (φ σ : Type) where
  state : σ
  asked : List (Ask φ)

abbrev Asking (φ σ : Type) := Exec Raised (Logged φ σ)

section

variable {σ : Type}

def ask (a : Ask φ) : Asking φ σ Unit := Exec.modify fun s ↦ { s with asked := s.asked ++ [a] }

/-- `int(text)`. -/
def intText (text : List Char) : Asking φ σ ℕ := do
  ask (.int text)
  if host.answers (.int text) then pure (host.ofDigits text)
  else Exec.fail .valueError

/-- `float(text)`. -/
def floatText (text : List Char) : Asking φ σ φ := do
  ask (.float text)
  if host.answers (.float text) then pure (host.ofText text) else Exec.fail .valueError

/-- `float(n)`. -/
def floatInt (n : ℕ) : Asking φ σ φ := do
  ask (.floatOf n)
  Exec.ofOption .overflowError (host.ofInt n)

/-- `int(x)`. -/
def intFloat (x : φ) : Asking φ σ ℕ := do
  ask (.intOf x)
  Exec.ofOption .overflowError (host.trunc x)

def urlSplit (url : String) : Asking φ σ Url := do
  ask (.url url)
  Exec.ofOption .valueError (host.urlparse url)

def urlPort (url : Url) : Asking φ σ (Option ℕ) := do
  ask (.port url)
  Exec.ofOption .valueError url.port

end

namespace Lexer

/-- Where the lexer is: the text left, its place, the parentheses that are open, and the tokens
so far. -/
structure LexState (φ : Type) where
  rest : List Char
  line : ℕ
  col : ℕ
  depth : ℕ
  toks : List (Token φ)

abbrev Lexing (φ α : Type) := Asking φ (LexState φ) α

def simple : Char → Option (Tok φ)
  | '(' => some .lparen
  | ')' => some .rparen
  | '{' => some .lbrace
  | '}' => some .rbrace
  | ',' => some .comma
  | _ => none

def durationUnit : List Char → Option DurationUnit
  | ['m', 's'] => some .ms
  | ['s'] => some .s
  | ['m'] => some .m
  | ['h'] => some .h
  | _ => none

def escapes : Char → Option Char
  | 'n' => some '\n'
  | 't' => some '\t'
  | '"' => some '"'
  | '\\' => some '\\'
  | _ => none

/-- The text of a number: digits with at most one point, and the text behind it. -/
def numberText : Bool → List Char → List Char × List Char
  | _, [] => ([], [])
  | seenDot, c :: cs =>
      if host.isDigit c || (c = '.' && !seenDot) then
        let (text, rest) := numberText (seenDot || c = '.') cs
        (c :: text, rest)
      else ([], c :: cs)

/-- The string from `offset` characters behind its quote on: its text, how far it goes, and the
text behind it. -/
def stringText (line startCol : ℕ) :
    ℕ → List Char → List Char → Except Raised (List Char × ℕ × List Char)
  | _, [], _ => .error (.lexError "unterminated string" line startCol)
  | offset, c :: cs, buf =>
      if c = '\n' then .error (.lexError "unterminated string" line startCol)
      else if c = '"' then .ok (buf, offset, cs)
      else if c = '\\' then
        match cs with
        | [] => .error (.lexError "bad escape in string" line (startCol + offset))
        | e :: cs =>
            match escapes e with
            | some x => stringText line startCol (offset + 2) cs (buf ++ [x])
            | none => .error (.lexError "bad escape in string" line (startCol + offset))
      else stringText line startCol (offset + 1) cs (buf ++ [c])

def emit (tok : Tok φ) (line col : ℕ) : Lexing φ Unit :=
  Exec.modify fun s ↦
    { s with state := { s.state with toks := s.state.toks ++ [⟨tok, line, col⟩] } }

/-- Go on behind `n` characters of the line. -/
def skip (n : ℕ) : Lexing φ Unit :=
  Exec.modify fun s ↦
    { s with state := { s.state with rest := s.state.rest.drop n, col := s.state.col + n } }

/-- `toks and toks[-1].type != "NEWLINE"`. -/
def endsStatement (toks : List (Token φ)) : Bool :=
  toks.getLast?.any fun t ↦ !t.tok.isNewline

/-- A token of so many characters. -/
def symbol (tok : Tok φ) (length : ℕ) : Lexing φ Unit := do
  let s ← Exec.get
  emit tok s.state.line s.state.col
  skip length

def newline : Lexing φ Unit := do
  let s ← Exec.get
  if s.state.depth = 0 && endsStatement s.state.toks then
    emit .newline s.state.line s.state.col
  Exec.modify fun s ↦
    { s with state := { s.state with
      rest := s.state.rest.tail
      line := s.state.line + 1
      col := 1 } }

/-- The column is left where it is: a comment ends its line. -/
def comment : Lexing φ Unit :=
  Exec.modify fun s ↦
    { s with state := { s.state with rest := s.state.rest.dropWhile (· ≠ '\n') } }

def paren (ch : Char) : Lexing φ Unit :=
  Exec.modify fun s ↦
    { s with state := { s.state with
      depth := if ch = '(' then s.state.depth + 1 else if ch = ')' then s.state.depth - 1
        else s.state.depth } }

def string : Lexing φ Unit := do
  let s ← Exec.get
  match stringText s.state.line s.state.col 1 s.state.rest.tail [] with
  | .error e => Exec.fail e
  | .ok (text, offset, _) => do
      emit (.string (String.ofList text)) s.state.line s.state.col
      skip (offset + 1)

def number : Lexing φ Unit := do
  let s ← Exec.get
  let (text, rest) := numberText host false s.state.rest
  let unit := rest.takeWhile host.isAlpha
  if unit.isEmpty then
    let value ← if text.contains '.' then Number.float <$> floatText host text
      else Number.int <$> intText host text
    emit (.number value) s.state.line s.state.col
    skip text.length
  else
    match durationUnit unit with
    | none =>
        Exec.fail <| .lexError s!"unknown duration unit {host.repr (String.ofList unit)}"
          s.state.line s.state.col
    | some u => do
        let x ← floatText host text
        emit (.duration (host.inUnit x u)) s.state.line s.state.col
        skip (text ++ unit).length

def isNameChar (c : Char) : Bool := host.isAlnum c || c = '_'

def name : Lexing φ Unit := do
  let s ← Exec.get
  let text := s.state.rest.takeWhile (isNameChar host)
  emit (.name (String.ofList text)) s.state.line s.state.col
  skip text.length

/-- `ch.isdigit() or (ch == "." and i + 1 < n and src[i + 1].isdigit())`. -/
def startsNumber : List Char → Bool
  | '.' :: c :: _ => host.isDigit '.' || host.isDigit c
  | c :: _ => host.isDigit c
  | [] => false

/-- One pass of the loop of `tokenize`. -/
def pass (_ : Unit) : Lexing φ (Pass Unit Unit) := do
  let s ← Exec.get
  match s.state.rest with
  | [] => pure (.done ())
  | ch :: rest => do
      if ch = '#' then comment
      else if ch = '\n' then newline
      else if ch = ' ' || ch = '\t' || ch = '\r' then skip 1
      else match simple ch with
        | some tok => do
            paren ch
            symbol tok 1
        | none =>
            if ['=', '='].isPrefixOf (ch :: rest) then symbol .eqEq 2
            else if ['!', '='].isPrefixOf (ch :: rest) then symbol .neq 2
            else if ch = '=' then symbol .eq 1
            else if ch = '"' then string
            else if startsNumber host (ch :: rest) then number host
            else if host.isAlpha ch || ch = '_' then name host
            else
              Exec.fail <| .lexError s!"unexpected character {host.repr (String.singleton ch)}"
                s.state.line s.state.col
      pure (.again ())

/-- `tokenize`, with the log of what it asked. -/
def tokenize : Lexing φ (List (Token φ)) := do
  let s ← Exec.get
  Exec.loop .endless (pass host) (s.state.rest.length + 1) ()
  let s ← Exec.get
  if endsStatement s.state.toks then emit .newline s.state.line s.state.col
  emit .eof s.state.line s.state.col
  let s ← Exec.get
  pure s.state.toks

end Lexer

end NucLlm.Errand
