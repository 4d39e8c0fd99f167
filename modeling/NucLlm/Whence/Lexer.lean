import NucLlm.Lib.Loop
import NucLlm.Whence.Token

/-!
# The Whence lexer

Newlines separate statements, but not inside `( )`, `[ ]` and record literals,
and not after a token that cannot end a statement.
-/

namespace NucLlm.Whence

structure Place where
  line : ℕ
  col : ℕ
deriving DecidableEq

structure LexError where
  message : String
  place : Place

/-- What the lexer can raise. -/
inductive LexFailure where
  | lexError (e : LexError)
  | valueError

/-- The texts that the host makes of numbers and characters. -/
structure HostText where
  /-- `repr(float(text))`. -/
  floatRepr : String → String
  charRepr : Char → String

namespace Lexer

def isDigit (c : Char) : Bool := "0123456789".toList.contains c

def isNameStart (c : Char) : Bool :=
  "abcdefghijklmnopqrstuvwxyzABCDEFGHIJKLMNOPQRSTUVWXYZ_".toList.contains c

def isNameCont (c : Char) : Bool := isNameStart c || isDigit c

def keywords : List Kw :=
  [.let_, .fn, .if_, .else_, .check, .rescue, .why, .snip, .miss, .true_, .false_, .and, .or, .not]

def twoCharOps : List Punct := [.eqEq, .notEq, .le, .ge, .record, .arrow]

def oneCharOps : List Punct :=
  [.plus, .minus, .star, .slash, .percent, .lparen, .rparen, .lbracket, .rbracket, .lbrace, .rbrace,
    .comma, .colon, .dot, .assign, .lt, .gt]

/-- After these a newline is a continuation. -/
def continues : Tok → Bool
  | .punct p =>
      [Punct.plus, .minus, .star, .slash, .percent, .comma, .colon, .assign, .lt, .gt,
        .eqEq, .notEq, .le, .ge, .arrow].contains p
  | .kw k => [Kw.and, .or, .not, .rescue].contains k
  | _ => false

def escapes : Char → Option Char
  | 'n' => some '\n'
  | 't' => some '\t'
  | 'r' => some '\r'
  | '"' => some '"'
  | '\\' => some '\\'
  | _ => none

def showIntDigits : ℕ := 4000

def numTextLimit (digits : ℕ) : String :=
  s!"{digits} digits is over the {showIntDigits}-digit limit for numeric text " ++
    "(str of a larger integer is a summary, not digits)"

/-! ## Numbers -/

/-- `int(text)`, which refuses more digits than the host's own limit. -/
def intOf (text : List Char) : Option ℕ :=
  if text.isEmpty || !text.all isDigit || decide (4300 < text.length) then none
  else some (text.foldl (fun n c ↦ 10 * n + (c.toNat - '0'.toNat)) 0)

def exponentSyntax : List Char → Bool
  | [] => true
  | e :: rest =>
      (e = 'e' || e = 'E') &&
        (let digits := match rest with
          | '+' :: ds | '-' :: ds => ds
          | ds => ds
        !digits.isEmpty && digits.all isDigit)

/-- The decimal texts without a sign that `float` takes. -/
def floatSyntax (text : List Char) : Bool :=
  let whole := text.takeWhile isDigit
  match text.dropWhile isDigit with
  | '.' :: rest =>
      (!whole.isEmpty || !(rest.takeWhile isDigit).isEmpty) &&
        exponentSyntax (rest.dropWhile isDigit)
  | rest => !whole.isEmpty && exponentSyntax rest

/-- `float(text)`. -/
def floatOf (host : HostText) (text : List Char) : Option String :=
  if floatSyntax text then some (host.floatRepr (String.ofList text)) else none

/-- The fraction at the front of a text. -/
def fractionText : List Char → List Char
  | '.' :: c :: rest => if isDigit c then '.' :: (c :: rest).takeWhile isDigit else []
  | _ => []

def signText : List Char → List Char
  | '+' :: _ => ['+']
  | '-' :: _ => ['-']
  | _ => []

/-- The exponent at the front of a text. -/
def exponentText : List Char → List Char
  | [] => []
  | e :: rest =>
      if e = 'e' ∨ e = 'E' then
        let sign := signText rest
        let digits := (rest.drop sign.length).takeWhile isDigit
        if digits.isEmpty then [] else e :: (sign ++ digits)
      else []

/-- The numeric literal at the front of a text that starts with a digit. -/
def numberText (src : List Char) : List Char :=
  let whole := src.takeWhile isDigit
  let fraction := fractionText (src.drop whole.length)
  whole ++ fraction ++ exponentText (src.drop (whole ++ fraction).length)

def isFloatText (text : List Char) : Bool :=
  text.contains '.' || text.contains 'e' || text.contains 'E'

/-! ## Strings -/

/-- The loop over the characters of a string after its opening quote: the value, the rest of the
source and the column there. -/
def scanString (start : Place) : List Char → List Char → ℕ →
    Except LexError (String × List Char × ℕ)
  | '"' :: rest, out, col => .ok (String.ofList out, rest, col + 1)
  | '\\' :: esc :: rest, out, col =>
      match escapes esc with
      | some c => scanString start rest (out ++ [c]) (col + 2)
      | none => .error ⟨"bad escape '\\" ++ String.singleton esc ++ "'", start.line, col⟩
  | c :: rest, out, col =>
      if c = '\n' ∨ c = '\\' then .error ⟨"unterminated string", start⟩
      else scanString start rest (out ++ [c]) (col + 1)
  | [], _, _ => .error ⟨"unterminated string", start⟩

/-! ## The loop -/

structure Lexing where
  rest : List Char
  place : Place
  /-- The innermost bracket comes first. -/
  brackets : List Punct
  tokens : List Token

def opens : Punct → Bool
  | .lparen | .lbracket | .lbrace | .record => true
  | _ => false

def closes : Punct → Bool
  | .rparen | .rbracket | .rbrace => true
  | _ => false

/-- The open brackets after one more token. -/
def pushed (brackets : List Punct) : Tok → List Punct
  | .punct p => if opens p then p :: brackets else if closes p then brackets.tail else brackets
  | _ => brackets

/-- Newlines inside the bracket do not count. -/
def suppresses : Punct → Bool
  | .lparen | .lbracket | .record => true
  | _ => false

def suppressed (s : Lexing) : Bool :=
  s.brackets.head?.any suppresses || s.tokens.getLast?.any (continues ·.tok)

/-- Go on behind a token on this line. -/
def Lexing.emit (s : Lexing) (tok : Tok) (length : ℕ) : Lexing :=
  { rest := s.rest.drop length
    place := { s.place with col := s.place.col + length }
    brackets := pushed s.brackets tok
    tokens := s.tokens ++ [⟨tok, s.place.line, s.place.col⟩] }

/-- Go on behind characters of this line that make no token. -/
def Lexing.skip (s : Lexing) (length : ℕ) : Lexing :=
  { s with rest := s.rest.drop length, place := { s.place with col := s.place.col + length } }

abbrev Result := Except LexFailure (List Token × Place)

def raise (message : String) (place : Place) : Result := .error (.lexError ⟨message, place⟩)

/-- The branch of a digit. -/
def lexNumber (host : HostText) (s : Lexing) : Pass Lexing Result :=
  let text := numberText s.rest
  if isFloatText text then
    match floatOf host text with
    | some repr => .again (s.emit (.number (.float repr)) text.length)
    | none => .done (.error .valueError)
  else if showIntDigits < text.length then .done (raise (numTextLimit text.length) s.place)
  else match intOf text with
    | some n => .again (s.emit (.number (.int n)) text.length)
    | none => .done (.error .valueError)

/-- A word is a keyword or a name. -/
def wordTok (text : List Char) : Tok :=
  match keywords.find? fun k ↦ k.text.toList = text with
  | some k => .kw k
  | none => .name (String.ofList text)

/-- The branch of a quote. -/
def lexString (s : Lexing) : Pass Lexing Result :=
  match scanString s.place (s.rest.drop 1) [] (s.place.col + 1) with
  | .ok (value, rest, col) => .again
      { s with
        rest := rest
        place := { s.place with col := col }
        tokens := s.tokens ++ [⟨.string value, s.place.line, s.place.col⟩] }
  | .error e => .done (.error (.lexError e))

/-- The branch of a newline. -/
def lexNewline (s : Lexing) : Lexing :=
  { s with
    rest := s.rest.drop 1
    place := ⟨s.place.line + 1, 1⟩
    tokens :=
      if !suppressed s && s.tokens.getLast?.any (·.tok ≠ .newline) then
        s.tokens ++ [⟨.newline, s.place.line, s.place.col⟩]
      else s.tokens }

/-- The operator at the front of a text. -/
def punct? (src : List Char) : Option Punct :=
  (twoCharOps.find? fun p ↦ p.text.toList = src.take 2) <|>
    oneCharOps.find? fun p ↦ p.text.toList = src.take 1

/-- One pass of the loop of `tokenize`. -/
def lexBody (host : HostText) (s : Lexing) : Pass Lexing Result :=
  match s.rest with
  | [] => .done (.ok (s.tokens, s.place))
  | c :: _ =>
      if c = '#' then .again (s.skip (s.rest.takeWhile (· ≠ '\n')).length)
      else if c = '\n' then .again (lexNewline s)
      else if c = ' ' ∨ c = '\t' ∨ c = '\r' then .again (s.skip 1)
      else if isDigit c then lexNumber host s
      else if isNameStart c then
        let text := s.rest.takeWhile isNameCont
        .again (s.emit (wordTok text) text.length)
      else if c = '"' then lexString s
      else match punct? s.rest with
        | some p => .again (s.emit (.punct p) p.text.length)
        | none => .done (raise ("unexpected character " ++ host.charRepr c) s.place)

/-- `tokenize`, with the place where the input ends for its `EOF` token. -/
def tokenize (host : HostText) (src : String) : Option Result :=
  whileLoop (lexBody host) (src.toList.length + 1) ⟨src.toList, ⟨1, 1⟩, [], []⟩

end Lexer

end NucLlm.Whence
