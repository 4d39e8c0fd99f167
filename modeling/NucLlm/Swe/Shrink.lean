import NucLlm.Lib.Bisect
import NucLlm.Swe.Ddmin
import Mathlib.Data.Nat.Find

/-!
# Shrinking a failing program

Lines are removed by delta debugging; then the runs of repeated tokens and the integers of every
line are made smaller, as long as a predicate accepts the text, and all of it is repeated until
nothing changes.
-/

namespace NucLlm.Swe

/-- What the text functions of the language know of characters. -/
structure Alphabet where
  space : Char → Bool
  word : Char → Bool
  digit : Char → Option ℕ
  /-- How many digits `int` reads at most. -/
  maxStrDigits : ℕ
  word_of_digit : ∀ c, (digit c).isSome → word c = true
  digit_lt : ∀ c d, digit c = some d → d < 10
  digit_ascii : ∀ d < 10, digit (Nat.digitChar d) = some d
  not_word : ∀ c ∈ [' ', '(', ')', '[', ']'], word c = false
  not_digit_point : digit '.' = none

/-- `int` refuses a text with too many digits. -/
inductive ShrinkRaised where
  | valueError (digits : ℕ)

abbrev Text := List Char

/-- `str` of a number. -/
def str (n : ℕ) : Text := Nat.toDigits 10 n

namespace Alphabet

variable (A : Alphabet)

def isDigit (c : Char) : Bool := (A.digit c).isSome

/-- `[\w.]`. -/
def inWord (c : Char) : Bool := A.word c || c = '.'

def value (ds : Text) : ℕ := ds.foldl (fun n c ↦ 10 * n + (A.digit c).getD 0) 0

end Alphabet

section

variable {σ : Type}

/-- `int` of a run of digits. -/
def int (A : Alphabet) (ds : Text) : Exec ShrinkRaised σ ℕ :=
  if ds.length > A.maxStrDigits then Exec.fail (.valueError ds.length) else pure (A.value ds)

/-- The end of the integer literal that starts at a place, if one does. -/
def literalAt (A : Alphabet) (line : Text) (start : ℕ) : Option ℕ :=
  let run := (line.drop start).takeWhile A.isDigit
  let end_ := start + run.length
  if run ≠ [] ∧ !((line.take start).getLast?.any A.inWord) ∧ !((line.drop end_).head?.any A.inWord)
  then some end_ else none

/-- The spans of the integer literals of a line.  No literal starts inside another one, since a
digit stands before it. -/
def literalSpans (A : Alphabet) (line : Text) : List (ℕ × ℕ) :=
  (List.range line.length).filterMap fun start ↦ (literalAt A line start).map fun end_ ↦
    (start, end_)

/-- The loop of `_minimize_ints` over the spans that are left. -/
def minimizeSpans (A : Alphabet) (keepLine : Text → Exec ShrinkRaised σ Bool) :
    List (ℕ × ℕ) → Text → Exec ShrinkRaised σ Text
  | [], line => pure line
  | (start, end_) :: spans, line => do
    let value ← int A ((line.take end_).drop start)
    let best ← bisect (fun mid ↦ keepLine (line.take start ++ str mid ++ line.drop end_))
      0 value value
    minimizeSpans A keepLine spans (line.take start ++ str best ++ line.drop end_)

def minimizeInts (A : Alphabet) (line : Text) (keepLine : Text → Exec ShrinkRaised σ Bool) :
    Exec ShrinkRaised σ Text :=
  minimizeSpans A keepLine (literalSpans A line).reverse line

/-- A run of a token in a line, and the line with any number of them. -/
structure Run where
  count : ℕ
  build : ℕ → Text

/-- The first place where a pattern matches, with what is before it. -/
def search {α : Type} (matchAt : Text → Option α) (line : Text) : Option (Text × α) :=
  (List.range (line.length + 1)).findSome? fun i ↦
    (matchAt (line.drop i)).map fun found ↦ (line.take i, found)

/-- What the three groups match, and what is behind them. -/
structure Brackets where
  opened : ℕ
  middle : Text
  closed : ℕ
  behind : Text

/-- `(\({4,})([^()]*)(\){4,})`. -/
def parensAt (s : Text) : Option Brackets :=
  let opened := (s.takeWhile (· = '(')).length
  let rest := s.drop opened
  let middle := rest.takeWhile fun c ↦ c ≠ '(' ∧ c ≠ ')'
  let rest := rest.drop middle.length
  let closed := (rest.takeWhile (· = ')')).length
  if 4 ≤ opened ∧ 4 ≤ closed then some ⟨opened, middle, closed, rest.drop closed⟩ else none

/-- `(\[{4,})([^[]]*)(\]{4,})`, where the set ends at its first `]`: one character that is no `[`,
and then the closing brackets, of which the last four are left to the third group. -/
def squaresAt (s : Text) : Option Brackets :=
  let opened := (s.takeWhile (· = '[')).length
  match s.drop opened with
  | [] => none
  | c :: rest =>
    let closed := (rest.takeWhile (· = ']')).length
    if 4 ≤ opened ∧ 4 ≤ closed then
      some ⟨opened, c :: List.replicate (closed - 4) ']', 4, rest.drop closed⟩
    else none

/-- A run of brackets is shortened on both sides if they are equally long. -/
def bracketRun (open_ close : Char) (found : Option (Text × Brackets)) : Option Run :=
  match found with
  | none => none
  | some (before, m) =>
    if m.opened = m.closed then
      some ⟨m.opened, fun k ↦ before ++ (List.replicate k open_ ++ m.middle ++
        List.replicate k close) ++ m.behind⟩
    else none

/-- How often a unit stands at the start of a text. -/
def repeats (unit s : Text) : ℕ :=
  Nat.findGreatest (fun k ↦ (List.replicate k unit).flatten <+: s) s.length

/-- `((?:unit){4,})`, with what is behind it. -/
def unitsAt (unit s : Text) : Option (ℕ × Text) :=
  let n := repeats unit s
  if 4 ≤ n then some (n, s.drop (n * unit.length)) else none

def unitRun (unit line : Text) : Option Run :=
  (search (unitsAt unit) line).map fun (before, n, behind) ↦
    ⟨n, fun k ↦ before ++ (List.replicate k unit).flatten ++ behind⟩

/-- `search` of `_minimize_repeats`. -/
def shorten (keepLine : Text → Exec ShrinkRaised σ Bool) (line : Text) (run : Option Run) :
    Exec ShrinkRaised σ Text :=
  match run with
  | none => pure line
  | some run => do
    let best ← bisect (fun mid ↦ keepLine (run.build mid)) 1 run.count run.count
    pure (run.build best)

def shortenUnits (keepLine : Text → Exec ShrinkRaised σ Bool) :
    List Text → Text → Exec ShrinkRaised σ Text
  | [], line => pure line
  | unit :: units, line => do
    let line ← shorten keepLine line (unitRun unit line)
    shortenUnits keepLine units line

def repeatUnits : List Text :=
  ["- ".toList, "why ".toList, "not ".toList, "snip ".toList, " + 1".toList]

def minimizeRepeats (line : Text) (keepLine : Text → Exec ShrinkRaised σ Bool) :
    Exec ShrinkRaised σ Text := do
  let line ← shorten keepLine line (bracketRun '(' ')' (search parensAt line))
  let line ← shorten keepLine line (bracketRun '[' ']' (search squaresAt line))
  shortenUnits keepLine repeatUnits line

/-- `"\n".join(lines) + "\n"`. -/
def render (lines : List Text) : Text := ['\n'].intercalate lines ++ ['\n']

variable (A : Alphabet) (keep : Text → Exec ShrinkRaised σ Bool)

/-- The loop of `shrink` over the lines: those that are done, and those to come. -/
def polishLines (done : List Text) : List Text → Exec ShrinkRaised σ (List Text)
  | [] => pure done
  | ln :: rest => do
    let keepLine cand := keep (render (done ++ cand :: rest))
    let ln ← minimizeRepeats ln keepLine
    let ln ← minimizeInts A ln keepLine
    polishLines (done ++ [ln]) rest

def shrinkRounds : ℕ → List Text → Exec ShrinkRaised σ (List Text)
  | 0, lines => pure lines
  | rounds + 1, lines => do
    let before := lines
    let lines ← ddminLines (fun ls ↦ keep (render ls)) lines
    let lines ← polishLines A keep [] lines
    if lines = before then pure lines else shrinkRounds rounds lines

/-- The lines that are not blank. -/
def codeLines (src : Text) : List Text := (src.splitOn '\n').filter fun ln ↦ ln.any (!A.space ·)

def shrink (src : Text) (maxRounds : ℕ) : Exec ShrinkRaised σ (Option Text) := do
  let lines := codeLines A src
  if !(← keep (render lines)) then pure none
  else do
    let lines ← shrinkRounds A keep maxRounds lines
    pure (some (render lines))

end

end NucLlm.Swe
