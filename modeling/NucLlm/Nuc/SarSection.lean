import NucLlm.Lib.Sorting
import NucLlm.Nuc.JournalUnion
import Mathlib.Data.List.DropRight
import Mathlib.Data.List.MinMax

/-!
# Sections of system activity

A section lists rows of one day, each under its clock stamp, and markers of restarts before the row
they precede.  Several readings of one section are merged: the longest one that has every row is
taken as it stands, and otherwise the rows are put in the order of their stamps.
-/

namespace NucLlm.Nuc

open Sorting

/-- What the text functions of the language know of characters, and what `float` reads. -/
structure Glyphs where
  space : Char → Bool
  digit : Char → Option ℕ
  word : Char → Bool
  fold : Char → Char
  isFloat : List Char → Bool

/-- The characters that end a line. -/
def lineBreaks : List Char :=
  ['\n', '\r', '\x0b', '\x0c', '\x1c', '\x1d', '\x1e', '\u0085', '\u2028', '\u2029']

/-- `splitlines`, with what the current line has so far. -/
def splitLinesFrom : List Char → List Char → List Line
  | [], [] => []
  | line, [] => [line]
  | line, '\r' :: '\n' :: rest => line :: splitLinesFrom [] rest
  | line, c :: rest =>
    if c ∈ lineBreaks then line :: splitLinesFrom [] rest else splitLinesFrom (line ++ [c]) rest

def splitlines (text : List Char) : List Line := splitLinesFrom [] text

namespace Glyphs

variable (g : Glyphs)

def rstrip (line : Line) : Line := line.rdropWhile g.space

def strip (line : Line) : Line := (line.dropWhile g.space).rdropWhile g.space

/-- `split`, at runs of space. -/
def split (line : Line) : List (List Char) := (line.splitOnP g.space).filter fun w ↦ !w.isEmpty

/-- `_RESTART.search`. -/
def isRestart (line : Line) : Bool :=
  line.tails.any fun rest ↦ ("LINUX RESTART".toList.map g.fold).isPrefixOf (rest.map g.fold)

/-- `_BANNER.match`: the word at the start, and no letter after it. -/
def isBanner (line : Line) : Bool :=
  "Linux".toList.isPrefixOf line && !((line.drop 5).head?.any g.word)

def isDigit (c : Char) : Bool := (g.digit c).isSome

/-- `_TIME_TOKEN.match`. -/
def isTimeToken : List Char → Bool
  | [h, ':', m, m', ':', s, s'] => [h, m, m', s, s'].all g.isDigit
  | [h, h', ':', m, m', ':', s, s'] => [h, h', m, m', s, s'].all g.isDigit
  | _ => false

/-- A row has a number after its stamp. -/
def isDataRow (parts : List (List Char)) : Bool :=
  let body := parts.drop 1
  let body := if body.head? = some ['A', 'M'] ∨
    body.head? = some ['P', 'M'] then body.drop 1 else body
  body.head?.any g.isFloat

end Glyphs

/-- `parts[0]`, and the half of the day if there is one. -/
def stampOf (parts : List (List Char)) : List Char :=
  match parts with
  | clock :: half :: _ =>
    if half = ['A', 'M'] ∨ half = ['P', 'M'] then clock ++ ' ' :: half else clock
  | [clock] => clock
  | [] => []

/-- What a line of a section is. -/
inductive Kind where
  | text
  | restart
  | data (stamp : List Char) (fields : List (List Char))

/-- The tests that `split_section` makes of a line. -/
def classify (g : Glyphs) (line : Line) : Kind :=
  let s := g.strip line
  if s = [] then .text
  else if g.isRestart s then .restart
  else
    let parts := g.split s
    if g.isBanner s ∨ !g.isTimeToken (parts.headD []) then .text
    else if !g.isDataRow parts then .text
    else .data (stampOf parts) (parts.drop 1)

structure SarRow where
  line : Line
  restartBefore : List Line
  fields : List (List Char)

/-- `order` has the stamps of `rows` as they came. -/
structure Section where
  preamble : List Line
  rows : List Char → Option SarRow
  order : List (List Char)
  tail : List Line
  trailingRestart : List Line

/-- The variables of `split_section`; `trailingRestart` is what is pending. -/
structure Scan extends Section where
  seenData : Bool

def Scan.empty : Scan := ⟨⟨[], fun _ ↦ none, [], [], []⟩, false⟩

def Scan.step (g : Glyphs) (st : Scan) (raw : Line) : Scan :=
  let line := g.rstrip raw
  match classify g line with
  | .text =>
    if st.seenData then { st with tail := st.tail ++ [line] }
    else { st with preamble := st.preamble ++ [line] }
  | .restart => { st with trailingRestart := st.trailingRestart ++ [line] }
  | .data stamp fields =>
    { st with
      seenData := true
      order := if (st.rows stamp).isNone then st.order ++ [stamp] else st.order
      rows := update st.rows stamp (some ⟨line, st.trailingRestart, fields⟩)
      trailingRestart := [] }

def splitSection (g : Glyphs) (body : List Char) : Section :=
  ((splitlines body).foldl (Scan.step g) .empty).toSection

/-- Seconds since midnight. -/
def stampKey (g : Glyphs) (stamp : List Char) : ℕ :=
  let parts := g.split stamp
  let number (ds : List Char) := ds.foldl (fun n c ↦ 10 * n + (g.digit c).getD 0) 0
  match (parts.headD []).splitOn ':' with
  | [h, m, s] =>
    let h := number h
    let h :=
      match parts[1]? with
      | some ['P', 'M'] => if h ≠ 12 then h + 12 else h
      | some ['A', 'M'] => if h = 12 then 0 else h
      | _ => h
    h * 3600 + number m * 60 + number s
  | _ => 0

/-- A reading of the section. -/
structure Candidate where
  name : String
  body : List Char

inductive Disputed where
  | fields (a b : List (List Char))
  | restartBefore (a b : List Line)

structure Conflict where
  stamp : List Char
  aCapture : String
  bCapture : String
  what : Disputed

structure UnionRow extends SarRow where
  from_ : String

/-- The loop over the readings: `order` has the stamps of `union` as they came. -/
structure Merging where
  union : List Char → Option UnionRow
  order : List (List Char)
  conflicts : List Conflict

def Merging.empty : Merging := ⟨fun _ ↦ none, [], []⟩

/-- One row of the reading `cap`. -/
def mergeRow (cap : String) (st : Merging) (stamp : List Char) (row : SarRow) : Merging :=
  match st.union stamp with
  | none =>
    { st with union := update st.union stamp (some ⟨row, cap⟩), order := st.order ++ [stamp] }
  | some prev =>
    let fields := if prev.fields ≠ row.fields then
      [⟨stamp, prev.from_, cap, .fields prev.fields row.fields⟩] else []
    let restarts := if prev.restartBefore ≠ row.restartBefore then
      [⟨stamp, prev.from_, cap, .restartBefore prev.restartBefore row.restartBefore⟩] else []
    { st with conflicts := st.conflicts ++ fields ++ restarts }

def mergeReading (st : Merging) (reading : String × Section) : Merging :=
  reading.2.order.foldl (fun st stamp ↦
    match reading.2.rows stamp with
    | none => st
    | some row => mergeRow reading.1 st stamp row) st

inductive Strategy where
  | verbatimSuperset
  | mergedRows
deriving DecidableEq

structure Merged where
  strategy : Strategy
  chosenCapture : Option String
  text : List Char
  nRowsUnion : ℕ
  nRowsPerCapture : List (String × ℕ)
  conflicts : List Conflict
  averageLineDropped : Bool
  contributingCaptures : List String

/-- `dict(candidates)[name]`. -/
def bodyOf (candidates : List Candidate) (name : String) : List Char :=
  ((candidates.reverse.find? (·.name = name)).map (·.body)).getD []

/-- The rows in the order of time, each after its restart markers. -/
def mergedLines (g : Glyphs) (st : Merging) : List Line :=
  (sortedBy (stampKey g) st.order).flatMap fun stamp ↦
    match st.union stamp with
    | none => []
    | some row => row.restartBefore ++ [row.line]

def parsedOf (g : Glyphs) (candidates : List Candidate) : List (String × Section) :=
  candidates.map fun c ↦ (c.name, splitSection g c.body)

/-- `merge_section`; of no reading at all there is no widest one. -/
def mergeSection (g : Glyphs) (candidates : List Candidate) : Option Merged :=
  let parsed := parsedOf g candidates
  let st := parsed.foldl mergeReading .empty
  let perCapture := parsed.map fun (cap, p) ↦ (cap, p.order.length)
  let supersets := (parsed.filter fun (_, p) ↦
    p.order.length = st.order.length ∧ p.order ⊆ st.order ∧ st.order ⊆ p.order).map (·.1)
  match supersets.argmax fun c ↦ (bodyOf candidates c).length, st.conflicts with
  | some best, [] =>
    some ⟨.verbatimSuperset, some best, bodyOf candidates best, st.order.length, perCapture, [],
      false, parsed.map (·.1)⟩
  | _, conflicts =>
    (parsed.argmax fun (_, p) ↦ p.order.length).map fun (_, widest) ↦
      ⟨.mergedRows, none, ['\n'].intercalate (widest.preamble ++ mergedLines g st), st.order.length,
        perCapture, conflicts, true, parsed.map (·.1)⟩

end NucLlm.Nuc
