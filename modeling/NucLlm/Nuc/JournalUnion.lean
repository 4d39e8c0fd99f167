import NucLlm.Lib.Lists
import NucLlm.Lib.Sorting
import Mathlib.Data.List.Lex
import Mathlib.Data.Prod.Lex
import Mathlib.Data.Char

/-!
# The union of journals

Each capture is a reading of one append-only journal.  The union shows a line as often as the
capture that shows it most, at the first place any capture shows it; a separator has no date of its
own and is attached to the dated line that follows it.
-/

namespace NucLlm.Nuc

open Sorting

abbrev Line := List Char

/-- A second, as it is written. -/
abbrev Instant := List Char

/-- What `_ISO_LEAD` matches, with `0` for a digit. -/
def isoShape : List Char := "0000-00-00T00:00:00".toList

/-- The date and the time that a line begins with. -/
def isoLead (digit : Char → Bool) (line : Line) : Option Instant :=
  let lead := line.take isoShape.length
  if lead.length = isoShape.length ∧
      (isoShape.zip lead).all fun (shape, c) ↦ if shape = '0' then digit c else shape = c then
    some lead
  else none

/-- A second, a capture and a place in it.  A line has an odd place, and the separators before it
have the even place before that. -/
abbrev Mark := Instant ×ₗ ℕ ×ₗ ℕ

def Mark.of (ts : Instant) (stream place : ℕ) : Mark := toLex (ts, toLex (stream, place))

def Mark.instant (m : Mark) : Instant := (ofLex m).1

def Mark.place (m : Mark) : ℕ := (ofLex (ofLex m).2).2

/-- A separator that two captures attach to different instants. -/
structure Disagreement where
  separator : Line
  kept : Instant
  alsoSeenAt : Instant
  capture : ℕ

/-- The dictionaries of `union_journal`; `order` has the keys of `mult` as they were inserted. -/
structure Seen where
  order : List Line
  mult : Line → ℕ
  firstSeen : Line → Option Mark
  sepAt : Line → Option Instant
  disagreements : List Disagreement
  nSep : ℕ
  trailing : List (ℕ × Line)

/-- The variables of the loop over the lines of one capture. -/
structure Reading extends Seen where
  pendingSeps : List Line
  counts : Line → ℕ

def Seen.empty : Seen := ⟨[], fun _ ↦ 0, fun _ ↦ none, fun _ ↦ none, [], 0, []⟩

/-- `d[key] = value`. -/
def update {β : Type} (d : Line → β) (key : Line) (value : β) : Line → β :=
  fun line ↦ if line = key then value else d line

/-- `d.setdefault(key, value)`. -/
def setdefault {β : Type} (d : Line → Option β) (key : Line) (value : β) : Line → Option β :=
  update d key (some ((d key).getD value))

/-- One pending separator at the dated line `li` of capture `si`. -/
def attach (ts : Instant) (si li : ℕ) (st : Reading) (sep : Line) : Reading :=
  match st.sepAt sep with
  | none =>
    { st with
      sepAt := update st.sepAt sep (some ts)
      firstSeen := setdefault st.firstSeen sep (.of ts si (2 * li))
      order := if sep ∈ st.order then st.order else st.order ++ [sep]
      mult := update st.mult sep 1 }
  | some prev =>
    if prev ≠ ts then
      let st := { st with disagreements := st.disagreements ++
        [⟨sep, min prev ts, max prev ts, si⟩] }
      if ts < prev then
        { st with
          sepAt := update st.sepAt sep (some ts)
          firstSeen := update st.firstSeen sep (some (.of ts si (2 * li))) }
      else st
    else st

/-- A dated line, once the separators before it are attached. -/
def countLine (ts : Instant) (si li : ℕ) (line : Line) (st : Reading) : Reading :=
  let k := st.counts line + 1
  { st with
    pendingSeps := []
    counts := update st.counts line k
    order := if k > st.mult line ∧ line ∉ st.order then st.order ++ [line] else st.order
    mult := if k > st.mult line then update st.mult line k else st.mult
    firstSeen := setdefault st.firstSeen line (.of ts si (2 * li + 1)) }

section

variable (stamp : Line → Option Instant)

def readLine (si : ℕ) (st : Reading) (at_ : Line × ℕ) : Reading :=
  let (line, li) := at_
  match stamp line with
  | none => { st with nSep := st.nSep + 1, pendingSeps := st.pendingSeps ++ [line] }
  | some ts => countLine ts si li line (st.pendingSeps.foldl (attach ts si li) st)

def readStream (st : Seen) (at_ : List Line × ℕ) : Seen :=
  let (lines, si) := at_
  let st := lines.zipIdx.foldl (readLine stamp si) ⟨st, [], fun _ ↦ 0⟩
  { st.toSeen with trailing := st.trailing ++ st.pendingSeps.map fun sep ↦ (si, sep) }

def readStreams (streams : List (List Line)) : Seen :=
  streams.zipIdx.foldl (readStream stamp) .empty

/-- A line to be put out: its mark, which of its copies it is, and its text. -/
structure Item where
  mark : Mark
  copy : ℕ
  line : Line

def Item.key (it : Item) : Mark ×ₗ ℕ := toLex (it.mark, it.copy)

def copiesOf (st : Seen) (line : Line) : List Item :=
  match st.firstSeen line with
  | none => []
  | some mark => (List.range (st.mult line)).map fun j ↦ ⟨mark, j, line⟩

def itemsOf (st : Seen) : List Item := st.order.flatMap (copiesOf st)

def unionLines (st : Seen) : List Line := (sortedBy Item.key (itemsOf st)).map (·.line)

structure Loss where
  capture : ℕ
  line : Line
  inCapture : ℕ
  inUnion : ℕ

/-- The lines that the union carries fewer copies of than some capture does. -/
def multiplicityLosses (streams : List (List Line)) (mult : Line → ℕ) : List Loss :=
  streams.zipIdx.flatMap fun (lines, cap) ↦ (Lists.addNew [] lines).filterMap fun line ↦
    if mult line < lines.count line then
      some ⟨cap, line.take 120, lines.count line, mult line⟩
    else none

structure Union where
  lines : List Line
  text : List Char
  nLinesUnion : ℕ
  nDistinctLines : ℕ
  dedupIsLossless : Bool
  multiplicityLosses : List Loss
  nSeparatorLinesSeen : ℕ
  nSeparatorsKept : ℕ
  separatorAttachmentDisagreements : List Disagreement
  trailingSeparators : List (ℕ × Line)

/-- `union_journal`, on the lines of the captures that have any. -/
def unionStreams (streams : List (List Line)) : Union :=
  let st := readStreams stamp streams
  let out := unionLines st
  let losses := multiplicityLosses streams st.mult
  { lines := out
    text := ['\n'].intercalate out ++ ['\n']
    nLinesUnion := out.length
    nDistinctLines := st.order.length
    dedupIsLossless := losses.isEmpty
    multiplicityLosses := losses.take 8
    nSeparatorLinesSeen := st.nSep
    nSeparatorsKept := st.order.countP fun l ↦ (st.sepAt l).isSome
    separatorAttachmentDisagreements := st.disagreements
    trailingSeparators := st.trailing }

end

/-- What a capture directory holds: no journal, or its lines. -/
structure Capture where
  name : String
  journal : Option (List Line)

def usable (captures : List Capture) : List (List Line) :=
  (captures.filterMap (·.journal)).filter fun lines ↦ !lines.isEmpty

/-- `union_journal`; nothing is returned when no capture carries the file. -/
def unionJournal (digit : Char → Bool) (captures : List Capture) : Option Union :=
  if usable captures = [] then none else some (unionStreams (isoLead digit) (usable captures))

end NucLlm.Nuc
