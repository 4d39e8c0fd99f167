import Mathlib.Data.List.Basic
import Mathlib.Data.List.Infix

/-!
# Patterns

Text patterns that are tried from left to right and backtrack.  A pattern gives
the list of its matches in the order in which they are tried, so the first of
them is the one that counts.  Whatever is matched stands in the text.
-/

namespace NucLlm

inductive Pattern where
  | empty
  | one (p : Char → Bool)
  | seq (r s : Pattern)
  | alt (r s : Pattern)
  | many (r : Pattern)
  | group (name : ℕ) (r : Pattern)
  | atEnd
  | boundary (word : Char → Bool)

namespace Pattern

/-- A place in a text (what is before it, backwards, and what is after it) and the groups so far. -/
structure Place where
  before : List Char
  rest : List Char
  groups : List (ℕ × List Char)

def start (text : List Char) : Place := ⟨[], text, []⟩

/-- At most `n` repetitions, the longest first; each has to get on. -/
def repeated (step : Place → List Place) : ℕ → Place → List Place
  | 0, s => [s]
  | n + 1, s =>
    ((step s).filter fun t ↦ t.rest.length < s.rest.length).flatMap (repeated step n) ++ [s]

def isWord (word : Char → Bool) : List Char → Bool
  | [] => false
  | c :: _ => word c

def run : Pattern → Place → List Place
  | empty, s => [s]
  | one p, s =>
    match s.rest with
    | [] => []
    | c :: rest => if p c then [⟨c :: s.before, rest, s.groups⟩] else []
  | seq r s, t => (r.run t).flatMap s.run
  | alt r s, t => r.run t ++ s.run t
  | many r, s => repeated r.run s.rest.length s
  | group name r, s =>
    (r.run s).map fun t ↦
      { t with groups :=
          (name, (t.before.take (t.before.length - s.before.length)).reverse) :: t.groups }
  | atEnd, s => if s.rest.isEmpty then [s] else []
  | boundary word, s => if isWord word s.before != isWord word s.rest then [s] else []

/-- `re.match`. -/
def match? (r : Pattern) (text : List Char) : Option Place := (r.run (start text)).head?

/-- The first match at or behind a place. -/
def searchFrom (r : Pattern) (before : List Char) : List Char → Option Place
  | [] => (r.run ⟨before, [], []⟩).head?
  | c :: rest =>
    (r.run ⟨before, c :: rest, []⟩).head?.or (searchFrom r (c :: before) rest)

/-- `re.search`. -/
def search (r : Pattern) (text : List Char) : Option Place := r.searchFrom [] text

/-- `m.group(name)`. -/
def Place.group (s : Place) (name : ℕ) : List Char := (s.groups.lookup name).getD []

/-! ## Ways to write patterns -/

def opt (r : Pattern) : Pattern := alt r empty

def many1 (r : Pattern) : Pattern := seq r (many r)

def char (c : Char) : Pattern := one (· = c)

def concat : List Pattern → Pattern
  | [] => empty
  | r :: rs => seq r (concat rs)

def choice : List Pattern → Pattern
  | [] => one fun _ ↦ false
  | [r] => r
  | r :: rs => alt r (choice rs)

def word (cs : List Char) : Pattern := concat (cs.map char)

/-! ## What is matched stands in the text -/

/-- The place is one of the text, and its groups are pieces of the text. -/
structure Place.In (text : List Char) (s : Place) : Prop where
  place : s.before.reverse ++ s.rest = text
  groups : ∀ g ∈ s.groups, g.2 <:+: text

theorem start_in (text : List Char) : (start text).In text := ⟨rfl, by simp [start]⟩

variable {text : List Char}

theorem repeated_in {step : Place → List Place} (hstep : ∀ s t, s.In text → t ∈ step s → t.In text)
    {n : ℕ} {s t : Place} (h : s.In text) (ht : t ∈ repeated step n s) : t.In text := by
  induction n generalizing s with
  | zero =>
      obtain rfl := List.mem_singleton.mp ht
      exact h
  | succ n ih =>
      unfold repeated at ht
      rcases List.mem_append.mp ht with ht | ht
      · obtain ⟨u, hu, ht⟩ := List.mem_flatMap.mp ht
        exact ih (hstep s u h (List.mem_filter.mp hu).1) ht
      · obtain rfl := List.mem_singleton.mp ht
        exact h

theorem run_in (r : Pattern) {s t : Place} (h : s.In text) (ht : t ∈ r.run s) : t.In text := by
  induction r generalizing s t with
  | empty =>
      obtain rfl := List.mem_singleton.mp ht
      exact h
  | one p =>
      unfold run at ht
      split at ht
      · simp at ht
      · rename_i c rest hrest
        split at ht
        · obtain rfl := List.mem_singleton.mp ht
          have hplace := h.place
          rw [hrest] at hplace
          exact ⟨by simpa using hplace, h.groups⟩
        · simp at ht
  | seq r r' ih ih' =>
      obtain ⟨u, hu, ht⟩ := List.mem_flatMap.mp ht
      exact ih' (ih h hu) ht
  | alt r r' ih ih' =>
      rcases List.mem_append.mp ht with ht | ht
      · exact ih h ht
      · exact ih' h ht
  | many r ih => exact repeated_in (fun _ _ h ht ↦ ih h ht) h ht
  | group name r ih =>
      obtain ⟨u, hu, rfl⟩ := List.mem_map.mp ht
      have hu := ih h hu
      refine ⟨hu.place, fun g hg ↦ ?_⟩
      rcases List.mem_cons.mp hg with rfl | hg
      · have htake := List.take_prefix (u.before.length - s.before.length) u.before
        have hsuffix := List.reverse_suffix.mpr htake
        have hbefore : u.before.reverse <+: text := ⟨u.rest, hu.place⟩
        exact hsuffix.isInfix.trans hbefore.isInfix
      · exact hu.groups g hg
  | atEnd =>
      unfold run at ht
      split at ht
      · obtain rfl := List.mem_singleton.mp ht
        exact h
      · simp at ht
  | boundary word =>
      unfold run at ht
      split at ht
      · obtain rfl := List.mem_singleton.mp ht
        exact h
      · simp at ht

theorem match_in {r : Pattern} {m : Place} (h : r.match? text = some m) : m.In text :=
  run_in r (start_in text) (List.mem_of_head? h)

theorem searchFrom_in {r : Pattern} {before rest : List Char} {m : Place}
    (htext : before.reverse ++ rest = text) (h : r.searchFrom before rest = some m) :
      m.In text := by
  induction rest generalizing before with
  | nil => exact run_in r ⟨htext, by simp⟩ (List.mem_of_head? h)
  | cons c rest ih =>
      rw [searchFrom, Option.or_eq_some_iff] at h
      rcases h with h | ⟨-, h⟩
      · exact run_in r ⟨htext, by simp⟩ (List.mem_of_head? h)
      · exact ih (by simpa using htext) h

theorem search_in {r : Pattern} {m : Place} (h : r.search text = some m) : m.In text :=
  searchFrom_in rfl h

/-- A group of a match is a piece of the text. -/
theorem Place.In.group {m : Place} (h : m.In text) (name : ℕ) : m.group name <:+: text := by
  unfold Place.group
  cases hg : m.groups.lookup name with
  | none => exact List.nil_infix
  | some g =>
      obtain ⟨l, r, hgroups, -⟩ := List.lookup_eq_some_iff.mp hg
      exact h.groups (name, g) (by rw [hgroups]; simp)

end Pattern

end NucLlm
