import Mathlib.Data.List.AList

/-!
# The time-travel debugger

A dictionary of checkpoints and a list of their names in the order in which they
were taken.  A snapshot adds to both, and drops the oldest name at the cap; a
rewind drops the names behind the one it goes back to from the list alone.
-/

namespace NucLlm.Whence.TimeTravel

/-- A dictionary whose keys are texts. -/
abbrev Dict (α : Type) := AList fun _ : String ↦ α

namespace Dict

variable {α : Type}

def size (d : Dict α) : ℕ := d.keys.length

end Dict

/-- What the host writes of a name, and what a binding says as a name. -/
structure Host (V : Type) where
  repr : String → String
  payload : V → String

/-- An environment: its variables, and what its own `get` answers for a name that is not among
them, if it takes a default. -/
structure Env (V : Type) where
  vars : Dict V
  answer : Option String

structure Checkpoint (V : Type) where
  vars : Dict V
  order : ℕ
  timestamp : ℕ

structure Debugger (V : Type) where
  checkpoints : Dict (Checkpoint V)
  creationOrder : List String

/-- What an operation returns or raises. -/
inductive Answer where
  | text (s : String)
  | miss (reason : String)
  | keyError
  | indexError
deriving DecidableEq

def Answer.raises : Answer → Bool
  | .keyError | .indexError => true
  | .text _ | .miss _ => false

/-- `_max_checkpoints`. -/
def maxCheckpoints : ℕ := 100

/-- `"%3d"` and the like. -/
def padLeft (width : ℕ) (s : String) : String := "".pushn ' ' (width - s.length) ++ s

def padRight (width : ℕ) (s : String) : String := s ++ "".pushn ' ' (width - s.length)

section

variable {V : Type} (host : Host V)

/-- `_snap_name`. -/
def snapName (env : Env V) : String :=
  match env.vars.lookup "_last_snap_name" with
  | some v => host.payload v
  | none => env.answer.getD "unnamed"

namespace Debugger

/-- A new debugger. -/
def start : Debugger V := ⟨∅, []⟩

/-- `snapshot` where the cap is reached. -/
def evict (d : Debugger V) : Answer × Debugger V :=
  match d.creationOrder with
  | [] => (.indexError, d)
  | oldest :: order =>
      if oldest ∈ d.checkpoints then
        (.text s!"snap({host.repr oldest}) ✓ [evicted due to max limit]",
          ⟨d.checkpoints.erase oldest, order⟩)
      else (.keyError, { d with creationOrder := order })

/-- `snapshot`. -/
def snapshot (d : Debugger V) (env : Env V) : Answer × Debugger V :=
  if maxCheckpoints ≤ d.checkpoints.size then d.evict host
  else
    let name := snapName host env
    (.text s!"snap({host.repr name}) ✓",
      { checkpoints := d.checkpoints.insert name
          ⟨env.vars, d.creationOrder.length + 1, d.creationOrder.length⟩
        creationOrder := d.creationOrder ++ [name] })

/-- The names up to the last time that the name was taken. -/
def upTo (name : String) (order : List String) : List String :=
  (order.reverse.dropWhile (· ≠ name)).reverse

/-- `rewind`, with the environment it leaves. -/
def rewind (d : Debugger V) (env : Env V) (name : String) : Answer × Env V × Debugger V :=
  match d.checkpoints.lookup name with
  | none => (.miss s!"checkpoint '{name}' not found", env, d)
  | some cp =>
      (.text s!"rewind({host.repr name}) ✓", { env with vars := cp.vars },
        { d with creationOrder := upTo name d.creationOrder })

/-- The lines of the timeline from the one with the number on; nothing where a name is
not stored. -/
def timelineLines (d : Debugger V) : ℕ → List String → Option (List String)
  | _, [] => some []
  | i, name :: names => do
      let cp ← d.checkpoints.lookup name
      let size := toString cp.vars.size
      let rest ← d.timelineLines (i + 1) names
      let line := s!"[{padLeft 3 (toString i)}] ✓ {padRight 20 name} vars={padLeft 4 size}"
      some (line :: rest)

/-- `timeline`. -/
def timeline (d : Debugger V) : Answer :=
  if d.creationOrder.isEmpty then .text "No checkpoints recorded yet."
  else match d.timelineLines 1 d.creationOrder with
    | none => .keyError
    | some lines =>
        .text ("\n".intercalate (s!"Timeline ({d.creationOrder.length} checkpoints):" :: lines))

end Debugger

/-! ## Runs -/

inductive Op (V : Type) where
  | snapshot (env : Env V)
  | rewind (env : Env V) (name : String)
  | timeline

namespace Debugger

def perform (d : Debugger V) : Op V → Answer × Debugger V
  | .snapshot env => d.snapshot host env
  | .rewind env name =>
      let (answer, _, d') := d.rewind host env name
      (answer, d')
  | .timeline => (d.timeline, d)

/-- The debugger after the operations. -/
def after (d : Debugger V) : List (Op V) → Debugger V
  | [] => d
  | op :: ops => after (d.perform host op).2 ops

end Debugger

/-- The name that an operation is on. -/
def Op.on : Op V → Option String
  | .snapshot env => some (snapName host env)
  | .rewind _ name => some name
  | .timeline => none

/-- The names in the list are the keys, each once, and there are not too many. -/
structure Consistent (d : Debugger V) : Prop where
  nodup : d.creationOrder.Nodup
  mem_iff : ∀ name, name ∈ d.creationOrder ↔ name ∈ d.checkpoints
  capped : d.checkpoints.size ≤ maxCheckpoints

/-- No operation on a name that is listed raises. -/
def NoRaise (d : Debugger V) : Prop :=
  ∀ op : Op V, (∀ name, op.on host = some name → name ∈ d.creationOrder) →
    (d.perform host op).1.raises = false

/-- A snapshot leaves the environment under its name. -/
def Stores (d : Debugger V) : Op V → Prop
  | .snapshot env =>
      ∃ cp, (d.perform host (.snapshot env)).2.checkpoints.lookup (snapName host env) = some cp ∧
        cp.vars = env.vars
  | _ => True

/-- The debugger keeps its history over the operations. -/
def Keeps (d : Debugger V) : List (Op V) → Prop
  | [] => Consistent d ∧ NoRaise host d
  | op :: ops => (Consistent d ∧ NoRaise host d) ∧ Stores host d op ∧
      Keeps (d.perform host op).2 ops

/-- A snapshot finds room and takes a new name, or it finds none but another environment is the
oldest and this one is stored already; a rewind goes back to the last name or to none. -/
def Safe (d : Debugger V) : Op V → Prop
  | .snapshot env =>
      let name := snapName host env
      (d.checkpoints.size < maxCheckpoints ∧ name ∉ d.checkpoints) ∨
        (maxCheckpoints ≤ d.checkpoints.size ∧ d.creationOrder.head? ≠ some name ∧
          ∃ cp, d.checkpoints.lookup name = some cp ∧ cp.vars = env.vars)
  | .rewind _ name => name ∉ d.checkpoints ∨ d.creationOrder.getLast? = some name
  | .timeline => True

/-- Every operation is safe where it is made. -/
def AllSafe (d : Debugger V) : List (Op V) → Prop
  | [] => True
  | op :: ops => Safe host d op ∧ AllSafe (d.perform host op).2 ops

/-! ## What one operation keeps -/

namespace Dict

variable {d : Dict V} {name : String}

theorem size_insert {v : V} (h : name ∉ d) : size (d.insert name v) = size d + 1 := by
  have hkeys : name ∉ d.keys := h
  simp [size, AList.keys_insert, List.erase_of_not_mem hkeys]

theorem size_erase_le : size (d.erase name) ≤ size d := by
  rw [size, AList.keys_erase]
  exact List.length_erase_le

theorem exists_mem_of_size (h : 0 < size d) : ∃ name, name ∈ d := by
  obtain ⟨name, hname⟩ := List.exists_mem_of_length_pos h
  exact ⟨name, hname⟩

end Dict

namespace Debugger

theorem upTo_concat_of_ne {name last : String} (order : List String) (h : last ≠ name) :
    upTo name (order ++ [last]) = upTo name order := by
  simp [upTo, h]

theorem upTo_concat_self (name : String) (order : List String) :
    upTo name (order ++ [name]) = order ++ [name] := by
  simp [upTo]

theorem mem_of_mem_upTo {name other : String} {order : List String} (h : other ∈ upTo name order) :
    other ∈ order := by
  have hmem : other ∈ order.reverse.dropWhile (· ≠ name) := List.mem_reverse.mp h
  exact List.mem_reverse.mp ((List.dropWhile_sublist _).mem hmem)

variable {host} {d : Debugger V}

theorem timelineLines_isSome {i : ℕ} {names : List String}
    (h : ∀ name ∈ names, name ∈ d.checkpoints) :
    (d.timelineLines i names).isSome := by
  induction names generalizing i with
  | nil => rfl
  | cons name names ih =>
      obtain ⟨cp, hcp⟩ : ∃ cp, d.checkpoints.lookup name = some cp :=
        Option.isSome_iff_exists.mp (AList.lookup_isSome.mpr (h name List.mem_cons_self))
      obtain ⟨rest, hrest⟩ := Option.isSome_iff_exists.mp
        (ih (i := i + 1) fun other hother ↦ h other (List.mem_cons_of_mem _ hother))
      simp [timelineLines, hcp, hrest]

end Debugger

variable {host} {d : Debugger V}

/-- At the cap there is an oldest name, and it is stored. -/
theorem Consistent.oldest (h : Consistent d) (hcap : maxCheckpoints ≤ d.checkpoints.size) :
    ∃ oldest order, d.creationOrder = oldest :: order ∧ oldest ∈ d.checkpoints := by
  cases horder : d.creationOrder with
  | nil =>
      have hpos : 0 < Dict.size d.checkpoints := Nat.lt_of_lt_of_le (by decide) hcap
      obtain ⟨name, hname⟩ := Dict.exists_mem_of_size hpos
      have hmem := (h.mem_iff name).mpr hname
      rw [horder] at hmem
      contradiction
  | cons oldest order =>
      refine ⟨oldest, order, rfl, ?_⟩
      apply (h.mem_iff oldest).mp
      rw [horder]
      exact List.mem_cons_self

theorem Consistent.noRaise (h : Consistent d) : NoRaise host d := by
  intro op _
  cases op with
  | snapshot env =>
      simp only [Debugger.perform, Debugger.snapshot]
      split
      · rename_i hcap
        obtain ⟨oldest, order, horder, hmem⟩ := h.oldest hcap
        simp [Debugger.evict, horder, hmem, Answer.raises]
      · rfl
  | rewind env name =>
      simp only [Debugger.perform, Debugger.rewind]
      split <;> rfl
  | timeline =>
      simp only [Debugger.perform, Debugger.timeline]
      split
      · rfl
      · obtain ⟨lines, hlines⟩ := Option.isSome_iff_exists.mp
          (Debugger.timelineLines_isSome (i := 1) fun name hname ↦ (h.mem_iff name).mp hname)
        rw [hlines]
        rfl

variable (host)

theorem Consistent.snapshot_room (h : Consistent d) (env : Env V)
    (hroom : d.checkpoints.size < maxCheckpoints) :
    Consistent (d.snapshot host env).2 ↔ snapName host env ∉ d.checkpoints := by
  have hnot : ¬maxCheckpoints ≤ d.checkpoints.size := Nat.not_le.mpr hroom
  simp only [Debugger.snapshot, hnot, if_false]
  constructor
  · -- A name that is stored stands in the list already, and would stand there twice.
    intro h' hmem
    have hlisted : snapName host env ∈ d.creationOrder := (h.mem_iff _).mpr hmem
    exact (List.nodup_append.mp h'.nodup).2.2 _ hlisted _ List.mem_cons_self rfl
  · intro hfresh
    have hunlisted : snapName host env ∉ d.creationOrder :=
      fun hmem ↦ hfresh ((h.mem_iff _).mp hmem)
    constructor
    · apply List.Nodup.append h.nodup (List.nodup_singleton _)
      simpa using hunlisted
    · intro name
      rw [AList.mem_insert, List.mem_append, List.mem_singleton, h.mem_iff name]
      exact or_comm
    · rw [Dict.size_insert hfresh]
      exact hroom

theorem stores_room (env : Env V) (hroom : d.checkpoints.size < maxCheckpoints) :
    Stores host d (.snapshot env) := by
  have hnot : ¬maxCheckpoints ≤ d.checkpoints.size := Nat.not_le.mpr hroom
  simp only [Stores, Debugger.perform, Debugger.snapshot, hnot, if_false]
  exact ⟨_, AList.lookup_insert _, rfl⟩

theorem Consistent.snapshot_full (h : Consistent d) (env : Env V)
    (hcap : maxCheckpoints ≤ d.checkpoints.size) :
    Consistent (d.snapshot host env).2 ∧
      (Stores host d (.snapshot env) ↔
        d.creationOrder.head? ≠ some (snapName host env) ∧
          ∃ cp, d.checkpoints.lookup (snapName host env) = some cp ∧ cp.vars = env.vars) := by
  obtain ⟨oldest, order, horder, hmem⟩ := h.oldest hcap
  have hstep : (d.snapshot host env).2 = ⟨d.checkpoints.erase oldest, order⟩ := by
    simp [Debugger.snapshot, hcap, Debugger.evict, horder, hmem]
  have hnodup := h.nodup
  rw [horder] at hnodup
  obtain ⟨hfresh, hnodup⟩ := List.nodup_cons.mp hnodup
  constructor
  · rw [hstep]
    constructor
    · exact hnodup
    · intro name
      have hiff := h.mem_iff name
      rw [horder, List.mem_cons] at hiff
      rw [AList.mem_erase, ← hiff]
      constructor
      · exact fun hname ↦ ⟨fun heq ↦ hfresh (heq ▸ hname), .inr hname⟩
      · exact fun hname ↦ hname.2.resolve_left hname.1
    · exact Nat.le_trans Dict.size_erase_le h.capped
  · simp only [Stores, Debugger.perform, hstep, horder, List.head?_cons, ne_eq, Option.some.injEq]
    by_cases hsame : oldest = snapName host env
    · simp [hsame]
    · rw [AList.lookup_erase_ne (Ne.symm hsame)]
      simp [hsame]

theorem Consistent.rewind_iff (h : Consistent d) (env : Env V) (name : String) :
    Consistent (d.rewind host env name).2.2 ↔
      name ∉ d.checkpoints ∨ d.creationOrder.getLast? = some name := by
  cases hlookup : d.checkpoints.lookup name with
  | none =>
      have hnot : name ∉ d.checkpoints := AList.lookup_eq_none.mp hlookup
      simp [Debugger.rewind, hlookup, hnot, h]
  | some cp =>
      have hmem : name ∈ d.checkpoints := AList.lookup_isSome.mp (by simp [hlookup])
      have hlisted : name ∈ d.creationOrder := (h.mem_iff name).mpr hmem
      simp only [Debugger.rewind, hlookup, hmem, not_true_eq_false, false_or]
      obtain ⟨order, last, horder⟩ : ∃ order last, d.creationOrder = order ++ [last] :=
        ⟨_, _, (List.dropLast_append_getLast (List.ne_nil_of_mem hlisted)).symm⟩
      have hnodup := h.nodup
      rw [horder] at hnodup
      simp only [horder, List.getLast?_append, List.getLast?_singleton, Option.some_or,
        Option.some.injEq]
      constructor
      · -- The last name is stored still, so it is listed still, and nothing is cut off.
        intro h'
        by_contra hne
        have hlast : last ∈ d.checkpoints := by
          apply (h.mem_iff last).mp
          rw [horder]
          exact List.mem_append_right _ List.mem_cons_self
        have hkept := (h'.mem_iff last).mpr hlast
        simp only [Debugger.upTo_concat_of_ne order hne] at hkept
        exact (List.nodup_append.mp hnodup).2.2 _ (Debugger.mem_of_mem_upTo hkept) _
          List.mem_cons_self rfl
      · rintro rfl
        rw [Debugger.upTo_concat_self, ← horder]
        exact h

/-- An operation on a consistent debugger leaves it consistent just if the operation is safe. -/
theorem Consistent.step_iff (h : Consistent d) (op : Op V) :
    Stores host d op ∧ Consistent (d.perform host op).2 ↔ Safe host d op := by
  cases op with
  | snapshot env =>
      by_cases hcap : maxCheckpoints ≤ d.checkpoints.size
      · obtain ⟨hconsistent, hstores⟩ := h.snapshot_full host env hcap
        have hnot : ¬d.checkpoints.size < maxCheckpoints := Nat.not_lt.mpr hcap
        rw [hstores]
        simp only [Safe, hcap, hnot, false_and, true_and, false_or]
        exact and_iff_left hconsistent
      · have hroom : d.checkpoints.size < maxCheckpoints := Nat.not_le.mp hcap
        have hstores := stores_room host env hroom
        have hconsistent := h.snapshot_room host env hroom
        simp only [Safe, hcap, hroom, false_and, true_and, or_false]
        exact (and_iff_right hstores).trans hconsistent
  | rewind env name =>
      have hrewind := h.rewind_iff host env name
      simpa [Stores, Safe, Debugger.perform] using hrewind
  | timeline => simp [Stores, Safe, Debugger.perform, h]

theorem Consistent.keeps_iff (h : Consistent d) (ops : List (Op V)) :
    Keeps host d ops ↔ AllSafe host d ops := by
  induction ops generalizing d with
  | nil => simp [Keeps, AllSafe, h, h.noRaise]
  | cons op ops ih =>
      have hstep := h.step_iff host op
      rw [Keeps, AllSafe, ← hstep]
      constructor
      · rintro ⟨_, hstores, hrest⟩
        have hnext : Consistent (d.perform host op).2 := by
          cases ops with
          | nil => exact hrest.1
          | cons _ _ => exact hrest.1.1
        exact ⟨⟨hstores, hnext⟩, (ih hnext).mp hrest⟩
      · rintro ⟨⟨hstores, hnext⟩, hrest⟩
        exact ⟨⟨h, h.noRaise⟩, hstores, (ih hnext).mpr hrest⟩

theorem consistent_start : Consistent (Debugger.start : Debugger V) where
  nodup := List.nodup_nil
  mem_iff := by simp [Debugger.start]
  capped := by simp [Debugger.start, Dict.size]

end

/-- The debugger keeps its history over a run just if every operation of the run is safe. -/
theorem history_kept_iff {V : Type} (host : Host V) (ops : List (Op V)) :
    Keeps host Debugger.start ops ↔ AllSafe host Debugger.start ops :=
  consistent_start.keeps_iff host ops

/-- A name that is taken twice is listed twice. -/
theorem history_not_kept : ¬∀ (host : Host Unit) ops, Keeps host Debugger.start ops := by
  intro h
  have hkeeps := h ⟨id, fun _ ↦ ""⟩ [.snapshot ⟨∅, some "a"⟩, .snapshot ⟨∅, some "a"⟩]
  have hnodup := hkeeps.2.2.2.2.1.nodup
  revert hnodup
  decide

end NucLlm.Whence.TimeTravel
