import NucLlm.Lib.Paths
import NucLlm.Whence.Builtins
import NucLlm.Whence.Diverge
import NucLlm.Whence.Why

/-!
# Histories side by side

For each origin of the difference between two histories, the steps that lead to
it from both ends are shown next to each other.  The nodes of a run are one
provenance graph, on which the builtins explain, compare and contrast.
-/

namespace NucLlm.Whence

namespace Provenance

variable {N P : Type} (G : Provenance N P)

/-- The pairs of inputs, whatever the shapes of the steps. -/
def pairs : Ranked (N × N) where
  next := G.inputPairs
  rank p := G.age p.1
  rank_next p q hq := G.age_inputs p.1 q.1 (List.of_mem_zip hq).1

variable {G}

theorem pairs_of_lockstep {p q : N × N} (h : G.lockstep.Reach p q) : G.pairs.Reach p q := by
  induction h with
  | refl => exact .refl
  | tail _ hedge ih =>
      refine ih.tail ?_
      change _ ∈ G.lockstep.next _ at hedge
      unfold lockstep at hedge
      dsimp only at hedge
      split at hedge
      · exact hedge
      · contradiction

theorem history_of_pairs {p q : N × N} (h : G.pairs.Reach p q) :
    G.history.Reach p.1 q.1 ∧ G.history.Reach p.2 q.2 := by
  induction h with
  | refl => exact ⟨.refl, .refl⟩
  | tail _ hedge ih =>
      obtain ⟨hleft, hright⟩ := List.of_mem_zip hedge
      exact ⟨ih.1.tail hleft, ih.2.tail hright⟩

variable [DecidableEq N] [DecidableEq P]

theorem diverge_reach {F : FloatOps} {a b : N} {o : N × N × Difference}
    (h : o ∈ G.diverge F a b) : G.lockstep.Reach (a, b) (pairOf o) :=
  (mem_diverge_pairs.mp (List.mem_map_of_mem h)).1

variable (G) in
/-- `_pair_path`. -/
def pairPath (root target : N × N) : Option (List (N × N)) := G.pairs.pathTo root target

/-- From the ends of the histories a path of pairs leads to each origin. -/
theorem pairPath_origin {F : FloatOps} {a b : N} {o : N × N × Difference}
    (h : o ∈ G.diverge F a b) :
    ∃ path, G.pairPath (a, b) (pairOf o) = some path ∧ G.pairs.Path (a, b) (pairOf o) path :=
  Ranked.pathTo_path (pairs_of_lockstep (diverge_reach h))

end Provenance

/-! ## The graph of a run -/

mutual

/-- How deep the values in a payload nest. -/
def Payload.levels : Payload → ℕ
  | .list items => levelsItems items + 1
  | .record fields => levelsFields fields + 1
  | .guess node _ _ => node.levels + 1
  | _ => 0
termination_by structural p => p

def Node.levels : Node → ℕ
  | .mk _ _ _ _ _ _ value => value.levels
termination_by structural v => v

def levelsItems : List Node → ℕ
  | [] => 0
  | v :: vs => max v.levels (levelsItems vs)
termination_by structural vs => vs

def levelsFields : List (String × Node) → ℕ
  | [] => 0
  | (_, v) :: fields => max v.levels (levelsFields fields)
termination_by structural fields => fields

end

theorem levels_item {v : Node} {items : List Node} (h : v ∈ items) :
    v.levels ≤ levelsItems items := by
  induction items with
  | nil => contradiction
  | cons w items ih =>
      rw [levelsItems]
      rcases List.mem_cons.mp h with rfl | h
      · exact Nat.le_max_left _ _
      · exact (ih h).trans (Nat.le_max_right _ _)

theorem levels_field {v : Node} {fields : List (String × Node)} (h : v ∈ fields.map Prod.snd) :
    v.levels ≤ levelsFields fields := by
  induction fields with
  | nil => contradiction
  | cons f fields ih =>
      obtain ⟨key, w⟩ := f
      rw [levelsFields]
      rcases List.mem_cons.mp h with rfl | h
      · exact Nat.le_max_left _ _
      · exact (ih h).trans (Nat.le_max_right _ _)

theorem Node.levels_eq (v : Node) : v.levels = v.value.levels := by
  cases v
  rfl

namespace Fields

theorem key_of_put {key k : String} {v : Node} {fields : List (String × Node)}
    (h : k ∈ (put key v fields).map Prod.fst) : k = key ∨ k ∈ fields.map Prod.fst := by
  induction fields with
  | nil => exact .inl (List.mem_singleton.mp h)
  | cons f fields ih =>
      unfold put at h
      split at h
      · exact (List.mem_cons.mp h).imp_right (List.mem_cons_of_mem f.1)
      split at h
      · exact List.mem_cons.mp h
      · rcases List.mem_cons.mp h with rfl | h
        · exact .inr List.mem_cons_self
        · exact (ih h).imp_right (List.mem_cons_of_mem f.1)

theorem put_ordered {fields : List (String × Node)}
    (h : (fields.map Prod.fst).Pairwise (· < ·)) (key : String) (v : Node) :
    ((put key v fields).map Prod.fst).Pairwise (· < ·) := by
  induction fields with
  | nil => exact List.pairwise_singleton _ _
  | cons f fields ih =>
      rw [List.map_cons, List.pairwise_cons] at h
      unfold put
      split
      · rename_i hkey
        rw [List.map_cons, List.pairwise_cons, hkey]
        exact h
      split
      · rename_i hlt
        rw [List.map_cons, List.map_cons, List.pairwise_cons, List.pairwise_cons]
        exact ⟨List.forall_mem_cons.mpr ⟨hlt, fun k hk ↦ hlt.trans (h.1 k hk)⟩, h⟩
      · rename_i hne hge
        rw [List.map_cons, List.pairwise_cons]
        refine ⟨fun k hk ↦ ?_, ih h.2⟩
        rcases key_of_put hk with rfl | hk
        · exact lt_of_le_of_ne (not_lt.mp hge) (Ne.symm hne)
        · exact h.1 k hk

theorem ofDict_ordered (pairs : List (String × Node)) :
    ((ofDict pairs).map Prod.fst).Pairwise (· < ·) := by
  have hmerge : ∀ known : List (String × Node), (known.map Prod.fst).Pairwise (· < ·) →
      ((merge known pairs).map Prod.fst).Pairwise (· < ·) := by
    induction pairs with
    | nil => exact fun known h ↦ h
    | cons f pairs ih => exact fun known h ↦ ih _ (put_ordered h f.1 f.2)
  exact hmerge [] List.Pairwise.nil

end Fields

def Payload.cell : Payload → Cell Node
  | .bool b => .bool b
  | .num n => .num n
  | .str s => .str s
  | .list items => .list items
  | .record fields => .record (Fields.ofDict fields)
  | .miss reasons => .miss reasons
  | .guess node confidence sources => .guess node confidence sources
  | .closure (.mk _ name _ _ _) => .closure name
  | .builtin name => .builtin name
  | .explanation root => .explanation root

theorem levels_elements {p : Payload} {m : Node} (h : m ∈ p.cell.elements) :
    m.value.levels < p.levels := by
  rw [← Node.levels_eq]
  cases p with
  | list items =>
      rw [Payload.levels]
      exact Nat.lt_succ_of_le (levels_item h)
  | record fields =>
      rw [Payload.levels]
      exact Nat.lt_succ_of_le (levels_field (Fields.mem_ofDict h))
  | guess node confidence sources =>
      obtain rfl := List.mem_singleton.mp h
      rw [Payload.levels]
      exact Nat.lt_succ_self _
  | closure c => cases c; contradiction
  | bool | num | str | miss | builtin | explanation => contradiction

/-- The nodes and payloads of a run; each is the same object as its equals. -/
def nodeGraph : Provenance Node Payload where
  id := Node.id
  op := Node.op
  detail := Node.detail
  line := Node.line
  count := Node.count
  inputs := Node.inputs
  value := Node.value
  cell := Payload.cell
  age := Node.height
  age_inputs _ _ h := Node.height_input h
  size := Payload.levels
  size_elements _ _ h := levels_elements h
  fields_ordered p fields h := by
    cases p with
    | record found =>
        obtain rfl := Cell.record.inj h
        exact Fields.ofDict_ordered found
    | closure c => cases c; contradiction
    | bool | num | str | list | miss | guess | builtin | explanation => contradiction

/-! ## The renderings -/

namespace Contrast

/-- `str.ljust`. -/
def ljust (width : ℕ) (s : String) : String := s ++ "".pushn ' ' (width - s.length)

/-- One column: the steps of a path, each deeper than the one before, and the last one marked. -/
def column (F : FloatOps) (steps : List Node) : List String :=
  steps.mapIdx fun j v ↦
    "".pushn ' ' (2 * j) ++ (if j + 1 = steps.length then "▶ " else "  ") ++ WhyLine.stepText F v

/-- The block of the `k`th origin of `total`. -/
def block (F : FloatOps) (ra rb : Node) (total k : ℕ) (o : Node × Node × Provenance.Difference) :
    String :=
  let target := Provenance.pairOf o
  let path := (nodeGraph.pairPath (ra, rb) target).getD [target]
  let left := column F (path.map Prod.fst)
  let right := column F (path.map Prod.snd)
  let width := (left.map String.length).foldl max 0
  "\n".intercalate (s!"origin {k + 1} of {total} ({Builtin.differenceText o.2.2}):" ::
    (left.zip right).map fun l ↦ s!"{ljust width l.1} │ {l.2}")

end Contrast

/-- `render_contrast`. -/
def renderContrast (F : FloatOps) (ra rb : Node) : String :=
  match nodeGraph.diverge F ra rb with
  | [] => Builtin.noDivergence
  | origins => "\n".intercalate (origins.mapIdx (Contrast.block F ra rb origins.length))

/-- What the builtins make of the histories of a run. -/
def ownHistories (F : FloatOps) : Histories where
  explain := renderWhy F 10 200
  contrast := renderContrast F
  diverge := nodeGraph.diverge F
  diverge_steps _ _ _ h := Provenance.history_of_pairs (G := nodeGraph)
    (Provenance.pairs_of_lockstep (Provenance.diverge_reach h))

/-- Two histories are contrasted just if they diverge, and each block shows a path of pairs
that ends with its origin. -/
theorem contrast_blocks (F : FloatOps) (ra rb : Node) :
    ((ownHistories F).diverge ra rb = [] ↔ nodeGraph.same F (ra, rb) = true) ∧
    ∀ o ∈ (ownHistories F).diverge ra rb, ∃ path,
      nodeGraph.pairPath (ra, rb) (Provenance.pairOf o) = some path ∧
        nodeGraph.pairs.Path (ra, rb) (Provenance.pairOf o) path :=
  ⟨Provenance.diverge_eq_nil, fun _ h ↦ Provenance.pairPath_origin h⟩

end NucLlm.Whence
