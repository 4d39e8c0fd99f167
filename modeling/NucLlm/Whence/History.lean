import NucLlm.Lib.Walk
import NucLlm.Whence.Value

/-!
# Histories

The history of a value is the graph of nodes below it.  `steps` and `blame`
walk it, and `at` searches it for the nearest step of a name.
-/

namespace NucLlm.Whence

mutual

/-- The length of the longest path through inputs. -/
def Node.height : Node → ℕ
  | .mk _ _ _ _ inputs _ _ => heights inputs + 1
termination_by structural v => v

def heights : List Node → ℕ
  | [] => 0
  | v :: vs => max v.height (heights vs)
termination_by structural vs => vs

end

theorem height_le_heights {v : Node} {vs : List Node} (h : v ∈ vs) : v.height ≤ heights vs := by
  induction vs with
  | nil => contradiction
  | cons w vs ih =>
      rw [heights]
      rcases List.mem_cons.mp h with rfl | h
      · exact Nat.le_max_left _ _
      · exact (ih h).trans (Nat.le_max_right _ _)

theorem Node.height_eq (v : Node) : v.height = heights v.inputs + 1 := by
  cases v
  rw [Node.height]
  rfl

theorem Node.height_input {v m : Node} (h : m ∈ v.inputs) : m.height < v.height := by
  have hle : m.height ≤ heights v.inputs := height_le_heights h
  rw [Node.height_eq v]
  omega

/-- The nodes with their inputs. -/
def history : Ranked Node := ⟨Node.inputs, Node.height, fun _ _ h ↦ Node.height_input h⟩

/-- `walk_steps`: the steps, root first, with their depths. -/
def walkSteps (root : Node) : List (Node × ℕ) := history.walk root

/-- `is_origin_miss`. -/
def isOriginMiss (v : Node) : Bool := v.isMiss && !v.inputs.any Node.isMiss

/-- `matches_step`. -/
def matchesStep (pattern : String) (v : Node) : Bool :=
  pattern = v.label || pattern = v.op || pattern = v.detail ||
    (decide (1 < v.count) && v.op = "call" && v.detail.toList.contains '/' &&
      (let members := (v.detail.toList.splitOn '/').map String.ofList
      members.contains pattern ||
        (members.contains (String.ofList (pattern.toList.drop 5)) &&
          "call ".toList.isPrefixOf pattern.toList)))

/-- `find_step`. -/
def findStep (root : Node) (pattern : String) : Option Node :=
  history.search (matchesStep pattern) root

/-- `_history_root`. -/
def historyRoot (v : Node) : Node :=
  match v.value with
  | .explanation root => root
  | _ => v

theorem reach_findStep {root v : Node} {pattern : String} (h : findStep root pattern = some v) :
    history.Reach root v :=
  (history.searched (matchesStep pattern) root).reach v h

end NucLlm.Whence
