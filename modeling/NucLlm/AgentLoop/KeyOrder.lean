import NucLlm.AgentLoop.Message
import Mathlib.Data.List.Sort
import Mathlib.Data.String.Basic

/-!
# Objects in key order

A checkpoint is written with the keys of every object sorted, the arguments of
a call and the provider's own blocks included.  What is stored under a key and
what a message costs is the same before and after.
-/

namespace NucLlm.AgentLoop

def KeyLe (f g : String × Json) : Prop := f.1 ≤ g.1

instance : DecidableRel KeyLe := fun f g ↦ inferInstanceAs (Decidable (f.1 ≤ g.1))

mutual

/-- What `json.loads` makes of `json.dumps(x, sort_keys=True)`. -/
def Json.sortKeys : Json → Json
  | .null => .null
  | .bool b => .bool b
  | .num text => .num text
  | .str s => .str s
  | .arr xs => .arr (sortItems xs)
  | .obj fields => .obj ((sortValues fields).insertionSort KeyLe)

def sortItems : List Json → List Json
  | [] => []
  | x :: xs => x.sortKeys :: sortItems xs

def sortValues : List (String × Json) → List (String × Json)
  | [] => []
  | (key, x) :: fields => (key, x.sortKeys) :: sortValues fields

end

mutual

/-- Every object in the value has its keys in order. -/
def Json.keysSorted : Json → Bool
  | .arr xs => itemsSorted xs
  | .obj fields => decide (fields.Pairwise KeyLe) && valuesSorted fields
  | _ => true

def itemsSorted : List Json → Bool
  | [] => true
  | x :: xs => x.keysSorted && itemsSorted xs

def valuesSorted : List (String × Json) → Bool
  | [] => true
  | (_, x) :: fields => x.keysSorted && valuesSorted fields

end

/-! ## Sorting what is sorted -/

mutual

theorem Json.sortKeys_eq : ∀ {x : Json}, x.keysSorted = true → x.sortKeys = x
  | .null, _ => rfl
  | .bool _, _ => rfl
  | .num _, _ => rfl
  | .str _, _ => rfl
  | .arr xs, h => by
      unfold Json.keysSorted at h
      rw [Json.sortKeys, sortItems_eq h]
  | .obj fields, h => by
      unfold Json.keysSorted at h
      obtain ⟨hpairwise, hvalues⟩ := Bool.and_eq_true_iff.mp h
      rw [Json.sortKeys, sortValues_eq hvalues, (of_decide_eq_true hpairwise).insertionSort_eq]

theorem sortItems_eq : ∀ {xs : List Json}, itemsSorted xs = true → sortItems xs = xs
  | [], _ => rfl
  | x :: xs, h => by
      unfold itemsSorted at h
      obtain ⟨hx, hxs⟩ := Bool.and_eq_true_iff.mp h
      rw [sortItems, x.sortKeys_eq hx, sortItems_eq hxs]

theorem sortValues_eq :
    ∀ {fields : List (String × Json)}, valuesSorted fields = true → sortValues fields = fields
  | [], _ => rfl
  | (key, x) :: fields, h => by
      unfold valuesSorted at h
      obtain ⟨hx, hfields⟩ := Bool.and_eq_true_iff.mp h
      rw [sortValues, x.sortKeys_eq hx, sortValues_eq hfields]

end

/-! ## What sorting keeps -/

theorem lookup_orderedInsert (key : String) (f : String × Json) (fields : List (String × Json)) :
    (fields.orderedInsert KeyLe f).lookup key = (f :: fields).lookup key := by
  induction fields with
  | nil => rfl
  | cons g fields ih =>
      rw [List.orderedInsert_cons]
      split
      · rfl
      · rename_i hle
        have hne : f.1 ≠ g.1 := fun heq ↦ hle (le_of_eq heq)
        rw [List.lookup_cons, ih, List.lookup_cons, List.lookup_cons, List.lookup_cons]
        by_cases hkey : key = f.1
        · have hg : (key == g.1) = false := beq_eq_false_iff_ne.mpr (hkey ▸ hne)
          rw [hg]
        · have hf : (key == f.1) = false := beq_eq_false_iff_ne.mpr hkey
          rw [hf]

/-- The values stay under their keys. -/
theorem lookup_sortKeys (key : String) (fields : List (String × Json)) :
    ((sortValues fields).insertionSort KeyLe).lookup key =
      (fields.lookup key).map Json.sortKeys := by
  induction fields with
  | nil => rfl
  | cons f fields ih =>
      obtain ⟨k, x⟩ := f
      rw [sortValues, List.insertionSort_cons, lookup_orderedInsert, List.lookup_cons,
        List.lookup_cons, ih]
      split
      · rfl
      · rfl

theorem fieldsLen_eq (fields : List (String × Json)) :
    fieldsLen fields = (fields.map fun f ↦ strLen f.1 + 2 + f.2.dumpsLen).sum := by
  induction fields with
  | nil => rfl
  | cons f fields ih => rw [fieldsLen, ih, List.map_cons, List.sum_cons]

theorem fieldsLen_perm {fields fields' : List (String × Json)} (h : fields.Perm fields') :
    fieldsLen fields = fieldsLen fields' := by
  rw [fieldsLen_eq, fieldsLen_eq]
  exact (h.map _).sum_nat

theorem length_sortItems (xs : List Json) : (sortItems xs).length = xs.length := by
  induction xs with
  | nil => rfl
  | cons x xs ih => exact congrArg Nat.succ ih

theorem length_sortValues (fields : List (String × Json)) :
    (sortValues fields).length = fields.length := by
  induction fields with
  | nil => rfl
  | cons f fields ih => exact congrArg Nat.succ ih

mutual

theorem Json.dumpsLen_sortKeys : ∀ x : Json, x.sortKeys.dumpsLen = x.dumpsLen
  | .null => rfl
  | .bool _ => rfl
  | .num _ => rfl
  | .str _ => rfl
  | .arr xs => by
      rw [Json.sortKeys, Json.dumpsLen, Json.dumpsLen, itemsLen_sortItems xs, length_sortItems]
  | .obj fields => by
      have hperm := (sortValues fields).perm_insertionSort KeyLe
      rw [Json.sortKeys, Json.dumpsLen, Json.dumpsLen, fieldsLen_perm hperm, hperm.length_eq,
        fieldsLen_sortValues fields, length_sortValues]

theorem itemsLen_sortItems : ∀ xs : List Json, itemsLen (sortItems xs) = itemsLen xs
  | [] => rfl
  | x :: xs => by
      rw [sortItems, itemsLen, itemsLen, x.dumpsLen_sortKeys, itemsLen_sortItems xs]

theorem fieldsLen_sortValues :
    ∀ fields : List (String × Json), fieldsLen (sortValues fields) = fieldsLen fields
  | [] => rfl
  | (key, x) :: fields => by
      rw [sortValues, fieldsLen, fieldsLen, x.dumpsLen_sortKeys, fieldsLen_sortValues fields]

end

/-! ## Messages -/

def ToolCall.sortKeys (c : ToolCall) : ToolCall :=
  { c with args := (sortValues c.args).insertionSort KeyLe }

def Message.sortKeys : Message → Message
  | .assistant content toolCalls rawContent =>
      .assistant content (toolCalls.map ToolCall.sortKeys) (rawContent.map sortItems)
  | m => m

/-- The arguments of the calls and the provider's blocks have their keys in order. -/
def Message.keysSorted : Message → Bool
  | .assistant _ toolCalls rawContent =>
      toolCalls.all (fun c ↦ (Json.obj c.args).keysSorted) && rawContent.all itemsSorted
  | _ => true

theorem Message.sortKeys_eq {m : Message} (h : m.keysSorted = true) : m.sortKeys = m := by
  cases m with
  | assistant content toolCalls rawContent =>
      obtain ⟨hcalls, hraw⟩ := Bool.and_eq_true_iff.mp h
      have hcalls : toolCalls.map ToolCall.sortKeys = toolCalls := by
        refine (List.map_congr_left fun c hc ↦ ?_).trans (List.map_id _)
        have hargs := Json.sortKeys_eq (List.all_eq_true.mp hcalls c hc)
        unfold ToolCall.sortKeys
        rw [Json.obj.inj hargs]
        rfl
      have hraw : rawContent.map sortItems = rawContent := by
        cases rawContent with
        | none => rfl
        | some blocks => exact congrArg some (sortItems_eq hraw)
      unfold Message.sortKeys
      dsimp only
      rw [hcalls, hraw]
  | system | user | tool => rfl

/-- The cost of a message is that of its dump with sorted keys. -/
theorem Message.chars_sortKeys (m : Message) : m.sortKeys.chars = m.chars := by
  cases m with
  | assistant content toolCalls rawContent =>
      have hcalls : (toolCalls.map ToolCall.sortKeys).map
          (fun c ↦ c.name.length + (Json.obj c.args).dumpsLen + 8) =
          toolCalls.map fun c ↦ c.name.length + (Json.obj c.args).dumpsLen + 8 := by
        rw [List.map_map]
        refine List.map_congr_left fun c _ ↦ ?_
        have hargs := Json.dumpsLen_sortKeys (.obj c.args)
        rw [Json.sortKeys] at hargs
        change c.name.length + (Json.obj c.sortKeys.args).dumpsLen + 8 = _
        rw [ToolCall.sortKeys, hargs]
      have hrebuilt : content.length + 8 + ((toolCalls.map ToolCall.sortKeys).map
          (fun c ↦ c.name.length + (Json.obj c.args).dumpsLen + 8)).sum =
          content.length + 8 +
            (toolCalls.map fun c ↦ c.name.length + (Json.obj c.args).dumpsLen + 8).sum := by
        rw [hcalls]
      cases rawContent with
      | none => exact hrebuilt
      | some blocks =>
          cases blocks with
          | nil => exact hrebuilt
          | cons b bs =>
              have hitems := itemsLen_sortItems (b :: bs)
              exact congrArg (· + 8) hitems
  | system | user | tool => rfl

namespace Entry

def sortKeys (e : Entry) : Entry := { e with msg := e.msg.sortKeys }

@[simp] theorem callKeys_sortKeys (e : Entry) : e.sortKeys.callKeys = e.callKeys := by
  obtain ⟨msg, _⟩ := e
  cases msg with
  | assistant content toolCalls rawContent => exact List.map_map ..
  | system | user | tool => rfl

@[simp] theorem answers_sortKeys (e : Entry) : e.sortKeys.answers = e.answers := by
  obtain ⟨msg, _⟩ := e
  cases msg with
  | assistant | system | user | tool => rfl

theorem sortKeys_eq {e : Entry} (h : e.msg.keysSorted = true) : e.sortKeys = e := by
  unfold sortKeys
  rw [e.msg.sortKeys_eq h]

theorem msgChars_sortKeys (e : Entry) : e.sortKeys.msgChars = e.msgChars := by
  unfold msgChars sortKeys
  dsimp only
  rw [e.msg.chars_sortKeys]

end Entry

theorem wellPaired_sortKeys {messages : List Entry} (h : WellPaired messages) :
    WellPaired (messages.map Entry.sortKeys) :=
  h.map Entry.callKeys_sortKeys Entry.answers_sortKeys

end NucLlm.AgentLoop
