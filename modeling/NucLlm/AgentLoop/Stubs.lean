import NucLlm.AgentLoop.Context
import NucLlm.Lib.Splitting
import Mathlib.Algebra.Order.BigOperators.Group.List

/-!
# What stubs cost

The stub of an observation, and the stub of dropped steps.  Two drop stubs that are merged
name no more tools than they named before, so the merged one costs less than the two.
-/

namespace NucLlm.AgentLoop

open Splitting

/-! ## Names -/

/-- What names cost where they are listed. -/
def namesCost (names : List String) : ℕ := (names.map fun name ↦ name.length + 2).sum

theorem namesCost_append (names names' : List String) :
    namesCost (names ++ names') = namesCost names + namesCost names' := by
  simp [namesCost]

theorem namesCost_map_ofList (parts : List (List Char)) :
    namesCost (parts.map String.ofList) = (parts.map fun part ↦ part.length + 2).sum := by
  simp [namesCost, Function.comp_def]

theorem namesCost_le_of_sublist {names names' : List String} (h : names.Sublist names') :
    namesCost names ≤ namesCost names' := by
  exact (h.map _).sum_le_sum fun _ _ ↦ Nat.zero_le _

theorem namesCost_sortedSet_le (names : List String) :
    namesCost (Lists.sortedSet names) ≤ namesCost names := by
  have hperm : (Lists.sortedSet names).Perm names.dedup := List.mergeSort_perm _ _
  calc namesCost (Lists.sortedSet names)
      = namesCost names.dedup := (hperm.map _).sum_eq
    _ ≤ namesCost names := namesCost_le_of_sublist (List.dedup_sublist names)

theorem intercalate_length_le {names : List String} (h : names ≠ []) :
    (", ".intercalate names).length + 2 ≤ namesCost names := by
  rw [← String.length_toList, String.toList_intercalate]
  obtain ⟨name, names, rfl⟩ := List.exists_cons_of_ne_nil h
  clear h
  induction names generalizing name with
  | nil => simp [namesCost, String.length_toList]
  | cons name' names ih =>
      have hrest := ih name'
      rw [List.map_cons, List.map_cons, List.intercalate_cons_cons, ← List.map_cons]
      simp only [List.length_append]
      simp only [namesCost, List.map_cons, List.sum_cons] at hrest ⊢
      have hname := String.length_toList (s := name)
      have hsep : (", ".toList).length = 2 := rfl
      omega

/-! ## Drop stubs -/

/-- What a drop stub says behind its colon. -/
def stubNames (tools : List String) : String :=
  if tools.isEmpty then "no tools" else ", ".intercalate (Lists.sortedSet tools)

/-- What stands in front of the colon. -/
def stubHead (n : ℕ) : List Char :=
  '[' :: n.repr.toList ++ " earlier step(s) dropped to save context".toList

theorem dropStub_eq (n : ℕ) (tools : List String) :
    dropStub n tools = ⟨.user (String.ofList
      (stubHead n ++ ':' :: ' ' :: ((stubNames tools).toList ++ [']']))) (some n), none⟩ := by
  unfold dropStub
  dsimp only
  refine congrArg (fun text ↦ (⟨.user text (some n), none⟩ : Entry)) ?_
  rw [← String.toList_inj]
  unfold stubHead stubNames
  simp [toString]

theorem colon_notMem_stubHead (n : ℕ) : ':' ∉ stubHead n := by
  have hdigits : ':' ∉ Nat.toDigits 10 n := by
    intro hmem
    exact absurd (Nat.isDigit_of_mem_toDigits (by decide) (by decide) hmem) (by decide)
  simp [stubHead, hdigits]

theorem length_stubHead (n : ℕ) : (stubHead n).length = n.repr.length + 41 := by
  simp [stubHead, ← String.length_toList]

theorem length_repr_add_le (m n : ℕ) :
    (m + n).repr.length ≤ m.repr.length + n.repr.length := by
  have hm := (Nat.length_repr_le_iff Nat.length_repr_pos).mp (le_refl m.repr.length)
  have hn := (Nat.length_repr_le_iff Nat.length_repr_pos).mp (le_refl n.repr.length)
  have hpos := Nat.length_repr_pos (n := m)
  have hpos' := Nat.length_repr_pos (n := n)
  rw [Nat.length_repr_le_iff (by omega), pow_add]
  have hten : 10 ≤ 10 ^ m.repr.length := Nat.le_self_pow (by omega) 10
  have hten' : 10 ≤ 10 ^ n.repr.length := Nat.le_self_pow (by omega) 10
  nlinarith

theorem length_rstripBracket_concat (cs : List Char) :
    (rstripBracket (String.ofList (cs ++ [']']))).toList.length ≤ cs.length := by
  unfold rstripBracket
  rw [String.toList_ofList, String.toList_ofList, List.reverse_append, List.reverse_singleton,
    List.singleton_append, List.dropWhile_cons_of_pos (by decide), List.length_reverse]
  exact (List.dropWhile_suffix _).length_le.trans (List.length_reverse).le

/-- The names that are read off a stub are those it lists, at most. -/
theorem namesCost_stubTools_le (n : ℕ) (tools : List String) :
    namesCost (stubTools (dropStub n tools).msg.content) ≤ (stubNames tools).length + 2 := by
  have hsep : ": " = String.ofList [':', ' '] := rfl
  have hsep' : ", " = String.ofList [',', ' '] := rfl
  rw [dropStub_eq]
  unfold stubTools
  simp only [Message.content]
  rw [hsep, splitOn_eq (by decide), splitPairFrom_append (colon_notMem_stubHead n)]
  have hjoin := intercalate_splitPairFrom (a := ':') (b := ' ') []
    ((stubNames tools).toList ++ [']'])
  obtain ⟨part, parts, hparts⟩ := List.exists_cons_of_ne_nil (splitPairFrom_ne_nil (a := ':')
    (b := ' ') [] ((stubNames tools).toList ++ [']']))
  rw [hparts] at hjoin ⊢
  simp only [List.map_cons]
  have htext : (String.ofList [':', ' ']).intercalate
      (String.ofList part :: parts.map String.ofList) =
        String.ofList ((stubNames tools).toList ++ [']']) := by
    rw [← String.toList_inj, String.toList_intercalate, String.toList_ofList, String.toList_ofList,
      ← List.map_cons, List.map_map]
    simpa [Function.comp_def] using hjoin
  rw [htext, hsep']
  have hinner := length_rstripBracket_concat (stubNames tools).toList
  generalize rstripBracket (String.ofList ((stubNames tools).toList ++ [']'])) = inner at hinner ⊢
  rw [← String.ofList_toList (s := inner), splitOn_eq (by decide)]
  refine (namesCost_le_of_sublist List.filter_sublist).trans ?_
  rw [namesCost_map_ofList, sum_length_splitPairFrom]
  rw [String.length_toList, String.length_toList] at hinner
  simp only [List.length_nil, String.length_toList]
  omega

theorem chars_dropStub (n : ℕ) (tools : List String) :
    (dropStub n tools).msg.chars = n.repr.length + (stubNames tools).length + 52 := by
  rw [dropStub_eq]
  simp only [Message.chars, Message.rawContent, Message.content, Message.toolCalls, List.map_nil,
    List.sum_nil, String.length_ofList, List.length_append, List.length_cons, List.length_nil,
    length_stubHead, String.length_toList]
  omega

theorem length_stubNames_le (names : List String) :
    (stubNames (Lists.sortedSet names)).length ≤ max 8 (namesCost names) := by
  unfold stubNames
  split
  · exact Nat.le_max_left 8 _
  · rename_i hempty
    have hne : Lists.sortedSet (Lists.sortedSet names) ≠ [] := by
      intro hnil
      have hperm : (Lists.sortedSet (Lists.sortedSet names)).Perm (Lists.sortedSet names).dedup :=
        List.mergeSort_perm _ _
      rw [hnil] at hperm
      have hdedup := (List.dedup_eq_nil _).mp hperm.nil_eq.symm
      simp [hdedup] at hempty
    have hlength := intercalate_length_le hne
    have hcost := namesCost_sortedSet_le (Lists.sortedSet names)
    have hcost' := namesCost_sortedSet_le names
    omega

/-- A drop stub of what two drop stubs name costs no more than they do. -/
theorem chars_merged_le (m n : ℕ) (tools tools' : List String) :
    (dropStub (m + n) (Lists.sortedSet (stubTools (dropStub m tools).msg.content ++
      stubTools (dropStub n tools').msg.content))).msg.chars ≤
        (dropStub m tools).msg.chars + (dropStub n tools').msg.chars := by
  have hm := namesCost_stubTools_le m tools
  have hn := namesCost_stubTools_le n tools'
  have hdigits := length_repr_add_le m n
  have hnames := length_stubNames_le (stubTools (dropStub m tools).msg.content ++
    stubTools (dropStub n tools').msg.content)
  rw [namesCost_append] at hnames
  rw [chars_dropStub, chars_dropStub, chars_dropStub]
  omega

end NucLlm.AgentLoop
