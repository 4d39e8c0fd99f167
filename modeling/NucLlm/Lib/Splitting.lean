import Mathlib.Data.String.Basic
import Mathlib.Algebra.GroupWithZero.Nat

/-!
# Splitting at two characters

`String.splitOn` for a separator of two different characters, on lists of characters:
what the parts are, and that joining them gives the text back.
-/

namespace NucLlm.Splitting

open String

/-- The parts of a text, the first of which goes on from `m`. -/
def splitPairFrom (a b : Char) : List Char → List Char → List (List Char)
  | m, [] => [m]
  | m, [c] => [m ++ [c]]
  | m, c :: d :: cs =>
      if c = a ∧ d = b then m :: splitPairFrom a b [] cs else splitPairFrom a b (m ++ [c]) (d :: cs)

variable {a b : Char}

theorem splitOnAux_end (l m : List Char) (j : Pos.Raw) (acc : List String) :
    splitOnAux (ofList (l ++ m)) (ofList [a, b]) ⟨utf8Len l⟩ ⟨utf8Len l + utf8Len m⟩ j acc =
      acc.reverse ++ [ofList m] := by
  have hend := (atEnd_of_valid (l ++ m) []).mpr rfl
  have hextract := extract_of_valid l m []
  rw [List.append_nil, utf8Len_append] at hend
  rw [List.append_nil] at hextract
  unfold splitOnAux
  rw [if_pos hend, hextract, List.reverse_cons]

theorem get_pair : Pos.Raw.get (ofList [a, b]) 0 = a := get_of_valid [] [a, b]

theorem get_pair_next : Pos.Raw.get (ofList [a, b]) ⟨utf8Len [a]⟩ = b := get_of_valid [a] [b]

theorem next_pair : Pos.Raw.next (ofList [a, b]) 0 = ⟨utf8Len [a]⟩ := by
  have h := next_of_valid [] a [b]
  simpa using h

theorem next_pair_next : Pos.Raw.next (ofList [a, b]) ⟨utf8Len [a]⟩ = ⟨utf8Len [a, b]⟩ := by
  have h := next_of_valid [a] b []
  rwa [show utf8Len [a] + b.utf8Size = utf8Len [a, b] by simp [Nat.add_comm]] at h

theorem splitOnAux_other {c : Char} (h : c ≠ a) (l m r : List Char) (acc : List String) :
    splitOnAux (ofList (l ++ m ++ c :: r)) (ofList [a, b]) ⟨utf8Len l⟩
      ⟨utf8Len l + utf8Len m⟩ 0 acc =
      splitOnAux (ofList (l ++ m ++ c :: r)) (ofList [a, b]) ⟨utf8Len l⟩
        ⟨utf8Len l + utf8Len (m ++ [c])⟩ 0 acc := by
  have hend := (atEnd_of_valid (l ++ m) (c :: r)).not.mpr (List.cons_ne_nil c r)
  have hget := get_of_valid (l ++ m) (c :: r)
  have hnext := next_of_valid (l ++ m) c r
  rw [utf8Len_append] at hend hget hnext
  have hne : (c == a) = false := beq_false_of_ne h
  have hlen : utf8Len l + utf8Len m + c.utf8Size = utf8Len l + utf8Len (m ++ [c]) := by
    simp [Nat.add_assoc]
  rw [hlen] at hnext
  conv_lhs => unfold splitOnAux
  rw [if_neg hend, hget, List.headD_cons, get_pair, hne, if_neg Bool.false_ne_true, ← hnext]
  rfl

/-- After the first character of the separator. -/
theorem splitOnAux_first (l m r : List Char) (acc : List String) :
    splitOnAux (ofList (l ++ m ++ a :: r)) (ofList [a, b]) ⟨utf8Len l⟩
      ⟨utf8Len l + utf8Len m⟩ 0 acc =
      splitOnAux (ofList (l ++ m ++ a :: r)) (ofList [a, b]) ⟨utf8Len l⟩
        ⟨utf8Len l + utf8Len (m ++ [a])⟩ ⟨utf8Len [a]⟩ acc := by
  have hend := (atEnd_of_valid (l ++ m) (a :: r)).not.mpr (List.cons_ne_nil a r)
  have hget := get_of_valid (l ++ m) (a :: r)
  have hnext := next_of_valid (l ++ m) a r
  have hsep := (atEnd_of_valid [a] [b]).not.mpr (List.cons_ne_nil b [])
  rw [utf8Len_append] at hend hget hnext
  have hlen : utf8Len l + utf8Len m + a.utf8Size = utf8Len l + utf8Len (m ++ [a]) := by
    simp [Nat.add_assoc]
  rw [hlen] at hnext
  conv_lhs => unfold splitOnAux
  rw [if_neg hend, hget, List.headD_cons, get_pair, if_pos (beq_self_eq_true a), hnext, next_pair]
  exact if_neg hsep

theorem splitOnAux_second {d : Char} (l m r : List Char) (acc : List String) :
    splitOnAux (ofList (l ++ m ++ a :: d :: r)) (ofList [a, b]) ⟨utf8Len l⟩
        ⟨utf8Len l + utf8Len (m ++ [a])⟩ ⟨utf8Len [a]⟩ acc =
      if d = b then
        splitOnAux (ofList (l ++ m ++ a :: d :: r)) (ofList [a, b]) ⟨utf8Len (l ++ m ++ [a, b])⟩
          ⟨utf8Len (l ++ m ++ [a, b])⟩ 0 (ofList m :: acc)
      else
        splitOnAux (ofList (l ++ m ++ a :: d :: r)) (ofList [a, b]) ⟨utf8Len l⟩
          ⟨utf8Len l + utf8Len (m ++ [a])⟩ 0 acc := by
  have hsplit : l ++ m ++ a :: d :: r = (l ++ m ++ [a]) ++ d :: r := by simp
  have hend := (atEnd_of_valid (l ++ m ++ [a]) (d :: r)).not.mpr (List.cons_ne_nil d r)
  have hget := get_of_valid (l ++ m ++ [a]) (d :: r)
  have hnext := next_of_valid (l ++ m ++ [a]) d r
  have hnext' := next_of_valid (l ++ m) a (d :: r)
  have hsep := (atEnd_of_valid [a, b] []).mpr rfl
  have hextract := extract_of_valid l m (a :: d :: r)
  have hpos : utf8Len (l ++ m ++ [a]) = utf8Len l + utf8Len (m ++ [a]) := by
    simp
  have hpos' : utf8Len l + utf8Len (m ++ [a]) + d.utf8Size = utf8Len (l ++ m ++ [a, d]) := by
    simp [Nat.add_assoc, Nat.add_comm, Nat.add_left_comm]
  have hpos'' : utf8Len (l ++ m) + a.utf8Size = utf8Len l + utf8Len (m ++ [a]) := by
    simp [Nat.add_assoc]
  rw [← hsplit, hpos] at hend hget hnext
  rw [hpos'] at hnext
  rw [hpos''] at hnext'
  rw [List.append_nil] at hsep
  conv_lhs => unfold splitOnAux
  rw [if_neg hend, hget, List.headD_cons, get_pair_next, hnext, next_pair_next]
  by_cases hd : d = b
  · subst hd
    have hback : (⟨utf8Len (l ++ m ++ [a, d])⟩ : Pos.Raw).unoffsetBy ⟨utf8Len [a, d]⟩ =
        ⟨utf8Len l + utf8Len m⟩ := by
      rw [Pos.Raw.unoffsetBy, utf8Len_append, utf8Len_append, Nat.add_sub_cancel]
    rw [if_pos (beq_self_eq_true d), if_pos rfl]
    dsimp only
    rw [if_pos hsep, hback, hextract]
  · have hback : (⟨utf8Len l + utf8Len (m ++ [a])⟩ : Pos.Raw).unoffsetBy ⟨utf8Len [a]⟩ =
        ⟨utf8Len (l ++ m)⟩ := by
      rw [Pos.Raw.unoffsetBy, utf8Len_append, ← Nat.add_assoc, Nat.add_sub_cancel, utf8Len_append]
    rw [if_neg (by simpa using hd), if_neg hd, hback, hnext']

/-- Splitting at two different characters, from the middle of a part. -/
theorem splitOnAux_eq (hab : a ≠ b) (l m r : List Char) (acc : List String) :
    splitOnAux (ofList (l ++ m ++ r)) (ofList [a, b]) ⟨utf8Len l⟩ ⟨utf8Len l + utf8Len m⟩ 0 acc =
      acc.reverse ++ (splitPairFrom a b m r).map ofList := by
  induction m, r using splitPairFrom.induct (a := a) (b := b) generalizing l acc with
  | case1 m =>
      rw [List.append_nil, splitOnAux_end]
      rfl
  | case2 m c =>
      have hsplit : l ++ m ++ [c] = l ++ (m ++ [c]) := List.append_assoc ..
      by_cases hc : c = a
      · subst hc
        rw [splitOnAux_first, hsplit, splitOnAux_end]
        rfl
      · rw [splitOnAux_other hc, hsplit, splitOnAux_end]
        rfl
  | case3 m c d cs h ih =>
      obtain ⟨rfl, rfl⟩ := h
      have hih := ih (l ++ m ++ [c, d]) (ofList m :: acc)
      rw [List.append_nil, utf8Len_nil, Nat.add_zero] at hih
      have hsplit : l ++ m ++ [c, d] ++ cs = l ++ m ++ c :: d :: cs := by simp
      rw [hsplit] at hih
      rw [splitOnAux_first, splitOnAux_second, if_pos rfl, hih, splitPairFrom, if_pos ⟨rfl, rfl⟩]
      simp
  | case4 m c d cs h ih =>
      have hih := ih l acc
      have hsplit : l ++ (m ++ [c]) ++ d :: cs = l ++ m ++ c :: d :: cs := by simp
      rw [hsplit] at hih
      rw [splitPairFrom, if_neg h, ← hih]
      by_cases hc : c = a
      · subst hc
        have hd : d ≠ b := fun hd ↦ h ⟨rfl, hd⟩
        rw [splitOnAux_first, splitOnAux_second, if_neg hd]
      · rw [splitOnAux_other hc]

theorem splitOn_eq (hab : a ≠ b) (cs : List Char) :
    (ofList cs).splitOn (ofList [a, b]) = (splitPairFrom a b [] cs).map ofList := by
  have h := splitOnAux_eq hab [] [] cs []
  unfold splitOn
  rw [if_neg (by simp)]
  simpa using h
theorem splitPairFrom_ne_nil (m cs : List Char) : splitPairFrom a b m cs ≠ [] := by
  induction m, cs using splitPairFrom.induct (a := a) (b := b) with
  | case1 | case2 => simp [splitPairFrom]
  | case3 m c d cs h ih =>
      rw [splitPairFrom, if_pos h]
      exact List.cons_ne_nil _ _
  | case4 m c d cs h ih =>
      rw [splitPairFrom, if_neg h]
      exact ih

/-- The first part ends where the separator first stands. -/
theorem splitPairFrom_append {front : List Char} (h : a ∉ front) (m rest : List Char) :
    splitPairFrom a b m (front ++ a :: b :: rest) = (m ++ front) :: splitPairFrom a b [] rest := by
  induction front generalizing m with
  | nil =>
      rw [List.nil_append, List.append_nil, splitPairFrom, if_pos ⟨rfl, rfl⟩]
  | cons c front ih =>
      have hc : c ≠ a := fun heq ↦ h (heq ▸ List.mem_cons_self)
      have hfront : a ∉ front := fun hmem ↦ h (List.mem_cons_of_mem c hmem)
      obtain ⟨d, tail, htail⟩ : ∃ d tail, front ++ a :: b :: rest = d :: tail := by
        cases front with
        | nil => exact ⟨a, _, rfl⟩
        | cons d front => exact ⟨d, _, rfl⟩
      have hih := ih hfront (m ++ [c])
      rw [htail] at hih
      rw [List.cons_append, htail, splitPairFrom, if_neg (fun heq ↦ hc heq.1), hih]
      simp

/-- Joining the parts gives the text back. -/
theorem intercalate_splitPairFrom (m cs : List Char) :
    [a, b].intercalate (splitPairFrom a b m cs) = m ++ cs := by
  induction m, cs using splitPairFrom.induct (a := a) (b := b) with
  | case1 m => simp [splitPairFrom]
  | case2 m c => simp [splitPairFrom]
  | case3 m c d cs h ih =>
      obtain ⟨rfl, rfl⟩ := h
      have hne : splitPairFrom c d [] cs ≠ [] := splitPairFrom_ne_nil [] cs
      obtain ⟨part, parts, hparts⟩ := List.exists_cons_of_ne_nil hne
      rw [splitPairFrom, if_pos ⟨rfl, rfl⟩, hparts, List.intercalate_cons_cons, ← hparts, ih]
      simp
  | case4 m c d cs h ih =>
      rw [splitPairFrom, if_neg h, ih]
      simp

/-- The parts with a separator each are two characters longer than the text. -/
theorem sum_length_splitPairFrom (m cs : List Char) :
    ((splitPairFrom a b m cs).map fun part ↦ part.length + 2).sum = m.length + cs.length + 2 := by
  induction m, cs using splitPairFrom.induct (a := a) (b := b) with
  | case1 m => simp [splitPairFrom]
  | case2 m c => simp [splitPairFrom]
  | case3 m c d cs h ih =>
      rw [splitPairFrom, if_pos h, List.map_cons, List.sum_cons, ih]
      simp only [List.length_cons, List.length_nil]
      omega
  | case4 m c d cs h ih =>
      rw [splitPairFrom, if_neg h, ih]
      simp only [List.length_append, List.length_cons, List.length_nil]
      omega

end NucLlm.Splitting
