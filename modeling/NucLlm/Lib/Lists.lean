import Mathlib.Data.List.Forall2
import Mathlib.Data.List.Infix
import Mathlib.Data.List.Dedup
import Mathlib.Data.List.ReduceOption

/-!
# Lists

Lists that stand for each other position by position, and list functions of
the host language.
-/

namespace NucLlm.Lists

variable {α β : Type*} {R : α → β → Prop}

/-- An element of a list with one more is the last, or one of the others. -/
theorem concat_eq_split {xs pre post : List α} {a x : α} (h : xs ++ [a] = pre ++ x :: post) :
    (pre = xs ∧ x = a) ∨ ∃ post', xs = pre ++ x :: post' := by
  rcases List.eq_nil_or_concat post with rfl | ⟨post', a', rfl⟩
  · obtain ⟨rfl, heq⟩ := List.append_inj' h rfl
    exact Or.inl ⟨rfl, (List.cons.inj heq).1.symm⟩
  · rw [List.concat_eq_append, ← List.cons_append, ← List.append_assoc] at h
    exact Or.inr ⟨post', (List.append_inj' h rfl).1⟩

/-- At one position both lists end, or they hold related elements. -/
theorem forall₂_getElem? {xs : List α} {ys : List β} (h : List.Forall₂ R xs ys) (k : ℕ) :
    (xs[k]? = none ∧ ys[k]? = none) ∨ ∃ x y, xs[k]? = some x ∧ ys[k]? = some y ∧ R x y := by
  have hlen := h.length_eq
  by_cases hk : k < xs.length
  · have hk' : k < ys.length := hlen ▸ hk
    exact .inr ⟨_, _, List.getElem?_eq_getElem hk, List.getElem?_eq_getElem hk',
      List.forall₂_iff_get.mp h |>.2 k hk hk'⟩
  · exact .inl ⟨List.getElem?_eq_none (by omega), List.getElem?_eq_none (by omega)⟩

theorem forall₂_set {xs : List α} {ys : List β} (h : List.Forall₂ R xs ys) {x : α} {y : β}
    (hxy : R x y) (k : ℕ) : List.Forall₂ R (xs.set k x) (ys.set k y) := by
  induction h generalizing k with
  | nil => exact .nil
  | cons hab htail ih =>
      cases k with
      | zero => exact .cons hxy htail
      | succ k => exact .cons hab (ih k)

theorem forall₂_concat {xs : List α} {ys : List β} (h : List.Forall₂ R xs ys) {x : α} {y : β}
    (hxy : R x y) : List.Forall₂ R (xs ++ [x]) (ys ++ [y]) :=
  List.rel_append h (.cons hxy .nil)

/-- What is held of a list with gaps, where it is related position by position. -/
theorem forall₂_reduceOption {xs : List (Option α)} {ys : List β}
    (h : ∀ k : ℕ, Option.Rel R xs[k]?.join ys[k]?) : List.Forall₂ R xs.reduceOption ys := by
  induction xs generalizing ys with
  | nil =>
      cases ys with
      | nil => exact .nil
      | cons y ys => cases h 0
  | cons x xs ih =>
      cases x with
      | none =>
          cases ys with
          | nil =>
              rw [List.reduceOption_cons_of_none]
              exact ih fun k ↦ h (k + 1)
          | cons y ys => cases h 0
      | some x =>
          cases ys with
          | nil => cases h 0
          | cons y ys =>
              have hxy : R x y := by
                cases h 0
                assumption
              rw [List.reduceOption_cons_of_some]
              exact .cons hxy (ih fun k ↦ h (k + 1))

theorem getElem?_of_begins {xs ys : List α} (h : xs <+: ys) {k : ℕ} {x : α}
    (hx : xs[k]? = some x) : ys[k]? = some x := by
  obtain ⟨rest, rfl⟩ := h
  rw [List.getElem?_append_left (List.getElem?_eq_some_iff.mp hx).1, hx]

/-- `sorted(set(names))`. -/
def sortedSet (names : List String) : List String :=
  names.dedup.mergeSort fun a b ↦ decide (a ≤ b)

theorem drop_length_takeWhile (p : α → Bool) (l : List α) :
    l.drop (l.takeWhile p).length = l.dropWhile p :=
  calc
    l.drop (l.takeWhile p).length
      = (l.takeWhile p ++ l.dropWhile p).drop (l.takeWhile p).length := by
        rw [List.takeWhile_append_dropWhile]
    _ = l.dropWhile p := List.drop_left

/-- A place in a list with one more element is the last one or one of the list. -/
theorem split_concat {xs before behind : List α} {x y : α}
    (h : xs ++ [y] = before ++ x :: behind) :
    (xs = before ∧ x = y ∧ behind = []) ∨
      ∃ behind', xs = before ++ x :: behind' ∧ behind = behind' ++ [y] := by
  rcases List.eq_nil_or_concat behind with rfl | ⟨behind', z, rfl⟩
  · left
    obtain ⟨hxs, hx⟩ := List.append_inj' h rfl
    exact ⟨hxs, (List.cons.inj hx).1.symm, rfl⟩
  · right
    rw [List.concat_eq_append] at h ⊢
    rw [← List.cons_append, ← List.append_assoc] at h
    obtain ⟨hxs, hz⟩ := List.append_inj' h rfl
    exact ⟨behind', hxs, by rw [(List.cons.inj hz).1]⟩

section AddNew

variable [DecidableEq α]

/-- Append what the list does not hold yet. -/
def addNew (known new : List α) : List α :=
  new.foldl (fun out a ↦ if a ∈ out then out else out ++ [a]) known

theorem addNew_append (known new new' : List α) :
    addNew known (new ++ new') = addNew (addNew known new) new' :=
  List.foldl_append ..

theorem mem_addNew {known new : List α} {a : α} : a ∈ addNew known new ↔ a ∈ known ∨ a ∈ new := by
  induction new generalizing known with
  | nil => simp [addNew]
  | cons b new ih =>
      change a ∈ addNew (if b ∈ known then known else known ++ [b]) new ↔ _
      rw [ih]
      by_cases hb : b ∈ known
      · rw [if_pos hb, List.mem_cons]
        constructor
        · tauto
        · rintro (h | rfl | h)
          · exact .inl h
          · exact .inl hb
          · exact .inr h
      · rw [if_neg hb]
        simp [or_assoc]

theorem addNew_of_subset {known new : List α} (h : ∀ a ∈ new, a ∈ known) :
    addNew known new = known := by
  induction new with
  | nil => rfl
  | cons a new ih =>
      change addNew (if a ∈ known then known else known ++ [a]) new = known
      rw [if_pos (h a List.mem_cons_self)]
      exact ih fun b hb ↦ h b (List.mem_cons_of_mem a hb)

theorem addNew_nodup {known new : List α} (h : known.Nodup) : (addNew known new).Nodup := by
  induction new generalizing known with
  | nil => exact h
  | cons a new ih =>
      change (addNew (if a ∈ known then known else known ++ [a]) new).Nodup
      apply ih
      split
      · exact h
      · rename_i ha
        apply List.Nodup.append h (List.nodup_singleton a)
        simpa using ha

theorem addNew_sublist (known new : List α) : (addNew known new).Sublist (known ++ new) := by
  induction new generalizing known with
  | nil => simp [addNew]
  | cons a new ih =>
      change (addNew (if a ∈ known then known else known ++ [a]) new).Sublist _
      split
      · apply (ih known).trans
        exact List.Sublist.append_left (List.sublist_cons_self a new) known
      · have hrest := ih (known ++ [a])
        rwa [List.append_assoc] at hrest

theorem addNew_map [DecidableEq β] {f : α → β} (hf : Function.Injective f)
    (known new : List α) : (addNew known new).map f = addNew (known.map f) (new.map f) := by
  induction new generalizing known with
  | nil => rfl
  | cons a new ih =>
      change (addNew (if a ∈ known then known else known ++ [a]) new).map f =
        addNew (if f a ∈ known.map f then known.map f else known.map f ++ [f a]) (new.map f)
      rw [ih]
      by_cases ha : a ∈ known
      · rw [if_pos ha, if_pos (List.mem_map_of_mem ha)]
      · have hfa : f a ∉ known.map f := by
          rwa [List.mem_map_of_injective hf]
        rw [if_neg ha, if_neg hfa]
        simp

theorem addNew_addNew (known new : List α) : addNew known (addNew [] new) = addNew known new := by
  induction new using List.reverseRecOn with
  | nil => rfl
  | append_singleton new a ih =>
      rw [addNew_append, addNew_append known]
      by_cases ha : a ∈ new
      · have hfresh : a ∈ addNew [] new := mem_addNew.mpr (.inr ha)
        have hknown : a ∈ addNew known new := mem_addNew.mpr (.inr ha)
        have hone : addNew (addNew [] new) [a] = addNew [] new := if_pos hfresh
        have hone' : addNew (addNew known new) [a] = addNew known new := if_pos hknown
        rw [hone, hone', ih]
      · have hfresh : a ∉ addNew [] new := by
          rw [mem_addNew]
          simpa using ha
        have hone : addNew (addNew [] new) [a] = addNew [] new ++ [a] := if_neg hfresh
        rw [hone, addNew_append, ih]

end AddNew

end NucLlm.Lists
