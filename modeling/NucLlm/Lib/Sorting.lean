import Mathlib.Data.List.Sort

/-!
# Sorting by a key

A list is sorted by a key of its elements, and elements with equal keys keep their order.  Places in
the sorted list are compared through the keys.
-/

namespace NucLlm.Sorting

variable {α β κ : Type} [LinearOrder κ]

/-- `sorted(l, key=key)`. -/
def sortedBy (key : α → κ) (l : List α) : List α := l.mergeSort fun a b ↦ decide (key a ≤ key b)

theorem sortedBy_perm (key : α → κ) (l : List α) : (sortedBy key l).Perm l :=
  List.mergeSort_perm _ _

theorem sortedBy_pairwise (key : α → κ) (l : List α) :
    (sortedBy key l).Pairwise fun a b ↦ key a ≤ key b := by
  have h := @List.pairwise_mergeSort α (fun a b ↦ decide (key a ≤ key b))
    (fun a b c hab hbc ↦ by
      simp only [decide_eq_true_eq] at *
      exact hab.trans hbc)
    (fun a b ↦ by
      simp only [Bool.or_eq_true, decide_eq_true_eq]
      exact le_total _ _) l
  unfold sortedBy
  simpa using h

theorem sortedBy_of_pairwise {key : α → κ} {l : List α}
    (h : l.Pairwise fun a b ↦ key a ≤ key b) : sortedBy key l = l := by
  unfold sortedBy
  apply List.mergeSort_of_pairwise
  simpa using h

theorem mem_sortedBy (key : α → κ) {l : List α} {a : α} : a ∈ sortedBy key l ↔ a ∈ l :=
  (sortedBy_perm key l).mem_iff

/-- Every place of `x` comes before every place of `y`. -/
def Before (l : List β) (x y : β) : Prop :=
  ∀ i j : ℕ, l[i]? = some x → l[j]? = some y → i < j

variable {μ : Type} [LinearOrder μ] {key : α → κ} {mark : α → μ} {l : List α} {f : α → β} {x y : β}

/-- Where all places of an element have one mark, and the key sorts by the mark first, the order of
the places is the order of the marks. -/
theorem before_sortedBy_iff (hmono : ∀ a b, key a ≤ key b → mark a ≤ mark b) {k k' : μ}
    (hne : k ≠ k') (hx : ∃ a ∈ l, f a = x) (hy : ∃ a ∈ l, f a = y)
    (hkx : ∀ a ∈ l, f a = x → mark a = k) (hky : ∀ a ∈ l, f a = y → mark a = k') :
    Before ((sortedBy key l).map f) x y ↔ k < k' := by
  have hsorted := (sortedBy_pairwise key l).imp (hmono _ _)
  -- the mark of a place
  have hmark (z : β) (kz : μ) (hz : ∀ a ∈ l, f a = z → mark a = kz) (i : ℕ)
      (hi : ((sortedBy key l).map f)[i]? = some z) :
      ∃ h : i < (sortedBy key l).length, mark (sortedBy key l)[i] = kz := by
    obtain ⟨h, hi⟩ := List.getElem?_eq_some_iff.mp hi
    rw [List.length_map] at h
    rw [List.getElem_map] at hi
    exact ⟨h, hz _ ((mem_sortedBy key).mp (List.getElem_mem h)) hi⟩
  constructor
  · intro hbefore
    obtain ⟨a, ha, rfl⟩ := hx
    obtain ⟨b, hb, rfl⟩ := hy
    obtain ⟨i, hi, hia⟩ := List.getElem_of_mem ((mem_sortedBy key).mpr ha)
    obtain ⟨j, hj, hjb⟩ := List.getElem_of_mem ((mem_sortedBy key).mpr hb)
    have hi' : ((sortedBy key l).map f)[i]? = some (f a) := by simp [hi, hia]
    have hj' : ((sortedBy key l).map f)[j]? = some (f b) := by simp [hj, hjb]
    have hlt := hbefore i j hi' hj'
    obtain ⟨_, hki⟩ := hmark _ k hkx i hi'
    obtain ⟨_, hkj⟩ := hmark _ k' hky j hj'
    have hle := List.pairwise_iff_getElem.mp hsorted i j hi hj hlt
    rw [hki, hkj] at hle
    exact lt_of_le_of_ne hle hne
  · intro hlt i j hi hj
    obtain ⟨hi', hki⟩ := hmark x k hkx i hi
    obtain ⟨hj', hkj⟩ := hmark y k' hky j hj
    by_contra hnot
    rcases (not_lt.mp hnot).lt_or_eq with hji | rfl
    · have hle := List.pairwise_iff_getElem.mp hsorted j i hj' hi' hji
      rw [hki, hkj] at hle
      exact absurd hle hlt.not_ge
    · rw [hki] at hkj
      exact hne hkj

end NucLlm.Sorting
