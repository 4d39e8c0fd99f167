import Mathlib.Data.List.Basic

/-!
# Records at addresses

A store of records which others refer to by their addresses.  Records are added
at the end and updated in place; what is read through other addresses stays.
-/

namespace NucLlm.Arena

variable {α : Type}

/-- The records at some addresses. -/
def read (store : List α) (refs : List ℕ) : List α := refs.filterMap (store[·]?)

/-- Update the records at some addresses, one after the other. -/
def updateAll (f : α → α) (store : List α) (refs : List ℕ) : List α :=
  refs.foldl (fun store i ↦ store.modify i f) store

@[simp] theorem read_nil (store : List α) : read store [] = [] := rfl

theorem read_append (store : List α) (refs refs' : List ℕ) :
    read store (refs ++ refs') = read store refs ++ read store refs' := by
  unfold read
  rw [List.filterMap_append]

theorem read_congr {store store' : List α} {refs : List ℕ}
    (h : ∀ i ∈ refs, store[i]? = store'[i]?) : read store refs = read store' refs := by
  unfold read
  exact List.filterMap_congr h

theorem length_read {store : List α} {refs : List ℕ} (h : ∀ i ∈ refs, i < store.length) :
    (read store refs).length = refs.length := by
  induction refs with
  | nil => rfl
  | cons i refs ih =>
      obtain ⟨hi, hrefs⟩ := List.forall_mem_cons.mp h
      have hread : read store (i :: refs) = store[i] :: read store refs := by
        unfold read
        rw [List.filterMap_cons, List.getElem?_eq_getElem hi]
      rw [hread, List.length_cons, List.length_cons, ih hrefs]

/-- Records that are added do not show through old addresses. -/
theorem read_grown {store : List α} {refs : List ℕ} (h : ∀ i ∈ refs, i < store.length)
    (new : List α) : read (store ++ new) refs = read store refs :=
  read_congr fun i hi ↦ List.getElem?_append_left (h i hi)

theorem read_of_grows {store store' : List α} (hgrows : store <+: store') {refs : List ℕ}
    (h : ∀ i ∈ refs, i < store.length) : read store' refs = read store refs := by
  obtain ⟨new, rfl⟩ := hgrows
  exact read_grown h new

/-- The addresses of the records that were added last. -/
theorem read_new (store new : List α) :
    read (store ++ new) (List.range' store.length new.length) = new := by
  induction new generalizing store with
  | nil => rfl
  | cons a new ih =>
      have hrest := ih (store ++ [a])
      rw [List.append_assoc, List.length_append] at hrest
      rw [List.length_cons, List.range'_succ]
      unfold read
      rw [List.filterMap_cons, List.getElem?_append_right (Nat.le_refl _), Nat.sub_self]
      exact congrArg (a :: ·) hrest

theorem read_singleton (store : List α) (a : α) :
    read (store ++ [a]) [store.length] = [a] := read_new store [a]

@[simp] theorem length_updateAll (f : α → α) (refs : List ℕ) (store : List α) :
    (updateAll f store refs).length = store.length := by
  induction refs generalizing store with
  | nil => rfl
  | cons i refs ih =>
      have hrest := ih (store.modify i f)
      rw [List.length_modify] at hrest
      exact hrest

/-- Updates elsewhere leave a record as it is. -/
theorem getElem?_updateAll_of_notMem {f : α → α} {refs : List ℕ} {i : ℕ} (h : i ∉ refs)
    (store : List α) : (updateAll f store refs)[i]? = store[i]? := by
  induction refs generalizing store with
  | nil => rfl
  | cons j refs ih =>
      obtain ⟨hj, hrefs⟩ := List.ne_and_not_mem_of_not_mem_cons h
      have hrest := ih hrefs (store.modify j f)
      rw [List.getElem?_modify_ne _ _ (Ne.symm hj)] at hrest
      exact hrest

/-- An update that may be made twice is made once. -/
theorem getElem?_updateAll_of_mem {f : α → α} (hf : ∀ a, f (f a) = f a) {refs : List ℕ} {i : ℕ}
    (h : i ∈ refs) (store : List α) : (updateAll f store refs)[i]? = store[i]?.map f := by
  induction refs generalizing store with
  | nil => simp at h
  | cons j refs ih =>
      change (updateAll f (store.modify j f) refs)[i]? = _
      by_cases hrefs : i ∈ refs
      · rw [ih hrefs, List.getElem?_modify]
        cases store[i]? with
        | none => rfl
        | some a =>
            by_cases hj : j = i
            · simp [hj, hf]
            · simp [hj]
      · obtain rfl := (List.mem_cons.mp h).resolve_right hrefs
        rw [getElem?_updateAll_of_notMem hrefs, List.getElem?_modify_eq]
        rfl

theorem read_updateAll_apart {f : α → α} {refs targets : List ℕ} (h : refs.Disjoint targets)
    (store : List α) : read (updateAll f store targets) refs = read store refs :=
  read_congr fun _ hi ↦ getElem?_updateAll_of_notMem (h hi) store

theorem modify_concat (f : α → α) (as : List α) (a : α) :
    (as ++ [a]).modify as.length f = as ++ [f a] := by
  induction as with
  | nil => rfl
  | cons b as ih => rw [List.cons_append, List.length_cons, List.modify_succ_cons, ih]; rfl

/-- Of the addresses read, the last one is updated. -/
theorem read_updateAll_last {f : α → α} (hf : ∀ a, f (f a) = f a) {refs targets : List ℕ} {i : ℕ}
    (hapart : refs.Disjoint targets) (hi : i ∈ targets) {store : List α} (hlt : i < store.length) :
    read (updateAll f store targets) (refs ++ [i]) =
      (read store (refs ++ [i])).modify ((read store (refs ++ [i])).length - 1) f := by
  have hlast : store[i]? = some store[i] := List.getElem?_eq_getElem hlt
  have hone : read store [i] = [store[i]] := by
    unfold read
    rw [List.filterMap_cons, hlast]
    rfl
  have hupdated : read (updateAll f store targets) [i] = [f store[i]] := by
    unfold read
    rw [List.filterMap_cons, getElem?_updateAll_of_mem hf hi, hlast]
    rfl
  rw [read_append, read_append, hone, hupdated, read_updateAll_apart hapart, List.length_append,
    List.length_singleton, Nat.add_sub_cancel, modify_concat]

/-- Updates at addresses past the front leave the front as it is. -/
theorem take_updateAll {f : α → α} {n : ℕ} {refs : List ℕ} (h : ∀ i ∈ refs, n ≤ i)
    (store : List α) : (updateAll f store refs).take n = store.take n := by
  apply List.ext_getElem?
  intro i
  rw [List.getElem?_take, List.getElem?_take]
  split
  · rename_i hi
    exact getElem?_updateAll_of_notMem (fun hmem ↦ Nat.not_lt_of_ge (h i hmem) hi) store
  · rfl

end NucLlm.Arena
