import Mathlib.Data.Finset.Basic
import Mathlib.Data.Finset.Dedup
import Mathlib.Data.List.TakeWhile

/-!
# Runs of a map

A map on the numbers below a bound is kept as the list of its maximal runs, each with its
first number and its value.  The values on an interval are read off the runs, from the
last run that starts at or before the interval.
-/

namespace NucLlm.Runs

variable {κ : Type} [DecidableEq κ]

/-- The maximal runs of a map on the numbers below `n`. -/
def runs (key : ℕ → Option κ) : ℕ → List (ℕ × Option κ)
  | 0 => []
  | n + 1 =>
    if (runs key n).getLast?.map Prod.snd = some (key n) then runs key n
    else runs key n ++ [(n, key n)]

/-- `bisect_right`, for numbers in order. -/
def bisectRight (starts : List ℕ) (a : ℕ) : ℕ := (starts.takeWhile fun s ↦ s ≤ a).length

/-- The values of the runs that meet the interval from `a` to `b`. -/
def valuesIn (rs : List (ℕ × Option κ)) (a b : ℕ) : Finset κ :=
  let i := bisectRight (rs.map Prod.fst) a - 1
  (((rs.drop i).takeWhile fun r ↦ r.1 ≤ b).filterMap Prod.snd).toFinset

variable {key : ℕ → Option κ} {n : ℕ}

theorem runs_below {r : ℕ × Option κ} (h : r ∈ runs key n) : r.1 < n ∧ r.2 = key r.1 := by
  induction n with
  | zero => simp [runs] at h
  | succ n ih =>
      rw [runs] at h
      split at h
      · exact ⟨Nat.lt_succ_of_lt (ih h).1, (ih h).2⟩
      · rcases List.mem_append.mp h with h | h
        · exact ⟨Nat.lt_succ_of_lt (ih h).1, (ih h).2⟩
        · rw [List.mem_singleton.mp h]
          exact ⟨Nat.lt_succ_self n, rfl⟩

theorem runs_sorted (key : ℕ → Option κ) (n : ℕ) :
    (runs key n).Pairwise fun r r' ↦ r.1 < r'.1 := by
  induction n with
  | zero => exact .nil
  | succ n ih =>
      rw [runs]
      split
      · exact ih
      · rw [List.pairwise_append]
        refine ⟨ih, List.pairwise_singleton _ _, fun r hr r' hr' ↦ ?_⟩
        rw [List.mem_singleton.mp hr']
        exact (runs_below hr).1

/-- Every number is in the run that starts last at or before it. -/
theorem run_of (key : ℕ → Option κ) {s : ℕ} (hs : s < n) :
    ∃ r ∈ runs key n, r.1 ≤ s ∧ r.2 = key s ∧ ∀ r' ∈ runs key n, r'.1 ≤ s → r'.1 ≤ r.1 := by
  induction n with
  | zero => exact absurd hs (Nat.not_lt_zero s)
  | succ n ih =>
      rw [runs]
      by_cases hsn : s < n
      · obtain ⟨r, hr, hle, hkey, hlast⟩ := ih hsn
        split
        · exact ⟨r, hr, hle, hkey, hlast⟩
        · refine ⟨r, List.mem_append_left _ hr, hle, hkey, fun r' hr' hle' ↦ ?_⟩
          rcases List.mem_append.mp hr' with hr' | hr'
          · exact hlast r' hr' hle'
          · rw [List.mem_singleton.mp hr'] at hle'
            exact absurd hsn (Nat.not_lt.mpr hle')
      · obtain rfl : s = n := Nat.le_antisymm (Nat.le_of_lt_succ hs) (Nat.not_lt.mp hsn)
        split
        · rename_i hsame
          obtain ⟨r, hr, hvalue⟩ := Option.map_eq_some_iff.mp hsame
          obtain ⟨before, hbefore⟩ := List.getLast?_eq_some_iff.mp hr
          refine ⟨r, List.mem_of_getLast? hr, (runs_below (List.mem_of_getLast? hr)).1.le, hvalue,
            fun r' hr' _ ↦ ?_⟩
          have hsorted := runs_sorted key s
          rw [hbefore] at hsorted hr'
          rcases List.mem_append.mp hr' with hr' | hr'
          · exact ((List.pairwise_append.mp hsorted).2.2 r' hr' r (List.mem_singleton_self r)).le
          · rw [List.mem_singleton.mp hr']
        · exact ⟨_, List.mem_append_right _ (List.mem_singleton_self _), Nat.le_refl _, rfl,
            fun _ _ hle ↦ hle⟩

omit [DecidableEq κ] in
theorem takeWhile_of_sorted {rs : List (ℕ × Option κ)} (b : ℕ)
    (h : rs.Pairwise fun r r' ↦ r.1 < r'.1) :
    (rs.takeWhile fun r ↦ r.1 ≤ b) = rs.filter fun r ↦ r.1 ≤ b := by
  induction rs with
  | nil => rfl
  | cons r rs ih =>
      obtain ⟨hr, hrs⟩ := List.pairwise_cons.mp h
      by_cases hb : r.1 ≤ b
      · simp [hb, ih hrs]
      · have hnone : (rs.filter fun r' ↦ r'.1 ≤ b) = [] := by
          rw [List.filter_eq_nil_iff]
          intro r' hr'
          have hlt := hr r' hr'
          simp only [decide_eq_true_eq]
          omega
        simp [hb, hnone]

omit [DecidableEq κ] in
/-- The list from the last place that is at or before `a`. -/
theorem split_at {rs : List (ℕ × Option κ)} (a : ℕ) (h : rs.Pairwise fun r r' ↦ r.1 < r'.1)
    (hex : ∃ r ∈ rs, r.1 ≤ a) :
    ∃ init last rest, rs = init ++ last :: rest ∧ last.1 ≤ a ∧ (∀ r ∈ rest, a < r.1) ∧
      rs.drop (bisectRight (rs.map Prod.fst) a - 1) = last :: rest := by
  induction rs with
  | nil => simp at hex
  | cons r rs ih =>
      obtain ⟨hr, hrs⟩ := List.pairwise_cons.mp h
      have hle : r.1 ≤ a := by
        obtain ⟨r₀, hr₀, ha⟩ := hex
        rcases List.mem_cons.mp hr₀ with rfl | hmem
        · exact ha
        · exact (Nat.le_of_lt (hr _ hmem)).trans ha
      by_cases hmore : ∃ r' ∈ rs, r'.1 ≤ a
      · obtain ⟨r', hr', ha'⟩ := hmore
        have hpos : 0 < bisectRight (rs.map Prod.fst) a := by
          cases rs with
          | nil => simp at hr'
          | cons r'' rs =>
              have hle'' : r''.1 ≤ a := by
                rcases List.mem_cons.mp hr' with rfl | hmem
                · exact ha'
                · exact (Nat.le_of_lt ((List.pairwise_cons.mp hrs).1 _ hmem)).trans ha'
              simp [bisectRight, hle'']
        obtain ⟨init, last, rest, heq, hlast, hrest, hdrop⟩ := ih hrs ⟨r', hr', ha'⟩
        refine ⟨r :: init, last, rest, by rw [heq]; rfl, hlast, hrest, ?_⟩
        rw [← hdrop]
        have hcons : bisectRight ((r :: rs).map Prod.fst) a =
            bisectRight (rs.map Prod.fst) a + 1 := by
          simp [bisectRight, hle]
        obtain ⟨m, hm⟩ := Nat.exists_eq_succ_of_ne_zero (Nat.ne_of_gt hpos)
        rw [hcons, hm]
        rfl
      · have hnone : ∀ r' ∈ rs, a < r'.1 := by
          intro r' hr'
          exact Nat.not_le.mp fun hle' ↦ hmore ⟨r', hr', hle'⟩
        refine ⟨[], r, rs, rfl, hle, hnone, ?_⟩
        have hone : bisectRight ((r :: rs).map Prod.fst) a = 1 := by
          cases rs with
          | nil => simp [bisectRight, hle]
          | cons r'' rs =>
              have hgt := hnone r'' List.mem_cons_self
              simp [bisectRight, hle, Nat.not_le.mpr hgt]
        rw [hone]
        rfl

/-- The runs from the last one at or before the interval have the values of the interval. -/
theorem mem_valuesIn {a b : ℕ} (hab : a ≤ b) (hb : b < n) {k : κ} :
    k ∈ valuesIn (runs key n) a b ↔ ∃ s, a ≤ s ∧ s ≤ b ∧ key s = some k := by
  have hsorted := runs_sorted key n
  obtain ⟨r₀, hr₀, hle₀, hkey₀, hlast₀⟩ := run_of key (Nat.lt_of_le_of_lt hab hb)
  obtain ⟨init, last, rest, heq, hlast, hrest, hdrop⟩ := split_at a hsorted ⟨r₀, hr₀, hle₀⟩
  have hmem : ∀ r ∈ last :: rest, r ∈ runs key n := fun r hr ↦
    heq ▸ List.mem_append_right _ hr
  have htail : (last :: rest).Pairwise fun r r' ↦ r.1 < r'.1 :=
    (List.pairwise_append.mp (heq ▸ hsorted)).2.1
  unfold valuesIn
  dsimp only
  rw [hdrop, takeWhile_of_sorted b htail, List.mem_toFinset, List.mem_filterMap]
  constructor
  · rintro ⟨r, hr, hk⟩
    obtain ⟨hr, hrb⟩ := List.mem_filter.mp hr
    rw [decide_eq_true_eq] at hrb
    have hbelow := runs_below (hmem r hr)
    rcases List.mem_cons.mp hr with rfl | hr
    · refine ⟨a, Nat.le_refl a, hab, ?_⟩
      have hle : r.1 ≤ r₀.1 := hlast₀ r (hmem r List.mem_cons_self) hlast
      have hge : r₀.1 ≤ r.1 := by
        rcases List.mem_append.mp (heq ▸ hr₀) with hinit | hcons
        · exact ((List.pairwise_append.mp (heq ▸ hsorted)).2.2 r₀ hinit r List.mem_cons_self).le
        · rcases List.mem_cons.mp hcons with rfl | hmore
          · exact Nat.le_refl _
          · exact absurd hle₀ (Nat.not_le.mpr (hrest r₀ hmore))
      rw [← hkey₀, (runs_below hr₀).2, Nat.le_antisymm hge hle, ← hbelow.2, hk]
    · exact ⟨r.1, (hrest r hr).le, hrb, hbelow.2 ▸ hk⟩
  · rintro ⟨s, has, hsb, hk⟩
    obtain ⟨r, hr, hle, hkey, hmax⟩ := run_of key (Nat.lt_of_le_of_lt hsb hb)
    refine ⟨r, List.mem_filter.mpr ⟨?_, decide_eq_true (hle.trans hsb)⟩, hkey.trans hk⟩
    rcases List.mem_append.mp (heq ▸ hr) with hinit | hcons
    · have hlt := (List.pairwise_append.mp (heq ▸ hsorted)).2.2 r hinit last List.mem_cons_self
      have hge := hmax last (hmem last List.mem_cons_self) (hlast.trans has)
      exact absurd hlt (Nat.not_lt.mpr hge)
    · exact hcons

/-- All the values of the map are the values of its runs. -/
theorem mem_values {k : κ} :
    k ∈ ((runs key n).filterMap Prod.snd).toFinset ↔ ∃ s < n, key s = some k := by
  rw [List.mem_toFinset, List.mem_filterMap]
  constructor
  · rintro ⟨r, hr, hk⟩
    obtain ⟨hlt, hkey⟩ := runs_below hr
    exact ⟨r.1, hlt, hkey ▸ hk⟩
  · rintro ⟨s, hs, hk⟩
    obtain ⟨r, hr, -, hkey, -⟩ := run_of key hs
    exact ⟨r, hr, hkey.trans hk⟩

end NucLlm.Runs
