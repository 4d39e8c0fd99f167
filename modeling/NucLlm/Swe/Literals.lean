import Mathlib
import NucLlm.Swe.Shrink
import Mathlib.Data.List.Induction
import Mathlib.Data.List.TakeWhile
import Mathlib.Algebra.BigOperators.Group.List.Lemmas
import Mathlib.Algebra.Order.BigOperators.Group.List

/-!
# Integer literals

The digits of a number written in the usual way are the shortest ones.  The words of a line do not
change when a run of a unit with a separator is shortened, and a literal that is rewritten is one
word among the others.
-/

namespace NucLlm.Swe

variable (A : Alphabet)

theorem value_nil : A.value [] = 0 := rfl

theorem value_append (ds : Text) (c : Char) :
    A.value (ds ++ [c]) = 10 * A.value ds + (A.digit c).getD 0 := by
  unfold Alphabet.value
  rw [List.foldl_append]
  rfl

theorem digit_getD_lt (c : Char) : (A.digit c).getD 0 < 10 := by
  cases h : A.digit c with
  | none => decide
  | some d => exact A.digit_lt c d h

theorem value_lt (ds : Text) : A.value ds < 10 ^ ds.length := by
  induction ds using List.reverseRecOn with
  | nil => exact Nat.one_pos
  | append_singleton ds c ih =>
    have hc := digit_getD_lt A c
    rw [value_append, List.length_append, List.length_singleton, Nat.pow_succ]
    omega

theorem value_str (n : ℕ) : A.value (str n) = n := by
  induction n using Nat.strong_induction_on with
  | _ n ih =>
    unfold str at ih ⊢
    by_cases hn : n < 10
    · rw [Nat.toDigits_of_lt_base hn]
      have h := value_append A [] n.digitChar
      rw [A.digit_ascii n hn] at h
      simpa [value_nil] using h
    · rw [Nat.toDigits_of_base_le (by decide) (not_lt.mp hn), value_append, ih _ (by omega),
        A.digit_ascii _ (Nat.mod_lt n (by decide))]
      exact Nat.div_add_mod n 10

theorem str_ne_nil (n : ℕ) : str n ≠ [] := Nat.toDigits_ne_nil

theorem ascii_str {n : ℕ} {c : Char} (h : c ∈ str n) : c.isDigit = true :=
  Nat.isDigit_of_mem_toDigits (by decide) (by decide) h

theorem length_str_le_iff {n k : ℕ} (hk : 0 < k) : (str n).length ≤ k ↔ n < 10 ^ k :=
  Nat.length_toDigits_le_iff (by decide) hk

theorem length_str_le {ds : Text} (hne : ds ≠ []) {n : ℕ} (h : n ≤ A.value ds) :
    (str n).length ≤ ds.length := by
  rw [length_str_le_iff (List.length_pos_iff.mpr hne)]
  exact h.trans_lt (value_lt A ds)

theorem length_str_mono {m n : ℕ} (h : m ≤ n) : (str m).length ≤ (str n).length := by
  have hpos : 0 < (str n).length := List.length_pos_iff.mpr (str_ne_nil n)
  rw [length_str_le_iff hpos]
  exact h.trans_lt ((length_str_le_iff hpos).mp le_rfl)

theorem digitChar_of_ascii {c : Char} (h : c.isDigit = true) :
    ∃ d < 10, c = Nat.digitChar d := by
  have hc : 48 ≤ c.toNat ∧ c.toNat ≤ 57 := by
    simpa [Char.isDigit, UInt32.le_iff_toNat_le] using h
  have hd : ∀ d < 10, Char.ofNat (48 + d) = Nat.digitChar d := by decide
  refine ⟨c.toNat - 48, by omega, ?_⟩
  rw [← hd _ (by omega), Nat.add_sub_cancel' hc.1, Char.ofNat_toNat]

theorem isDigit_of_ascii {c : Char} (h : c.isDigit = true) : A.isDigit c = true := by
  obtain ⟨d, hd, rfl⟩ := digitChar_of_ascii h
  unfold Alphabet.isDigit
  rw [A.digit_ascii d hd]
  rfl

theorem inWord_of_digit {c : Char} (h : A.isDigit c = true) : A.inWord c = true := by
  unfold Alphabet.inWord
  rw [A.word_of_digit c h, Bool.true_or]

/-- The characters of plain texts. -/
def plain : Alphabet where
  space := Char.isWhitespace
  word := fun c ↦ c.isAlphanum || c = '_'
  digit := fun c ↦ if c.isDigit then some (c.toNat - '0'.toNat) else none
  maxStrDigits := 4300
  word_of_digit := by
    intro c hc
    split at hc
    · rename_i hdigit
      simp [Char.isAlphanum, hdigit]
    · exact absurd hc (by decide)
  digit_lt := by
    intro c d hc
    split at hc
    · rename_i hdigit
      obtain ⟨e, he, rfl⟩ := digitChar_of_ascii hdigit
      have hlt : ∀ e < 10, (Nat.digitChar e).toNat - '0'.toNat < 10 := by decide
      cases hc
      exact hlt e he
    · cases hc
  digit_ascii := by decide
  not_word := by simp [Char.isAlphanum, Char.isAlpha, Char.isUpper, Char.isLower, Char.isDigit]
  not_digit_point := by decide

/-- The usual digits are determined by their number and what they denote. -/
theorem eq_of_value_eq {ds ds' : Text} (h : ∀ c ∈ ds, c.isDigit = true)
    (h' : ∀ c ∈ ds', c.isDigit = true) (hlength : ds.length = ds'.length)
    (hvalue : A.value ds = A.value ds') : ds = ds' := by
  induction ds using List.reverseRecOn generalizing ds' with
  | nil => exact (List.length_eq_zero_iff.mp hlength.symm).symm
  | append_singleton ds c ih =>
    cases ds' using List.reverseRecOn with
    | nil => simp at hlength
    | append_singleton ds' c' =>
      obtain ⟨d, hd, rfl⟩ := digitChar_of_ascii (h c (by simp))
      obtain ⟨d', hd', rfl⟩ := digitChar_of_ascii (h' c' (by simp))
      rw [value_append, value_append, A.digit_ascii d hd, A.digit_ascii d' hd',
        Option.getD_some, Option.getD_some] at hvalue
      have hlast : d = d' := by omega
      have hrest : ds = ds' := by
        apply ih
        · exact fun c hc ↦ h c (List.mem_append_left _ hc)
        · exact fun c hc ↦ h' c (List.mem_append_left _ hc)
        · simpa using hlength
        · omega
      rw [hlast, hrest]

/-- What the characters of a text weigh together. -/
def weight (w : Char → ℕ) (t : Text) : ℕ := (t.map w).sum

/-- Every character weighs something, and the usual digits weigh least. -/
structure Weighing (w : Char → ℕ) : Prop where
  one_le : ∀ c, 1 ≤ w c
  ascii : ∀ c, c.isDigit = true → w c = 1

variable {w : Char → ℕ}

@[simp] theorem weight_nil : weight w [] = 0 := rfl

@[simp] theorem weight_cons (c : Char) (t : Text) : weight w (c :: t) = w c + weight w t := by
  simp [weight]

@[simp] theorem weight_append (t u : Text) : weight w (t ++ u) = weight w t + weight w u := by
  simp [weight]

theorem weight_repeat (k : ℕ) (u : Text) :
    weight w (List.replicate k u).flatten = k * weight w u := by
  induction k with
  | zero => simp
  | succ k ih =>
    rw [List.replicate_succ, List.flatten_cons, weight_append, ih, Nat.succ_mul, Nat.add_comm]

theorem weight_one (t : Text) : weight (fun _ ↦ 1) t = t.length := by
  simp [weight]

theorem length_le_weight (hw : Weighing w) (t : Text) : t.length ≤ weight w t := by
  induction t with
  | nil => exact le_rfl
  | cons c t ih =>
    have hc := hw.one_le c
    rw [List.length_cons, weight_cons]
    omega

theorem weight_str (hw : Weighing w) (n : ℕ) : weight w (str n) = (str n).length := by
  have h (t : Text) (ht : ∀ c ∈ t, c.isDigit = true) : weight w t = t.length := by
    induction t with
    | nil => rfl
    | cons c t ih =>
      rw [weight_cons, hw.ascii c (ht c List.mem_cons_self),
        ih fun c hc ↦ ht c (List.mem_cons_of_mem _ hc), List.length_cons, Nat.add_comm]
  exact h _ fun c ↦ ascii_str

theorem weight_str_le (hw : Weighing w) {ds : Text} (hne : ds ≠ []) {n : ℕ}
    (h : n ≤ A.value ds) : weight w (str n) ≤ weight w ds := by
  rw [weight_str hw]
  exact (length_str_le A hne h).trans (length_le_weight hw ds)

/-- Other digits than the usual ones weigh more. -/
def digitWeight (c : Char) : ℕ := if A.isDigit c = true ∧ c.isDigit = false then 2 else 1

theorem weighing_one : Weighing fun _ ↦ 1 := ⟨fun _ ↦ le_rfl, fun _ _ ↦ rfl⟩

theorem weighing_digitWeight : Weighing (digitWeight A) where
  one_le c := by
    unfold digitWeight
    split <;> decide
  ascii c hc := by
    unfold digitWeight
    rw [hc, if_neg]
    exact fun h ↦ Bool.noConfusion h.2

theorem ascii_of_weight {ds : Text} (hds : ∀ c ∈ ds, A.isDigit c = true)
    (h : weight (digitWeight A) ds = ds.length) : ∀ c ∈ ds, c.isDigit = true := by
  induction ds with
  | nil => exact fun c hc ↦ absurd hc List.not_mem_nil
  | cons d ds ih =>
    have hrest := length_le_weight (weighing_digitWeight A) ds
    have hd := (weighing_digitWeight A).one_le d
    rw [weight_cons, List.length_cons] at h
    have hdigit : d.isDigit = true := by
      by_contra hno
      have hno' : d.isDigit = false := by simpa using hno
      have htwo : digitWeight A d = 2 := if_pos ⟨hds d List.mem_cons_self, hno'⟩
      omega
    rintro c (_ | ⟨_, hc⟩)
    · exact hdigit
    · exact ih (fun c hc ↦ hds c (List.mem_cons_of_mem _ hc)) (by omega) c hc

/-- Digits that are not the ones `str` gives become less. -/
theorem weight_str_lt {ds : Text} (hne : ds ≠ []) (hds : ∀ c ∈ ds, A.isDigit c = true)
    (hodd : str (A.value ds) ≠ ds) {n : ℕ} (h : n ≤ A.value ds) :
    weight (digitWeight A) (str n) < weight (digitWeight A) ds := by
  have hw := weighing_digitWeight A
  apply lt_of_le_of_ne (weight_str_le A hw hne h)
  intro heq
  rw [weight_str hw] at heq
  have hlength := length_str_le A hne h
  have hds' : ∀ c ∈ ds, c.isDigit = true := by
    apply ascii_of_weight A hds
    have := length_le_weight hw ds
    omega
  have hlow := length_le_weight hw ds
  have hmono := length_str_mono h
  have hhigh := length_str_le A hne (le_refl (A.value ds))
  apply hodd
  apply eq_of_value_eq A (fun c ↦ ascii_str) hds'
  · omega
  · exact value_str A _

/-- The longest runs of word characters and points. -/
def words (line : Text) : List Text := line.splitOnP fun c ↦ !A.inWord c

variable {A}

theorem words_append_cons (a b : Text) {c : Char} (hc : A.inWord c = false) :
    words A (a ++ c :: b) = words A a ++ words A b :=
  List.splitOnP_append_cons a b (by rw [hc]; rfl)

theorem words_of_word {u : Text} (hu : ∀ c ∈ u, A.inWord c = true) : words A u = [u] :=
  List.splitOnP_eq_singleton fun c hc ↦ by rw [hu c hc]; rfl

/-- Nothing to the left of what comes next belongs to its word. -/
def EndsWord (A : Alphabet) (a : Text) : Prop := ∀ c ∈ a.getLast?, A.inWord c = false

def StartsWord (A : Alphabet) (b : Text) : Prop := ∀ c ∈ b.head?, A.inWord c = false

theorem words_left {a : Text} (ha : EndsWord A a) :
    ∃ before, ∀ u, words A (a ++ u) = before ++ words A u := by
  cases a using List.reverseRecOn with
  | nil => exact ⟨[], fun _ ↦ rfl⟩
  | append_singleton a c =>
    have hc : A.inWord c = false := ha c (by simp)
    refine ⟨words A a, fun u ↦ ?_⟩
    rw [List.append_assoc]
    exact words_append_cons a u hc

theorem words_right {b : Text} (hb : StartsWord A b) :
    ∃ after, ∀ u, words A (u ++ b) = words A u ++ after := by
  cases b with
  | nil => exact ⟨[], fun u ↦ by simp⟩
  | cons c b => exact ⟨words A b, fun u ↦ words_append_cons u b (hb c (by simp))⟩

/-- A word between separators is one word among the others, whatever it is. -/
theorem words_isolated {a b : Text} (ha : EndsWord A a) (hb : StartsWord A b) :
    ∃ before after, ∀ u, (∀ c ∈ u, A.inWord c = true) →
      words A (a ++ u ++ b) = before ++ u :: after := by
  obtain ⟨before, hbefore⟩ := words_left ha
  obtain ⟨after, hafter⟩ := words_right hb
  refine ⟨before, after, fun u hu ↦ ?_⟩
  rw [List.append_assoc, hbefore, hafter, words_of_word hu]
  rfl

theorem exists_of_mem_words {line u : Text} (h : u ∈ words A line) :
    ∃ a b, line = a ++ u ++ b ∧ EndsWord A a ∧ StartsWord A b := by
  generalize hn : line.length = n
  induction n using Nat.strong_induction_on generalizing line with
  | _ n ih =>
    have hword : ∀ c ∈ line.takeWhile A.inWord, A.inWord c = true := fun c ↦ List.mem_takeWhile_imp
    have hline := List.takeWhile_append_dropWhile (p := A.inWord) (l := line)
    cases hrest : line.dropWhile A.inWord with
    | nil =>
      rw [hrest, List.append_nil] at hline
      rw [hline] at hword
      rw [words_of_word hword, List.mem_singleton] at h
      exact ⟨[], [], by simp [h], by simp [EndsWord], by simp [StartsWord]⟩
    | cons c rest =>
      have hc : A.inWord c = false := by
        have := List.head?_dropWhile_not A.inWord line
        simpa [hrest] using this
      rw [hrest] at hline
      rw [← hline, words_append_cons _ _ hc, words_of_word hword] at h
      rcases List.mem_append.mp h with h | h
      · rw [List.mem_singleton] at h
        exact ⟨[], c :: rest, by simp [h, hline], by simp [EndsWord],
          by simpa [StartsWord] using hc⟩
      · have hlength : rest.length < n := by
          have := congrArg List.length hline
          simp only [List.length_append, List.length_cons] at this
          omega
        obtain ⟨a, b, hab, ha, hb⟩ := ih _ hlength h rfl
        refine ⟨line.takeWhile A.inWord ++ c :: a, b, ?_, ?_, hb⟩
        · rw [List.append_assoc, List.append_assoc, List.cons_append, ← List.append_assoc a, ← hab,
            hline]
        · unfold EndsWord
          cases a with
          | nil => simpa using hc
          | cons d a => simpa [EndsWord] using ha

theorem words_repeat_succ {u : Text} (hu : ∃ c ∈ u, A.inWord c = false) (a b : Text) :
    words A (a ++ u ++ b) ⊆ words A (a ++ u ++ u ++ b) := by
  obtain ⟨c, hmem, hc⟩ := hu
  obtain ⟨x, y, rfl⟩ := List.append_of_mem hmem
  have hone : words A (a ++ (x ++ c :: y) ++ b) = words A (a ++ x) ++ words A (y ++ b) := by
    rw [← words_append_cons _ _ hc]
    simp
  have htwo : words A (a ++ (x ++ c :: y) ++ (x ++ c :: y) ++ b) =
      words A (a ++ x) ++ (words A (y ++ x) ++ words A (y ++ b)) := by
    rw [← words_append_cons _ _ hc, ← words_append_cons _ _ hc]
    simp
  rw [hone, htwo]
  intro v hv
  rw [List.mem_append] at hv ⊢
  exact hv.imp_right (List.mem_append_right _)

/-- Fewer units of a run leave no other words. -/
theorem words_repeat_subset {u : Text} (hu : ∃ c ∈ u, A.inWord c = false) {k n : ℕ}
    (hk : 1 ≤ k) (hkn : k ≤ n) (a b : Text) :
    words A (a ++ (List.replicate k u).flatten ++ b) ⊆
      words A (a ++ (List.replicate n u).flatten ++ b) := by
  induction n, hkn using Nat.le_induction with
  | base => exact List.Subset.refl _
  | succ n hkn ih =>
    obtain ⟨m, rfl⟩ := Nat.exists_eq_add_of_le' (hk.trans hkn)
    have h := words_repeat_succ hu a ((List.replicate m u).flatten ++ b)
    apply List.Subset.trans ih
    simpa [List.replicate_succ] using h

/-- How `str` writes a number, and short enough for `int`. -/
def Canonical (A : Alphabet) (ds : Text) : Prop :=
  str (A.value ds) = ds ∧ ds.length ≤ A.maxStrDigits

/-- Every integer literal of the line is canonical. -/
def Tidy (A : Alphabet) (line : Text) : Prop :=
  ∀ ds ∈ words A line, ds ≠ [] → (∀ c ∈ ds, A.isDigit c = true) → Canonical A ds

end NucLlm.Swe
