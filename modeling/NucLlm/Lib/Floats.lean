import Mathlib.Algebra.Order.Field.Power
import Mathlib.Algebra.Order.Floor.Ring
import Mathlib.Algebra.Order.Round
import Mathlib.Data.Int.Log
import Mathlib.Data.Rat.Floor
import Mathlib.Tactic.FieldSimp
import Mathlib.Tactic.GCongr
import Mathlib.Tactic.Linarith
import Mathlib.Tactic.Positivity
import Mathlib.Tactic.Ring

/-!
# Rounding to binary floats

Numbers of the form `m * 2 ^ k`, with a bounded number of bits in `m` and no bound on `k`. A
number is rounded to the nearest one of them, and to the one with an even `m` if two are
equally near.
-/

namespace NucLlm.Floats

/-- The nearest integer, and the even one if two are equally near. -/
def nearestEven (q : ℚ) : ℤ :=
  if 1 < 2 * Int.fract q ∨ 2 * Int.fract q = 1 ∧ ⌊q⌋ % 2 = 1 then ⌊q⌋ + 1 else ⌊q⌋

theorem nearestEven_mono {q q' : ℚ} (h : q ≤ q') : nearestEven q ≤ nearestEven q' := by
  have hle := Int.floor_le_floor h
  unfold nearestEven
  rcases lt_or_eq_of_le hle with hlt | heq
  · split <;> split <;> omega
  · have hfract : Int.fract q ≤ Int.fract q' := by
      unfold Int.fract
      rw [heq]
      linarith
    split
    · rename_i hup
      rw [if_pos, heq]
      rcases hup with hup | ⟨hhalf, hodd⟩
      · exact .inl (by linarith)
      · rcases lt_or_eq_of_le hfract with hlt | hsame
        · exact .inl (by linarith)
        · exact .inr ⟨by rw [← hsame, hhalf], by rw [← heq, hodd]⟩
    · split <;> omega

@[simp] theorem nearestEven_intCast (n : ℤ) : nearestEven n = n := by
  simp [nearestEven]

/-- The distance between the numbers around `x` that have `p` bits after the leading one. -/
def ulp (p : ℕ) (x : ℚ) : ℚ := 2 ^ (Int.log 2 |x| - p)

theorem ulp_pos (p : ℕ) (x : ℚ) : 0 < ulp p x := by
  unfold ulp
  positivity

/-- The number with `p` bits after the leading one that is nearest to `x`. -/
def roundTo (p : ℕ) (x : ℚ) : ℚ := nearestEven (x / ulp p x) * ulp p x

variable {p : ℕ} {x y : ℚ}

@[simp] theorem roundTo_zero : roundTo p 0 = 0 := by
  have h := nearestEven_intCast 0
  rw [Int.cast_zero] at h
  simp [roundTo, h]

theorem two_pow_mul_ulp (hx : 0 < x) : 2 ^ p * ulp p x = 2 ^ Int.log 2 x := by
  unfold ulp
  rw [abs_of_pos hx, ← zpow_natCast, ← zpow_add₀ two_ne_zero]
  congr 1
  ring

/-- Rounding does not go below the leading bit. -/
theorem leading_le_roundTo (hx : 0 < x) : 2 ^ Int.log 2 x ≤ roundTo p x := by
  have hlead : (2 : ℚ) ^ Int.log 2 x ≤ x := by exact_mod_cast Int.zpow_log_le_self one_lt_two hx
  have hdiv : ((2 ^ p : ℤ) : ℚ) ≤ x / ulp p x := by
    rw [le_div_iff₀ (ulp_pos p x)]
    push_cast
    rwa [two_pow_mul_ulp hx]
  have hint : (2 ^ p : ℤ) ≤ nearestEven (x / ulp p x) := by
    simpa only [nearestEven_intCast] using nearestEven_mono hdiv
  rw [← two_pow_mul_ulp (p := p) hx, roundTo]
  have := ulp_pos p x
  gcongr
  exact_mod_cast hint

/-- Rounding does not go above the next power of two. -/
theorem roundTo_le_next (hx : 0 < x) : roundTo p x ≤ 2 ^ (Int.log 2 x + 1) := by
  have hnext : x < (2 : ℚ) ^ (Int.log 2 x + 1) := by
    exact_mod_cast Int.lt_zpow_succ_log_self one_lt_two x
  have heq : (2 : ℚ) ^ (Int.log 2 x + 1) = 2 ^ (p + 1) * ulp p x := by
    rw [pow_succ, mul_assoc, mul_comm 2 (ulp p x), ← mul_assoc, two_pow_mul_ulp hx,
      zpow_add_one₀ two_ne_zero]
  have hdiv : x / ulp p x ≤ ((2 ^ (p + 1) : ℤ) : ℚ) := by
    rw [div_le_iff₀ (ulp_pos p x)]
    push_cast
    rw [← heq]
    exact hnext.le
  have hint : nearestEven (x / ulp p x) ≤ (2 ^ (p + 1) : ℤ) := by
    simpa only [nearestEven_intCast] using nearestEven_mono hdiv
  rw [heq, roundTo]
  have := ulp_pos p x
  gcongr
  exact_mod_cast hint

theorem roundTo_pos (hx : 0 < x) : 0 < roundTo p x :=
  lt_of_lt_of_le (by positivity) (leading_le_roundTo hx)

theorem roundTo_mono (hx : 0 ≤ x) (h : x ≤ y) : roundTo p x ≤ roundTo p y := by
  rcases hx.eq_or_lt with rfl | hx
  · rcases h.eq_or_lt with rfl | hy
    · rfl
    · rw [roundTo_zero]
      exact (roundTo_pos hy).le
  · have hy : 0 < y := hx.trans_le h
    rcases (Int.log_mono_right (b := 2) hx h).eq_or_lt with heq | hlt
    · have hulp : ulp p x = ulp p y := by rw [ulp, ulp, abs_of_pos hx, abs_of_pos hy, heq]
      have hpos := ulp_pos p y
      rw [roundTo, roundTo, hulp]
      gcongr
      apply nearestEven_mono
      gcongr
    · calc roundTo p x ≤ 2 ^ (Int.log 2 x + 1) := roundTo_le_next hx
        _ ≤ 2 ^ Int.log 2 y := zpow_le_zpow_right₀ one_le_two hlt
        _ ≤ roundTo p y := leading_le_roundTo hy

/-- A number that has few enough bits is kept. -/
theorem roundTo_of_bits {m : ℕ} {k : ℤ} (hm : m < 2 ^ (p + 1)) :
    roundTo p (m * 2 ^ k) = m * 2 ^ k := by
  rcases Nat.eq_zero_or_pos m with rfl | hpos
  · simp
  · have hlog : Nat.log 2 m ≤ p := Nat.lt_succ_iff.mp (Nat.log_lt_of_lt_pow hpos.ne' hm)
    have hx : (0 : ℚ) < m * 2 ^ k := by positivity
    have hexp : Int.log 2 ((m : ℚ) * 2 ^ k) = Nat.log 2 m + k := by
      have hk : (0 : ℚ) < 2 ^ k := by positivity
      apply le_antisymm
      · rw [← Int.lt_add_one_iff, ← Int.lt_zpow_iff_log_lt one_lt_two hx, Nat.cast_ofNat,
          add_right_comm, zpow_add₀ two_ne_zero]
        apply mul_lt_mul_of_pos_right _ hk
        exact_mod_cast Nat.lt_pow_succ_log_self one_lt_two m
      · rw [← Int.zpow_le_iff_le_log one_lt_two hx, Nat.cast_ofNat, zpow_add₀ two_ne_zero]
        apply mul_le_mul_of_nonneg_right _ hk.le
        exact_mod_cast Nat.pow_log_le_self 2 hpos.ne'
    have hulp : ulp p ((m : ℚ) * 2 ^ k) = 2 ^ (Nat.log 2 m + k - p) := by
      rw [ulp, abs_of_pos hx, hexp]
    have hwhole : (m : ℚ) * 2 ^ k / ulp p (m * 2 ^ k) = ((m * 2 ^ (p - Nat.log 2 m) : ℤ) : ℚ) := by
      rw [div_eq_iff (ulp_pos _ _).ne', hulp]
      push_cast
      rw [mul_assoc, ← zpow_natCast, ← zpow_add₀ two_ne_zero]
      congr 2
      omega
    rw [roundTo, hwhole, nearestEven_intCast, ← hwhole, div_mul_cancel₀ _ (ulp_pos _ _).ne']

/-- Rounding twice is rounding once. -/
theorem roundTo_roundTo (hx : 0 ≤ x) : roundTo p (roundTo p x) = roundTo p x := by
  rcases hx.eq_or_lt with rfl | hx
  · simp
  · obtain ⟨n, hn⟩ : ∃ n : ℕ, (n : ℤ) = nearestEven (x / ulp p x) := by
      apply Int.eq_ofNat_of_zero_le ?_ |>.imp fun n h ↦ h.symm
      have hdiv : ((0 : ℤ) : ℚ) ≤ x / ulp p x := by
        rw [Int.cast_zero]
        exact div_nonneg hx.le (ulp_pos p x).le
      simpa only [nearestEven_intCast] using nearestEven_mono hdiv
    have heq : roundTo p x = n * 2 ^ (Int.log 2 x - p) := by
      rw [roundTo, ← hn, ulp, abs_of_pos hx]
      norm_cast
    by_cases hlt : n < 2 ^ (p + 1)
    · rw [heq, roundTo_of_bits hlt]
    · have hnext : roundTo p x = (1 : ℕ) * 2 ^ (Int.log 2 x + 1) := by
        rw [Nat.cast_one, one_mul]
        apply le_antisymm (roundTo_le_next hx)
        calc (2 : ℚ) ^ (Int.log 2 x + 1) = 2 ^ (p + 1) * 2 ^ (Int.log 2 x - p) := by
              rw [← zpow_natCast, ← zpow_add₀ two_ne_zero]
              congr 1
              push_cast
              ring
          _ ≤ n * 2 ^ (Int.log 2 x - p) := by
              gcongr
              exact_mod_cast not_lt.mp hlt
          _ = roundTo p x := heq.symm
      rw [hnext, roundTo_of_bits (Nat.one_lt_two_pow (Nat.succ_ne_zero p))]

/-- Numbers of double precision have 52 bits after the leading one. -/
def double (x : ℚ) : ℚ := roundTo 52 x

/-- The sum of two numbers of double precision. -/
def plus (x y : ℚ) : ℚ := double (x + y)

@[simp] theorem double_zero : double 0 = 0 := roundTo_zero

theorem double_pos (hx : 0 < x) : 0 < double x := roundTo_pos hx

theorem double_mono (hx : 0 ≤ x) (h : x ≤ y) : double x ≤ double y := roundTo_mono hx h

theorem double_double (hx : 0 ≤ x) : double (double x) = double x := roundTo_roundTo hx

theorem double_of_bits {m : ℕ} {k : ℤ} (hm : m < 2 ^ 53) : double (m * 2 ^ k) = m * 2 ^ k :=
  roundTo_of_bits hm

theorem double_plus (hx : 0 ≤ x) (hy : 0 ≤ y) : double (plus x y) = plus x y :=
  double_double (add_nonneg hx hy)

/-- Adding to a float does not give less. -/
theorem le_plus (hx : 0 ≤ x) (hfloat : double x = x) (hy : 0 ≤ y) : x ≤ plus x y := by
  calc x = double x := hfloat.symm
    _ ≤ plus x y := double_mono hx (le_add_of_nonneg_right hy)

/-- What exceeds a float after the rounding exceeds it before. -/
theorem lt_of_lt_plus {budget : ℚ} (hx : 0 ≤ x) (hy : 0 ≤ y) (hfloat : double budget = budget)
    (h : budget < plus x y) : budget < x + y := by
  by_contra hnot
  have hle := double_mono (add_nonneg hx hy) (not_lt.mp hnot)
  rw [hfloat] at hle
  exact absurd h (not_lt.mpr hle)

end NucLlm.Floats
