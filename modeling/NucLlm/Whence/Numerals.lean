import NucLlm.Whence.Builtins
import NucLlm.Whence.FullShow

/-!
# Numerals

`str` writes an integer in decimal, and `num` reads decimal digits.  What digits
may cost is estimated from their number, before they are read.
-/

namespace NucLlm.Whence

open Lexer

/-! ## Digits -/

/-- The digits of a numeral, some and nothing else. -/
structure Digits (ds : List Char) : Prop where
  ne_nil : ds ≠ []
  digits : ∀ c ∈ ds, isDigit c = true

/-- The integer that digits denote. -/
def denoted (ds : List Char) : ℕ := Nat.ofDigitChars 10 ds 0

theorem isDigit_iff {c : Char} : isDigit c = true ↔
    c = '0' ∨ c = '1' ∨ c = '2' ∨ c = '3' ∨ c = '4' ∨ c = '5' ∨ c = '6' ∨ c = '7' ∨ c = '8' ∨
      c = '9' := by
  simp [isDigit]

theorem isSpace_of_isDigit {c : Char} (h : isDigit c = true) : Builtin.isSpace c = false := by
  rcases isDigit_iff.mp h with rfl | rfl | rfl | rfl | rfl | rfl | rfl | rfl | rfl | rfl <;> decide

theorem isDigit_digitChar {d : ℕ} (h : d < 10) : isDigit d.digitChar = true := by
  have hall : ∀ d < 10, isDigit (Nat.digitChar d) = true := by decide
  exact hall d h

theorem digits_toDigits (n : ℕ) : Digits (Nat.toDigits 10 n) where
  ne_nil := Nat.toDigits_ne_nil
  digits := by
    induction n using Nat.strongRecOn with
    | ind n ih =>
        rw [Nat.toDigits_eq_if (by decide)]
        split
        · rename_i hlt
          intro c hc
          obtain rfl := List.mem_singleton.mp hc
          exact isDigit_digitChar hlt
        · rename_i hge
          intro c hc
          rcases List.mem_append.mp hc with hc | hc
          · exact ih (n / 10) (by omega) c hc
          · obtain rfl := List.mem_singleton.mp hc
            exact isDigit_digitChar (Nat.mod_lt n (by decide))

theorem denoted_toDigits (n : ℕ) : denoted (Nat.toDigits 10 n) = n :=
  Nat.ofDigitChars_toDigits (by decide) (by decide)

namespace Digits

variable {ds : List Char} (h : Digits ds)
include h

theorem takeWhile_eq : ds.takeWhile isDigit = ds := List.takeWhile_eq_self_iff.mpr h.digits

theorem numberText_eq : numberText ds = ds := by
  unfold numberText
  dsimp only
  rw [h.takeWhile_eq, List.drop_length]
  simp [fractionText, exponentText]

theorem isFloatText_eq : isFloatText ds = false := by
  have hnot : ∀ c : Char, isDigit c = false → c ∉ ds := by
    intro c hc hmem
    rw [h.digits c hmem] at hc
    contradiction
  simp [isFloatText, hnot '.' (by decide), hnot 'e' (by decide), hnot 'E' (by decide)]

theorem intOf_eq (hlength : ds.length ≤ showIntDigits) : intOf ds = some (denoted ds) := by
  have hall : ds.all isDigit = true := List.all_eq_true.mpr h.digits
  have hlimit : ¬4300 < ds.length := by
    unfold showIntDigits at hlength
    omega
  unfold intOf
  rw [if_neg (by simp [h.ne_nil, hall, hlimit])]
  rfl

theorem denoted_lt : denoted ds < 10 ^ ds.length := by
  have hdigit : ∀ c, isDigit c = true → c.toNat - '0'.toNat < 10 := by
    intro c hc
    rcases isDigit_iff.mp hc with rfl | rfl | rfl | rfl | rfl | rfl | rfl | rfl | rfl | rfl <;>
      decide
  have hlt : ∀ l : List Char, (∀ c ∈ l, isDigit c = true) →
      Nat.ofDigitChars 10 l 0 < 10 ^ l.length := by
    intro l hl
    induction l with
    | nil => decide
    | cons c l ih =>
        have hc := hdigit c (hl c List.mem_cons_self)
        have htail := ih fun d hd ↦ hl d (List.mem_cons_of_mem c hd)
        rw [Nat.ofDigitChars_cons, Nat.ofDigitChars_eq_ofDigitChars_zero, List.length_cons,
          Nat.pow_succ]
        calc 10 ^ l.length * (10 * 0 + (c.toNat - '0'.toNat)) + Nat.ofDigitChars 10 l 0
            < 10 ^ l.length * (10 * 0 + (c.toNat - '0'.toNat)) + 10 ^ l.length := by omega
          _ = 10 ^ l.length * (c.toNat - '0'.toNat + 1) := by
            rw [Nat.mul_zero, Nat.zero_add, Nat.mul_succ]
          _ ≤ 10 ^ l.length * 10 := Nat.mul_le_mul_left _ hc
  exact hlt ds h.digits

end Digits

/-! ## Signed digits -/

/-- The signs that may stand before digits. -/
inductive Sign : List Char → Prop where
  | none : Sign []
  | plus : Sign ['+']
  | minus : Sign ['-']

/-- The integer that digits behind a sign denote. -/
def signed (sign ds : List Char) : ℤ := if sign = ['-'] then -(denoted ds : ℤ) else denoted ds

namespace Builtin

theorem strip_eq {text : List Char} (h : ∀ c ∈ text, isSpace c = false) : strip text = text := by
  have hdrop : ∀ l : List Char, (∀ c ∈ l, isSpace c = false) → l.dropWhile isSpace = l := by
    intro l hl
    cases l with
    | nil => rfl
    | cons c l => simp [hl c List.mem_cons_self]
  rw [strip, hdrop text h, hdrop text.reverse (by simpa using h), List.reverse_reverse]

theorem strip_signed {sign ds : List Char} (hsign : Sign sign) (hds : Digits ds) :
    strip (sign ++ ds) = sign ++ ds := by
  apply strip_eq
  intro c hc
  rcases List.mem_append.mp hc with hc | hc
  · cases hsign with
    | none => contradiction
    | plus =>
        obtain rfl := List.mem_singleton.mp hc
        decide
    | minus =>
        obtain rfl := List.mem_singleton.mp hc
        decide
  · exact isSpace_of_isDigit (hds.digits c hc)

theorem signText_signed {sign ds : List Char} (hsign : Sign sign) (hds : Digits ds) :
    signText (sign ++ ds) = sign := by
  cases hsign with
  | none =>
      obtain ⟨c, rest, rfl⟩ := List.exists_cons_of_ne_nil hds.ne_nil
      have hc := hds.digits c List.mem_cons_self
      rw [List.nil_append]
      unfold signText
      split
      · rename_i heq
        obtain ⟨rfl, _⟩ := List.cons_eq_cons.mp heq
        revert hc
        decide
      · rename_i heq
        obtain ⟨rfl, _⟩ := List.cons_eq_cons.mp heq
        revert hc
        decide
      · rfl
  | plus => rfl
  | minus => rfl

theorem unsignedNumber_signed {sign ds : List Char} (hsign : Sign sign) (hds : Digits ds) :
    unsignedNumber (sign ++ ds) = some ds := by
  obtain ⟨c, rest, hcons⟩ := List.exists_cons_of_ne_nil hds.ne_nil
  have hhead : ds.head?.any isDigit = true := by
    rw [hcons]
    exact hds.digits c (hcons ▸ List.mem_cons_self)
  unfold unsignedNumber
  rw [signText_signed hsign hds]
  simp [hhead, hds.numberText_eq]

section

variable {B : Budgets} {F : FloatOps} {v : Node} {sign ds : List Char} {line : ℕ} {t : Tally}

theorem overIntBits_made {α : Type} (n : ℕ) (f : Bool → Hosting α) (t : Tally) :
    (Hosting.made (overIntBits B n) >>= f) t =
      f (B.maxIntBits.any (· < n)) { t with peakIntBits := max t.peakIntBits n } := rfl

theorem affordable_iff {n : ℕ} :
    ¬B.maxIntBits.any (· < n) = true ↔ ∀ cap ∈ B.maxIntBits, n ≤ cap := by
  cases B.maxIntBits <;> simp

theorem made_miss_ne {reason op : String} {inputs : List Node} {n : Num} :
    (Hosting.made (makeMiss reason line op inputs) t).map (fun r ↦ r.1.value) ≠
      some (.num n) := by
  simp [Hosting.made, makeMiss, value_derived, mkMiss]

theorem num_signed (hsign : Sign sign) (hds : Digits ds)
    (hvalue : v.value = .str (String.ofList (sign ++ ds))) :
    num B F v line = numberOf B F v v.value (sign ++ ds) ds line := by
  unfold num
  rw [hvalue]
  dsimp only
  rw [String.toList_ofList, strip_signed hsign hds, unsignedNumber_signed hsign hds]

/-- More digits than the host takes are refused. -/
theorem num_limit (hsign : Sign sign) (hds : Digits ds)
    (hvalue : v.value = .str (String.ofList (sign ++ ds))) (hlength : showIntDigits < ds.length) :
    num B F v line =
      Hosting.made (makeMiss ("num: " ++ numTextLimit ds.length) line "num" [v]) := by
  rw [num_signed hsign hds hvalue, numberOf, hds.isFloatText_eq]
  simp [hlength]

/-- What the digits are estimated to cost is charged, and then they are read or refused. -/
theorem num_charged (hsign : Sign sign) (hds : Digits ds)
    (hvalue : v.value = .str (String.ofList (sign ++ ds))) (hlength : ds.length ≤ showIntDigits) :
    (num B F v line t).map (fun r ↦ r.1.value) =
      some (if B.maxIntBits.any (· < digitBits ds.length) then
          mkMiss [s!"{intSizeReason B (digitBits ds.length)} (line {line})"]
        else .num (.int (signed sign ds))) := by
  have hshort : ¬showIntDigits < ds.length := Nat.not_lt.mpr hlength
  rw [num_signed hsign hds hvalue, numberOf, hds.isFloatText_eq]
  simp only [Bool.false_eq_true, if_false, hshort, signText_signed hsign hds, hds.intOf_eq hlength]
  rw [overIntBits_made]
  by_cases hover : B.maxIntBits.any (· < digitBits ds.length) = true
  · rw [if_pos hover, if_pos hover]
    rfl
  · rw [if_neg hover, if_neg hover]
    rfl

/-- Digits that are estimated to cost more than the budget are refused. -/
theorem num_refused (hsign : Sign sign) (hds : Digits ds)
    (hvalue : v.value = .str (String.ofList (sign ++ ds))) (hlength : ds.length ≤ showIntDigits)
    {cap : ℕ} (hcap : cap ∈ B.maxIntBits) (hover : cap < digitBits ds.length) :
    (num B F v line t).map (fun r ↦ r.1.value) =
      some (mkMiss [s!"{intSizeReason B (digitBits ds.length)} (line {line})"]) := by
  have hany : B.maxIntBits.any (· < digitBits ds.length) = true := by
    rw [Option.mem_def.mp hcap]
    simpa using hover
  rw [num_charged hsign hds hvalue hlength, if_pos hany]

/-- Digits are read where what they are estimated to cost is within the budget. -/
theorem num_reads (hsign : Sign sign) (hds : Digits ds)
    (hvalue : v.value = .str (String.ofList (sign ++ ds))) (hlength : ds.length ≤ showIntDigits)
    (hcost : ∀ cap ∈ B.maxIntBits, digitBits ds.length ≤ cap) :
    (num B F v line t).map (fun r ↦ r.1.value) = some (.num (.int (signed sign ds))) := by
  rw [num_charged hsign hds hvalue hlength, if_neg (affordable_iff.mpr hcost)]

end

/-! ## What digits cost -/

theorem pow_ratio {x y a b : ℕ} (h : x ^ a ≤ y ^ b) (k : ℕ) : (x ^ k) ^ a ≤ (y ^ k) ^ b := by
  calc (x ^ k) ^ a = (x ^ a) ^ k := Nat.pow_right_comm x k a
    _ ≤ (y ^ b) ^ k := Nat.pow_le_pow_left h k
    _ = (y ^ k) ^ b := Nat.pow_right_comm y b k

/-- `33219 / 10000` is the logarithm of ten, rounded down. -/
theorem two_pow_le_ten_pow (k : ℕ) : (2 ^ k) ^ 33219 ≤ (10 ^ k) ^ 10000 := by
  apply pow_ratio
  decide +kernel

theorem ten_pow_le_two_pow (k : ℕ) : (10 ^ k) ^ 10000 ≤ (2 ^ k) ^ 33220 := by
  apply pow_ratio
  decide +kernel

theorem exponent_le {x a b k m : ℕ} (h : (2 ^ k) ^ a ≤ (x ^ k) ^ b) (hle : x ^ k ≤ 2 ^ m) :
    k * a ≤ m * b := by
  have hpow : 2 ^ (k * a) ≤ 2 ^ (m * b) := by
    calc 2 ^ (k * a) = (2 ^ k) ^ a := Nat.pow_mul 2 k a
      _ ≤ (x ^ k) ^ b := h
      _ ≤ (2 ^ m) ^ b := Nat.pow_le_pow_left hle b
      _ = 2 ^ (m * b) := (Nat.pow_mul 2 m b).symm
  exact (Nat.pow_le_pow_iff_right (by decide)).mp hpow

theorem le_of_exponent_le {x a b k m : ℕ} (h : (x ^ k) ^ b ≤ (2 ^ k) ^ a) (hle : k * a ≤ m * b)
    (hb : b ≠ 0) : x ^ k ≤ 2 ^ m := by
  have hpow : (x ^ k) ^ b ≤ (2 ^ m) ^ b := by
    calc (x ^ k) ^ b ≤ (2 ^ k) ^ a := h
      _ = 2 ^ (k * a) := (Nat.pow_mul 2 k a).symm
      _ ≤ 2 ^ (m * b) := Nat.pow_le_pow_right (by decide) hle
      _ = (2 ^ m) ^ b := Nat.pow_mul 2 m b
  exact (Nat.pow_le_pow_iff_left hb).mp hpow

/-- Digits that begin with no zero are over-charged by three bits at most. -/
theorem digitBits_toDigits_le (n : ℤ) :
    digitBits (Nat.toDigits 10 n.natAbs).length ≤ bitLength n + 3 := by
  obtain ⟨k, hk⟩ : ∃ k, (Nat.toDigits 10 n.natAbs).length = k + 1 :=
    Nat.exists_eq_succ_of_ne_zero (by simp [Nat.toDigits_ne_nil])
  have hpow : k = 0 ∨ 10 ^ k ≤ n.natAbs := by
    rcases Nat.eq_zero_or_pos k with hzero | hpos
    · exact .inl hzero
    · right
      by_contra hlt
      have hle := (Nat.length_toDigits_le_iff (by decide) hpos).mpr (Nat.not_le.mp hlt)
      omega
  have hbits : 33219 * k ≤ 10000 * bitLength n := by
    rcases hpow with hzero | hpow
    · simp [hzero]
    · have hle : 10 ^ k ≤ 2 ^ bitLength n := hpow.trans (bitLength_le_iff.mp (Nat.le_refl _)).le
      have hexp := exponent_le (two_pow_le_ten_pow k) hle
      omega
  rw [hk, digitBits]
  omega

/-- Digits are under-charged by two bits at most. -/
theorem bitLength_le_digitBits {sign ds : List Char} (hlength : ds.length ≤ showIntDigits)
    (hds : Digits ds) : bitLength (signed sign ds) ≤ digitBits ds.length + 2 := by
  have hden : (signed sign ds).natAbs = denoted ds := by
    unfold signed
    split <;> simp
  have hlt : denoted ds < 10 ^ ds.length := hds.denoted_lt
  have hpow : 10 ^ ds.length ≤ 2 ^ (digitBits ds.length + 2) := by
    apply le_of_exponent_le (ten_pow_le_two_pow ds.length) _ (by decide)
    unfold showIntDigits at hlength
    unfold digitBits
    omega
  apply bitLength_le_iff.mpr
  rw [hden]
  exact hlt.trans_le hpow

/-! ## Writing -/

theorem toString_int (n : ℤ) : ∃ sign, Sign sign ∧
    toString n = String.ofList (sign ++ Nat.toDigits 10 n.natAbs) ∧
      signed sign (Nat.toDigits 10 n.natAbs) = n := by
  rw [Int.toString_eq_repr, Int.repr_eq_if]
  by_cases hn : 0 ≤ n
  · refine ⟨[], .none, ?_, ?_⟩
    · have hnat : n.toNat = n.natAbs := by omega
      rw [if_pos hn, hnat, Nat.repr_eq_ofList_toDigits, List.nil_append]
    · rw [signed, if_neg (by decide), denoted_toDigits]
      omega
  · refine ⟨['-'], .minus, ?_, ?_⟩
    · have hnat : (-n).toNat = n.natAbs := by omega
      rw [if_neg hn, hnat, Nat.repr_eq_ofList_toDigits, String.ofList_append]
    · rw [signed, if_pos rfl, denoted_toDigits]
      omega

/-- A summary is no numeral. -/
theorem short_of_full {n : ℤ} (h : showInteger n = toString n) : n.natAbs < 2 ^ showIntBits := by
  by_contra hlong
  obtain ⟨sign, hsign, htext, _⟩ := toString_int n
  rw [showInteger, if_neg hlong, htext] at h
  have hhead := congrArg (fun s : String ↦ s.toList.head?) h
  have hmem : '<' ∈ sign ++ Nat.toDigits 10 n.natAbs := by
    have hopen : (toString "<integer, ").toList.head? = some '<' := by decide
    apply List.mem_of_head?
    simp only [String.toList_ofList, String.toList_append, List.head?_append, hopen,
      Option.some_or] at hhead
    rw [List.head?_append, hhead]
  rcases List.mem_append.mp hmem with hmem | hmem
  · cases hsign <;> simp at hmem
  · have := (digits_toDigits n.natAbs).digits '<' hmem
    revert this
    decide

theorem digits_of_short {n : ℤ} (h : n.natAbs < 2 ^ showIntBits) :
    (Nat.toDigits 10 n.natAbs).length ≤ showIntDigits := by
  have hcut : 2 ^ showIntBits ≤ 10 ^ showIntDigits := by decide +kernel
  have hlt : n.natAbs < 10 ^ showIntDigits := Nat.lt_of_lt_of_le h hcut
  exact (Nat.length_toDigits_le_iff (by decide) (by decide)).mpr hlt

theorem fullShow_int {F : FloatOps} {H : Histories} (n : ℤ) :
    fullShow F H (.num (.int n)) = showInteger n := by
  simp only [fullShow, Payload.renderFull, Payload.render, Num.render]

theorem num_str {B : Budgets} {F : FloatOps} {H : Histories} {v : Node} {n : ℤ} {line line' : ℕ}
    {t t' : Tally} (hn : v.value = .num (.int n)) (hfull : fullShow F H v.value = toString n)
    (hcost : ∀ cap ∈ B.maxIntBits, bitLength n + 3 ≤ cap) :
    (num B F (str F H v line t).1 line' t').map (fun r ↦ r.1.value) = some (.num (.int n)) := by
  obtain ⟨sign, hsign, htext, hsigned⟩ := toString_int n
  have hvalue : (str F H v line t).1.value =
      .str (String.ofList (sign ++ Nat.toDigits 10 n.natAbs)) := by
    rw [str, value_derived, hfull, htext]
  have hshow : showInteger n = toString n := by
    rw [hn, fullShow_int] at hfull
    exact hfull
  rw [num_reads hsign (digits_toDigits n.natAbs) hvalue (digits_of_short (short_of_full hshow)) _,
    hsigned]
  intro cap hcap
  exact (digitBits_toDigits_le n).trans (hcost cap hcap)

/-- What digits come to is the integer they denote, over the budget by two bits at most, or a
miss. -/
theorem num_denotes {B : Budgets} {F : FloatOps} {v : Node} {sign ds : List Char} {line : ℕ}
    {t : Tally} (hsign : Sign sign) (hds : Digits ds)
    (hvalue : v.value = .str (String.ofList (sign ++ ds))) :
    ((num B F v line t).map (fun r ↦ r.1.value) = some (.num (.int (signed sign ds))) ∧
      ∀ cap ∈ B.maxIntBits, bitLength (signed sign ds) ≤ cap + 2) ∨
    ∃ reasons, (num B F v line t).map (fun r ↦ r.1.value) = some (mkMiss reasons) := by
  rcases Nat.lt_or_ge showIntDigits ds.length with hlong | hshort
  · right
    rw [num_limit hsign hds hvalue hlong]
    exact ⟨_, rfl⟩
  · by_cases hcost : ∀ cap ∈ B.maxIntBits, digitBits ds.length ≤ cap
    · refine .inl ⟨num_reads hsign hds hvalue hshort hcost, ?_⟩
      intro cap hcap
      have hbits : bitLength (signed sign ds) ≤ _ := bitLength_le_digitBits hshort hds
      have := hcost cap hcap
      omega
    · simp only [not_forall, Nat.not_le] at hcost
      obtain ⟨cap, hcap, hover⟩ := hcost
      exact .inr ⟨_, num_refused hsign hds hvalue hshort hcap hover⟩

/-- `num` reads what `str` writes, and digits in general, if they are estimated to fit, and refuses
them if they are not.  What digits come to is in any case the integer they denote or a miss, and
the integer is over the budget by two bits at most. -/
theorem num_reads_digits (B : Budgets) (F : FloatOps) (H : Histories) :
    (∀ (v : Node) (n : ℤ) (line line' : ℕ) (t t' : Tally), v.value = .num (.int n) →
      fullShow F H v.value = toString n → (∀ cap ∈ B.maxIntBits, bitLength n + 3 ≤ cap) →
      (num B F (str F H v line t).1 line' t').map (fun r ↦ r.1.value) =
        some (.num (.int n))) ∧
    ∀ (v : Node) (sign ds : List Char) (line : ℕ) (t : Tally), Sign sign → Digits ds →
      v.value = .str (String.ofList (sign ++ ds)) →
      (showIntDigits < ds.length → (num B F v line t).map (fun r ↦ r.1.value) =
        some (mkMiss [s!"num: {numTextLimit ds.length} (line {line})"])) ∧
      (ds.length ≤ showIntDigits → (∀ cap ∈ B.maxIntBits, digitBits ds.length ≤ cap) →
        (num B F v line t).map (fun r ↦ r.1.value) = some (.num (.int (signed sign ds)))) ∧
      (ds.length ≤ showIntDigits → (∃ cap ∈ B.maxIntBits, cap < digitBits ds.length) →
        (num B F v line t).map (fun r ↦ r.1.value) =
          some (mkMiss [s!"{intSizeReason B (digitBits ds.length)} (line {line})"])) ∧
      (((num B F v line t).map (fun r ↦ r.1.value) = some (.num (.int (signed sign ds))) ∧
          ∀ cap ∈ B.maxIntBits, bitLength (signed sign ds) ≤ cap + 2) ∨
        ∃ reasons, (num B F v line t).map (fun r ↦ r.1.value) = some (mkMiss reasons)) := by
  constructor
  · intro v n line line' t t' hn hfull hcost
    exact num_str hn hfull hcost
  · intro v sign ds line t hsign hds hvalue
    refine ⟨?_, ?_, ?_, ?_⟩
    · intro hlong
      rw [num_limit hsign hds hvalue hlong]
      rfl
    · intro hlength hcost
      exact num_reads hsign hds hvalue hlength hcost
    · rintro hlength ⟨cap, hcap, hover⟩
      exact num_refused hsign hds hvalue hlength hcap hover
    · exact num_denotes hsign hds hvalue

theorem digits_zeros {k : ℕ} (hk : k ≠ 0) : Digits (List.replicate k '0') := by
  constructor
  · simpa using hk
  · intro c hc
    rw [List.eq_of_mem_replicate hc]
    decide

/-- Zero written in more digits than the host takes is refused, though it fits every budget. -/
theorem zeros_refused : ¬∀ (B : Budgets) (F : FloatOps) (H : Histories),
    (∀ (v : Node) (n : ℤ) (line line' : ℕ) (t t' : Tally), v.value = .num (.int n) →
      fullShow F H v.value = toString n → (∀ cap ∈ B.maxIntBits, bitLength n ≤ cap) →
      (num B F (str F H v line t).1 line' t').map (fun r ↦ r.1.value) =
        some (.num (.int n))) ∧
    ∀ (v : Node) (sign ds : List Char) (line : ℕ) (t : Tally), Sign sign → Digits ds →
      v.value = .str (String.ofList (sign ++ ds)) →
      ((num B F v line t).map (fun r ↦ r.1.value) = some (.num (.int (signed sign ds))) ↔
        ∀ cap ∈ B.maxIntBits, bitLength (signed sign ds) ≤ cap) := by
  intro h
  have hds : Digits (List.replicate 4001 '0') := digits_zeros (by decide)
  obtain ⟨_, hreads⟩ := h ⟨none, none, by simp⟩ oneTextFloats
    ⟨fun _ ↦ "", fun _ _ ↦ "", fun _ _ ↦ [], by simp⟩
  have hread := (hreads
    (.mk (.made 0) "literal" "" 1 [] 1 (.str (String.ofList ([] ++ List.replicate 4001 '0'))))
    [] (List.replicate 4001 '0') 1 {} .none hds (by rw [Node.value])).mpr nofun
  rw [num_limit .none hds (by rw [Node.value]) (by rw [List.length_replicate]; decide)] at hread
  exact made_miss_ne hread

end Builtin

end NucLlm.Whence
