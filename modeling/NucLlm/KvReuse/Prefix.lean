import NucLlm.Lib.Buffer
import Mathlib.Data.Int.Notation

/-!
# The record of fed token ids

`kv_prefix` keeps the ids the engine's state was built from, in a buffer of
`cap` positions of which the first `len` count.  Positions and lengths are
natural numbers; the gateway keeps them far below the range of `int`.
-/

namespace NucLlm.KvReuse

open Buffer

abbrev Token := ℤ

structure KvPrefix where
  fed : Option (ℕ → Token)
  len : ℕ
  cap : ℕ
  tainted : Bool

namespace KvPrefix

def empty : KvPrefix := ⟨none, 0, 0, false⟩

/-- `fed[0..len)`. -/
def ids (p : KvPrefix) : List Token :=
  match p.fed with
  | none => []
  | some fed => (List.range p.len).map fed

/-- `kv_prefix_clear`. -/
def clear (p : KvPrefix) : KvPrefix := { p with len := 0, tainted := false }

/-- The record `kv_prefix_grow` leaves when its allocation fails. -/
def free : KvPrefix := empty

/-- The buffer of `cap` zeroes that takes over the first `keep` ids. -/
def grown (fed : Option (ℕ → Token)) (keep : ℕ) : ℕ → Token :=
  match fed with
  | none => fun _ ↦ 0
  | some old => copyTo (fun _ ↦ 0) 0 fun i : Fin keep ↦ old i

/-- `kv_prefix_grow`, and whether it returns 1; `allocated` says whether its
`calloc` succeeds. -/
def grow (allocated : Bool) (p : KvPrefix) (cap keep : ℕ) : KvPrefix × Bool :=
  if cap = 0 then (p, false)
  else if !allocated then (free, false)
  else
    let keep := min (min keep p.len) cap
    ({ p with fed := some (grown p.fed keep), cap := cap, len := keep }, true)

/-- `if (!kv_prefix_grow(..)) kv_prefix_clear(..)`. -/
def growOrClear (allocated : Bool) (p : KvPrefix) (cap keep : ℕ) : KvPrefix :=
  let (p, ok) := p.grow allocated cap keep
  if ok then p else p.clear

/-- `kv_prefix_record`. -/
def record (p : KvPrefix) (ids : List Token) (pos : ℕ) : KvPrefix :=
  match p.fed with
  | none => p
  | some fed =>
      if ids.length = 0 then p
      else if p.cap < pos + ids.length then { p with len := 0 }
      else { p with fed := some (copyTo fed pos ids.get), len := max p.len (pos + ids.length) }

/-- `kv_prefix_reuse`: all of the record, if the prompt begins with it and goes on. -/
def reuse (p : KvPrefix) (prompt : List Token) : ℕ :=
  match p.fed with
  | none => 0
  | some _ =>
      if p.tainted || p.len = 0 || prompt.length ≤ p.len then 0
      else if p.ids = prompt.take p.len then p.len
      else 0

/-- The loop of `q36_lcp` from position `i` on, at most `n` steps. -/
def matchFrom (fed : ℕ → Token) (prompt : List Token) : ℕ → ℕ → ℕ
  | i, 0 => i
  | i, n + 1 => if prompt[i]? = some (fed i) then matchFrom fed prompt (i + 1) n else i

/-- `q36_lcp`. -/
def lcp (p : KvPrefix) (prompt : List Token) : ℕ :=
  match p.fed with
  | none => 0
  | some fed =>
      if p.tainted || p.len = 0 then 0
      else matchFrom fed prompt 0 (min p.len (prompt.length - 1))

/-! ## What the operations do to the recorded ids -/

variable {p : KvPrefix}

theorem length_ids (h : p.fed = none → p.len = 0) : p.ids.length = p.len := by
  unfold ids
  split
  · rename_i hnone
    exact (h hnone).symm
  · simp

@[simp] theorem ids_clear (p : KvPrefix) : p.clear.ids = [] := by
  unfold ids clear
  cases p.fed <;> rfl

theorem ids_truncate {k : ℕ} (hk : k ≤ p.len) : ids { p with len := k } = p.ids.take k := by
  unfold ids
  cases p.fed with
  | none => simp
  | some fed => rw [← List.map_take, List.take_range, Nat.min_eq_left hk]

theorem ids_congr {fed fed' : ℕ → Token} {n : ℕ} (h : ∀ i < n, fed i = fed' i) :
    (List.range n).map fed = (List.range n).map fed' :=
  List.map_congr_left fun i hi ↦ h i (List.mem_range.mp hi)

theorem map_copyTo_end (fed : ℕ → Token) (n : ℕ) (toks : List Token) :
    (List.range (n + toks.length)).map (copyTo fed n toks.get) =
      (List.range n).map fed ++ toks := by
  rw [List.range_add, List.map_append, List.map_map]
  congr 1
  · refine ids_congr fun i hi ↦ copyTo_outside ?_
    omega
  · refine List.ext_getElem (by simp) fun i hi hi' ↦ ?_
    have := copyTo_inside fed n toks.get ⟨i, hi'⟩
    simpa using this

/-- Ids fed at the end of the record extend it. -/
theorem record_end {toks : List Token} (hfed : p.fed.isSome) (htoks : toks ≠ [])
    (hcap : p.len + toks.length ≤ p.cap) :
    (p.record toks p.len).fed.isSome ∧ (p.record toks p.len).len = p.len + toks.length ∧
      (p.record toks p.len).ids = p.ids ++ toks ∧ (p.record toks p.len).cap = p.cap ∧
      (p.record toks p.len).tainted = p.tainted := by
  obtain ⟨fed, hsome⟩ := Option.isSome_iff_exists.mp hfed
  have hlen : toks.length ≠ 0 := by simpa using htoks
  have hrecord : p.record toks p.len =
      { p with fed := some (copyTo fed p.len toks.get), len := p.len + toks.length } := by
    unfold record
    rw [hsome]
    dsimp only
    rw [if_neg hlen, if_neg (Nat.not_lt.mpr hcap), Nat.max_eq_right (Nat.le_add_right _ _)]
  rw [hrecord]
  refine ⟨rfl, rfl, ?_, rfl, rfl⟩
  simp only [ids, hsome]
  exact map_copyTo_end fed p.len toks

theorem record_none {toks : List Token} {pos : ℕ} (hfed : p.fed = none) :
    p.record toks pos = p := by
  unfold record
  rw [hfed]

/-- Growth gives up the record, or keeps its first ids. -/
theorem growOrClear_eq (allocated : Bool) {cap keep : ℕ} (hcap : 0 < cap) (hkeep : keep ≤ p.len)
    (hfit : keep ≤ cap) :
    p.growOrClear allocated cap keep = empty ∨
      p.growOrClear allocated cap keep =
        { p with fed := some (grown p.fed keep), cap := cap, len := keep } := by
  have hmin : min (min keep p.len) cap = keep := by omega
  unfold growOrClear grow
  rw [if_neg (by omega)]
  cases allocated with
  | false => exact Or.inl rfl
  | true =>
      right
      simp only [Bool.not_true, Bool.false_eq_true, if_false, if_true]
      rw [hmin]

/-- A record that grows keeps its first ids. -/
theorem map_grown {keep : ℕ} (hkeep : keep ≤ p.len) (hfed : p.fed.isSome) :
    (List.range keep).map (grown p.fed keep) = p.ids.take keep := by
  obtain ⟨fed, hsome⟩ := Option.isSome_iff_exists.mp hfed
  simp only [ids, hsome, grown]
  rw [← List.map_take, List.take_range, Nat.min_eq_left hkeep]
  refine ids_congr fun i hi ↦ ?_
  have := copyTo_inside (fun _ ↦ (0 : Token)) 0 (fun i : Fin keep ↦ fed i) ⟨i, hi⟩
  simpa using this

/-- A record that is reused is a proper prefix of the prompt. -/
theorem reuse_spec {prompt : List Token} (h : p.reuse prompt ≠ 0) :
    p.fed.isSome ∧ p.reuse prompt = p.len ∧ p.len < prompt.length ∧
      p.ids = prompt.take p.len := by
  unfold reuse at h ⊢
  split at h
  · contradiction
  · rename_i fed hfed
    split at h
    · contradiction
    · rename_i hcond
      simp only [Bool.or_eq_true, decide_eq_true_eq, not_or, Nat.not_le] at hcond
      split at h
      · rename_i hids
        refine ⟨by rw [hfed]; rfl, ?_, hcond.2, hids⟩
        rw [if_neg (by simp [hcond]), if_pos hids]
      · contradiction

theorem matchFrom_spec (fed : ℕ → Token) (prompt : List Token) :
    ∀ n i, matchFrom fed prompt i n ≤ i + n ∧
      ∀ j, i ≤ j → j < matchFrom fed prompt i n → prompt[j]? = some (fed j) := by
  intro n
  induction n with
  | zero =>
      intro i
      refine ⟨Nat.le_refl i, fun j hij hj ↦ ?_⟩
      exact absurd (Nat.lt_of_le_of_lt hij hj) (Nat.lt_irrefl i)
  | succ n ih =>
      intro i
      unfold matchFrom
      split
      · rename_i heq
        obtain ⟨hle, hmatch⟩ := ih (i + 1)
        refine ⟨by omega, fun j hij hj ↦ ?_⟩
        rcases Nat.eq_or_lt_of_le hij with rfl | hlt
        · exact heq
        · exact hmatch j hlt hj
      · refine ⟨Nat.le_add_right i _, fun j hij hj ↦ ?_⟩
        exact absurd (Nat.lt_of_le_of_lt hij hj) (Nat.lt_irrefl i)

/-- The record and the prompt agree up to the common prefix, which leaves a
token of the prompt to feed. -/
theorem lcp_spec {prompt : List Token} (hprompt : prompt ≠ []) :
    p.lcp prompt ≤ p.len ∧ p.lcp prompt < prompt.length ∧
      p.ids.take (p.lcp prompt) = prompt.take (p.lcp prompt) := by
  have hpos : 0 < prompt.length := List.length_pos_iff.mpr hprompt
  unfold lcp
  split
  · simpa using hpos
  · rename_i fed hfed
    split
    · simpa using hpos
    · obtain ⟨hle, hmatch⟩ := matchFrom_spec fed prompt (min p.len (prompt.length - 1)) 0
      generalize hn : matchFrom fed prompt 0 (min p.len (prompt.length - 1)) = n at hle hmatch
      refine ⟨by omega, by omega, ?_⟩
      have hids : p.ids = (List.range p.len).map fed := by
        unfold ids
        rw [hfed]
      rw [hids, ← List.map_take, List.take_range, Nat.min_eq_left (by omega)]
      refine List.ext_getElem (by simp; omega) fun i hi hi' ↦ ?_
      have hi : i < n := by simpa using hi
      have hget := hmatch i (Nat.zero_le i) hi
      rw [List.getElem?_eq_getElem (by omega), Option.some.injEq] at hget
      simp [hget]

end KvPrefix

end NucLlm.KvReuse
