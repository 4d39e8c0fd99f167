import NucLlm.AgentLoop.Agent
import Mathlib.Data.List.Infix

/-!
# Truncated observations

A text over the limit loses its middle to a notice.  The notice has no part in the limit, so
the result is only shorter where the notice is shorter than what is cut.
-/

namespace NucLlm.AgentLoop

/-- What `_run` notes of an observation: it has another length than the text. -/
def truncated (text observation : String) : Bool := decide (observation.length ≠ text.length)

/-- The notice, without the numbers. -/
def noticeLength (cut total : ℕ) : ℕ := 40 + cut.repr.length + total.repr.length

/-- What is kept of a text: all of it where it fits, and else a prefix and a suffix of `limit`
characters around a notice. -/
structure Keeps (text : String) (limit : ℤ) (observation : String) : Prop where
  fits : (text.length : ℤ) ≤ limit → observation = text
  cut : limit < text.length → observation.length ≤ text.length ∧
    ∃ head notice tail : String, observation = head ++ notice ++ tail ∧
      head.toList <+: text.toList ∧ tail.toList <:+ text.toList ∧
      (head.length + tail.length : ℤ) = limit
  flag : truncated text observation = true ↔ limit < text.length

/-- Truncation returns what is kept. -/
def OnlyShrinks (text : String) (limit : ℤ) : Prop :=
  ∃ observation, truncateObservation text limit.toNat = some observation ∧
    Keeps text limit observation

theorem truncateObservation_fits {text : String} {limit : ℕ} (hpos : 0 < limit)
    (h : text.length ≤ limit) : truncateObservation text limit = some text := by
  unfold truncateObservation
  dsimp only
  rw [if_neg hpos.ne', if_pos (by rw [String.length_toList]; exact h)]

/-- A text over the limit: its head, the notice and its tail. -/
theorem truncateObservation_cut (text : String) (limit : ℕ) (hpos : 0 < limit)
    (h : limit < text.length) : ∃ head notice tail : String,
      truncateObservation text limit = some (head ++ notice ++ tail) ∧
      head.toList <+: text.toList ∧ tail.toList <:+ text.toList ∧
      head.length + tail.length = limit ∧
      notice.length = noticeLength (text.length - limit) text.length := by
  have hlength := String.length_toList (s := text)
  have hhead : limit * 2 / 3 ≤ limit := by omega
  refine ⟨String.ofList (text.toList.take (limit * 2 / 3)),
    s!"\n... [TRUNCATED: {text.length - limit} of {text.length} chars elided] ...\n",
    String.ofList (text.toList.drop (text.length - (limit - limit * 2 / 3))), ?_, ?_, ?_, ?_, ?_⟩
  · unfold truncateObservation
    dsimp only
    rw [if_neg hpos.ne', if_neg (by rw [hlength]; omega), hlength,
      show text.length - limit * 2 / 3 - (limit - limit * 2 / 3) = text.length - limit by omega]
  · rw [String.toList_ofList]
    exact List.take_prefix _ _
  · rw [String.toList_ofList]
    exact List.drop_suffix _ _
  · rw [String.length_ofList, String.length_ofList, List.length_take, List.length_drop, hlength]
    omega
  · have hopening : "\n... [TRUNCATED: ".length = 17 := by decide
    have hbetween : " of ".length = 4 := by decide
    have hclosing : " chars elided] ...\n".length = 19 := by decide
    unfold noticeLength
    simp only [toString, String.length_append]
    omega

theorem truncated_iff (text observation : String) :
    truncated text observation = true ↔ observation.length ≠ text.length := by
  unfold truncated
  exact decide_eq_true_iff

theorem OnlyShrinks.notice_lt {text : String} {limit : ℤ} (h : OnlyShrinks text limit)
    (hpos : 0 < limit) (hcut : limit < text.length) :
    (noticeLength (text.length - limit.toNat) text.length : ℤ) < text.length - limit := by
  obtain ⟨head, notice, tail, heq, -, -, hlengths, hnotice⟩ :=
    truncateObservation_cut text limit.toNat (by omega) (by omega)
  obtain ⟨observation, hobservation, hkeeps⟩ := h
  obtain rfl := Option.some.inj (heq.symm.trans hobservation)
  have hle := (hkeeps.cut hcut).1
  have hne := (truncated_iff _ _).mp (hkeeps.flag.mpr hcut)
  rw [String.length_append, String.length_append] at hle hne
  omega

/-- Truncation only shrinks if the limit is one and the notice is shorter than what is cut. -/
theorem onlyShrinks_iff (text : String) (limit : ℤ) :
    OnlyShrinks text limit ↔ 0 < limit ∧ ((text.length : ℤ) ≤ limit ∨
      (noticeLength (text.length - limit.toNat) text.length : ℤ) < text.length - limit) := by
  rcases le_or_gt limit 0 with hzero | hpos
  · have hraises : truncateObservation text limit.toNat = none := by
      unfold truncateObservation
      dsimp only
      rw [if_pos (Int.toNat_of_nonpos hzero)]
    constructor
    · rintro ⟨observation, heq, -⟩
      rw [hraises] at heq
      contradiction
    · rintro ⟨hpos, -⟩
      omega
  · rcases le_or_gt (text.length : ℤ) limit with hfits | hcut
    · constructor
      · intro _
        exact ⟨hpos, .inl hfits⟩
      · intro _
        refine ⟨text, truncateObservation_fits (by omega) (by omega), ?_⟩
        constructor
        · intro _
          rfl
        · intro hcut
          omega
        · rw [truncated_iff]
          omega
    · constructor
      · intro h
        exact ⟨hpos, .inr (h.notice_lt hpos hcut)⟩
      · rintro ⟨-, hfits | hshorter⟩
        · omega
        · obtain ⟨head, notice, tail, heq, hhead, htail, hlengths, hnotice⟩ :=
            truncateObservation_cut text limit.toNat (by omega) (by omega)
          have hlength : (head ++ notice ++ tail).length = limit.toNat + notice.length := by
            rw [String.length_append, String.length_append]
            omega
          refine ⟨_, heq, ?_⟩
          constructor
          · intro hfits
            omega
          · intro _
            exact ⟨by omega, head, notice, tail, rfl, hhead, htail, by omega⟩
          · rw [truncated_iff]
            omega

/-- Of a text that is one character over the limit, one character goes for a notice of 44. -/
theorem truncation_grows : ¬OnlyShrinks (String.ofList (List.replicate 101 'a')) 100 := by
  intro h
  have hnotice := h.notice_lt (by decide) (by decide +kernel)
  revert hnotice
  decide +kernel

end NucLlm.AgentLoop
