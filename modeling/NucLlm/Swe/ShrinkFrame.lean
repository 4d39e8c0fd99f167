import NucLlm.Swe.Shrink

/-!
# What shrinking leaves alone

Shrinking changes the state only by asking, so it preserves whatever every question preserves.
-/

namespace NucLlm.Swe

variable {σ : Type} {I : σ → Prop}

theorem ddminFrom_preserves {ε α : Type} {keep : List α → Exec ε σ Bool}
    (hkeep : ∀ l, (keep l).Preserves I) (s : Sweep α) : (ddminFrom keep s).Preserves I := by
  induction s using ddminFrom.induct with
  | case1 s hi hnil ih =>
    rw [ddminFrom, dif_pos hi, if_pos hnil]
    exact ih
  | case2 s hi hnil ihcut ihskip =>
    rw [ddminFrom, dif_pos hi, if_neg hnil]
    apply (hkeep s.candidate).bind
    rintro (_ | _)
    · exact ihskip
    · exact ihcut
  | case3 s hi hremoved hlen ih =>
    rw [ddminFrom, dif_neg hi, if_pos hremoved, if_pos hlen]
    exact ih
  | case4 s hi hremoved hlen =>
    rw [ddminFrom, dif_neg hi, if_pos hremoved, if_neg hlen]
    exact Exec.preserves_pure _ I
  | case5 s hi hremoved hn =>
    rw [ddminFrom, dif_neg hi, if_neg hremoved, dif_pos hn]
    exact Exec.preserves_pure _ I
  | case6 s hi hremoved hn ih =>
    rw [ddminFrom, dif_neg hi, if_neg hremoved, dif_neg hn]
    exact ih

theorem ddminLines_preserves {ε α : Type} {keep : List α → Exec ε σ Bool}
    (hkeep : ∀ l, (keep l).Preserves I) (lines : List α) :
    (ddminLines keep lines).Preserves I := by
  unfold ddminLines
  split
  · exact ddminFrom_preserves hkeep _
  · exact Exec.preserves_pure _ I

section

variable {keepLine : Text → Exec ShrinkRaised σ Bool} (hkeep : ∀ t, (keepLine t).Preserves I)

include hkeep

theorem shorten_preserves (line : Text) (run : Option Run) :
    (shorten keepLine line run).Preserves I := by
  cases run with
  | none => exact Exec.preserves_pure _ I
  | some run =>
    apply (bisect_preserves (fun n ↦ hkeep (run.build n)) _ _ _).bind
    exact fun best ↦ Exec.preserves_pure _ I

theorem shortenUnits_preserves (units : List Text) (line : Text) :
    (shortenUnits keepLine units line).Preserves I := by
  induction units generalizing line with
  | nil => exact Exec.preserves_pure _ I
  | cons unit units ih => exact (shorten_preserves hkeep _ _).bind fun line ↦ ih line

theorem minimizeRepeats_preserves (line : Text) :
    (minimizeRepeats line keepLine).Preserves I := by
  unfold minimizeRepeats
  apply (shorten_preserves hkeep _ _).bind
  intro line
  apply (shorten_preserves hkeep _ _).bind
  exact fun line ↦ shortenUnits_preserves hkeep _ _

theorem minimizeSpans_preserves (A : Alphabet) (spans : List (ℕ × ℕ)) (line : Text) :
    (minimizeSpans A keepLine spans line).Preserves I := by
  induction spans generalizing line with
  | nil => exact Exec.preserves_pure _ I
  | cons span spans ih =>
    have hint : (int A ((line.take span.2).drop span.1) : Exec ShrinkRaised σ ℕ).Preserves I := by
      unfold int
      split
      · exact Exec.preserves_fail _ I
      · exact Exec.preserves_pure _ I
    apply hint.bind
    intro value
    apply (bisect_preserves (fun n ↦ hkeep _) _ _ _).bind
    exact fun best ↦ ih _

end

variable {A : Alphabet} {keep : Text → Exec ShrinkRaised σ Bool}
  (hkeep : ∀ t, (keep t).Preserves I)

include hkeep

theorem polishLines_preserves (done rest : List Text) :
    (polishLines A keep done rest).Preserves I := by
  induction rest generalizing done with
  | nil => exact Exec.preserves_pure _ I
  | cons line rest ih =>
    have hkeepLine (cand : Text) := hkeep (render (done ++ cand :: rest))
    apply (minimizeRepeats_preserves hkeepLine line).bind
    intro mid
    apply (minimizeSpans_preserves hkeepLine A _ mid).bind
    exact fun out ↦ ih _

theorem shrinkRounds_preserves (rounds : ℕ) (lines : List Text) :
    (shrinkRounds A keep rounds lines).Preserves I := by
  induction rounds generalizing lines with
  | zero => exact Exec.preserves_pure _ I
  | succ rounds ih =>
    apply (ddminLines_preserves (fun ls ↦ hkeep (render ls)) lines).bind
    intro fewer
    apply (polishLines_preserves hkeep [] fewer).bind
    intro polished
    split
    · exact Exec.preserves_pure _ I
    · exact ih _

theorem shrink_preserves (src : Text) (rounds : ℕ) : (shrink A keep src rounds).Preserves I := by
  apply (hkeep _).bind
  rintro (_ | _)
  · exact Exec.preserves_pure _ I
  · exact (shrinkRounds_preserves hkeep rounds _).bind fun lines ↦ Exec.preserves_pure _ I

end NucLlm.Swe
