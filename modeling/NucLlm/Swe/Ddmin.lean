import NucLlm.Lib.Exec
import Mathlib.Data.List.Basic
import Mathlib.Order.Lattice
import Mathlib.Tactic.Linarith

/-!
# Delta debugging

A list is cut down as long as a predicate accepts what is left.  The chunks that are tried get
smaller as the granularity grows; the list that is returned loses the predicate with any one of its
elements.
-/

namespace NucLlm.Swe

open scoped List

variable {ε σ α : Type}

/-- The variables of `ddmin_lines` inside a pass. -/
structure Sweep (α : Type) where
  lines : List α
  n : ℕ
  chunk : ℕ
  i : ℕ
  removed : Bool
  hn : 2 ≤ n
  hchunk : 1 ≤ chunk

namespace Sweep

/-- The start of a pass. -/
def start (lines : List α) (n : ℕ) (hn : 2 ≤ n) : Sweep α :=
  ⟨lines, n, max 1 (lines.length / n), 0, false, hn, le_max_left _ _⟩

/-- `lines[:i] + lines[i + chunk:]`. -/
def candidate (s : Sweep α) : List α := s.lines.take s.i ++ s.lines.drop (s.i + s.chunk)

/-- The candidate is taken over. -/
def cut (s : Sweep α) : Sweep α :=
  { s with lines := s.candidate, n := max (s.n - 1) 2, removed := true, hn := le_max_right _ _ }

def skip (s : Sweep α) : Sweep α := { s with i := s.i + s.chunk }

theorem length_candidate {s : Sweep α} (h : s.i < s.lines.length) :
    s.candidate.length < s.lines.length := by
  have hchunk := s.hchunk
  unfold candidate
  rw [List.length_append, List.length_take, List.length_drop]
  omega

end Sweep

/-- The loops of `ddmin_lines`, from a place in a pass. -/
def ddminFrom (keep : List α → Exec ε σ Bool) (s : Sweep α) : Exec ε σ (List α) :=
  if hi : s.i < s.lines.length then
    if s.candidate = [] then ddminFrom keep s.skip
    else do
      if ← keep s.candidate then ddminFrom keep s.cut else ddminFrom keep s.skip
  else if s.removed then
    if 2 ≤ s.lines.length then ddminFrom keep (.start s.lines s.n s.hn) else pure s.lines
  else if hn : s.lines.length ≤ s.n then pure s.lines
  else ddminFrom keep (.start s.lines (min (s.n * 2) s.lines.length) (by have := s.hn; omega))
termination_by (s.lines.length, s.removed.toNat, s.lines.length - s.n, s.lines.length - s.i)
decreasing_by
  · have hchunk := s.hchunk
    simp [Sweep.skip, Prod.lex_def]
    omega
  · have hlt := Sweep.length_candidate hi
    simp [Sweep.cut, Prod.lex_def]
    omega
  · have hchunk := s.hchunk
    simp [Sweep.skip, Prod.lex_def]
    omega
  · rename_i hremoved _
    simp [Sweep.start, Prod.lex_def, hremoved]
  · rename_i hremoved
    have hn2 := s.hn
    simp [Sweep.start, Prod.lex_def, hremoved]
    omega

/-- `ddmin_lines`. -/
def ddminLines (keep : List α → Exec ε σ Bool) (lines : List α) : Exec ε σ (List α) :=
  if 2 ≤ lines.length then ddminFrom keep (.start lines 2 le_rfl) else pure lines

/-- What holds at every place of a pass over a list that was once `lines`. -/
structure Sweep.Kept (p : List α → Bool) (lines : List α) (s : Sweep α) : Prop where
  sublist : s.lines <+ lines
  accepted : p s.lines = true
  nonempty : s.lines ≠ []
  chunk_eq : s.removed = false → s.chunk = max 1 (s.lines.length / s.n)
  tried : s.removed = false → s.chunk = 1 → ∀ j < s.i,
    s.lines.eraseIdx j = [] ∨ p (s.lines.eraseIdx j) = false

/-- A list that `p` accepts, and no longer accepts without one of its elements. -/
structure OneMinimal (p : List α → Bool) (lines : List α) : Prop where
  accepted : p lines = true
  minimal : ∀ j < lines.length, lines.eraseIdx j = [] ∨ p (lines.eraseIdx j) = false

namespace Sweep

variable {p : List α → Bool} {lines : List α} {s : Sweep α}

theorem candidate_sublist (s : Sweep α) : s.candidate <+ s.lines := by
  have hdrop : s.lines.drop (s.i + s.chunk) <+ s.lines.drop s.i := by
    rw [← List.drop_drop]
    exact List.drop_sublist _ _
  have h := (List.Sublist.refl (s.lines.take s.i)).append hdrop
  rwa [List.take_append_drop] at h

theorem candidate_of_chunk (h : s.chunk = 1) : s.candidate = s.lines.eraseIdx s.i := by
  unfold candidate
  rw [h, List.eraseIdx_eq_take_drop_succ]

theorem kept_start (n : ℕ) (hn : 2 ≤ n) {current : List α} (hsub : current <+ lines)
    (hp : p current = true) (hne : current ≠ []) : (start current n hn).Kept p lines := by
  constructor
  · exact hsub
  · exact hp
  · exact hne
  · intro _
    rfl
  · intro _ _ j hj
    exact absurd hj (Nat.not_lt_zero j)

theorem Kept.cut (h : s.Kept p lines) (hne : s.candidate ≠ []) (hp : p s.candidate = true) :
    s.cut.Kept p lines := by
  constructor
  · exact s.candidate_sublist.trans h.sublist
  · exact hp
  · exact hne
  · intro hremoved
    simp [Sweep.cut] at hremoved
  · intro hremoved
    simp [Sweep.cut] at hremoved

/-- With chunks of one line the rejected candidate is the list without the line at hand. -/
theorem Kept.skip (h : s.Kept p lines) (hcand : s.candidate = [] ∨ p s.candidate = false) :
    s.skip.Kept p lines := by
  constructor
  · exact h.sublist
  · exact h.accepted
  · exact h.nonempty
  · exact h.chunk_eq
  · intro hremoved hchunk j hj
    have hchunk' : s.chunk = 1 := hchunk
    have hj' : j < s.i + s.chunk := hj
    rw [hchunk'] at hj'
    rcases Nat.lt_succ_iff_lt_or_eq.mp hj' with hlt | rfl
    · exact h.tried hremoved hchunk' j hlt
    · rw [candidate_of_chunk hchunk'] at hcand
      exact hcand

theorem Kept.minimal_of_removed (h : s.Kept p lines) (hlen : ¬2 ≤ s.lines.length) :
    OneMinimal p s.lines := by
  constructor
  · exact h.accepted
  · intro j hj
    left
    apply List.eq_nil_of_length_eq_zero
    rw [List.length_eraseIdx_of_lt hj]
    omega

theorem Kept.minimal_of_fine (h : s.Kept p lines) (hi : ¬s.i < s.lines.length)
    (hremoved : ¬s.removed = true) (hn : s.lines.length ≤ s.n) : OneMinimal p s.lines := by
  have hremoved' : s.removed = false := by simpa using hremoved
  have hn2 := s.hn
  have hchunk : s.chunk = 1 := by
    rw [h.chunk_eq hremoved', max_eq_left]
    rcases hn.lt_or_eq with hlt | heq
    · rw [Nat.div_eq_of_lt hlt]
      exact Nat.zero_le 1
    · rw [heq, Nat.div_self (by omega)]
  constructor
  · exact h.accepted
  · intro j hj
    exact h.tried hremoved' hchunk j (by omega)

end Sweep

variable {keep : List α → Exec ε σ Bool} {p : List α → Bool}

theorem ddminFrom_yields (hkeep : ∀ l, (keep l).Yields (· = p l)) {lines : List α}
    (s : Sweep α) (h : s.Kept p lines) :
    (ddminFrom keep s).Yields fun out ↦ out <+ lines ∧ out ≠ [] ∧ OneMinimal p out := by
  induction s using ddminFrom.induct with
  | case1 s hi hnil ih =>
    rw [ddminFrom, dif_pos hi, if_pos hnil]
    exact ih (h.skip (.inl hnil))
  | case2 s hi hnil ihcut ihskip =>
    rw [ddminFrom, dif_pos hi, if_neg hnil]
    apply (hkeep s.candidate).bind
    intro b hb
    cases hp : p s.candidate with
    | true =>
      rw [hb, hp]
      exact ihcut (h.cut hnil hp)
    | false =>
      rw [hb, hp]
      exact ihskip (h.skip (.inr hp))
  | case3 s hi hremoved hlen ih =>
    rw [ddminFrom, dif_neg hi, if_pos hremoved, if_pos hlen]
    exact ih (Sweep.kept_start _ _ h.sublist h.accepted h.nonempty)
  | case4 s hi hremoved hlen =>
    rw [ddminFrom, dif_neg hi, if_pos hremoved, if_neg hlen]
    exact Exec.yields_pure ⟨h.sublist, h.nonempty, h.minimal_of_removed hlen⟩
  | case5 s hi hremoved hn =>
    rw [ddminFrom, dif_neg hi, if_neg hremoved, dif_pos hn]
    exact Exec.yields_pure ⟨h.sublist, h.nonempty, h.minimal_of_fine hi hremoved hn⟩
  | case6 s hi hremoved hn ih =>
    rw [ddminFrom, dif_neg hi, if_neg hremoved, dif_neg hn]
    exact ih (Sweep.kept_start _ _ h.sublist h.accepted h.nonempty)

theorem ddminLines_yields (hkeep : ∀ l, (keep l).Yields (· = p l)) {lines : List α}
    (hp : p lines = true) :
    (ddminLines keep lines).Yields fun out ↦
      out <+ lines ∧ (out = [] → lines = []) ∧ OneMinimal p out := by
  unfold ddminLines
  split
  · rename_i hlen
    have hne : lines ≠ [] := by
      rintro rfl
      simp at hlen
    have h := ddminFrom_yields hkeep _ (Sweep.kept_start 2 le_rfl (.refl lines) hp hne)
    exact h.mono fun out hout ↦ ⟨hout.1, fun hnil ↦ absurd hnil hout.2.1, hout.2.2⟩
  · rename_i hlen
    apply Exec.yields_pure
    refine ⟨.refl lines, id, hp, fun j hj ↦ .inl ?_⟩
    apply List.eq_nil_of_length_eq_zero
    rw [List.length_eraseIdx_of_lt hj]
    omega

/-- Whatever is accepted, lines are only removed, and not all of them. -/
theorem ddminFrom_sublist (hkeep : ∀ l, (keep l).Yields (· = p l)) {lines : List α}
    (s : Sweep α) (hsub : s.lines <+ lines) (hne : s.lines ≠ []) :
    (ddminFrom keep s).Yields fun out ↦ out <+ lines ∧ out ≠ [] := by
  induction s using ddminFrom.induct with
  | case1 s hi hnil ih =>
    rw [ddminFrom, dif_pos hi, if_pos hnil]
    exact ih hsub hne
  | case2 s hi hnil ihcut ihskip =>
    rw [ddminFrom, dif_pos hi, if_neg hnil]
    apply (hkeep s.candidate).bind
    intro b hb
    cases b with
    | true => exact ihcut (s.candidate_sublist.trans hsub) hnil
    | false => exact ihskip hsub hne
  | case3 s hi hremoved hlen ih =>
    rw [ddminFrom, dif_neg hi, if_pos hremoved, if_pos hlen]
    exact ih hsub hne
  | case4 s hi hremoved hlen =>
    rw [ddminFrom, dif_neg hi, if_pos hremoved, if_neg hlen]
    exact Exec.yields_pure ⟨hsub, hne⟩
  | case5 s hi hremoved hn =>
    rw [ddminFrom, dif_neg hi, if_neg hremoved, dif_pos hn]
    exact Exec.yields_pure ⟨hsub, hne⟩
  | case6 s hi hremoved hn ih =>
    rw [ddminFrom, dif_neg hi, if_neg hremoved, dif_neg hn]
    exact ih hsub hne

theorem ddminLines_sublist (hkeep : ∀ l, (keep l).Yields (· = p l)) (lines : List α) :
    (ddminLines keep lines).Yields fun out ↦ out <+ lines ∧ (out = [] → lines = []) := by
  unfold ddminLines
  split
  · rename_i hlen
    have hne : lines ≠ [] := by
      rintro rfl
      simp at hlen
    apply (ddminFrom_sublist hkeep (.start lines 2 le_rfl) (.refl lines) hne).mono
    exact fun out hout ↦ ⟨hout.1, fun hnil ↦ absurd hnil hout.2⟩
  · exact Exec.yields_pure ⟨.refl lines, id⟩

/-- Every list that the predicate accepts is cut down to a part of it that the predicate accepts,
and that it rejects without any one of the elements; only the empty list leaves nothing. -/
theorem ddmin_lines_minimal {ε σ : Type} (p : List α → Bool) {lines : List α}
    (hp : p lines = true) :
    (ddminLines (fun l ↦ pure (p l)) lines : Exec ε σ (List α)).Yields fun out ↦
      out <+ lines ∧ (lines ≠ [] → out ≠ []) ∧ p out = true ∧
        ∀ j < out.length, out.eraseIdx j ≠ [] → p (out.eraseIdx j) = false := by
  have hkeep (l : List α) : (pure (p l) : Exec ε σ Bool).Yields (· = p l) := Exec.yields_pure rfl
  apply (ddminLines_yields hkeep hp).mono
  rintro out ⟨hsub, hnil, haccepted, hminimal⟩
  refine ⟨hsub, fun hne hout ↦ hne (hnil hout), haccepted, ?_⟩
  intro j hj hne
  exact (hminimal j hj).resolve_left hne

/-- Of three lines two are needed. -/
theorem ddmin_lines_minimal_of_three :
    (ddminLines (fun l ↦ pure (l.contains 1 && l.contains 3)) [1, 2, 3] :
      Exec Empty Unit (List ℕ)).Yields fun out ↦
        out <+ [1, 2, 3] ∧ ([1, 2, 3] ≠ [] → out ≠ []) ∧
          (out.contains 1 && out.contains 3) = true ∧
          ∀ j < out.length, out.eraseIdx j ≠ [] →
            ((out.eraseIdx j).contains 1 && (out.eraseIdx j).contains 3) = false :=
  ddmin_lines_minimal (fun l ↦ l.contains 1 && l.contains 3) (by decide)

/-- The empty list is accepted and stays empty. -/
theorem ddmin_lines_of_nothing :
    ∃ p : List ℕ → Bool, p [] = true ∧
      (ddminLines (fun l ↦ pure (p l)) [] : Exec Empty Unit (List ℕ)) () = (.ok [], ()) := by
  refine ⟨fun _ ↦ true, rfl, ?_⟩
  rfl

end NucLlm.Swe
