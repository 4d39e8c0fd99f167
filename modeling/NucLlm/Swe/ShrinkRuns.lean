import NucLlm.Swe.ShrinkLines

/-!
# Shortening runs

A run that is shortened keeps a unit, and the words of the line stay the same ones.
-/

namespace NucLlm.Swe

variable {A : Alphabet} {σ : Type}

/-- A line with fewer units in a run. -/
structure Fewer (A : Alphabet) (line out : Text) : Prop where
  reduced : Reduced line out
  words_subset : words A out ⊆ words A line

theorem Fewer.trans {line mid out : Text} (h : Fewer A line mid) (h' : Fewer A mid out) :
    Fewer A line out :=
  ⟨h.reduced.trans h'.reduced, List.Subset.trans h'.words_subset h.words_subset⟩

theorem fewer_repeat {u : Text} (hu : ∃ c ∈ u, A.inWord c = false) {k n : ℕ} (hk : 1 ≤ k)
    (hkn : k ≤ n) (a b : Text) :
    Fewer A (a ++ (List.replicate n u).flatten ++ b) (a ++ (List.replicate k u).flatten ++ b) := by
  refine ⟨⟨fun w _ ↦ ?_, fun c hc ↦ .inl ?_⟩, words_repeat_subset hu hk hkn a b⟩
  · have hmul := Nat.mul_le_mul_right (weight w u) hkn
    simp only [weight_append, weight_repeat]
    omega
  · simp only [List.mem_append, List.mem_flatten, List.mem_replicate] at hc ⊢
    rcases hc with (hc | ⟨l, ⟨-, rfl⟩, hc⟩) | hc
    · exact .inl (.inl hc)
    · exact .inl (.inr ⟨l, ⟨by omega, rfl⟩, hc⟩)
    · exact .inr hc

theorem separator {c : Char} (h : c ∈ [' ', '(', ')', '[', ']']) : A.inWord c = false := by
  have hpoint : ∀ c ∈ [' ', '(', ')', '[', ']'], c ≠ '.' := by simp
  unfold Alphabet.inWord
  rw [A.not_word c h, decide_eq_false (hpoint c h)]
  rfl

theorem flatten_replicate (k : ℕ) (c : Char) :
    (List.replicate k [c]).flatten = List.replicate k c := by
  simp

/-- Both sides of a bracket run. -/
theorem fewer_brackets {o c : Char} (ho : A.inWord o = false) (hc : A.inWord c = false) {k n : ℕ}
    (hk : 1 ≤ k) (hkn : k ≤ n) (before middle behind : Text) :
    Fewer A (before ++ (List.replicate n o ++ middle ++ List.replicate n c) ++ behind)
      (before ++ (List.replicate k o ++ middle ++ List.replicate k c) ++ behind) := by
  have hopen := fewer_repeat (A := A) ⟨o, List.mem_singleton_self o, ho⟩ hk hkn before
    (middle ++ List.replicate n c ++ behind)
  have hclose := fewer_repeat (A := A) ⟨c, List.mem_singleton_self c, hc⟩ hk hkn
    (before ++ List.replicate k o ++ middle) behind
  rw [flatten_replicate, flatten_replicate] at hopen hclose
  have h := hopen.trans (by simpa using hclose)
  simpa using h

/-- A run of a line. -/
structure RunOf (A : Alphabet) (line : Text) (run : Run) : Prop where
  pos : 1 ≤ run.count
  build_count : run.build run.count = line
  fewer : ∀ k, 1 ≤ k → k ≤ run.count → Fewer A line (run.build k)

theorem takeWhile_drop (p : Char → Bool) (s : Text) :
    s.takeWhile p ++ s.drop (s.takeWhile p).length = s := by
  have h := List.takeWhile_append_dropWhile (p := p) (l := s)
  have hdrop := congrArg (List.drop (s.takeWhile p).length) h
  rw [List.drop_left] at hdrop
  rw [← hdrop]
  exact h

/-- The characters of a run. -/
theorem takeWhile_run (c : Char) (s : Text) :
    List.replicate (s.takeWhile (· = c)).length c ++ s.drop (s.takeWhile (· = c)).length = s := by
  have hrun : s.takeWhile (· = c) = List.replicate (s.takeWhile (· = c)).length c := by
    apply List.eq_replicate_of_mem
    intro d hd
    simpa using List.mem_takeWhile_imp hd
  rw [← hrun]
  exact takeWhile_drop _ s

theorem search_eq_some {α : Type} {matchAt : Text → Option α} {line before : Text} {found : α}
    (h : search matchAt line = some (before, found)) :
    ∃ rest, line = before ++ rest ∧ matchAt rest = some found := by
  obtain ⟨i, -, hi⟩ := List.exists_of_findSome?_eq_some h
  obtain ⟨m, hm, heq⟩ := Option.map_eq_some_iff.mp hi
  cases heq
  exact ⟨line.drop i, (List.take_append_drop i line).symm, hm⟩

theorem parensAt_eq_some {s : Text} {m : Brackets} (h : parensAt s = some m) : 1 ≤ m.opened ∧
    s = List.replicate m.opened '(' ++ m.middle ++ List.replicate m.closed ')' ++ m.behind := by
  unfold parensAt at h
  dsimp only at h
  split at h
  · rename_i hfour
    cases h
    refine ⟨le_trans (by decide) hfour.1, ?_⟩
    dsimp only
    rw [List.append_assoc, List.append_assoc, takeWhile_run, takeWhile_drop, takeWhile_run]
  · cases h

theorem squaresAt_eq_some {s : Text} {m : Brackets} (h : squaresAt s = some m) : 1 ≤ m.opened ∧
    s = List.replicate m.opened '[' ++ m.middle ++ List.replicate m.closed ']' ++ m.behind := by
  unfold squaresAt at h
  dsimp only at h
  split at h
  · cases h
  · rename_i c rest hrest
    split at h
    · rename_i hfour
      cases h
      refine ⟨le_trans (by decide) hfour.1, ?_⟩
      have hrun := takeWhile_run ']' rest
      have hclosed : (rest.takeWhile (· = ']')).length =
          (rest.takeWhile (· = ']')).length - 4 + 4 := by omega
      have hsplit := List.replicate_append_replicate (a := ']')
        (n := (rest.takeWhile (· = ']')).length - 4) (m := 4)
      dsimp only
      rw [List.append_assoc, List.append_assoc, List.cons_append, ← List.append_assoc, hsplit,
        ← hclosed, hrun, ← hrest, takeWhile_run]
    · cases h

theorem bracketRun_runOf {o c : Char} (ho : A.inWord o = false) (hc : A.inWord c = false)
    {line : Text} {matchAt : Text → Option Brackets}
    (hmatch : ∀ s m, matchAt s = some m → 1 ≤ m.opened ∧
      s = List.replicate m.opened o ++ m.middle ++ List.replicate m.closed c ++ m.behind)
    {run : Run} (h : bracketRun o c (search matchAt line) = some run) : RunOf A line run := by
  unfold bracketRun at h
  split at h
  · cases h
  · rename_i before m hfound
    split at h
    · rename_i hequal
      cases h
      obtain ⟨rest, rfl, hrest⟩ := search_eq_some hfound
      obtain ⟨hpos, rfl⟩ := hmatch rest m hrest
      rw [← hequal]
      constructor
      · exact hpos
      · simp
      · intro k hk hkn
        have := fewer_brackets ho hc hk hkn before m.middle m.behind
        simpa using this
    · cases h

theorem repeats_prefix (unit s : Text) : (List.replicate (repeats unit s) unit).flatten <+: s :=
  Nat.findGreatest_spec (P := fun k ↦ (List.replicate k unit).flatten <+: s) (Nat.zero_le _)
    List.nil_prefix

theorem unitRun_runOf {unit line : Text} (hunit : ∃ c ∈ unit, A.inWord c = false) {run : Run}
    (h : unitRun unit line = some run) : RunOf A line run := by
  unfold unitRun at h
  obtain ⟨⟨before, n, behind⟩, hfound, rfl⟩ := Option.map_eq_some_iff.mp h
  obtain ⟨rest, rfl, hrest⟩ := search_eq_some hfound
  unfold unitsAt at hrest
  dsimp only at hrest
  split at hrest
  · rename_i hfour
    cases hrest
    obtain ⟨t, ht⟩ := repeats_prefix unit rest
    have hlength : (List.replicate (repeats unit rest) unit).flatten.length =
        repeats unit rest * unit.length := by
      simp
    have hdrop := congrArg (List.drop (repeats unit rest * unit.length)) ht
    rw [← hlength, List.drop_left, hlength] at hdrop
    have hline : before ++ (List.replicate (repeats unit rest) unit).flatten ++
        rest.drop (repeats unit rest * unit.length) = before ++ rest := by
      rw [← hdrop, List.append_assoc, ht]
    constructor
    · exact le_trans (by decide) hfour
    · exact hline
    · intro k hk hkn
      have hfewer := fewer_repeat hunit hk hkn before (rest.drop (repeats unit rest * unit.length))
      rwa [hline] at hfewer
  · cases hrest

/-- What shrinking a line leaves of it. -/
structure Shrunk (A : Alphabet) (q : Text → Bool) (line out : Text) : Prop where
  reduced : Reduced line out
  tidy : Tidy A line → Tidy A out
  accepted : out = line ∨ q out = true

variable {keepLine : Text → Exec ShrinkRaised σ Bool} {q : Text → Bool}

theorem Shrunk.refl (line : Text) : Shrunk A q line line := ⟨.refl line, id, .inl rfl⟩

theorem Shrunk.trans {line mid out : Text} (h : Shrunk A q line mid) (h' : Shrunk A q mid out) :
    Shrunk A q line out where
  reduced := h.reduced.trans h'.reduced
  tidy := h'.tidy ∘ h.tidy
  accepted := by
    rcases h'.accepted with rfl | hout
    · exact h.accepted
    · exact .inr hout

theorem shorten_yields (hkeep : ∀ t, (keepLine t).Yields (· = q t)) {line : Text}
    {found : Option Run} (h : ∀ run, found = some run → RunOf A line run) :
    (shorten keepLine line found).Yields (Shrunk A q line) := by
  cases found with
  | none => exact Exec.yields_pure (.refl line)
  | some run =>
    have hrun := h run rfl
    apply (bisect_below (fun n ↦ hkeep (run.build n)) hrun.pos).bind
    rintro n ⟨hlow, hhigh, hbest⟩
    have hfewer := hrun.fewer n hlow hhigh
    apply Exec.yields_pure
    refine ⟨hfewer.reduced, fun htidy ds hds ↦ htidy ds (hfewer.words_subset hds), ?_⟩
    rcases hbest with rfl | hbest
    · exact .inl hrun.build_count
    · exact .inr hbest

theorem shortenUnits_yields (hkeep : ∀ t, (keepLine t).Yields (· = q t)) {units : List Text}
    (hunits : ∀ unit ∈ units, ∃ c ∈ unit, A.inWord c = false) (line : Text) :
    (shortenUnits keepLine units line).Yields (Shrunk A q line) := by
  induction units generalizing line with
  | nil => exact Exec.yields_pure (.refl line)
  | cons unit units ih =>
    have hunit := hunits unit List.mem_cons_self
    apply (shorten_yields hkeep fun run hrun ↦ unitRun_runOf hunit hrun).bind
    intro mid hmid
    apply (ih (fun unit hmem ↦ hunits unit (List.mem_cons_of_mem _ hmem)) mid).mono
    exact fun out hout ↦ hmid.trans hout

theorem repeatUnits_separated : ∀ unit ∈ repeatUnits, ∃ c ∈ unit, A.inWord c = false := by
  have hspace : ∀ unit ∈ repeatUnits, ' ' ∈ unit := by decide
  exact fun unit hunit ↦ ⟨' ', hspace unit hunit, separator (by decide)⟩

theorem minimizeRepeats_yields (hkeep : ∀ t, (keepLine t).Yields (· = q t)) (line : Text) :
    (minimizeRepeats line keepLine).Yields (Shrunk A q line) := by
  unfold minimizeRepeats
  apply (shorten_yields hkeep fun run hrun ↦
    bracketRun_runOf (separator (by decide)) (separator (by decide))
      (fun s m ↦ parensAt_eq_some) hrun).bind
  intro round hround
  apply (shorten_yields hkeep fun run hrun ↦
    bracketRun_runOf (separator (by decide)) (separator (by decide))
      (fun s m ↦ squaresAt_eq_some) hrun).bind
  intro square hsquare
  apply (shortenUnits_yields hkeep repeatUnits_separated square).mono
  exact fun out hout ↦ (hround.trans hsquare).trans hout

end NucLlm.Swe
