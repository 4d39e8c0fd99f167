import NucLlm.Swe.Literals

/-!
# Shrinking one line

What becomes of a line is not longer, was accepted if it is not the line itself, and has no literals
of another shape.  A literal that `str` would write otherwise is rewritten whatever is accepted.
-/

namespace NucLlm.Swe

variable {A : Alphabet} {σ : Type}

theorem drop_two (a ds b : Text) : (a ++ ds ++ b).drop (a.length + ds.length) = b := by
  rw [← List.length_append, List.drop_left]

theorem take_two (a ds b : Text) : (a ++ ds ++ b).take (a.length + ds.length) = a ++ ds := by
  rw [← List.length_append, List.take_left]

theorem drop_one (a ds b : Text) : (a ++ ds ++ b).drop a.length = ds ++ b := by
  rw [List.append_assoc, List.drop_left]

theorem take_one (a ds b : Text) : (a ++ ds ++ b).take a.length = a := by
  rw [List.append_assoc, List.take_left]

theorem endsWord_iff {a : Text} : EndsWord A a ↔ a.getLast?.any A.inWord = false := by
  unfold EndsWord
  cases a.getLast? <;> simp

theorem startsWord_iff {b : Text} : StartsWord A b ↔ b.head?.any A.inWord = false := by
  unfold StartsWord
  cases b.head? <;> simp

theorem takeWhile_digits {ds b : Text} (hds : ∀ c ∈ ds, A.isDigit c = true)
    (hb : StartsWord A b) : (ds ++ b).takeWhile A.isDigit = ds := by
  have hnil : b.takeWhile A.isDigit = [] := by
    cases b with
    | nil => rfl
    | cons c b =>
      have hc : ¬A.isDigit c = true := by
        intro hdigit
        have := hb c rfl
        rw [inWord_of_digit A hdigit] at this
        exact Bool.noConfusion this
      exact List.takeWhile_cons_of_neg hc
  rw [List.takeWhile_append_of_pos hds, hnil, List.append_nil]

/-- A literal stands between separators. -/
theorem literalAt_eq_some {line : Text} {start end_ : ℕ} :
    literalAt A line start = some end_ ↔ ∃ a ds b, line = a ++ ds ++ b ∧ start = a.length ∧
      end_ = a.length + ds.length ∧ ds ≠ [] ∧ (∀ c ∈ ds, A.isDigit c = true) ∧
      EndsWord A a ∧ StartsWord A b := by
  constructor
  · intro h
    unfold literalAt at h
    dsimp only at h
    split at h
    · rename_i hrun
      obtain ⟨hne, hbefore, hbehind⟩ := hrun
      cases h
      have hstart : start < line.length := by
        by_contra hno
        rw [List.drop_eq_nil_of_le (not_lt.mp hno)] at hne
        exact hne rfl
      have hlength : (line.take start).length = start := by
        rw [List.length_take, min_eq_left hstart.le]
      have hline : line = line.take start ++ (line.drop start).takeWhile A.isDigit ++
          (line.drop start).dropWhile A.isDigit := by
        rw [List.append_assoc, List.takeWhile_append_dropWhile, List.take_append_drop]
      refine ⟨_, _, _, hline, hlength.symm, by rw [hlength], hne, ?_, ?_, ?_⟩
      · exact fun c ↦ List.mem_takeWhile_imp
      · rw [endsWord_iff]
        simpa using hbefore
      · have hdrop := drop_two (line.take start) ((line.drop start).takeWhile A.isDigit)
          ((line.drop start).dropWhile A.isDigit)
        rw [← hline, hlength] at hdrop
        rw [hdrop] at hbehind
        rw [startsWord_iff]
        simpa using hbehind
    · cases h
  · rintro ⟨a, ds, b, rfl, rfl, rfl, hne, hds, ha, hb⟩
    unfold literalAt
    dsimp only
    rw [drop_one, takeWhile_digits hds hb, take_one, drop_two, endsWord_iff.mp ha,
      startsWord_iff.mp hb, if_pos]
    exact ⟨hne, rfl, rfl⟩

/-- What stands in a span. -/
def spanText (line : Text) (span : ℕ × ℕ) : Text := (line.take span.2).drop span.1

theorem spanText_between (a ds b : Text) :
    spanText (a ++ ds ++ b) (a.length, a.length + ds.length) = ds := by
  unfold spanText
  rw [take_two, List.drop_left]

/-- What comes after a literal and one more character does not matter for it. -/
theorem literalAt_prefix {line : Text} {start end_ n : ℕ}
    (h : literalAt A line start = some end_) (hend : end_ < n) (hn : n ≤ line.length)
    (tail : Text) : literalAt A (line.take n ++ tail) start = some end_ ∧
      spanText (line.take n ++ tail) (start, end_) = spanText line (start, end_) := by
  obtain ⟨a, ds, b, rfl, rfl, rfl, hne, hds, ha, hb⟩ := literalAt_eq_some.mp h
  have hb' : StartsWord A (b.take (n - (a.length + ds.length)) ++ tail) := by
    cases b with
    | nil =>
      simp only [List.append_nil, List.length_append] at hn
      omega
    | cons c b =>
      obtain ⟨m, hm⟩ := Nat.exists_eq_add_of_lt hend
      rw [show n - (a.length + ds.length) = m + 1 by omega]
      exact hb
  have htake : (a ++ ds ++ b).take n ++ tail =
      a ++ ds ++ (b.take (n - (a.length + ds.length)) ++ tail) := by
    rw [List.take_append, List.take_of_length_le, List.length_append, List.append_assoc]
    rw [List.length_append]
    exact hend.le
  rw [htake, spanText_between, spanText_between]
  refine ⟨literalAt_eq_some.mpr ⟨a, ds, _, rfl, rfl, rfl, hne, hds, ha, hb'⟩, rfl⟩

/-- Spans that are left, from right to left. -/
structure Ready (A : Alphabet) (line : Text) (spans : List (ℕ × ℕ)) : Prop where
  found : ∀ span ∈ spans, literalAt A line span.1 = some span.2
  apart : spans.Pairwise fun x y ↦ y.2 < x.1

/-- Two literals do not meet. -/
theorem literals_apart {line : Text} {start end_ start' end' : ℕ}
    (h : literalAt A line start = some end_) (h' : literalAt A line start' = some end')
    (hlt : start < start') : end_ < start' := by
  obtain ⟨a, ds, b, rfl, rfl, rfl, hne, hds, ha, hb⟩ := literalAt_eq_some.mp h
  obtain ⟨a', ds', b', heq, rfl, rfl, hne', hds', ha', hb'⟩ := literalAt_eq_some.mp h'
  by_contra hno
  obtain ⟨m, hm⟩ := Nat.exists_eq_add_of_lt hlt
  have hpre : a' = a ++ ds.take (m + 1) := by
    have htake := take_one a' ds' b'
    rw [← heq, hm, Nat.add_assoc, List.append_assoc, List.take_length_add_append,
      List.take_append_of_le_length (by omega)] at htake
    exact htake.symm
  have hne' : ds.take (m + 1) ≠ [] := by
    simpa using hne
  have hlast : a'.getLast? = some ((ds.take (m + 1)).getLast hne') := by
    rw [hpre, List.getLast?_append_of_ne_nil _ hne', List.getLast?_eq_getLast_of_ne_nil hne']
  have hdigit := hds _ (List.mem_of_mem_take (List.getLast_mem hne'))
  have hsep := ha' _ hlast
  rw [inWord_of_digit A hdigit] at hsep
  exact Bool.noConfusion hsep

theorem Ready.tail {line : Text} {start end_ : ℕ} {spans : List (ℕ × ℕ)}
    (h : Ready A line ((start, end_) :: spans)) (tail : Text) :
    Ready A (line.take start ++ tail) spans ∧
      ∀ span ∈ spans, spanText (line.take start ++ tail) span = spanText line span := by
  have hhead := h.found _ List.mem_cons_self
  have hlength : start ≤ line.length := by
    obtain ⟨a, ds, b, rfl, rfl, -⟩ := literalAt_eq_some.mp hhead
    simp only [List.length_append]
    omega
  have hapart := List.pairwise_cons.mp h.apart
  have hpre (span : ℕ × ℕ) (hspan : span ∈ spans) :=
    literalAt_prefix (h.found span (List.mem_cons_of_mem _ hspan)) (hapart.1 span hspan)
      hlength tail
  constructor
  · constructor
    · exact fun span hspan ↦ (hpre span hspan).1
    · exact hapart.2
  · exact fun span hspan ↦ (hpre span hspan).2

theorem mem_literalSpans {line : Text} {span : ℕ × ℕ} :
    span ∈ literalSpans A line ↔ literalAt A line span.1 = some span.2 := by
  unfold literalSpans
  rw [List.mem_filterMap]
  constructor
  · rintro ⟨start, -, h⟩
    obtain ⟨end_, hend, rfl⟩ := Option.map_eq_some_iff.mp h
    exact hend
  · intro h
    refine ⟨span.1, ?_, by rw [h]; rfl⟩
    obtain ⟨a, ds, b, rfl, ha, hb, hne, -⟩ := literalAt_eq_some.mp h
    have := List.length_pos_iff.mpr hne
    rw [List.mem_range, List.length_append, List.length_append]
    omega

theorem ready_literalSpans (line : Text) : Ready A line (literalSpans A line).reverse := by
  constructor
  · intro span hspan
    exact mem_literalSpans.mp (List.mem_reverse.mp hspan)
  · rw [List.pairwise_reverse]
    unfold literalSpans
    rw [List.pairwise_filterMap]
    apply List.pairwise_lt_range.imp
    intro start start' hlt span hspan span' hspan'
    obtain ⟨end_, hend, rfl⟩ := Option.map_eq_some_iff.mp hspan
    obtain ⟨end', hend', rfl⟩ := Option.map_eq_some_iff.mp hspan'
    exact literals_apart hend hend' hlt

/-- A line whose literals are not all canonical has a span of one that is not. -/
theorem exists_span_of_not_tidy {line : Text} (h : ¬Tidy A line) :
    ∃ span ∈ (literalSpans A line).reverse, ¬Canonical A (spanText line span) := by
  unfold Tidy at h
  push Not at h
  obtain ⟨ds, hmem, hne, hds, hodd⟩ := h
  obtain ⟨a, b, rfl, ha, hb⟩ := exists_of_mem_words hmem
  refine ⟨(a.length, a.length + ds.length), ?_, ?_⟩
  · rw [List.mem_reverse, mem_literalSpans]
    exact literalAt_eq_some.mpr ⟨a, ds, b, rfl, rfl, rfl, hne, hds, ha, hb⟩
  · rw [spanText_between]
    exact hodd

/-- What a line may become whatever is accepted. -/
structure Reduced (line out : Text) : Prop where
  weight_le : ∀ w, Weighing w → weight w out ≤ weight w line
  mem_of_mem : ∀ c ∈ out, c ∈ line ∨ c.isDigit = true

theorem Reduced.refl (line : Text) : Reduced line line := ⟨fun _ _ ↦ le_rfl, fun _ ↦ .inl⟩

theorem Reduced.trans {line mid out : Text} (h : Reduced line mid) (h' : Reduced mid out) :
    Reduced line out where
  weight_le w hw := (h'.weight_le w hw).trans (h.weight_le w hw)
  mem_of_mem c hc := by
    rcases h'.mem_of_mem c hc with hmid | hdigit
    · exact h.mem_of_mem c hmid
    · exact .inr hdigit

/-- A line with a literal, cut at its ends. -/
structure Cut (A : Alphabet) (line : Text) (span : ℕ × ℕ) : Prop where
  ne_nil : spanText line span ≠ []
  digits : ∀ c ∈ spanText line span, A.isDigit c = true
  line_eq : line.take span.1 ++ spanText line span ++ line.drop span.2 = line
  left : EndsWord A (line.take span.1)
  right : StartsWord A (line.drop span.2)

theorem cut_of_literalAt {line : Text} {span : ℕ × ℕ}
    (h : literalAt A line span.1 = some span.2) : Cut A line span := by
  obtain ⟨start, end_⟩ := span
  obtain ⟨a, ds, b, rfl, rfl, rfl, hne, hds, ha, hb⟩ := literalAt_eq_some.mp h
  constructor
  · rwa [spanText_between]
  · rwa [spanText_between]
  · rw [spanText_between, take_one, drop_two]
  · rwa [take_one]
  · rwa [drop_two]

variable {line : Text} {span : ℕ × ℕ} {n : ℕ}

/-- The line with another number for the literal. -/
def rewritten (line : Text) (span : ℕ × ℕ) (n : ℕ) : Text :=
  line.take span.1 ++ str n ++ line.drop span.2

theorem Cut.reduced (h : Cut A line span) (hn : n ≤ A.value (spanText line span)) :
    Reduced line (rewritten line span n) where
  weight_le w hw := by
    have hline := congrArg (weight w) h.line_eq
    have hdigits := weight_str_le A hw h.ne_nil hn
    unfold rewritten
    simp only [weight_append] at hline ⊢
    omega
  mem_of_mem c hc := by
    rcases List.mem_append.mp hc with hc | hc
    · rcases List.mem_append.mp hc with hc | hc
      · exact .inl (List.mem_of_mem_take hc)
      · exact .inr (ascii_str hc)
    · exact .inl (List.mem_of_mem_drop hc)

theorem Cut.lighter (h : Cut A line span) (hn : n ≤ A.value (spanText line span))
    (hodd : str (A.value (spanText line span)) ≠ spanText line span) :
    weight (digitWeight A) (rewritten line span n) < weight (digitWeight A) line := by
  have hline := congrArg (weight (digitWeight A)) h.line_eq
  have hdigits := weight_str_lt A h.ne_nil h.digits hodd hn
  unfold rewritten
  simp only [weight_append] at hline ⊢
  omega

theorem Cut.exists_words (h : Cut A line span) : ∃ before after,
    words A line = before ++ spanText line span :: after ∧
      ∀ n, words A (rewritten line span n) = before ++ str n :: after := by
  obtain ⟨before, after, hwords⟩ := words_isolated h.left h.right
  refine ⟨before, after, ?_, fun n ↦ ?_⟩
  · have hline := hwords _ fun c hc ↦ inWord_of_digit A (h.digits c hc)
    rwa [h.line_eq] at hline
  · exact hwords _ fun c hc ↦ inWord_of_digit A (isDigit_of_ascii A (ascii_str hc))

theorem Cut.canonical (h : Cut A line span) (htidy : Tidy A line) :
    Canonical A (spanText line span) := by
  obtain ⟨before, after, hline, -⟩ := h.exists_words
  exact htidy _ (by rw [hline]; simp) h.ne_nil h.digits

theorem Cut.tidy (h : Cut A line span) (htidy : Tidy A line)
    (hn : n ≤ A.value (spanText line span)) : Tidy A (rewritten line span n) := by
  have hcanonical := h.canonical htidy
  obtain ⟨before, after, hline, hwords⟩ := h.exists_words
  intro ds hmem hne hds
  rw [hwords] at hmem
  rcases List.mem_append.mp hmem with hmem | hmem
  · exact htidy ds (by rw [hline]; exact List.mem_append_left _ hmem) hne hds
  · rcases List.mem_cons.mp hmem with rfl | hmem
    · refine ⟨by rw [value_str], ?_⟩
      exact (length_str_le A h.ne_nil hn).trans hcanonical.2
    · apply htidy ds _ hne hds
      rw [hline]
      exact List.mem_append_right _ (List.mem_cons_of_mem _ hmem)

theorem int_gives (ds : Text) : (int A ds : Exec ShrinkRaised σ ℕ).Gives
    (fun n ↦ n = A.value ds ∧ ds.length ≤ A.maxStrDigits) fun _ ↦ A.maxStrDigits < ds.length := by
  unfold int
  split
  · rename_i h
    exact Exec.gives_fail h
  · rename_i h
    exact Exec.gives_pure ⟨rfl, not_lt.mp h⟩

variable {keepLine : Text → Exec ShrinkRaised σ Bool} {q : Text → Bool}

/-- A number that is not larger is found, and was accepted if it is another one. -/
theorem bisect_below {ask : ℕ → Exec ShrinkRaised σ Bool} {q : ℕ → Bool}
    (hask : ∀ n, (ask n).Yields (· = q n)) {lo count : ℕ} (hlo : lo ≤ count)
    {R : ShrinkRaised → Prop} :
    (bisect ask lo count count).Gives
      (fun n ↦ lo ≤ n ∧ n ≤ count ∧ (n = count ∨ q n = true)) R := by
  apply (bisect_gives (fun n ↦ (hask n).gives) lo count count).mono
  rintro n (rfl | ⟨⟨hlow, hhigh⟩, hq⟩)
  · exact ⟨hlo, le_rfl, .inl rfl⟩
  · exact ⟨hlow, hhigh.le, .inr hq.symm⟩

/-- Whatever is accepted, the line becomes no longer, and less if there is an odd literal. -/
theorem minimizeSpans_gives (hkeep : ∀ t, (keepLine t).Yields (· = q t)) {spans : List (ℕ × ℕ)}
    (h : Ready A line spans) :
    (minimizeSpans A keepLine spans line).Returns fun out ↦ Reduced line out ∧
      ((∃ span ∈ spans, ¬Canonical A (spanText line span)) →
        weight (digitWeight A) out < weight (digitWeight A) line) := by
  induction spans generalizing line with
  | nil =>
    apply Exec.gives_pure
    refine ⟨.refl line, ?_⟩
    rintro ⟨span, hspan, -⟩
    exact absurd hspan List.not_mem_nil
  | cons span spans ih =>
    have hcut := cut_of_literalAt (h.found span List.mem_cons_self)
    apply ((int_gives (spanText line span)).weaken fun _ _ ↦ trivial).bind
    rintro value ⟨rfl, hshort⟩
    apply (bisect_below (fun n ↦ hkeep (rewritten line span n)) (Nat.zero_le _)).bind
    rintro n ⟨-, hn, -⟩
    obtain ⟨hready, hsame⟩ := h.tail (str n ++ line.drop span.2)
    rw [← List.append_assoc] at hready hsame
    apply (ih hready).mono
    rintro out ⟨hreduced, hodd⟩
    have hstep := hcut.reduced hn
    refine ⟨hstep.trans hreduced, ?_⟩
    rintro ⟨other, hother, hnot⟩
    have hw := weighing_digitWeight A
    rcases List.mem_cons.mp hother with rfl | hother
    · have hlighter := hcut.lighter hn fun hcanonical ↦ hnot ⟨hcanonical, hshort⟩
      exact (hreduced.weight_le _ hw).trans_lt hlighter
    · have hlighter := hodd ⟨other, hother, by rwa [hsame other hother]⟩
      exact hlighter.trans_le (hstep.weight_le _ hw)

/-- A tidy line stays tidy, and is not changed unless that is accepted. -/
theorem minimizeSpans_yields (hkeep : ∀ t, (keepLine t).Yields (· = q t)) {spans : List (ℕ × ℕ)}
    (h : Ready A line spans) (htidy : Tidy A line) :
    (minimizeSpans A keepLine spans line).Yields fun out ↦
      Reduced line out ∧ Tidy A out ∧ (out = line ∨ q out = true) := by
  induction spans generalizing line with
  | nil => exact Exec.yields_pure ⟨.refl line, htidy, .inl rfl⟩
  | cons span spans ih =>
    have hcut := cut_of_literalAt (h.found span List.mem_cons_self)
    have hcanonical := hcut.canonical htidy
    apply ((int_gives (spanText line span)).weaken fun _ hlong ↦
      absurd hcanonical.2 (not_le.mpr hlong)).bind
    rintro value ⟨rfl, -⟩
    apply (bisect_below (fun n ↦ hkeep (rewritten line span n)) (Nat.zero_le _)).bind
    rintro n ⟨-, hn, hbest⟩
    obtain ⟨hready, -⟩ := h.tail (str n ++ line.drop span.2)
    rw [← List.append_assoc] at hready
    apply (ih hready (hcut.tidy htidy hn)).mono
    rintro out ⟨hreduced, hout, hsame⟩
    refine ⟨(hcut.reduced hn).trans hreduced, hout, ?_⟩
    rcases hsame with rfl | haccepted
    · rcases hbest with rfl | hbest
      · left
        rw [hcanonical.1]
        exact hcut.line_eq
      · exact .inr hbest
    · exact .inr haccepted

end NucLlm.Swe
