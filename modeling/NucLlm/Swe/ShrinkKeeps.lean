import NucLlm.Swe.ShrinkRuns
import Mathlib.Algebra.Order.BigOperators.Group.List

/-!
# Shrinking keeps the failure

The text that shrinking returns was accepted and is not larger, for every predicate, exactly if the
literals of the source are canonical and a blank part leaves room for the last line break.
-/

namespace NucLlm.Swe

open scoped List

variable {A : Alphabet} {σ : Type} {w : Char → ℕ}

/-- The lines of a text; a line break ends a line. -/
def textLines (t : Text) : List Text :=
  let parts := t.splitOn '\n'
  if parts.getLast? = some [] then parts.dropLast else parts

def Unbroken (lines : List Text) : Prop := ∀ line ∈ lines, '\n' ∉ line

/-- What lines weigh together with their line breaks. -/
def total (w : Char → ℕ) (lines : List Text) : ℕ := (lines.map fun line ↦ weight w line + 1).sum

@[simp] theorem total_cons (line : Text) (lines : List Text) :
    total w (line :: lines) = weight w line + 1 + total w lines := by
  simp [total]

@[simp] theorem total_append (lines rest : List Text) :
    total w (lines ++ rest) = total w lines + total w rest := by
  simp [total]

theorem length_render {lines : List Text} (h : lines ≠ []) :
    (render lines).length = total (fun _ ↦ 1) lines := by
  unfold render
  induction lines with
  | nil => exact absurd rfl h
  | cons line lines ih =>
    cases lines with
    | nil => simp [total, weight_one]
    | cons next lines =>
      have ih' := ih (List.cons_ne_nil _ _)
      rw [List.length_append] at ih' ⊢
      rw [List.intercalate_cons_of_ne_nil (List.cons_ne_nil _ _), List.length_append,
        List.length_append, total_cons, weight_one, ← ih']
      simp only [List.length_singleton]
      omega

theorem splitOn_render {lines : List Text} (hne : lines ≠ []) (h : Unbroken lines) :
    (render lines).splitOn '\n' = lines ++ [[]] := by
  unfold render
  rw [List.splitOn_append_cons_self, List.splitOn_intercalate '\n' h hne]
  rfl

theorem textLines_render {lines : List Text} (hne : lines ≠ []) (h : Unbroken lines) :
    textLines (render lines) = lines := by
  unfold textLines
  rw [splitOn_render hne h]
  simp

theorem render_injective {lines lines' : List Text} (hne : lines ≠ []) (hne' : lines' ≠ [])
    (h : Unbroken lines) (h' : Unbroken lines') (heq : render lines = render lines') :
    lines = lines' := by
  rw [← textLines_render hne h, heq, textLines_render hne' h']

theorem unbroken_splitOn (t : Text) : Unbroken (t.splitOn '\n') := by
  induction t with
  | nil => simp [Unbroken]
  | cons c t ih =>
    rw [List.splitOn_cons_eq_if_modifyHead]
    split
    · rintro line (_ | ⟨_, hline⟩)
      · exact List.not_mem_nil
      · exact ih line hline
    · rename_i hc
      obtain ⟨first, rest, hparts⟩ := List.exists_cons_of_ne_nil (List.splitOn_ne_nil '\n' t)
      rw [hparts] at ih ⊢
      rintro line (_ | ⟨_, hline⟩)
      · have hfirst := ih first List.mem_cons_self
        have hc' : '\n' ≠ c := fun h ↦ hc (by simpa using h.symm)
        simpa using ⟨hc', hfirst⟩
      · exact ih line (List.mem_cons_of_mem _ hline)

theorem render_splitOn (t : Text) : render (t.splitOn '\n') = t ++ ['\n'] := by
  unfold render
  rw [List.intercalate_splitOn]

theorem total_splitOn (t : Text) : total (fun _ ↦ 1) (t.splitOn '\n') = t.length + 1 := by
  rw [← length_render (List.splitOn_ne_nil _ _), render_splitOn]
  simp

theorem total_sublist {lines lines' : List Text} (h : lines <+ lines') :
    total w lines ≤ total w lines' := by
  exact (h.map _).sum_le_sum fun _ _ ↦ Nat.zero_le _

/-- A part that is left out takes its line break along. -/
theorem total_filter_lt {f : Text → Bool} {parts : List Text} (h : ∃ part ∈ parts, f part = false) :
    total w (parts.filter f) < total w parts := by
  obtain ⟨part, hmem, hf⟩ := h
  obtain ⟨a, b, rfl⟩ := List.append_of_mem hmem
  have ha := total_sublist (w := w) (List.filter_sublist (p := f) (l := a))
  have hb := total_sublist (w := w) (List.filter_sublist (p := f) (l := b))
  rw [List.filter_append, List.filter_cons_of_neg (by simp [hf]), total_append, total_append,
    total_cons]
  omega

/-- What becomes of lines whatever is accepted. -/
structure Reduces (lines out : List Text) : Prop where
  total_le : ∀ w, Weighing w → total w out ≤ total w lines
  length_le : out.length ≤ lines.length
  nil_of_nil : out = [] → lines = []
  unbroken : Unbroken lines → Unbroken out

theorem Reduces.refl (lines : List Text) : Reduces lines lines := ⟨fun _ _ ↦ le_rfl, le_rfl, id, id⟩

theorem Reduces.trans {lines mid out : List Text} (h : Reduces lines mid) (h' : Reduces mid out) :
    Reduces lines out where
  total_le w hw := (h'.total_le w hw).trans (h.total_le w hw)
  length_le := h'.length_le.trans h.length_le
  nil_of_nil := h.nil_of_nil ∘ h'.nil_of_nil
  unbroken := h'.unbroken ∘ h.unbroken

theorem reduces_sublist {lines out : List Text} (h : out <+ lines) (hnil : out = [] → lines = []) :
    Reduces lines out where
  total_le _ _ := total_sublist h
  length_le := h.length_le
  nil_of_nil := hnil
  unbroken hlines line hline := hlines line (h.subset hline)

theorem Reduced.unbroken {line out : Text} (h : Reduced line out) (hline : '\n' ∉ line) :
    '\n' ∉ out := by
  intro hmem
  rcases h.mem_of_mem _ hmem with hmem | hdigit
  · exact hline hmem
  · exact absurd hdigit (by decide)

theorem reduces_lines {lines out : List Text} (h : List.Forall₂ Reduced lines out) :
    Reduces lines out := by
  induction h with
  | nil => exact .refl []
  | cons hline _ ih =>
    constructor
    · intro w hw
      have hfirst := hline.weight_le w hw
      have hrest := ih.total_le w hw
      rw [total_cons, total_cons]
      omega
    · exact Nat.succ_le_succ ih.length_le
    · exact fun hnil ↦ absurd hnil (List.cons_ne_nil _ _)
    · intro hlines line hmem
      rcases List.mem_cons.mp hmem with rfl | hmem
      · exact hline.unbroken (hlines _ List.mem_cons_self)
      · exact ih.unbroken (fun l hl ↦ hlines l (List.mem_cons_of_mem _ hl)) line hmem


section

variable {keep : Text → Exec ShrinkRaised σ Bool} {p : Text → Bool}
  (hkeep : ∀ t, (keep t).Yields (· = p t))

include hkeep

/-- Tidy lines stay tidy, and the text is accepted all the time. -/
theorem polishLines_yields (done : List Text) {rest : List Text}
    (htidy : ∀ line ∈ rest, Tidy A line)
    (hp : p (render (done ++ rest)) = true) :
    (polishLines A keep done rest).Yields fun out ↦ p (render out) = true ∧ ∃ rest',
      out = done ++ rest' ∧ List.Forall₂ Reduced rest rest' ∧ ∀ line ∈ rest', Tidy A line := by
  induction rest generalizing done with
  | nil =>
    refine Exec.yields_pure ⟨by simpa using hp, [], by simp, .nil, ?_⟩
    exact fun line hline ↦ absurd hline List.not_mem_nil
  | cons line rest ih =>
    have hkeepLine (cand : Text) := hkeep (render (done ++ cand :: rest))
    apply (minimizeRepeats_yields (A := A) hkeepLine line).bind
    intro mid hmid
    have hmidTidy := hmid.tidy (htidy line List.mem_cons_self)
    apply (minimizeSpans_yields hkeepLine (ready_literalSpans mid) hmidTidy).bind
    rintro out ⟨hreduced, hout, haccepted⟩
    have hp' : p (render ((done ++ [out]) ++ rest)) = true := by
      rw [List.append_assoc]
      rcases haccepted with rfl | haccepted
      · rcases hmid.accepted with rfl | hmid
        · exact hp
        · exact hmid
      · exact haccepted
    apply (ih (done ++ [out]) (fun l hl ↦ htidy l (List.mem_cons_of_mem _ hl)) hp').mono
    rintro all ⟨hall, rest', rfl, hrest, hrest'⟩
    refine ⟨hall, out :: rest', by simp, .cons (hmid.reduced.trans hreduced) hrest, ?_⟩
    rintro l (_ | ⟨_, hl⟩)
    · exact hout
    · exact hrest' l hl

theorem polishLines_returns (done rest : List Text) :
    (polishLines A keep done rest).Returns fun out ↦ ∃ rest',
      out = done ++ rest' ∧ List.Forall₂ Reduced rest rest' := by
  induction rest generalizing done with
  | nil => exact Exec.gives_pure ⟨[], by simp, .nil⟩
  | cons line rest ih =>
    have hkeepLine (cand : Text) := hkeep (render (done ++ cand :: rest))
    apply (minimizeRepeats_yields (A := A) hkeepLine line).gives.bind
    intro mid hmid
    apply (minimizeSpans_gives hkeepLine (ready_literalSpans mid)).bind
    rintro out ⟨hreduced, -⟩
    apply (ih (done ++ [out])).mono
    rintro all ⟨rest', rfl, hrest⟩
    exact ⟨out :: rest', by simp, .cons (hmid.reduced.trans hreduced) hrest⟩

/-- If only the text itself is accepted, the first odd literal makes it lighter for good. -/
theorem polishLines_lighter (done : List Text) {rest : List Text} (hlines : Unbroken (done ++ rest))
    (hp : ∀ t, p t = true → t = render (done ++ rest)) (hodd : ∃ line ∈ rest, ¬Tidy A line) :
    (polishLines A keep done rest).Returns fun out ↦ ∃ rest', out = done ++ rest' ∧
      List.Forall₂ Reduced rest rest' ∧
      total (digitWeight A) rest' < total (digitWeight A) rest := by
  have hw := weighing_digitWeight A
  induction rest generalizing done with
  | nil =>
    obtain ⟨line, hline, -⟩ := hodd
    exact absurd hline List.not_mem_nil
  | cons line rest ih =>
    have hkeepLine (cand : Text) := hkeep (render (done ++ cand :: rest))
    have hline : '\n' ∉ line := hlines line (by simp)
    have hsame (cand : Text) (hcand : Reduced line cand)
        (h : cand = line ∨ p (render (done ++ cand :: rest)) = true) : cand = line := by
      rcases h with rfl | h
      · rfl
      · have hunbroken : Unbroken (done ++ cand :: rest) := by
          intro l hl
          rcases List.mem_append.mp hl with hl | hl
          · exact hlines l (List.mem_append_left _ hl)
          · rcases List.mem_cons.mp hl with rfl | hl
            · exact hcand.unbroken hline
            · exact hlines l (List.mem_append_right _ (List.mem_cons_of_mem _ hl))
        have heq := render_injective (by simp) (by simp) hunbroken hlines (hp _ h)
        exact (List.cons.inj (List.append_cancel_left heq)).1
    apply (minimizeRepeats_yields (A := A) hkeepLine line).gives.bind
    intro mid hmid
    obtain rfl := hsame mid hmid.reduced hmid.accepted
    by_cases htidy : Tidy A mid
    · apply (minimizeSpans_yields hkeepLine (ready_literalSpans mid) htidy).gives.bind
      rintro out ⟨hreduced, -, haccepted⟩
      obtain rfl := hsame out hreduced haccepted
      have hodd' : ∃ line ∈ rest, ¬Tidy A line := by
        obtain ⟨l, hl, hnot⟩ := hodd
        rcases List.mem_cons.mp hl with rfl | hl
        · exact absurd htidy hnot
        · exact ⟨l, hl, hnot⟩
      apply (ih (done ++ [out]) (by simpa using hlines) (by simpa using hp) hodd').mono
      rintro all ⟨rest', rfl, hrest, hlighter⟩
      refine ⟨out :: rest', by simp, .cons hreduced hrest, ?_⟩
      rw [total_cons, total_cons]
      omega
    · apply (minimizeSpans_gives hkeepLine (ready_literalSpans mid)).bind
      rintro out ⟨hreduced, hlighter⟩
      have hless := hlighter (exists_span_of_not_tidy htidy)
      apply (polishLines_returns hkeep (done ++ [out]) rest).mono
      rintro all ⟨rest', rfl, hrest⟩
      refine ⟨out :: rest', by simp, .cons hreduced hrest, ?_⟩
      have hle := (reduces_lines hrest).total_le _ hw
      rw [total_cons, total_cons]
      omega

theorem shrinkRounds_yields (rounds : ℕ) {lines : List Text}
    (htidy : ∀ line ∈ lines, Tidy A line) (hp : p (render lines) = true) :
    (shrinkRounds A keep rounds lines).Yields fun out ↦
      Reduces lines out ∧ p (render out) = true := by
  induction rounds generalizing lines with
  | zero => exact Exec.yields_pure ⟨.refl lines, hp⟩
  | succ rounds ih =>
    apply (ddminLines_yields (fun ls ↦ hkeep (render ls)) hp).bind
    rintro fewer ⟨hsub, hnil, hminimal⟩
    have hfewer := reduces_sublist hsub hnil
    apply (polishLines_yields hkeep [] (fun l hl ↦ htidy l (hsub.subset hl))
      hminimal.accepted).bind
    rintro polished ⟨hpolished, rest, rfl, hrest, hrest'⟩
    have hreduces := hfewer.trans (reduces_lines hrest)
    split
    · exact Exec.yields_pure ⟨hreduces, hpolished⟩
    · apply (ih hrest' hpolished).mono
      rintro out ⟨hout, haccepted⟩
      exact ⟨hreduces.trans hout, haccepted⟩

theorem shrinkRounds_returns (rounds : ℕ) (lines : List Text) :
    (shrinkRounds A keep rounds lines).Returns (Reduces lines) := by
  induction rounds generalizing lines with
  | zero => exact Exec.gives_pure (.refl lines)
  | succ rounds ih =>
    apply (ddminLines_sublist (fun ls ↦ hkeep (render ls)) lines).gives.bind
    rintro fewer ⟨hsub, hnil⟩
    have hfewer := reduces_sublist hsub hnil
    apply (polishLines_returns hkeep [] fewer).bind
    rintro polished ⟨rest, rfl, hrest⟩
    have hreduces := hfewer.trans (reduces_lines hrest)
    split
    · exact Exec.gives_pure hreduces
    · apply (ih _).mono
      exact fun out hout ↦ hreduces.trans hout

end

/-- If only the text itself is accepted and a literal is odd, the result is lighter. -/
theorem shrinkRounds_lighter {keep : Text → Exec ShrinkRaised σ Bool} {p : Text → Bool}
    (hkeep : ∀ t, (keep t).Yields (· = p t)) (rounds : ℕ) {lines : List Text}
    (hlines : Unbroken lines) (hp : ∀ t, p t = true ↔ t = render lines)
    (hodd : ∃ line ∈ lines, ¬Tidy A line) :
    (shrinkRounds A keep (rounds + 1) lines).Returns fun out ↦ Reduces lines out ∧
      total (digitWeight A) out < total (digitWeight A) lines := by
  have hne : lines ≠ [] := by
    obtain ⟨line, hline, -⟩ := hodd
    exact List.ne_nil_of_mem hline
  apply (ddminLines_yields (fun ls ↦ hkeep (render ls)) ((hp _).mpr rfl)).gives.bind
  rintro fewer ⟨hsub, hnil, hminimal⟩
  have hfewer := reduces_sublist hsub hnil
  obtain rfl : fewer = lines := render_injective (fun h ↦ hne (hnil h)) hne
    (hfewer.unbroken hlines) hlines ((hp _).mp hminimal.accepted)
  apply (polishLines_lighter hkeep [] hlines (fun t ↦ (hp t).mp) hodd).bind
  rintro polished ⟨rest, rfl, hrest, hlighter⟩
  have hreduces := reduces_lines hrest
  split
  · exact Exec.gives_pure ⟨hreduces, hlighter⟩
  · apply (shrinkRounds_returns hkeep rounds _).mono
    intro out hout
    exact ⟨hreduces.trans hout, (hout.total_le _ (weighing_digitWeight A)).trans_lt hlighter⟩

/-- What is promised of the result for a source and a predicate. -/
def Keeps (A : Alphabet) (p : Text → Bool) (src : Text) : Option Text → Prop
  | none => p (render (codeLines A src)) = false
  | some out => p out = true ∧ (textLines out).length ≤ (textLines src).length ∧
      out.length ≤ src.length

/-- No nonblank line has an odd literal, and a line break of the source is to spare. -/
structure Shrinkable (A : Alphabet) (src : Text) : Prop where
  tidy : ∀ line ∈ codeLines A src, Tidy A line
  ne_nil : src ≠ []
  blank : ∃ part ∈ src.splitOn '\n', part.any (!A.space ·) = false

theorem unbroken_codeLines (src : Text) : Unbroken (codeLines A src) :=
  fun line hline ↦ unbroken_splitOn src line (List.mem_of_mem_filter hline)

theorem textLines_ne_nil {src : Text} (h : src ≠ []) : textLines src ≠ [] := by
  unfold textLines
  dsimp only
  split
  · rename_i hlast
    intro hnil
    have hsrc : ['\n'].intercalate (src.splitOn '\n') = src := List.intercalate_splitOn '\n'
    obtain ⟨parts, hparts⟩ := List.getLast?_eq_some_iff.mp hlast
    rw [hparts, List.dropLast_concat] at hnil
    rw [hparts, hnil] at hsrc
    exact h hsrc.symm
  · exact List.splitOn_ne_nil _ _

/-- Lines that are not blank are lines. -/
theorem length_codeLines_le (src : Text) : (codeLines A src).length ≤ (textLines src).length := by
  unfold textLines codeLines
  dsimp only
  split
  · rename_i hlast
    obtain ⟨parts, hparts⟩ := List.getLast?_eq_some_iff.mp hlast
    rw [hparts, List.dropLast_concat, List.filter_append]
    simpa using List.length_filter_le _ parts
  · exact List.length_filter_le _ _

theorem total_codeLines_le {src : Text} (h : Shrinkable A src) :
    total (fun _ ↦ 1) (codeLines A src) ≤ src.length := by
  have hlt : total (fun _ ↦ 1) (codeLines A src) < total (fun _ ↦ 1) (src.splitOn '\n') :=
    total_filter_lt h.blank
  rw [total_splitOn] at hlt
  exact Nat.le_of_lt_succ hlt

theorem keeps_of_reduces {p : Text → Bool} {src : Text} (h : Shrinkable A src) {out : List Text}
    (hout : Reduces (codeLines A src) out) (hp : p (render out) = true) :
    Keeps A p src (some (render out)) := by
  by_cases hnil : out = []
  · subst hnil
    have hlines := List.length_pos_iff.mpr (textLines_ne_nil h.ne_nil)
    exact ⟨hp, hlines, List.length_pos_iff.mpr h.ne_nil⟩
  · refine ⟨hp, ?_, ?_⟩
    · rw [textLines_render hnil (hout.unbroken (unbroken_codeLines src))]
      exact hout.length_le.trans (length_codeLines_le src)
    · rw [length_render hnil]
      exact (hout.total_le _ weighing_one).trans (total_codeLines_le h)

theorem shrink_keeps {p : Text → Bool} {src : Text} (h : Shrinkable A src) (rounds : ℕ) :
    (shrink A (fun t ↦ (pure (p t) : Exec ShrinkRaised σ Bool)) src rounds).Yields
      (Keeps A p src) := by
  have hkeep (t : Text) : (pure (p t) : Exec ShrinkRaised σ Bool).Yields (· = p t) :=
    Exec.yields_pure rfl
  apply (hkeep _).bind
  rintro b rfl
  cases hp : p (render (codeLines A src)) with
  | false => exact Exec.yields_pure hp
  | true =>
    apply (shrinkRounds_yields hkeep rounds h.tidy hp).bind
    rintro out ⟨hout, haccepted⟩
    exact Exec.yields_pure (keeps_of_reduces h hout haccepted)

/-- The predicate that accepts only the source without its blank lines. -/
def onlySource (A : Alphabet) (src t : Text) : Bool := t = render (codeLines A src)

theorem shrink_lighter {src : Text} (hodd : ∃ line ∈ codeLines A src, ¬Tidy A line) (rounds : ℕ) :
    (shrink A (fun t ↦ (pure (onlySource A src t) : Exec ShrinkRaised σ Bool)) src
      (rounds + 1)).Returns fun r ↦ ∃ out, r = some (render out) ∧ Reduces (codeLines A src) out ∧
        total (digitWeight A) out < total (digitWeight A) (codeLines A src) := by
  have hkeep (t : Text) : (pure (onlySource A src t) : Exec ShrinkRaised σ Bool).Yields
      (· = onlySource A src t) := Exec.yields_pure rfl
  have hp (t : Text) : onlySource A src t = true ↔ t = render (codeLines A src) :=
    decide_eq_true_iff
  apply (hkeep _).gives.bind
  rintro b rfl
  rw [(hp _).mpr rfl]
  apply (shrinkRounds_lighter hkeep rounds (unbroken_codeLines src) hp hodd).bind
  exact fun out hout ↦ Exec.gives_pure ⟨out, rfl, hout⟩

/-- An odd literal is rewritten though nothing else is accepted, or `int` refuses it. -/
theorem not_keeps_of_odd {src : Text} (hodd : ∃ line ∈ codeLines A src, ¬Tidy A line)
    (rounds : ℕ) [Inhabited σ] :
    ¬(shrink A (fun t ↦ (pure (onlySource A src t) : Exec ShrinkRaised σ Bool)) src
      (rounds + 1)).Yields (Keeps A (onlySource A src) src) := by
  intro h
  obtain ⟨r, s, heq, hr⟩ := h.eq_ok default
  obtain ⟨out, rfl, hreduces, hlighter⟩ :=
    (shrink_lighter hodd rounds).of_ok (congrArg Prod.fst heq)
  have hne : codeLines A src ≠ [] := by
    obtain ⟨line, hline, -⟩ := hodd
    exact List.ne_nil_of_mem hline
  have hout := render_injective (fun hnil ↦ hne (hreduces.nil_of_nil hnil)) hne
    (hreduces.unbroken (unbroken_codeLines src)) (unbroken_codeLines src) (of_decide_eq_true hr.1)
  rw [hout] at hlighter
  exact lt_irrefl _ hlighter

theorem keeps_source {src : Text} {r : Option Text} (h : Keeps A (onlySource A src) src r) :
    (render (codeLines A src)).length ≤ src.length := by
  cases r with
  | none =>
    have hp : onlySource A src (render (codeLines A src)) = true := decide_eq_true rfl
    exact absurd (hp.symm.trans h) (by decide)
  | some out =>
    obtain ⟨hp, -, hlength⟩ := h
    rwa [of_decide_eq_true hp] at hlength

/-- For every source text, shrinking keeps the failure for every predicate exactly if no literal
is odd and the source has a line break to spare. -/
theorem shrink_keeps_iff (A : Alphabet) (src : Text) (rounds : ℕ) :
    (∀ p : Text → Bool, (shrink A (fun t ↦ (pure (p t) : Exec ShrinkRaised Unit Bool)) src
      (rounds + 1)).Yields (Keeps A p src)) ↔ Shrinkable A src := by
  constructor
  · intro h
    obtain ⟨r, -, -, hr⟩ := (h (onlySource A src)).eq_ok ()
    have hlength := keeps_source hr
    constructor
    · by_contra hno
      push Not at hno
      exact not_keeps_of_odd hno rounds (h (onlySource A src))
    · rintro rfl
      have hrender : render (codeLines A []) = ['\n'] := rfl
      rw [hrender] at hlength
      exact absurd hlength (by decide)
    · by_contra hno
      push Not at hno
      have hall : codeLines A src = src.splitOn '\n' := by
        apply List.filter_eq_self.mpr
        intro part hpart
        simpa using hno part hpart
      rw [hall, render_splitOn] at hlength
      simp at hlength
  · exact fun h p ↦ shrink_keeps h (rounds + 1)

/-- A number with a leading zero is written without it, though only the program itself fails. -/
theorem leading_zero_lost : ¬∀ (A : Alphabet) (src : Text) (p : Text → Bool),
    (shrink A (fun t ↦ (pure (p t) : Exec ShrinkRaised Unit Bool)) src 3).Yields
      (Keeps A p src) := by
  intro h
  have hodd : ∃ line ∈ codeLines plain "x 00\n".toList, ¬Tidy plain line := by
    refine ⟨"x 00".toList, by decide, ?_⟩
    intro htidy
    have hdigits : ∀ c ∈ "00".toList, plain.isDigit c = true := List.all_eq_true.mp (by decide)
    have hcanonical := htidy "00".toList (by decide) (by decide) hdigits
    exact absurd hcanonical.1 (by decide)
  exact not_keeps_of_odd hodd 2 (h plain _ _)

end NucLlm.Swe
