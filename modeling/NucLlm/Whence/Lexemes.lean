import Mathlib.Data.List.TakeWhile
import Mathlib.Data.Option.Basic
import NucLlm.Lib.Lists
import NucLlm.Whence.Lexer

/-!
# Lexemes

A source that tokenizes is a sequence of pieces: the lexemes of its tokens, and
what is skipped.
-/

namespace NucLlm.Whence

/-! ## Places -/

/-- The place after one more character. -/
def Place.next (p : Place) (c : Char) : Place :=
  if c = '\n' then ⟨p.line + 1, 1⟩ else { p with col := p.col + 1 }

/-- The place after a text. -/
def Place.after (p : Place) (text : List Char) : Place := text.foldl Place.next p

@[simp] theorem Place.after_append (p : Place) (text text' : List Char) :
    Place.after p (text ++ text') = Place.after (Place.after p text) text' := List.foldl_append ..

theorem Place.after_of_line (p : Place) {text : List Char} (h : '\n' ∉ text) :
    Place.after p text = { p with col := p.col + text.length } := by
  induction text generalizing p with
  | nil => rfl
  | cons c text ih =>
      have hc : c ≠ '\n' := fun heq ↦ h (heq ▸ List.mem_cons_self)
      have htext : '\n' ∉ text := fun hmem ↦ h (List.mem_cons_of_mem c hmem)
      change Place.after (Place.next p c) text = _
      rw [ih _ htext, Place.next, if_neg hc, List.length_cons]
      simp only [Place.mk.injEq, true_and]
      omega

namespace Lexer

/-! ## Pieces -/

/-- The text between the quotes of a string, and the characters it stands for. -/
inductive Quoted : List Char → List Char → Prop where
  | nil : Quoted [] []
  | char {c body out} : c ≠ '"' → c ≠ '\\' → c ≠ '\n' → Quoted body out →
      Quoted (c :: body) (c :: out)
  | escape {e c body out} : escapes e = some c → Quoted body out →
      Quoted ('\\' :: e :: body) (c :: out)

/-- The text is a lexeme of the token. -/
inductive Spells (host : HostText) : List Char → Tok → Prop where
  | int {text n} : text.length ≤ showIntDigits → intOf text = some n →
      Spells host text (.number (.int n))
  | float {text repr} : isFloatText text = true → floatOf host text = some repr →
      Spells host text (.number (.float repr))
  | name {c text} : isNameStart c = true → (∀ d ∈ text, isNameCont d = true) →
      (∀ k : Kw, k.text.toList ≠ c :: text) →
      Spells host (c :: text) (.name (String.ofList (c :: text)))
  | kw (k : Kw) : Spells host k.text.toList (.kw k)
  | string {body out} : Quoted body out →
      Spells host ('"' :: (body ++ ['"'])) (.string (String.ofList out))
  | punct (p : Punct) : Spells host p.text.toList (.punct p)
  | newline : Spells host ['\n'] .newline

inductive Piece where
  | lexeme (text : List Char) (tok : Tok)
  | skipped (text : List Char)

namespace Piece

def text : Piece → List Char
  | lexeme text _ => text
  | skipped text => text

def tok? : Piece → Option Tok
  | lexeme _ tok => some tok
  | skipped _ => none

/-- A token's text is a lexeme of it; what is skipped is one blank, one newline or a comment up
to the end of its line. -/
inductive Formed (host : HostText) : Piece → List Char → Prop where
  | lexeme {text tok rest} : Spells host text tok → Formed host (.lexeme text tok) rest
  | blank {c rest} : c = ' ' ∨ c = '\t' ∨ c = '\r' → Formed host (.skipped [c]) rest
  | newline {rest} : Formed host (.skipped ['\n']) rest
  | comment {text rest} : '\n' ∉ text → (rest = [] ∨ rest.head? = some '\n') →
      Formed host (.skipped ('#' :: text)) rest

end Piece

def textOf (pieces : List Piece) : List Char := pieces.flatMap Piece.text

/-- The tokens of the pieces, each at the place where its lexeme starts. -/
def tokensFrom (p : Place) : List Piece → List Token
  | [] => []
  | piece :: pieces =>
      (piece.tok?.map fun tok ↦ ⟨tok, p.line, p.col⟩).toList ++
        tokensFrom (p.after piece.text) pieces

/-- The brackets that are open after the tokens, the innermost first. -/
def openBrackets (toks : List Tok) : List Punct := toks.foldl pushed []

/-- A newline after these tokens is a token. -/
structure Separates (toks : List Tok) : Prop where
  not_first : toks ≠ []
  not_again : toks.getLast? ≠ some .newline
  not_continued : ∀ tok, toks.getLast? = some tok → continues tok = false
  not_inside : ∀ p, (openBrackets toks).head? = some p → suppresses p = false

/-- The source as pieces. -/
structure Divided (host : HostText) (src : List Char) (tokens : List Token) (eof : Place)
    (pieces : List Piece) : Prop where
  partition : textOf pieces = src
  tokens_eq : tokens = tokensFrom ⟨1, 1⟩ pieces
  eof_eq : eof = Place.after ⟨1, 1⟩ src
  formed : ∀ before piece behind, pieces = before ++ piece :: behind →
    piece.Formed host (textOf behind)
  newlines : ∀ before piece behind, pieces = before ++ piece :: behind → '\n' ∈ piece.text →
    piece.text = ['\n'] ∧
      (piece = .lexeme ['\n'] .newline ↔ Separates (before.filterMap Piece.tok?))

/-! ## Numeric literals -/

theorem not_newline_of_isDigit {c : Char} (h : isDigit c = true) : c ≠ '\n' := by
  rintro rfl
  revert h
  decide

theorem isDigit_of_mem_takeWhile {src : List Char} {c : Char} (h : c ∈ src.takeWhile isDigit) :
    isDigit c = true := List.mem_takeWhile_imp h

/-- What follows the digits of a numeric literal. -/
theorem takeWhile_append_of_head {text rest : List Char} (htext : ∀ c ∈ text, isDigit c = true)
    (hrest : ∀ c ∈ rest.head?, isDigit c = false) :
    (text ++ rest).takeWhile isDigit = text ∧ (text ++ rest).dropWhile isDigit = rest := by
  rw [List.takeWhile_append_of_pos htext, List.dropWhile_append_of_pos htext]
  cases rest with
  | nil => simp
  | cons c rest =>
      have hc : isDigit c = false := hrest c rfl
      simp [hc]

theorem fractionText_isPrefix (src : List Char) : fractionText src <+: src := by
  unfold fractionText
  split
  · split
    · exact List.cons_prefix_cons.mpr ⟨rfl, List.takeWhile_prefix _⟩
    · exact List.nil_prefix
  · exact List.nil_prefix

theorem signText_isPrefix (src : List Char) : signText src <+: src := by
  unfold signText
  split
  · simp
  · simp
  · exact List.nil_prefix

theorem prefix_of_drop {text text' src : List Char} (h : text <+: src)
    (h' : text' <+: src.drop text.length) : text ++ text' <+: src := by
  obtain ⟨rest, rfl⟩ := h
  rw [List.drop_left] at h'
  exact (List.prefix_append_right_inj text).mpr h'

theorem exponentText_isPrefix (src : List Char) : exponentText src <+: src := by
  cases src with
  | nil => exact List.nil_prefix
  | cons e rest =>
      unfold exponentText
      dsimp only
      split
      · split
        · exact List.nil_prefix
        · apply List.cons_prefix_cons.mpr
          exact ⟨rfl, prefix_of_drop (signText_isPrefix rest) (List.takeWhile_prefix _)⟩
      · exact List.nil_prefix

theorem numberText_isPrefix (src : List Char) : numberText src <+: src := by
  unfold numberText
  have hwhole := List.takeWhile_prefix (l := src) isDigit
  have hfraction := prefix_of_drop hwhole (fractionText_isPrefix _)
  exact prefix_of_drop hfraction (exponentText_isPrefix _)

/-- A fraction is empty, or a point and digits. -/
theorem fractionText_cases (src : List Char) :
    fractionText src = [] ∨ ∃ digits, fractionText src = '.' :: digits ∧ digits ≠ [] ∧
      ∀ c ∈ digits, isDigit c = true := by
  unfold fractionText
  split
  · split
    · rename_i c rest hc
      refine .inr ⟨_, rfl, ?_, fun d hd ↦ isDigit_of_mem_takeWhile hd⟩
      simp [hc]
    · exact .inl rfl
  · exact .inl rfl

/-- An exponent is empty, or a letter, perhaps a sign, and digits. -/
theorem exponentText_cases (src : List Char) :
    exponentText src = [] ∨ ∃ e sign digits, exponentText src = e :: (sign ++ digits) ∧
      (e = 'e' ∨ e = 'E') ∧ (sign = [] ∨ sign = ['+'] ∨ sign = ['-']) ∧ digits ≠ [] ∧
      ∀ c ∈ digits, isDigit c = true := by
  cases src with
  | nil => exact .inl rfl
  | cons e rest =>
      unfold exponentText
      dsimp only
      split
      · rename_i he
        split
        · exact .inl rfl
        · rename_i hdigits
          refine .inr ⟨e, _, _, rfl, he, ?_, by simpa using hdigits,
            fun d hd ↦ isDigit_of_mem_takeWhile hd⟩
          unfold signText
          split <;> simp
      · exact .inl rfl

theorem exponentSyntax_exponentText (src : List Char) :
    exponentSyntax (exponentText src) = true := by
  rcases exponentText_cases src with h | ⟨e, sign, digits, h, he, hsign, hne, hdigits⟩
  · rw [h]
    rfl
  · rw [h]
    have hall : digits.all isDigit = true := List.all_eq_true.mpr hdigits
    unfold exponentSyntax
    rcases hsign with rfl | rfl | rfl
    · obtain ⟨d, ds, rfl⟩ := List.exists_cons_of_ne_nil hne
      have hd := hdigits d List.mem_cons_self
      have hplus : d ≠ '+' := by
        rintro rfl
        revert hd
        decide
      have hminus : d ≠ '-' := by
        rintro rfl
        revert hd
        decide
      rcases he with rfl | rfl <;> simp_all
    · rcases he with rfl | rfl <;> simp_all
    · rcases he with rfl | rfl <;> simp_all

theorem exponentText_head (src : List Char) :
    ∀ c ∈ (exponentText src).head?, isDigit c = false := by
  intro c hc
  rcases exponentText_cases src with h | ⟨e, sign, digits, h, he, _⟩
  · rw [h] at hc
    contradiction
  · rw [h] at hc
    obtain rfl : e = c := by simpa using hc
    rcases he with rfl | rfl <;> decide

/-- A numeric literal is text that the host reads. -/
theorem floatSyntax_numberText {c : Char} {src : List Char} (hc : isDigit c = true) :
    floatSyntax (numberText (c :: src)) = true := by
  unfold numberText
  generalize hwhole : (c :: src).takeWhile isDigit = whole
  have hne : whole ≠ [] := by
    rw [← hwhole]
    simp [hc]
  have hdigits : ∀ d ∈ whole, isDigit d = true := by
    rw [← hwhole]
    exact fun d hd ↦ isDigit_of_mem_takeWhile hd
  dsimp only
  generalize (c :: src).drop whole.length = rest
  generalize (c :: src).drop (whole ++ fractionText rest).length = rest'
  unfold floatSyntax
  have hexponent := exponentSyntax_exponentText rest'
  rcases fractionText_cases rest with h | ⟨digits, h, _, hfraction⟩
  · rw [h, List.append_nil]
    obtain ⟨htake, hdrop⟩ := takeWhile_append_of_head hdigits (exponentText_head rest')
    rw [htake, hdrop]
    split
    · rename_i tail heq
      rcases exponentText_cases rest' with hnil | ⟨e, sign, digits, hcons, he, _⟩
      · rw [hnil] at heq
        contradiction
      · rw [hcons] at heq
        rcases he with rfl | rfl <;> simp at heq
    · simp [hne, hexponent]
  · rw [h, List.append_assoc, List.cons_append]
    have hpoint : ∀ d ∈ ('.' :: (digits ++ exponentText rest')).head?, isDigit d = false := by
      intro d hd
      obtain rfl : '.' = d := by simpa using hd
      decide
    obtain ⟨htake, hdrop⟩ := takeWhile_append_of_head hdigits hpoint
    obtain ⟨_, hdrop'⟩ := takeWhile_append_of_head hfraction (exponentText_head rest')
    rw [htake, hdrop]
    simp only
    rw [hdrop', hexponent]
    simp [hne]

/-- A numeric literal that is no float is its digits. -/
theorem numberText_of_int {src : List Char} (h : isFloatText (numberText src) = false) :
    ∀ c ∈ numberText src, isDigit c = true := by
  unfold numberText at h ⊢
  dsimp only at h ⊢
  generalize src.drop (src.takeWhile isDigit).length = rest at h ⊢
  generalize src.drop (src.takeWhile isDigit ++ fractionText rest).length = rest' at h ⊢
  have hfraction : fractionText rest = [] := by
    rcases fractionText_cases rest with hnil | ⟨digits, hcons, _⟩
    · exact hnil
    · simp [isFloatText, hcons] at h
  have hexponent : exponentText rest' = [] := by
    rcases exponentText_cases rest' with hnil | ⟨e, sign, digits, hcons, he, _⟩
    · exact hnil
    · rcases he with rfl | rfl <;> simp [isFloatText, hcons] at h
  rw [hfraction, hexponent, List.append_nil, List.append_nil]
  exact fun c hc ↦ isDigit_of_mem_takeWhile hc

theorem numberText_ne_nil {c : Char} {src : List Char} (hc : isDigit c = true) :
    numberText (c :: src) ≠ [] := by
  unfold numberText
  simp [hc]

theorem not_newline_mem_numberText (src : List Char) : '\n' ∉ numberText src := by
  unfold numberText
  dsimp only
  generalize src.drop (src.takeWhile isDigit).length = rest
  generalize src.drop (src.takeWhile isDigit ++ fractionText rest).length = rest'
  have hdigits : ∀ text : List Char, (∀ c ∈ text, isDigit c = true) → '\n' ∉ text :=
    fun text h hmem ↦ not_newline_of_isDigit (h _ hmem) rfl
  have hwhole : '\n' ∉ src.takeWhile isDigit := hdigits _ fun c hc ↦ isDigit_of_mem_takeWhile hc
  have hfraction : '\n' ∉ fractionText rest := by
    rcases fractionText_cases rest with hnil | ⟨digits, hcons, _, h⟩
    · simp [hnil]
    · simp [hcons, hdigits _ h]
  have hexponent : '\n' ∉ exponentText rest' := by
    rcases exponentText_cases rest' with hnil | ⟨e, sign, digits, hcons, he, hsign, _, h⟩
    · simp [hnil]
    · rcases he with rfl | rfl <;> rcases hsign with rfl | rfl | rfl <;> simp [hcons, hdigits _ h]
  simp only [List.mem_append, not_or]
  exact ⟨⟨hwhole, hfraction⟩, hexponent⟩

theorem intOf_isSome {text : List Char} (hne : text ≠ []) (hdigits : ∀ c ∈ text, isDigit c = true)
    (hlength : text.length ≤ showIntDigits) : ∃ n, intOf text = some n := by
  have hall : text.all isDigit = true := List.all_eq_true.mpr hdigits
  have hlimit : ¬ 4300 < text.length := by
    unfold showIntDigits at hlength
    omega
  unfold intOf
  rw [if_neg (by simp [hne, hall, hlimit])]
  exact ⟨_, rfl⟩

/-! ## Words, strings and operators -/

theorem spells_wordTok (host : HostText) {c : Char} {src : List Char} (hc : isNameStart c = true) :
    Spells host ((c :: src).takeWhile isNameCont) (wordTok ((c :: src).takeWhile isNameCont)) := by
  have hcont : isNameCont c = true := by simp [isNameCont, hc]
  rw [List.takeWhile_cons_of_pos hcont]
  unfold wordTok
  split
  · rename_i k hk
    have htext := List.find?_some hk
    simp only [decide_eq_true_eq] at htext
    rw [← htext]
    exact .kw k
  · rename_i hnone
    refine .name hc (fun d hd ↦ List.mem_takeWhile_imp hd) ?_
    intro k heq
    have hmem : k ∈ keywords := by cases k <;> decide
    have hno := List.find?_eq_none.mp hnone k hmem
    simp [heq] at hno

theorem not_newline_of_isNameCont {c : Char} (h : isNameCont c = true) : c ≠ '\n' := by
  rintro rfl
  revert h
  decide

theorem Quoted.not_newline {body out : List Char} (h : Quoted body out) : '\n' ∉ body := by
  induction h with
  | nil => simp
  | char _ _ hc _ ih => simp [ih, Ne.symm hc]
  | @escape e c body out he _ ih =>
      have hne : '\n' ≠ e := by
        rintro rfl
        contradiction
      simp [ih, hne]

/-- The loop over a string leaves it at its closing quote. -/
theorem scanString_ok {start : Place} {src out rest : List Char} {col col' : ℕ} {value : String}
    (h : scanString start src out col = .ok (value, rest, col')) :
    ∃ body text, Quoted body text ∧ src = body ++ '"' :: rest ∧
      value = String.ofList (out ++ text) ∧
      col' = col + (body.length + 1) := by
  fun_induction scanString start src out col with
  | case1 rest' out col =>
      cases h
      exact ⟨[], [], .nil, rfl, by simp, rfl⟩
  | case2 e rest' out col c he ih =>
      obtain ⟨body, text, hquoted, rfl, rfl, rfl⟩ := ih h
      refine ⟨'\\' :: e :: body, c :: text, .escape he hquoted, rfl, by simp, ?_⟩
      simp only [List.length_cons]
      omega
  | case3 => contradiction
  | case4 => contradiction
  | case5 c rest' out col hquote hescape hc ih =>
      obtain ⟨body, text, hquoted, rfl, rfl, rfl⟩ := ih h
      rw [not_or] at hc
      refine ⟨c :: body, c :: text, .char hquote hc.2 hc.1 hquoted, rfl, by simp, ?_⟩
      simp only [List.length_cons]
      omega
  | case6 => contradiction

theorem punct?_isPrefix {src : List Char} {p : Punct} (h : punct? src = some p) :
    p.text.toList <+: src := by
  unfold punct? at h
  rcases (Option.orElse_eq_some _ _ _).mp h with h | ⟨_, h⟩
  · have htext := List.find?_some h
    simp only [decide_eq_true_eq] at htext
    rw [htext]
    exact List.take_prefix 2 src
  · have htext := List.find?_some h
    simp only [decide_eq_true_eq] at htext
    rw [htext]
    exact List.take_prefix 1 src

theorem punct_text (p : Punct) : p.text.toList ≠ [] ∧ '\n' ∉ p.text.toList := by
  cases p <;> decide

/-! ## One pass -/

/-- The state behind a piece. -/
def Lexing.past (s : Lexing) (piece : Piece) (rest : List Char) : Lexing :=
  { rest := rest
    place := s.place.after piece.text
    brackets := (piece.tok?.map (pushed s.brackets)).getD s.brackets
    tokens := s.tokens ++ (piece.tok?.map fun tok ↦ ⟨tok, s.place.line, s.place.col⟩).toList }

/-- A newline here is a token. -/
def separates (s : Lexing) : Bool := !suppressed s && s.tokens.getLast?.any (·.tok ≠ .newline)

/-- The pass from one state to the other is over one piece. -/
structure Step (host : HostText) (s s' : Lexing) (piece : Piece) : Prop where
  source : s.rest = piece.text ++ s'.rest
  nonempty : piece.text ≠ []
  past : s' = s.past piece s'.rest
  formed : piece.Formed host s'.rest
  newline : '\n' ∈ piece.text → piece.text = ['\n'] ∧
    (piece = .lexeme ['\n'] .newline ↔ separates s = true)

theorem step_emit (host : HostText) {s : Lexing} {text : List Char} {tok : Tok}
    (h : text <+: s.rest)
    (hne : text ≠ []) (hline : '\n' ∉ text) (hspells : Spells host text tok) :
    Step host s (s.emit tok text.length) (.lexeme text tok) := by
  obtain ⟨rest, hrest⟩ := h
  have hdrop : s.rest.drop text.length = rest := by rw [← hrest, List.drop_left]
  constructor
  · rw [← hrest, Lexing.emit, hdrop]
    rfl
  · exact hne
  · unfold Lexing.emit Lexing.past
    rw [Piece.text, Place.after_of_line _ hline]
    rfl
  · exact .lexeme hspells
  · exact fun hmem ↦ absurd hmem hline

theorem step_skip (host : HostText) {s : Lexing} {text : List Char} (h : text <+: s.rest)
    (hne : text ≠ []) (hline : '\n' ∉ text)
    (hformed : (Piece.skipped text).Formed host (s.rest.drop text.length)) :
    Step host s (s.skip text.length) (.skipped text) := by
  obtain ⟨rest, hrest⟩ := h
  have hdrop : s.rest.drop text.length = rest := by rw [← hrest, List.drop_left]
  constructor
  · rw [← hrest, Lexing.skip, hdrop]
    rfl
  · exact hne
  · unfold Lexing.skip Lexing.past
    rw [Piece.text, Place.after_of_line _ hline]
    simp [Piece.tok?]
  · exact hformed
  · exact fun hmem ↦ absurd hmem hline

theorem step_newline (host : HostText) {s : Lexing} {rest : List Char} (h : s.rest = '\n' :: rest) :
    ∃ piece, Step host s (lexNewline s) piece := by
  have hplace : s.place.after ['\n'] = ⟨s.place.line + 1, 1⟩ := rfl
  by_cases hsep : separates s = true
  · refine ⟨.lexeme ['\n'] .newline, ?_, by simp [Piece.text], ?_, .lexeme .newline, ?_⟩
    · simp [lexNewline, h, Piece.text]
    · unfold lexNewline Lexing.past
      unfold separates at hsep
      rw [if_pos hsep, Piece.text, hplace]
      rfl
    · simp [Piece.text, hsep]
  · refine ⟨.skipped ['\n'], ?_, by simp [Piece.text], ?_, .newline, ?_⟩
    · simp [lexNewline, h, Piece.text]
    · unfold lexNewline Lexing.past
      unfold separates at hsep
      rw [if_neg hsep, Piece.text, hplace]
      simp [Piece.tok?]
    · simp [Piece.text, hsep]

theorem lexNumber_again {host : HostText} {s s' : Lexing} {c : Char} {rest : List Char}
    (hsrc : s.rest = c :: rest) (hc : isDigit c = true) (h : lexNumber host s = .again s') :
    ∃ piece, Step host s s' piece := by
  have hne : numberText s.rest ≠ [] := hsrc ▸ numberText_ne_nil hc
  have hline := not_newline_mem_numberText s.rest
  unfold lexNumber at h
  dsimp only at h
  split at h
  · rename_i hfloat
    split at h
    · rename_i repr hrepr
      obtain rfl := Pass.again.inj h
      exact ⟨_, step_emit host (numberText_isPrefix _) hne hline (.float hfloat hrepr)⟩
    · contradiction
  split at h
  · contradiction
  · rename_i hlength
    split at h
    · rename_i n hn
      obtain rfl := Pass.again.inj h
      exact ⟨_, step_emit host (numberText_isPrefix _) hne hline (.int (by omega) hn)⟩
    · contradiction

/-- The host reads every numeric literal that is not too long. -/
theorem lexNumber_done {host : HostText} {s : Lexing} {c : Char} {rest : List Char} {b : Result}
    (hsrc : s.rest = c :: rest) (hc : isDigit c = true) (h : lexNumber host s = .done b) :
    ∃ e, b = .error (.lexError e) := by
  unfold lexNumber at h
  dsimp only at h
  split at h
  · split at h
    · contradiction
    · rename_i hnone
      unfold floatOf at hnone
      rw [hsrc, if_pos (floatSyntax_numberText hc)] at hnone
      contradiction
  · rename_i hfloat
    split at h
    · obtain rfl := Pass.done.inj h
      exact ⟨_, rfl⟩
    · rename_i hlength
      split at h
      · contradiction
      · rename_i hnone
        have hdigits := numberText_of_int (by simpa using hfloat)
        obtain ⟨n, hn⟩ := intOf_isSome (hsrc ▸ numberText_ne_nil hc) hdigits (by omega)
        rw [hn] at hnone
        contradiction

theorem lexString_again {host : HostText} {s s' : Lexing} {rest : List Char}
    (hsrc : s.rest = '"' :: rest) (h : lexString s = .again s') :
      ∃ piece, Step host s s' piece := by
  unfold lexString at h
  split at h
  · rename_i value rest' col hscan
    obtain rfl := Pass.again.inj h
    rw [hsrc, List.drop_one, List.tail_cons] at hscan
    obtain ⟨body, text, hquoted, rfl, rfl, rfl⟩ := scanString_ok hscan
    have hline : '\n' ∉ '"' :: (body ++ ['"']) := by simp [hquoted.not_newline]
    refine ⟨.lexeme ('"' :: (body ++ ['"'])) (.string (String.ofList text)), ?_, ?_, ?_,
      .lexeme (.string hquoted), fun hmem ↦ absurd hmem hline⟩
    · simp [hsrc, Piece.text]
    · simp [Piece.text]
    · unfold Lexing.past
      rw [Piece.text, Place.after_of_line _ hline]
      have hcol : s.place.col + 1 + (body.length + 1) =
          s.place.col + ('"' :: (body ++ ['"'])).length := by
        simp only [List.length_cons, List.length_append, List.length_nil]
        omega
      simp [Piece.tok?, pushed, hcol]
  · contradiction

theorem lexString_done {s : Lexing} {b : Result} (h : lexString s = .done b) :
    ∃ e, b = .error (.lexError e) := by
  unfold lexString at h
  split at h
  · contradiction
  · obtain rfl := Pass.done.inj h
    exact ⟨_, rfl⟩

/-- Every pass that goes on is over one piece of the source. -/
theorem lexBody_again {host : HostText} {s s' : Lexing} (h : lexBody host s = .again s') :
    ∃ piece, Step host s s' piece := by
  unfold lexBody at h
  split at h
  · contradiction
  rename_i c rest hsrc
  split at h
  · rename_i hc
    obtain rfl := Pass.again.inj h
    subst hc
    have htext : s.rest.takeWhile (· ≠ '\n') = '#' :: rest.takeWhile (· ≠ '\n') := by
      rw [hsrc]
      rfl
    have hcomment : '\n' ∉ rest.takeWhile (· ≠ '\n') := by
      intro hmem
      simpa using List.mem_takeWhile_imp hmem
    refine ⟨_, step_skip host (List.takeWhile_prefix _) ?_ ?_ ?_⟩
    · rw [htext]
      exact List.cons_ne_nil _ _
    · rw [htext]
      intro hmem
      rcases List.mem_cons.mp hmem with heq | hmem
      · contradiction
      · exact hcomment hmem
    · rw [htext, hsrc]
      apply Piece.Formed.comment hcomment
      have hdrop : rest.drop (rest.takeWhile (· ≠ '\n')).length = rest.dropWhile (· ≠ '\n') :=
        Lists.drop_length_takeWhile _ _
      simp only [List.length_cons, List.drop_succ_cons]
      rw [hdrop]
      cases hrest : rest.dropWhile (· ≠ '\n') with
      | nil => exact .inl rfl
      | cons d tail =>
          right
          have hd := List.head?_dropWhile_not (· ≠ '\n') rest
          rw [hrest] at hd
          simpa using hd
  split at h
  · rename_i hc
    obtain rfl := Pass.again.inj h
    exact step_newline host (hc ▸ hsrc)
  split at h
  · rename_i hc
    obtain rfl := Pass.again.inj h
    refine ⟨.skipped [c], step_skip host ?_ (by simp) ?_ (.blank hc)⟩
    · rw [hsrc]
      exact List.cons_prefix_cons.mpr ⟨rfl, List.nil_prefix⟩
    · rcases hc with rfl | rfl | rfl <;> decide
  split at h
  · rename_i hc
    exact lexNumber_again hsrc hc h
  split at h
  · rename_i hc
    obtain rfl := Pass.again.inj h
    refine ⟨_, step_emit host (List.takeWhile_prefix _) ?_ ?_ ?_⟩
    · have hcont : isNameCont c = true := by simp [isNameCont, hc]
      rw [hsrc, List.takeWhile_cons_of_pos hcont]
      simp
    · exact fun hmem ↦ not_newline_of_isNameCont (List.mem_takeWhile_imp hmem) rfl
    · rw [hsrc]
      exact spells_wordTok host hc
  split at h
  · rename_i hc
    exact lexString_again (hc ▸ hsrc) h
  split at h
  · rename_i p hp
    obtain rfl := Pass.again.inj h
    have hlength : p.text.length = p.text.toList.length := (String.length_toList).symm
    rw [hlength]
    exact ⟨_, step_emit host (punct?_isPrefix hp) (punct_text p).1 (punct_text p).2 (.punct p)⟩
  · contradiction

theorem lexBody_done {host : HostText} {s : Lexing} {b : Result} (h : lexBody host s = .done b) :
    (∃ e, b = .error (.lexError e)) ∨ (s.rest = [] ∧ b = .ok (s.tokens, s.place)) := by
  unfold lexBody at h
  split at h
  · rename_i hsrc
    exact .inr ⟨hsrc, (Pass.done.inj h).symm⟩
  rename_i c rest hsrc
  left
  split at h
  · contradiction
  split at h
  · contradiction
  split at h
  · contradiction
  split at h
  · rename_i hc
    exact lexNumber_done hsrc hc h
  split at h
  · contradiction
  split at h
  · exact lexString_done h
  split at h
  · contradiction
  · obtain rfl := Pass.done.inj h
    exact ⟨_, rfl⟩

/-! ## A run -/

theorem tokensFrom_append (p : Place) (pieces pieces' : List Piece) :
    tokensFrom p (pieces ++ pieces') =
      tokensFrom p pieces ++ tokensFrom (p.after (textOf pieces)) pieces' := by
  induction pieces generalizing p with
  | nil => rfl
  | cons piece pieces ih =>
      have htext : textOf (piece :: pieces) = piece.text ++ textOf pieces := List.flatMap_cons ..
      rw [List.cons_append, tokensFrom, ih, tokensFrom, List.append_assoc, htext,
        Place.after_append]

theorem map_tok_tokensFrom (p : Place) (pieces : List Piece) :
    (tokensFrom p pieces).map Token.tok = pieces.filterMap Piece.tok? := by
  induction pieces generalizing p with
  | nil => rfl
  | cons piece pieces ih =>
      rw [tokensFrom, List.map_append, ih]
      cases piece with
      | lexeme text tok => rfl
      | skipped text => rfl

/-- The loop behind these pieces of the source. -/
structure Lexed (host : HostText) (src : List Char) (s : Lexing) (pieces : List Piece) : Prop where
  source : textOf pieces ++ s.rest = src
  tokens : s.tokens = tokensFrom ⟨1, 1⟩ pieces
  place : s.place = Place.after ⟨1, 1⟩ (textOf pieces)
  brackets : s.brackets = openBrackets (pieces.filterMap Piece.tok?)
  formed : ∀ before piece behind, pieces = before ++ piece :: behind →
    piece.Formed host (textOf behind ++ s.rest)
  newlines : ∀ before piece behind, pieces = before ++ piece :: behind → '\n' ∈ piece.text →
    piece.text = ['\n'] ∧
      (piece = .lexeme ['\n'] .newline ↔ Separates (before.filterMap Piece.tok?))

theorem separates_iff {s : Lexing} {toks : List Tok} (htoks : s.tokens.map Token.tok = toks)
    (hbrackets : s.brackets = openBrackets toks) : separates s = true ↔ Separates toks := by
  have hlast : toks.getLast? = s.tokens.getLast?.map Token.tok := by
    rw [← htoks, List.getLast?_map]
  have hnil : toks = [] ↔ s.tokens = [] := by
    rw [← htoks, List.map_eq_nil_iff]
  unfold separates suppressed
  rw [hbrackets, Bool.and_eq_true, Bool.not_eq_true', Bool.or_eq_false_iff]
  constructor
  · rintro ⟨⟨hinside, hcontinued⟩, hagain⟩
    cases hs : s.tokens.getLast? with
    | none => simp [hs] at hagain
    | some t =>
        rw [hs] at hlast hcontinued hagain
        constructor
        · intro h
          rw [hnil.mp h] at hs
          contradiction
        · rw [hlast]
          simpa using hagain
        · intro tok htok
          rw [hlast] at htok
          obtain rfl := Option.some.inj htok
          simpa using hcontinued
        · intro p hp
          rw [hp] at hinside
          simpa using hinside
  · intro h
    cases hs : s.tokens.getLast? with
    | none => exact absurd (hnil.mpr (List.getLast?_eq_none_iff.mp hs)) h.not_first
    | some t =>
        rw [hs] at hlast
        refine ⟨⟨?_, ?_⟩, ?_⟩
        · cases hp : (openBrackets toks).head? with
          | none => rfl
          | some p => simpa using h.not_inside p hp
        · simpa using h.not_continued _ hlast
        · have hagain := h.not_again
          rw [hlast] at hagain
          simpa using hagain

/-- One more pass adds its piece. -/
theorem Lexed.step {host : HostText} {src : List Char} {s s' : Lexing} {pieces : List Piece}
    {piece : Piece} (h : Lexed host src s pieces) (hstep : Step host s s' piece) :
    Lexed host src s' (pieces ++ [piece]) := by
  have htext : textOf (pieces ++ [piece]) = textOf pieces ++ piece.text := by
    simp [textOf]
  have hpast := hstep.past
  have hsep := separates_iff (s := s) (by rw [h.tokens, map_tok_tokensFrom]) h.brackets
  constructor
  · rw [htext, List.append_assoc, ← hstep.source]
    exact h.source
  · rw [hpast, tokensFrom_append, Lexing.past, h.tokens, h.place]
    simp [tokensFrom]
  · rw [hpast, htext, Lexing.past, h.place, Place.after_append]
  · rw [hpast, Lexing.past, h.brackets, List.filterMap_append]
    cases piece with
    | lexeme text tok => simp [Piece.tok?, openBrackets]
    | skipped text => simp [Piece.tok?, List.filterMap_cons]
  · intro before p behind hsplit
    rcases Lists.split_concat hsplit with ⟨rfl, rfl, rfl⟩ | ⟨behind', hpieces, rfl⟩
    · exact hstep.formed
    · have hrest : textOf (behind' ++ [piece]) ++ s'.rest = textOf behind' ++ s.rest := by
        rw [hstep.source]
        simp [textOf]
      rw [hrest]
      exact h.formed before p behind' hpieces
  · intro before p behind hsplit hmem
    rcases Lists.split_concat hsplit with ⟨rfl, rfl, rfl⟩ | ⟨behind', hpieces, rfl⟩
    · rw [← hsep]
      exact hstep.newline hmem
    · exact h.newlines before p behind' hpieces hmem

/-- The lexer ends; what it does not tokenize raises a lexing error, and what it tokenizes is
divided into lexemes and what is skipped. -/
theorem tokenize_divides (host : HostText) (src : String) :
    ∃ result, tokenize host src = some result ∧
      match result with
      | .ok (tokens, eof) => ∃ pieces, Divided host src.toList tokens eof pieces
      | .error failure => ∃ e, failure = .lexError e := by
  apply whileLoop_ends (fun s ↦ s.rest.length) (fun s ↦ ∃ pieces, Lexed host src.toList s pieces)
  · intro s s' ⟨pieces, h⟩ hbody
    obtain ⟨piece, hstep⟩ := lexBody_again hbody
    refine ⟨⟨_, h.step hstep⟩, ?_⟩
    have hlength := congrArg List.length hstep.source
    have hpos := List.length_pos_iff.mpr hstep.nonempty
    rw [List.length_append] at hlength
    omega
  · intro s b ⟨pieces, h⟩ hbody
    rcases lexBody_done hbody with ⟨e, rfl⟩ | ⟨hrest, rfl⟩
    · exact ⟨e, rfl⟩
    · have hsource := h.source
      have hformed := h.formed
      rw [hrest, List.append_nil] at hsource
      simp only [hrest, List.append_nil] at hformed
      exact ⟨pieces, hsource, h.tokens, hsource ▸ h.place, hformed, h.newlines⟩
  · refine ⟨[], rfl, rfl, rfl, rfl, ?_, ?_⟩
    · intro before piece behind hsplit
      simp at hsplit
    · intro before piece behind hsplit
      simp at hsplit
  · exact Nat.lt_succ_self _

end Lexer

end NucLlm.Whence
