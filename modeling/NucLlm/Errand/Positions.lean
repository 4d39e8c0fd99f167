import NucLlm.Errand.FrontEnd
import NucLlm.Lib.Lists
import Mathlib.Data.List.Basic
import Mathlib.Data.List.TakeWhile

/-!
# Where the tokens are

A source that tokenizes is a sequence of pieces: the lexemes of its tokens, blanks,
newlines and comments.  The lexer counts the columns of all of them but the comments.
So every token is where it says, if no newline that is a token and no end of the source
stands behind a comment.
-/

namespace NucLlm.Errand.Lexer

open Exec

/-! ## Lines and columns -/

/-- The line of the character behind a text. -/
def lineAt (before : List Char) : ℕ := before.count '\n' + 1

/-- The column of the character behind a text. -/
def colAt (before : List Char) : ℕ := (before.reverse.takeWhile (· ≠ '\n')).length + 1

theorem lineAt_append (before text : List Char) :
    lineAt (before ++ text) = lineAt before + text.count '\n' := by
  unfold lineAt
  rw [List.count_append]
  omega

theorem colAt_append_of_line (before : List Char) {text : List Char} (h : '\n' ∉ text) :
    colAt (before ++ text) = colAt before + text.length := by
  have hall : ∀ c ∈ text.reverse, decide (c ≠ '\n') = true := by
    intro c hc
    exact decide_eq_true (ne_of_mem_of_not_mem (List.mem_reverse.mp hc) h)
  unfold colAt
  rw [List.reverse_append, List.takeWhile_append_of_pos hall, List.length_append,
    List.length_reverse]
  omega

theorem colAt_append_newline (before : List Char) : colAt (before ++ ['\n']) = 1 := by
  simp [colAt]

/-! ## Pieces -/

variable {φ : Type}

/-- The text between the quotes of a string, and the characters it stands for. -/
inductive Quoted : List Char → List Char → Prop where
  | nil : Quoted [] []
  | char {c : Char} {body out : List Char} : c ≠ '"' → c ≠ '\\' → c ≠ '\n' → Quoted body out →
      Quoted (c :: body) (c :: out)
  | escape {e c : Char} {body out : List Char} : escapes e = some c → Quoted body out →
      Quoted ('\\' :: e :: body) (c :: out)

/-- Digits and points. -/
def Numeral (host : Python φ) (text : List Char) : Prop :=
  text ≠ [] ∧ ∀ c ∈ text, host.isDigit c = true ∨ c = '.'

/-- The text is a lexeme of the token. -/
inductive Spells (host : Python φ) : List Char → Tok φ → Prop where
  | simple {c : Char} {tok : Tok φ} : simple c = some tok → Spells host [c] tok
  | eqEq : Spells host ['=', '='] .eqEq
  | neq : Spells host ['!', '='] .neq
  | eq : Spells host ['='] .eq
  | string {body out : List Char} : Quoted body out →
      Spells host ('"' :: (body ++ ['"'])) (.string (String.ofList out))
  | int {text : List Char} : Numeral host text → '.' ∉ text →
      Spells host text (.number (.int (host.ofDigits text)))
  | float {text : List Char} : Numeral host text → '.' ∈ text →
      Spells host text (.number (.float (host.ofText text)))
  | duration {text unit : List Char} {u : DurationUnit} : Numeral host text →
      durationUnit unit = some u →
      Spells host (text ++ unit) (.duration (host.inUnit (host.ofText text) u))
  | name {c : Char} {text : List Char} : (host.isAlpha c || c = '_') = true →
      (∀ d ∈ text, isNameChar host d = true) →
      Spells host (c :: text) (.name (String.ofList (c :: text)))
  | newline : Spells host ['\n'] .newline

inductive Piece (φ : Type) where
  | lexeme (text : List Char) (tok : Tok φ)
  | blank (c : Char)
  | newline
  | comment (text : List Char)

namespace Piece

def text : Piece φ → List Char
  | lexeme text _ => text
  | blank c => [c]
  | newline => ['\n']
  | comment text => '#' :: text

def tok? : Piece φ → Option (Tok φ)
  | lexeme _ tok => some tok
  | _ => none

def isComment : Piece φ → Bool
  | comment _ => true
  | _ => false

/-- A piece in front of a text: a comment goes up to the end of its line. -/
inductive Formed (host : Python φ) : Piece φ → List Char → Prop where
  | lexeme {text : List Char} {tok : Tok φ} {rest : List Char} : Spells host text tok →
      Formed host (.lexeme text tok) rest
  | blank {c : Char} {rest : List Char} : c = ' ' ∨ c = '\t' ∨ c = '\r' →
      Formed host (.blank c) rest
  | newline {rest : List Char} : Formed host .newline rest
  | comment {text rest : List Char} : '\n' ∉ text → (∀ c ∈ rest.head?, c = '\n') →
      Formed host (.comment text) rest

end Piece

def textOf (pieces : List (Piece φ)) : List Char := pieces.flatMap Piece.text

def toksOf (pieces : List (Piece φ)) : List (Tok φ) := pieces.filterMap Piece.tok?

theorem textOf_concat (pieces : List (Piece φ)) (piece : Piece φ) :
    textOf (pieces ++ [piece]) = textOf pieces ++ piece.text := by
  simp [textOf]

/-- The parentheses that are open behind one more token. -/
def parened (depth : ℕ) : Tok φ → ℕ
  | .lparen => depth + 1
  | .rparen => depth - 1
  | _ => depth

/-- A statement ends at a newline behind these tokens. -/
def Separates (toks : List (Tok φ)) : Prop :=
  toks.foldl parened 0 = 0 ∧ ∃ tok, toks.getLast? = some tok ∧ tok.isNewline = false

/-- What is added at the end of the source. -/
def closing (toks : List (Tok φ)) : List (Tok φ) :=
  if toks.getLast?.any (!·.isNewline) then [.newline, .eof] else [.eof]

/-- The source as pieces. -/
structure Divided (host : Python φ) (src : List Char) (toks : List (Token φ))
    (pieces : List (Piece φ)) : Prop where
  partition : textOf pieces = src
  tokens : toks.map Token.tok = toksOf pieces ++ closing (toksOf pieces)
  formed : ∀ before piece behind, pieces = before ++ piece :: behind →
    piece.Formed host (textOf behind)
  newlines : ∀ before piece behind, pieces = before ++ piece :: behind → '\n' ∈ piece.text →
    piece.text = ['\n'] ∧ (piece = .lexeme ['\n'] .newline ↔ Separates (toksOf before))

/-- The tokens of the pieces, with the columns that stand for what is before them. -/
def tokensFrom (col : List (Piece φ) → ℕ) (before : List (Piece φ)) :
    List (Piece φ) → List (Token φ)
  | [] => []
  | piece :: pieces =>
      (piece.tok?.map fun tok ↦ ⟨tok, lineAt (textOf before), col before⟩).toList ++
        tokensFrom col (before ++ [piece]) pieces

/-- The tokens of a source, with those at its end. -/
def tokensBy (col : List (Piece φ) → ℕ) (pieces : List (Piece φ)) : List (Token φ) :=
  tokensFrom col [] pieces ++
    (closing (toksOf pieces)).map fun tok ↦ ⟨tok, lineAt (textOf pieces), col pieces⟩

/-- The column of the character behind the pieces. -/
def trueCol (pieces : List (Piece φ)) : ℕ := colAt (textOf pieces)

/-- The column where the lexer thinks it is. -/
def countedCol (pieces : List (Piece φ)) : ℕ :=
  if pieces.getLast?.any Piece.isComment then trueCol pieces.dropLast else trueCol pieces

/-- What a comment ends at is no token. -/
def CommentsAside (pieces : List (Piece φ)) : Prop :=
  ∀ before text behind, pieces = before ++ .comment text :: behind →
    ∃ rest, behind = .newline :: rest

theorem Spells.ne_nil {host : Python φ} {text : List Char} {tok : Tok φ}
    (h : Spells host text tok) : text ≠ [] := by
  cases h with
  | int h _ => exact h.1
  | float h _ => exact h.1
  | duration h _ => simp [h.1]
  | _ => simp

theorem Piece.Formed.ne_nil {host : Python φ} {piece : Piece φ} {rest : List Char}
    (h : piece.Formed host rest) : piece.text ≠ [] := by
  cases h with
  | lexeme h => exact h.ne_nil
  | _ => simp [Piece.text]

/-! ## Counted and true columns -/

theorem countedCol_of_not_comment {pieces : List (Piece φ)}
    (h : pieces.getLast?.any Piece.isComment = false) : countedCol pieces = trueCol pieces :=
  if_neg (by simp [h])

theorem countedCol_concat_comment (before : List (Piece φ)) (text : List Char) :
    countedCol (before ++ [.comment text]) = trueCol before := by
  have hlast : (before ++ [Piece.comment text]).getLast?.any Piece.isComment = true := by
    simp [Piece.isComment]
  unfold countedCol
  rw [if_pos hlast, List.dropLast_concat]

theorem trueCol_concat_comment (before : List (Piece φ)) {text : List Char} (h : '\n' ∉ text) :
    trueCol before < trueCol (before ++ [.comment text]) := by
  have hline : '\n' ∉ (Piece.comment text : Piece φ).text := by simp [Piece.text, h]
  unfold trueCol
  rw [textOf_concat, colAt_append_of_line _ hline, Piece.text, List.length_cons]
  omega

theorem exists_comment_of_getLast? {pieces : List (Piece φ)}
    (h : pieces.getLast?.any Piece.isComment = true) :
    ∃ before text, pieces = before ++ [.comment text] := by
  obtain ⟨piece, hlast, hcomment⟩ := (Option.any_eq_true _ _).mp h
  cases piece with
  | comment text => exact ⟨_, text, (List.dropLast_append_getLast? _ hlast).symm⟩
  | _ => contradiction

theorem tokensFrom_eq_iff (col col' : List (Piece φ) → ℕ) (before pieces : List (Piece φ)) :
    tokensFrom col before pieces = tokensFrom col' before pieces ↔
      ∀ front text tok back, pieces = front ++ .lexeme text tok :: back →
        col (before ++ front) = col' (before ++ front) := by
  induction pieces generalizing before with
  | nil => simp [tokensFrom]
  | cons piece pieces ih =>
      have hrest : (∀ front text tok back, pieces = front ++ .lexeme text tok :: back →
            col (before ++ [piece] ++ front) = col' (before ++ [piece] ++ front)) ↔
          ∀ front text tok back, piece :: pieces = piece :: front ++ .lexeme text tok :: back →
            col (before ++ piece :: front) = col' (before ++ piece :: front) := by
        simp
      rw [tokensFrom, tokensFrom]
      cases piece with
      | lexeme text tok =>
          simp only [Piece.tok?, Option.map_some, Option.toList_some, List.singleton_append,
            List.cons.injEq, Token.mk.injEq, true_and]
          rw [ih, hrest]
          constructor
          · rintro ⟨hfirst, hlater⟩ front text' tok' back hsplit
            cases front with
            | nil => simpa using hfirst
            | cons p front =>
                obtain rfl := (List.cons.inj hsplit).1
                exact hlater front text' tok' back hsplit
          · intro h
            refine ⟨?_, fun front text' tok' back hsplit ↦ h _ text' tok' back hsplit⟩
            simpa using h [] text tok pieces rfl
      | _ =>
          simp only [Piece.tok?, Option.map_none, Option.toList_none, List.nil_append]
          rw [ih, hrest]
          constructor
          · intro h front text tok back hsplit
            cases front with
            | nil => simp at hsplit
            | cons p front =>
                obtain rfl := (List.cons.inj hsplit).1
                exact h front text tok back hsplit
          · exact fun h front text tok back hsplit ↦ h _ text tok back hsplit

theorem closing_ne_nil (toks : List (Tok φ)) : closing toks ≠ [] := by
  unfold closing
  split <;> simp

theorem tokensBy_eq_iff (col col' : List (Piece φ) → ℕ) (pieces : List (Piece φ)) :
    tokensBy col pieces = tokensBy col' pieces ↔
      (∀ front text tok back, pieces = front ++ .lexeme text tok :: back →
        col front = col' front) ∧ col pieces = col' pieces := by
  have hfront := tokensFrom_eq_iff col col' [] pieces
  simp only [List.nil_append] at hfront
  obtain ⟨tok, rest, hclosing⟩ := List.exists_cons_of_ne_nil (closing_ne_nil (toksOf pieces))
  rw [← hfront]
  unfold tokensBy
  constructor
  · intro h
    obtain ⟨htokens, hends⟩ := List.append_inj' h (by simp)
    rw [hclosing, List.map_cons, List.map_cons, List.cons.injEq, Token.mk.injEq] at hends
    exact ⟨htokens, hends.1.2.2⟩
  · rintro ⟨htokens, hends⟩
    rw [htokens, hends]

/-- The counted columns are the true ones if and only if no comment stands in front of a newline
that is a token, or at the end. -/
theorem counted_eq_true_iff {host : Python φ} {src : List Char} {toks : List (Token φ)}
    {pieces : List (Piece φ)} (h : Divided host src toks pieces) :
    tokensBy countedCol pieces = tokensBy trueCol pieces ↔ CommentsAside pieces := by
  rw [tokensBy_eq_iff]
  constructor
  · rintro ⟨htokens, hends⟩ before text behind hsplit
    obtain hformed := h.formed before _ behind hsplit
    cases hformed with
    | comment hline hstop =>
        have hbad : countedCol (before ++ [.comment text]) ≠
          trueCol (before ++ [.comment text]) := by
          rw [countedCol_concat_comment]
          exact (trueCol_concat_comment before hline).ne
        cases behind with
        | nil => exact absurd (hsplit ▸ hends) hbad
        | cons piece rest =>
            have hsplit' : pieces = (before ++ [.comment text]) ++ piece :: rest := by
              simp [hsplit]
            have hpiece := h.formed _ _ _ hsplit'
            obtain ⟨c, tail, htext⟩ := List.exists_cons_of_ne_nil hpiece.ne_nil
            obtain rfl : c = '\n' := by
              apply hstop
              simp [textOf, htext]
            obtain ⟨hnewline, _⟩ := h.newlines _ _ _ hsplit' (by simp [htext])
            cases piece with
            | lexeme text' tok => exact absurd (htokens _ _ _ _ hsplit') hbad
            | newline => exact ⟨rest, rfl⟩
            | comment text' => simp [Piece.text] at hnewline
            | blank c =>
                cases hpiece with
                | blank hc =>
                    simp only [Piece.text, List.cons.injEq, and_true] at hnewline
                    simp [hnewline] at hc
  · intro haside
    constructor
    · rintro front text tok back hsplit
      apply countedCol_of_not_comment
      by_contra hcomment
      rw [Bool.not_eq_false] at hcomment
      obtain ⟨before, text', rfl⟩ := exists_comment_of_getLast? hcomment
      obtain ⟨rest, hrest⟩ := haside before text' _ (by rw [hsplit, List.append_assoc]; rfl)
      simp at hrest
    · apply countedCol_of_not_comment
      by_contra hcomment
      rw [Bool.not_eq_false] at hcomment
      obtain ⟨before, text', rfl⟩ := exists_comment_of_getLast? hcomment
      obtain ⟨rest, hrest⟩ := haside before text' [] rfl
      simp at hrest

/-! ## One pass -/

/-- The state behind a piece. -/
def LexState.past (s : LexState φ) (piece : Piece φ) (rest : List Char) : LexState φ where
  rest := rest
  line := s.line + piece.text.count '\n'
  col := if piece.isComment then s.col else if '\n' ∈ piece.text then 1
    else s.col + piece.text.length
  depth := (piece.tok?.map (parened s.depth)).getD s.depth
  toks := s.toks ++ (piece.tok?.map fun tok ↦ ⟨tok, s.line, s.col⟩).toList

/-- The pass from one state to the other is over one piece. -/
structure Step (host : Python φ) (s s' : LexState φ) (piece : Piece φ) : Prop where
  source : s.rest = piece.text ++ s'.rest
  past : s' = s.past piece s'.rest
  formed : piece.Formed host s'.rest
  newline : '\n' ∈ piece.text → piece.text = ['\n'] ∧
    (piece = .lexeme ['\n'] .newline ↔ s.depth = 0 ∧ endsStatement s.toks = true)

/-- A branch of the loop goes over one piece, or raises. -/
def Steps (host : Python φ) (m : Lexing φ Unit) (text : List Char) : Prop :=
  ∀ s, s.state.rest = text → m.wp (fun _ s' ↦ ∃ piece, Step host s.state s'.state piece)
    (fun _ _ ↦ True) s

section

variable {host : Python φ} {c : Char} {cs : List Char}

theorem step_lexeme {s : LexState φ} {text rest : List Char} {tok : Tok φ}
    (hrest : s.rest = text ++ rest) (hline : '\n' ∉ text) (hspells : Spells host text tok) :
    Step host s
      { s with
        rest := s.rest.drop text.length
        col := s.col + text.length
        depth := parened s.depth tok
        toks := s.toks ++ [⟨tok, s.line, s.col⟩] }
      (.lexeme text tok) := by
  have hdrop : s.rest.drop text.length = rest := by rw [hrest, List.drop_left]
  constructor
  · dsimp only
    rw [hdrop, hrest]
    rfl
  · unfold LexState.past
    simp [Piece.text, Piece.isComment, Piece.tok?, hline, List.count_eq_zero.mpr hline]
  · exact .lexeme hspells
  · exact fun hmem ↦ absurd hmem hline

/-- A token that is no parenthesis. -/
theorem steps_symbol {text rest : List Char} {tok : Tok φ} {n : ℕ} (hn : n = text.length)
    (hline : '\n' ∉ text) (hspells : Spells host text tok) (htok : ∀ d, parened d tok = d) :
    Steps host (symbol tok n) (text ++ rest) := by
  subst hn
  intro s hs
  refine ⟨.lexeme text tok, ?_⟩
  have hstep := step_lexeme hs hline hspells
  rw [htok] at hstep
  exact hstep

theorem steps_comment : Steps host (comment : Lexing φ Unit) ('#' :: cs) := by
  intro s hs
  have hdrop : ('#' :: cs).dropWhile (· ≠ '\n') = cs.dropWhile (· ≠ '\n') := by simp
  have hsplit := List.takeWhile_append_dropWhile (p := (· ≠ '\n')) (l := cs)
  have hhead := List.head?_dropWhile_not (· ≠ '\n') cs
  have hline : '\n' ∉ cs.takeWhile (· ≠ '\n') := by
    intro hmem
    simpa using List.mem_takeWhile_imp hmem
  have hrest : s.state.rest.dropWhile (· ≠ '\n') = cs.dropWhile (· ≠ '\n') := by
    rw [hs, hdrop]
  unfold comment
  rw [wp_modify, hrest]
  revert hsplit hhead hline
  generalize cs.takeWhile (· ≠ '\n') = text
  generalize cs.dropWhile (· ≠ '\n') = rest
  intro hsplit hhead hline
  refine ⟨.comment text, ?_, ?_, .comment hline ?_, ?_⟩
  · rw [hs, ← hsplit]
    rfl
  · simp [LexState.past, Piece.isComment, Piece.tok?, Piece.text, List.count_eq_zero.mpr hline]
  · intro c hc
    rw [Option.mem_def.mp hc] at hhead
    simpa using hhead
  · intro hmem
    exact absurd hmem (by simp [Piece.text, hline])

theorem steps_newline : Steps host (newline : Lexing φ Unit) ('\n' :: cs) := by
  intro s hs
  have htail : s.state.rest.tail = cs := by rw [hs]; rfl
  unfold newline
  rw [wp_bind, wp_get]
  dsimp only
  split
  · rename_i hends
    rw [Bool.and_eq_true, decide_eq_true_eq] at hends
    refine ⟨.lexeme ['\n'] .newline, ?_, ?_, .lexeme .newline, ?_⟩
    · change s.state.rest = _ ++ s.state.rest.tail
      rw [htail, hs]
      rfl
    · simp [LexState.past, Piece.isComment, Piece.tok?, Piece.text, parened]
    · exact fun _ ↦ ⟨rfl, fun _ ↦ hends, fun _ ↦ rfl⟩
  · rename_i hends
    rw [Bool.and_eq_true, decide_eq_true_eq] at hends
    refine ⟨.newline, ?_, ?_, .newline, ?_⟩
    · change s.state.rest = _ ++ s.state.rest.tail
      rw [htail, hs]
      rfl
    · simp [LexState.past, Piece.isComment, Piece.tok?, Piece.text]
    · exact fun _ ↦ ⟨rfl, fun h ↦ by contradiction, fun h ↦ absurd h hends⟩

theorem steps_blank (hc : c = ' ' ∨ c = '\t' ∨ c = '\r') :
    Steps host (skip 1 : Lexing φ Unit) (c :: cs) := by
  intro s hs
  have hline : '\n' ∉ [c] := by
    rcases hc with rfl | rfl | rfl <;> decide
  refine ⟨.blank c, ?_, ?_, .blank hc, fun hmem ↦ absurd hmem hline⟩
  · change s.state.rest = _ ++ s.state.rest.drop 1
    rw [hs]
    rfl
  · simp [LexState.past, Piece.isComment, Piece.tok?, Piece.text, List.mem_singleton.not.mp hline,
      List.count_eq_zero.mpr hline]

theorem steps_simple {tok : Tok φ} (htok : simple c = some tok) :
    Steps host (paren c >>= fun _ ↦ symbol tok 1) (c :: cs) := by
  intro s hs
  have hline : '\n' ∉ [c] := by
    intro hmem
    obtain rfl := List.mem_singleton.mp hmem
    contradiction
  have hspells : Spells host [c] tok := .simple htok
  have hsource : s.state.rest = [c] ++ cs := hs
  have hstep := step_lexeme hsource hline hspells
  refine ⟨.lexeme [c] tok, ?_⟩
  have hdepth : (if c = '(' then s.state.depth + 1 else if c = ')' then s.state.depth - 1
      else s.state.depth) = parened s.state.depth tok := by
    unfold simple at htok
    split at htok <;> first
      | contradiction
      | (obtain rfl := Option.some.inj htok
         rfl)
  rw [← hdepth] at hstep
  exact hstep

theorem stringText_ok {line col : ℕ} {offset offset' : ℕ} {cs rest buf text : List Char}
    (h : stringText line col offset cs buf = .ok (text, offset', rest)) :
    ∃ body out, Quoted body out ∧ cs = body ++ '"' :: rest ∧ text = buf ++ out ∧
      offset' = offset + body.length := by
  fun_induction stringText line col offset cs buf with
  | case1 | case2 | case4 | case6 => contradiction
  | case3 offset c cs buf =>
      cases h
      exact ⟨[], [], .nil, rfl, by simp, rfl⟩
  | case5 offset buf e cs x he _ _ ih =>
      obtain ⟨body, out, hquoted, rfl, rfl, rfl⟩ := ih h
      refine ⟨'\\' :: e :: body, x :: out, .escape he hquoted, rfl, by simp, ?_⟩
      simp only [List.length_cons]
      omega
  | case7 offset c cs buf hline hquote hescape ih =>
      obtain ⟨body, out, hquoted, rfl, rfl, rfl⟩ := ih h
      refine ⟨c :: body, c :: out, .char hquote hescape hline hquoted, rfl, by simp, ?_⟩
      simp only [List.length_cons]
      omega

theorem Quoted.not_newline {body out : List Char} (h : Quoted body out) : '\n' ∉ body := by
  induction h with
  | nil => simp
  | char _ _ hc _ ih => simp [ih, Ne.symm hc]
  | @escape e c body out he _ ih =>
      have hne : '\n' ≠ e := by
        rintro rfl
        contradiction
      simp [ih, hne]

theorem steps_string : Steps host (string : Lexing φ Unit) ('"' :: cs) := by
  intro s hs
  unfold string
  rw [wp_bind, wp_get]
  split
  · trivial
  · rename_i text offset rest htext
    rw [hs, List.tail_cons] at htext
    obtain ⟨body, out, hquoted, rfl, rfl, rfl⟩ := stringText_ok htext
    have hline : '\n' ∉ '"' :: (body ++ ['"']) := by simp [hquoted.not_newline]
    have hsource : s.state.rest = ('"' :: (body ++ ['"'])) ++ rest := by
      rw [hs]
      simp
    have hspells : Spells host ('"' :: (body ++ ['"'])) (.string (String.ofList text)) :=
      .string hquoted
    have hstep := step_lexeme hsource hline hspells
    have hlength : ('"' :: (body ++ ['"'])).length = 1 + body.length + 1 := by
      simp only [List.length_cons, List.length_append, List.length_nil]
      omega
    rw [hlength] at hstep
    exact ⟨_, hstep⟩

theorem numberText_append (host : Python φ) (seenDot : Bool) (cs : List Char) :
    (numberText host seenDot cs).1 ++ (numberText host seenDot cs).2 = cs := by
  fun_induction numberText host seenDot cs with
  | case1 => rfl
  | case2 seenDot c cs hc text rest heq ih =>
      rw [heq] at ih
      rw [List.cons_append, ih]
  | case3 => rfl

theorem floatText_wp {text : List Char} {Q : φ → Logged φ (LexState φ) → Prop}
    {s : Logged φ (LexState φ)} (h : ∀ s', s'.state = s.state → Q (host.ofText text) s') :
    (floatText host text).wp Q (fun _ _ ↦ True) s := by
  unfold floatText ask
  rw [wp_bind, wp_modify]
  split
  · exact h _ rfl
  · trivial

theorem intText_wp {text : List Char} {Q : ℕ → Logged φ (LexState φ) → Prop}
    {s : Logged φ (LexState φ)} (h : ∀ s', s'.state = s.state → Q (host.ofDigits text) s') :
    (intText host text).wp Q (fun _ _ ↦ True) s := by
  unfold intText ask
  rw [wp_bind, wp_modify]
  split
  · exact h _ rfl
  · trivial

/-- A token at the place where the branch began. -/
theorem emit_steps {s s' : Logged φ (LexState φ)} {text rest : List Char} {tok : Tok φ}
    (hs : s.state.rest = text ++ rest) (hs' : s'.state = s.state) (hline : '\n' ∉ text)
    (hspells : Spells host text tok) (htok : ∀ d, parened d tok = d) :
    (emit tok s.state.line s.state.col >>= fun _ ↦ skip text.length).wp
      (fun _ s'' ↦ ∃ piece, Step host s.state s''.state piece) (fun _ _ ↦ True) s' := by
  have hstep := step_lexeme hs hline hspells
  rw [htok, ← hs'] at hstep
  rw [← hs']
  exact ⟨_, hstep⟩

theorem steps_number (hdigit : host.isDigit '\n' = false) (halnum : host.isAlnum '\n' = false)
    (h : startsNumber host (c :: cs) = true) : Steps host (number host) (c :: cs) := by
  have hpos := numberText_pos h
  have hchars := (startsWith_numberText host false (c :: cs)).2
  have hsplit := numberText_append host false (c :: cs)
  have hunit := List.takeWhile_append_dropWhile (p := host.isAlpha)
    (l := (numberText host false (c :: cs)).2)
  intro s hs
  unfold number
  rw [wp_bind, wp_get, hs]
  dsimp only
  revert hpos hchars hsplit hunit
  generalize (numberText host false (c :: cs)).1 = text
  generalize (numberText host false (c :: cs)).2 = rest
  intro hpos hchars hsplit hunit
  have hnumeral : Numeral host text := ⟨List.ne_nil_of_length_pos hpos, hchars⟩
  have hline : '\n' ∉ text := by
    intro hmem
    rcases hchars _ hmem with h | h
    · exact absurd h (by simp [hdigit])
    · contradiction
  have hsource : s.state.rest = text ++ rest := by rw [hs, hsplit]
  split
  · split
    · rename_i hpoint
      have hmem : '.' ∈ text := List.contains_iff_mem.mp hpoint
      change wp ((floatText host text >>= pure ∘ Number.float) >>= _) _ _ s
      rw [Exec.bind_assoc, wp_bind]
      apply floatText_wp
      intro s' hs'
      exact emit_steps hsource hs' hline (.float hnumeral hmem) fun _ ↦ rfl
    · rename_i hpoint
      have hmem : '.' ∉ text := fun hmem ↦ hpoint (List.contains_iff_mem.mpr hmem)
      change wp ((intText host text >>= pure ∘ Number.int) >>= _) _ _ s
      rw [Exec.bind_assoc, wp_bind]
      apply intText_wp
      intro s' hs'
      exact emit_steps hsource hs' hline (.int hnumeral hmem) fun _ ↦ rfl
  · split
    · trivial
    · rename_i u hu
      have hline' : '\n' ∉ text ++ rest.takeWhile host.isAlpha := by
        rw [List.mem_append, not_or]
        refine ⟨hline, fun hmem ↦ ?_⟩
        have halpha := host.isAlnum_of_isAlpha _ (List.mem_takeWhile_imp hmem)
        exact absurd halpha (by simp [halnum])
      have hsource' : s.state.rest =
          (text ++ rest.takeWhile host.isAlpha) ++ rest.dropWhile host.isAlpha := by
        rw [hsource, List.append_assoc, hunit]
      rw [wp_bind]
      apply floatText_wp
      intro s' hs'
      exact emit_steps hsource' hs' hline' (.duration hnumeral hu) fun _ ↦ rfl

theorem steps_name (halnum : host.isAlnum '\n' = false)
    (h : (host.isAlpha c || c = '_') = true) : Steps host (name host) (c :: cs) := by
  have hchar : isNameChar host c = true := by
    rcases Bool.or_eq_true_iff.mp h with h | h
    · simp [isNameChar, host.isAlnum_of_isAlpha c h]
    · simp [isNameChar, h]
  have hnewline : isNameChar host '\n' = false := by simp [isNameChar, halnum]
  have hsplit := List.takeWhile_append_dropWhile (p := isNameChar host) (l := cs)
  have hline : '\n' ∉ c :: cs.takeWhile (isNameChar host) := by
    intro hmem
    rcases List.mem_cons.mp hmem with rfl | hmem
    · exact absurd hchar (by simp [hnewline])
    · exact absurd (List.mem_takeWhile_imp hmem) (by simp [hnewline])
  intro s hs
  unfold name
  rw [wp_bind, wp_get, hs, List.takeWhile_cons_of_pos hchar]
  have hsource : s.state.rest =
      c :: cs.takeWhile (isNameChar host) ++ cs.dropWhile (isNameChar host) := by
    rw [hs, List.cons_append, hsplit]
  exact emit_steps hsource rfl hline (.name h fun d hd ↦ List.mem_takeWhile_imp hd) fun _ ↦ rfl

/-- A pass over a text that is not at its end goes over one piece. -/
theorem pass_steps (hdigit : host.isDigit '\n' = false) (halnum : host.isAlnum '\n' = false)
    {s : Logged φ (LexState φ)} (hs : s.state.rest = c :: cs) :
    (pass host ()).wp (fun r s' ↦ r = .again () ∧ ∃ piece, Step host s.state s'.state piece)
      (fun _ _ ↦ True) s := by
  have hagain : ∀ m : Lexing φ Unit, Steps host m (c :: cs) →
      (m >>= fun _ ↦ pure (.again ()) : Lexing φ (Pass Unit Unit)).wp
        (fun r s' ↦ r = .again () ∧ ∃ piece, Step host s.state s'.state piece)
        (fun _ _ ↦ True) s := by
    intro m hm
    refine wp_bind_of (hm s hs) ?_
    rintro _ s' hs'
    exact ⟨rfl, hs'⟩
  unfold pass
  rw [wp_bind, wp_get, hs]
  dsimp only
  by_cases hcomment : c = '#'
  · rw [if_pos hcomment]
    subst hcomment
    exact hagain _ steps_comment
  rw [if_neg hcomment]
  by_cases hnewline : c = '\n'
  · rw [if_pos hnewline]
    subst hnewline
    exact hagain _ steps_newline
  rw [if_neg hnewline]
  by_cases hblank : (c = ' ' || c = '\t' || c = '\r') = true
  · rw [if_pos hblank]
    simp only [Bool.or_eq_true, decide_eq_true_eq, or_assoc] at hblank
    exact hagain _ (steps_blank hblank)
  rw [if_neg hblank]
  split
  · rename_i tok htok
    rw [← Exec.bind_assoc]
    exact hagain _ (steps_simple htok)
  · split_ifs with heqEq hneq heq hquote hnumber hname
    · obtain ⟨rest, hrest⟩ := List.isPrefixOf_iff_prefix.mp heqEq
      rw [← hrest] at hagain
      exact hagain _ (steps_symbol rfl (by decide) .eqEq fun _ ↦ rfl)
    · obtain ⟨rest, hrest⟩ := List.isPrefixOf_iff_prefix.mp hneq
      rw [← hrest] at hagain
      exact hagain _ (steps_symbol rfl (by decide) .neq fun _ ↦ rfl)
    · subst heq
      have hsteps : Steps host (symbol .eq 1) (['='] ++ cs) :=
        steps_symbol rfl (by decide) .eq fun _ ↦ rfl
      exact hagain _ hsteps
    · subst hquote
      exact hagain _ steps_string
    · exact hagain _ (steps_number hdigit halnum hnumber)
    · exact hagain _ (steps_name halnum hname)
    · trivial

end

/-! ## A run -/

/-- The loop behind these pieces of the source. -/
structure Passed (host : Python φ) (src : List Char) (s : LexState φ) (pieces : List (Piece φ)) :
    Prop where
  source : textOf pieces ++ s.rest = src
  toks : s.toks = tokensFrom countedCol [] pieces
  line : s.line = lineAt (textOf pieces)
  col : s.col = countedCol pieces
  depth : s.depth = (toksOf pieces).foldl parened 0
  formed : ∀ before piece behind, pieces = before ++ piece :: behind →
    piece.Formed host (textOf behind ++ s.rest)
  newlines : ∀ before piece behind, pieces = before ++ piece :: behind → '\n' ∈ piece.text →
    piece.text = ['\n'] ∧ (piece = .lexeme ['\n'] .newline ↔ Separates (toksOf before))

theorem tokensFrom_concat (col : List (Piece φ) → ℕ) (before pieces : List (Piece φ))
    (piece : Piece φ) : tokensFrom col before (pieces ++ [piece]) = tokensFrom col before pieces ++
      (piece.tok?.map fun tok ↦
        ⟨tok, lineAt (textOf (before ++ pieces)), col (before ++ pieces)⟩).toList := by
  induction pieces generalizing before with
  | nil => simp [tokensFrom]
  | cons p pieces ih =>
      rw [List.cons_append, tokensFrom, ih, tokensFrom]
      simp [List.append_assoc]

theorem map_tok_tokensFrom (col : List (Piece φ) → ℕ) (before pieces : List (Piece φ)) :
    (tokensFrom col before pieces).map Token.tok = toksOf pieces := by
  induction pieces generalizing before with
  | nil => rfl
  | cons piece pieces ih =>
      rw [tokensFrom, List.map_append, ih]
      cases piece <;> rfl

theorem Passed.toks_eq {host : Python φ} {src : List Char} {s : LexState φ}
    {pieces : List (Piece φ)} (h : Passed host src s pieces) :
    s.toks.map Token.tok = toksOf pieces := by
  rw [h.toks, map_tok_tokensFrom]

theorem getLast?_map_tok (toks : List (Token φ)) :
    (toks.map Token.tok).getLast?.any (!·.isNewline) = endsStatement toks := by
  unfold endsStatement
  rw [List.getLast?_map, Option.any_map]

theorem separates_iff {s : LexState φ} {toks : List (Tok φ)} (htoks : s.toks.map Token.tok = toks)
    (hdepth : s.depth = toks.foldl parened 0) :
    (s.depth = 0 ∧ endsStatement s.toks = true) ↔ Separates toks := by
  unfold Separates
  rw [hdepth, ← getLast?_map_tok, htoks, Option.any_eq_true]
  simp only [Bool.not_eq_true']

/-- A comment at the end stands in front of a newline or of the end. -/
theorem Passed.col_step {host : Python φ} {src : List Char} {s s' : LexState φ}
    {pieces : List (Piece φ)} {piece : Piece φ} (h : Passed host src s pieces)
    (hstep : Step host s s' piece) : s'.col = countedCol (pieces ++ [piece]) := by
  have hcol : '\n' ∉ piece.text → s.col = trueCol pieces := by
    intro hline
    rw [h.col]
    apply countedCol_of_not_comment
    by_contra hcomment
    rw [Bool.not_eq_false] at hcomment
    obtain ⟨before, text, rfl⟩ := exists_comment_of_getLast? hcomment
    cases h.formed before _ [] rfl with
    | comment _ hstop =>
        obtain ⟨c, tail, htext⟩ := List.exists_cons_of_ne_nil hstep.formed.ne_nil
        obtain rfl : c = '\n' := by
          apply hstop
          simp [textOf, hstep.source, htext]
        exact hline (by simp [htext])
  rw [hstep.past]
  unfold LexState.past
  dsimp only
  cases hcomment : piece.isComment with
  | true =>
      cases piece with
      | comment text =>
          cases hstep.formed with
          | comment hline _ =>
              rw [countedCol_concat_comment]
              exact hcol (by simp [Piece.text, hline])
      | _ => contradiction
  | false =>
      have hlast : (pieces ++ [piece]).getLast?.any Piece.isComment = false := by
        simp [hcomment]
      rw [countedCol_of_not_comment hlast, trueCol, textOf_concat]
      simp only [Bool.false_eq_true, if_false]
      split
      · rename_i hmem
        rw [(hstep.newline hmem).1, colAt_append_newline]
      · rename_i hline
        rw [colAt_append_of_line _ hline, hcol hline]
        rfl

/-- One more pass adds its piece. -/
theorem Passed.step {host : Python φ} {src : List Char} {s s' : LexState φ}
    {pieces : List (Piece φ)} {piece : Piece φ} (h : Passed host src s pieces)
    (hstep : Step host s s' piece) : Passed host src s' (pieces ++ [piece]) := by
  have hpast := hstep.past
  have hsep := separates_iff h.toks_eq h.depth
  constructor
  · rw [textOf_concat, List.append_assoc, ← hstep.source]
    exact h.source
  · rw [hpast, tokensFrom_concat, LexState.past, h.toks, h.line, h.col]
    rfl
  · rw [hpast, LexState.past, textOf_concat, lineAt_append, h.line]
  · exact h.col_step hstep
  · rw [hpast, LexState.past, h.depth]
    cases piece <;> simp [Piece.tok?, toksOf, List.filterMap_cons]
  · intro before p behind hsplit
    rcases Lists.split_concat hsplit with ⟨rfl, rfl, rfl⟩ | ⟨behind', hpieces, rfl⟩
    · exact hstep.formed
    · rw [textOf_concat, List.append_assoc, ← hstep.source]
      exact h.formed before p behind' hpieces
  · intro before p behind hsplit hmem
    rcases Lists.split_concat hsplit with ⟨rfl, rfl, rfl⟩ | ⟨behind', hpieces, rfl⟩
    · rw [← hsep]
      exact hstep.newline hmem
    · exact h.newlines before p behind' hpieces hmem

variable {host : Python φ} {src : List Char}

theorem pass_passes (hdigit : host.isDigit '\n' = false)
    (halnum : host.isAlnum '\n' = false) {s : Logged φ (LexState φ)} {pieces : List (Piece φ)}
    (h : Passed host src s.state pieces) : (pass host ()).wp
      (fun r s' ↦ (∃ pieces, Passed host src s'.state pieces) ∧
        match r with
        | .again _ => s'.state.rest.length < s.state.rest.length
        | .done _ => s'.state.rest = [])
      (fun _ _ ↦ True) s := by
  cases hs : s.state.rest with
  | nil =>
      unfold pass
      rw [wp_bind, wp_get, hs]
      exact ⟨⟨pieces, h⟩, hs⟩
  | cons c cs =>
      refine wp_mono (pass_steps hdigit halnum hs) ?_ fun _ _ h ↦ h
      rintro r s' ⟨rfl, piece, hstep⟩
      refine ⟨⟨_, h.step hstep⟩, ?_⟩
      have hlength := congrArg List.length hstep.source
      have hpos := List.length_pos_iff.mpr hstep.formed.ne_nil
      rw [List.length_append, hs] at hlength
      dsimp only
      omega

theorem loop_passes (hdigit : host.isDigit '\n' = false) (halnum : host.isAlnum '\n' = false)
    (n : ℕ) {s : Logged φ (LexState φ)} {pieces : List (Piece φ)}
    (h : Passed host src s.state pieces) : (loop .endless (pass host) n ()).wp
      (fun _ s' ↦ s'.state.rest = [] ∧ ∃ pieces, Passed host src s'.state pieces)
      (fun _ _ ↦ True) s := by
  induction n generalizing s pieces with
  | zero => trivial
  | succ n ih =>
      refine wp_bind_of (pass_passes hdigit halnum h) ?_
      rintro r s' ⟨⟨pieces', h'⟩, hr⟩
      cases r with
      | done _ => exact ⟨hr, pieces', h'⟩
      | again _ => exact ih h'

/-- What tokenizes is divided into pieces, and the tokens have the counted columns. -/
theorem divided_tokenize (hdigit : host.isDigit '\n' = false)
    (halnum : host.isAlnum '\n' = false) (src : List Char) :
    (tokenize host).wp
      (fun toks _ ↦ ∃ pieces, Divided host src toks pieces ∧ toks = tokensBy countedCol pieces)
      (fun _ _ ↦ True) ⟨⟨src, 1, 1, 0, []⟩, []⟩ := by
  have hstart : Passed host src (⟨src, 1, 1, 0, []⟩ : LexState φ) [] :=
    ⟨rfl, rfl, rfl, rfl, rfl, by simp, by simp⟩
  unfold tokenize
  rw [wp_bind, wp_get]
  refine wp_bind_of (loop_passes hdigit halnum (src.length + 1) hstart) ?_
  rintro _ s' ⟨hrest, pieces, h⟩
  have hsource := h.source
  rw [hrest, List.append_nil] at hsource
  have hformed : ∀ before piece behind, pieces = before ++ piece :: behind →
      piece.Formed host (textOf behind) := by
    intro before piece behind hsplit
    have hpiece := h.formed before piece behind hsplit
    rwa [hrest, List.append_nil] at hpiece
  have hdone : ∀ toks, toks = tokensBy countedCol pieces →
      ∃ pieces, Divided host src toks pieces ∧ toks = tokensBy countedCol pieces := by
    rintro toks rfl
    refine ⟨pieces, ⟨hsource, ?_, hformed, h.newlines⟩, rfl⟩
    rw [tokensBy, List.map_append, map_tok_tokensFrom, List.map_map]
    simp [Function.comp_def]
  rw [wp_bind, wp_get]
  dsimp only
  have hends := getLast?_map_tok s'.state.toks
  rw [h.toks_eq] at hends
  split
  · rename_i hclose
    refine hdone _ ?_
    change s'.state.toks ++ [⟨.newline, s'.state.line, s'.state.col⟩] ++
      [⟨.eof, s'.state.line, s'.state.col⟩] = _
    rw [tokensBy, closing, if_pos (hends.trans hclose), h.toks, h.line, h.col]
    simp
  · rename_i hclose
    refine hdone _ ?_
    change s'.state.toks ++ [⟨.eof, s'.state.line, s'.state.col⟩] = _
    rw [tokensBy, closing, if_neg (fun hopen ↦ hclose (hends.symm.trans hopen)), h.toks, h.line,
      h.col]
    rfl

/-- The tokens of a source are where they say if and only if no comment stands in front of a newline
that is a token, or at the end. -/
theorem tokens_placed (hdigit : host.isDigit '\n' = false) (halnum : host.isAlnum '\n' = false)
    {toks : List (Token φ)} {s : Logged φ (LexState φ)}
    (h : tokenize host ⟨⟨src, 1, 1, 0, []⟩, []⟩ = (.ok toks, s)) :
    ∃ pieces, Divided host src toks pieces ∧
      (toks = tokensBy trueCol pieces ↔ CommentsAside pieces) := by
  have hdivides := divided_tokenize hdigit halnum src
  unfold wp at hdivides
  rw [h] at hdivides
  obtain ⟨pieces, hdivided, hcounted⟩ := hdivides
  refine ⟨pieces, hdivided, ?_⟩
  rw [← counted_eq_true_iff hdivided, hcounted]

theorem exists_of_mem_tokensFrom {col : List (Piece φ) → ℕ} {before pieces : List (Piece φ)}
    {t : Token φ} (h : t ∈ tokensFrom col before pieces) : ∃ front text back,
      pieces = front ++ .lexeme text t.tok :: back ∧ t.line = lineAt (textOf (before ++ front)) ∧
        t.col = col (before ++ front) := by
  induction pieces generalizing before with
  | nil => simp [tokensFrom] at h
  | cons piece pieces ih =>
      rw [tokensFrom, List.mem_append] at h
      rcases h with h | h
      · cases piece with
        | lexeme text tok =>
            obtain rfl := List.mem_singleton.mp h
            exact ⟨[], text, pieces, rfl, by simp, by simp⟩
        | _ => simp [Piece.tok?] at h
      · obtain ⟨front, text, back, rfl, hline, hcol⟩ := ih h
        exact ⟨piece :: front, text, back, rfl, by simpa using hline, by simpa using hcol⟩

/-- The tokens of `a #`, a newline. -/
def commentedTokens : List (Token ℚ) := [⟨.name "a", 1, 1⟩, ⟨.newline, 1, 3⟩, ⟨.eof, 2, 1⟩]

theorem tokenize_commented :
    ∃ s, tokenize Source.exactHost ⟨⟨['a', ' ', '#', '\n'], 1, 1, 0, []⟩, []⟩ =
      (.ok commentedTokens, s) :=
  ⟨_, rfl⟩

theorem tokens_placed_commented : ∃ pieces,
    Divided Source.exactHost ['a', ' ', '#', '\n'] commentedTokens pieces ∧
      (commentedTokens = tokensBy trueCol pieces ↔ CommentsAside pieces) := by
  obtain ⟨s, hs⟩ := tokenize_commented
  exact tokens_placed rfl rfl hs

/-- The newline behind the comment is at column four. -/
theorem tokens_not_placed :
    ¬∀ (src : List Char) (toks : List (Token ℚ)) (s : Logged ℚ (LexState ℚ)),
      tokenize Source.exactHost ⟨⟨src, 1, 1, 0, []⟩, []⟩ = (.ok toks, s) →
        ∃ pieces, Divided Source.exactHost src toks pieces ∧ toks = tokensBy trueCol pieces := by
  intro h
  obtain ⟨s, hs⟩ := tokenize_commented
  obtain ⟨pieces, hdivided, htrue⟩ := h _ _ s hs
  have hpartition := hdivided.partition
  have hmem : (⟨.newline, 1, 3⟩ : Token ℚ) ∈ tokensBy trueCol pieces :=
    htrue ▸ List.mem_cons_of_mem _ List.mem_cons_self
  rcases List.mem_append.mp hmem with hmem | hmem
  · obtain ⟨front, text, back, rfl, _, hcol⟩ := exists_of_mem_tokensFrom hmem
    cases hdivided.formed front _ back rfl with
    | lexeme hspells =>
        cases hspells with
        | newline =>
            have hsource : textOf front ++ '\n' :: textOf back = ['a', ' ', '#', '\n'] := by
              rw [← hpartition]
              simp [textOf, Piece.text]
            have hfront : textOf front = ['a', ' ', '#'] := by
              generalize textOf front = before at hsource
              match before, hsource with
              | [_, _, _], h => simp_all
              | [], h => simp at h
              | [_], h => simp at h
              | [_, _], h => simp at h
              | _ :: _ :: _ :: _ :: _, h => simp at h
            rw [List.nil_append, trueCol, hfront] at hcol
            exact absurd hcol (by decide)
        | simple h =>
            unfold simple at h
            split at h <;> simp at h
  · obtain ⟨tok, _, heq⟩ := List.mem_map.mp hmem
    rw [Token.mk.injEq, hpartition] at heq
    exact absurd heq.2.1 (by decide)

end NucLlm.Errand.Lexer
