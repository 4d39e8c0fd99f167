import NucLlm.Whence.Lexer
import NucLlm.Whence.Show

/-!
# Quoting and lexing

A text is quoted by a table of replacements that are made one after the other,
and lexed by a loop over the characters behind the quote.  The two are inverse.
-/

namespace NucLlm.Whence

/-- `QUOTE_ESCAPES`. -/
def quoteEscapes : List (Char × String) :=
  [('\\', "\\\\"), ('"', "\\\""), ('\n', "\\n"), ('\t', "\\t"), ('\r', "\\r")]

/-- `s.replace(raw, esc)` for a single character. -/
def replaceChar (raw : Char) (esc : String) (s : List Char) : List Char :=
  s.flatMap fun c ↦ if c = raw then esc.toList else [c]

/-- The loop of `quote_str` over its table. -/
def escapeText (s : List Char) : List Char :=
  quoteEscapes.foldl (fun s p ↦ replaceChar p.1 p.2 s) s

theorem replaceChar_append (raw : Char) (esc : String) (s s' : List Char) :
    replaceChar raw esc (s ++ s') = replaceChar raw esc s ++ replaceChar raw esc s' := by
  simp [replaceChar]

theorem foldl_replaceChar_append (table : List (Char × String)) (s s' : List Char) :
    table.foldl (fun s p ↦ replaceChar p.1 p.2 s) (s ++ s') =
      table.foldl (fun s p ↦ replaceChar p.1 p.2 s) s ++
        table.foldl (fun s p ↦ replaceChar p.1 p.2 s) s' := by
  induction table generalizing s s' with
  | nil => rfl
  | cons p table ih =>
      simp only [List.foldl_cons]
      rw [replaceChar_append, ih]

/-- No replacement undoes an earlier one, so a character can be taken on its own. -/
theorem escapeText_singleton (c : Char) : escapeText [c] = (quoteChar c).toList := by
  by_cases hbackslash : c = '\\'
  · subst hbackslash
    decide
  by_cases hquote : c = '"'
  · subst hquote
    decide
  by_cases hnewline : c = '\n'
  · subst hnewline
    decide
  by_cases htab : c = '\t'
  · subst htab
    decide
  by_cases hreturn : c = '\r'
  · subst hreturn
    decide
  have hplain : quoteChar c = String.singleton c := by
    unfold quoteChar
    split <;> first | contradiction | rfl
  rw [hplain]
  simp [escapeText, quoteEscapes, replaceChar, hbackslash, hquote, hnewline, htab, hreturn]

theorem escapeText_eq (s : List Char) : escapeText s = s.flatMap fun c ↦ (quoteChar c).toList := by
  induction s with
  | nil => rfl
  | cons c s ih =>
      have happend : escapeText (c :: s) = escapeText [c] ++ escapeText s :=
        foldl_replaceChar_append quoteEscapes [c] s
      rw [happend, escapeText_singleton, ih, List.flatMap_cons]

theorem toList_join (parts : List String) :
    (String.join parts).toList = parts.flatMap String.toList := by
  simp [String.toList_join]

/-- `quote_str` makes its replacements and puts quotes around the text. -/
theorem toList_quoteStr (s : String) :
    (quoteStr s).toList = '"' :: (escapeText s.toList ++ ['"']) := by
  rw [escapeText_eq, quoteStr]
  simp [List.flatMap_map]

theorem quoteUpTo_none (s : String) : quoteUpTo none s = quoteStr s := by
  rfl

namespace Lexer

/-- The lexer takes back what is written for one character. -/
theorem scanString_quoteChar (start : Place) (c : Char) (rest out : List Char) (col : ℕ) :
    scanString start ((quoteChar c).toList ++ rest) out col =
      scanString start rest (out ++ [c]) (col + (quoteChar c).toList.length) := by
  unfold quoteChar
  split
  · simp [scanString, escapes]
  · simp [scanString, escapes]
  · simp [scanString, escapes]
  · simp [scanString, escapes]
  · simp [scanString, escapes]
  · rename_i hbackslash hquote hnewline _ _
    have hplain :
      scanString start (c :: rest) out col = scanString start rest (out ++ [c]) (col + 1) := by
      have hother : ¬(c = '\n' ∨ c = '\\') := fun h ↦ h.elim hnewline hbackslash
      rw [scanString]
      · rw [if_neg hother]
      · exact hquote
      · intro esc rest' h
        exact absurd h hbackslash
    simpa using hplain

theorem scanString_quoted (start : Place) (s rest out : List Char) (col : ℕ) :
    ∃ col', scanString start (escapeText s ++ '"' :: rest) out col =
      .ok (String.ofList (out ++ s), rest, col') := by
  rw [escapeText_eq]
  induction s generalizing out col with
  | nil => exact ⟨col + 1, by simp [scanString]⟩
  | cons c s ih =>
      obtain ⟨col', h⟩ := ih (out ++ [c]) (col + (quoteChar c).toList.length)
      refine ⟨col', ?_⟩
      rw [List.flatMap_cons, List.append_assoc, scanString_quoteChar, h]
      simp

theorem tokenize_quoteStr (host : HostText) (s : String) :
    ∃ place, tokenize host (quoteStr s) = some (.ok ([⟨.string s, 1, 1⟩], place)) := by
  obtain ⟨col, h⟩ := scanString_quoted ⟨1, 1⟩ s.toList [] [] 2
  refine ⟨⟨1, col⟩, ?_⟩
  have hlength : (quoteStr s).toList.length = (escapeText s.toList).length + 2 := by
    rw [toList_quoteStr]
    simp
  have hfirst : lexBody host ⟨(quoteStr s).toList, ⟨1, 1⟩, [], []⟩ =
      .again ⟨[], ⟨1, col⟩, [], [⟨.string s, 1, 1⟩]⟩ := by
    rw [toList_quoteStr]
    simp only [List.nil_append, String.ofList_toList] at h
    simp [lexBody, isDigit, isNameStart, lexString, h]
  rw [tokenize, hlength, whileLoop, hfirst]
  rfl

end Lexer

/-- Lexing the quoted text gives the text and nothing else, so no two texts are quoted alike. -/
theorem quoting_lexing_inverse (host : HostText) :
    (∀ s, ∃ place, Lexer.tokenize host (quoteUpTo none s) =
      some (.ok ([⟨.string s, 1, 1⟩], place))) ∧
      Function.Injective (quoteUpTo none) := by
  have htokens : ∀ s, ∃ place,
      Lexer.tokenize host (quoteUpTo none s) = some (.ok ([⟨.string s, 1, 1⟩], place)) := by
    intro s
    rw [quoteUpTo_none]
    exact Lexer.tokenize_quoteStr host s
  constructor
  · exact htokens
  · intro s s' h
    obtain ⟨place, hs⟩ := htokens s
    obtain ⟨place', hs'⟩ := htokens s'
    rw [h, hs'] at hs
    simp only [Option.some.injEq, Except.ok.injEq, Prod.mk.injEq, List.cons.injEq, Token.mk.injEq,
      Tok.string.injEq] at hs
    exact hs.1.1.1.symm

end NucLlm.Whence
