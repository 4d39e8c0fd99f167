import NucLlm.Errand.FrontEnd
import NucLlm.Errand.Tokens
import Mathlib.Data.List.TakeWhile

/-!
# Strings as templates

A template is a list of literal texts and names.  It is written with every brace of a
literal doubled and every name in single braces.  Splitting what is written and
interpolating the parts gives the literals and the bound texts back, whatever stands
next to what, if the names are identifiers of ASCII characters; the lexer has more names
than these.
-/

namespace NucLlm.Errand.Source

/-- A first character, and more characters. -/
def Spelled (start cont : Char → Bool) (name : List Char) : Prop :=
  ∃ c tail, name = c :: tail ∧ start c = true ∧ ∀ d ∈ tail, cont d = true

def IsIdentifier (name : String) : Prop := Spelled isNameStart isNameCont name.toList

/-- What the lexer takes for a name. -/
def IsName {φ : Type} (host : Python φ) (name : String) : Prop :=
  Spelled (fun c ↦ host.isAlpha c || c = '_') (Lexer.isNameChar host) name.toList

/-! ## Names -/

theorem isNameCont_of_isNameStart {c : Char} (h : isNameStart c = true) : isNameCont c = true := by
  unfold isNameCont
  rw [h, Bool.true_or]

theorem isNameCont_ne_brace {c : Char} (h : isNameCont c = true) : c ≠ '{' ∧ c ≠ '}' := by
  constructor
  · rintro rfl
    contradiction
  · rintro rfl
    contradiction

theorem refName_eq_some {cs rest : List Char} {name : String}
    (h : refName cs = some (name, rest)) :
    IsIdentifier name ∧ cs = name.toList ++ '}' :: rest := by
  have hsplit := List.takeWhile_append_dropWhile (p := isNameCont) (l := cs)
  have hall : ∀ d ∈ cs.takeWhile isNameCont, isNameCont d = true :=
    fun d hd ↦ List.mem_takeWhile_imp hd
  unfold refName at h
  revert hsplit hall h
  generalize cs.takeWhile isNameCont = front
  generalize cs.dropWhile isNameCont = back
  intro h hsplit hall
  dsimp only at h
  split at h
  · rename_i c tail rest'
    by_cases hstart : isNameStart c = true
    · rw [if_pos hstart, Option.some.injEq, Prod.mk.injEq] at h
      obtain ⟨rfl, rfl⟩ := h
      unfold IsIdentifier
      rw [String.toList_ofList]
      exact ⟨⟨c, tail, rfl, hstart, fun d hd ↦ hall d (List.mem_cons_of_mem _ hd)⟩, hsplit.symm⟩
    · rw [if_neg hstart] at h
      contradiction
  · contradiction

theorem refName_of_isIdentifier {name : String} (h : IsIdentifier name) (rest : List Char) :
    refName (name.toList ++ '}' :: rest) = some (name, rest) := by
  obtain ⟨c, tail, hname, hstart, htail⟩ := h
  have hall : ∀ d ∈ name.toList, isNameCont d = true := by
    rw [hname]
    exact List.forall_mem_cons.mpr ⟨isNameCont_of_isNameStart hstart, htail⟩
  have htake : (name.toList ++ '}' :: rest).takeWhile isNameCont = name.toList := by
    rw [List.takeWhile_append_of_pos hall, List.takeWhile_cons_of_neg (by decide), List.append_nil]
  have hdrop : (name.toList ++ '}' :: rest).dropWhile isNameCont = '}' :: rest := by
    rw [List.dropWhile_append_of_pos hall, List.dropWhile_cons_of_neg (by decide)]
  unfold refName
  simp only [htake, hdrop]
  simp only [hname, hstart, if_true]
  rw [← hname, String.ofList_toList]

/-- Nothing but an identifier is matched up to the next brace. -/
theorem refName_of_not_isIdentifier {name : String} (h : ¬IsIdentifier name)
    (hbraces : '}' ∉ name.toList) (rest : List Char) :
    refName (name.toList ++ '}' :: rest) = none := by
  cases hname : refName (name.toList ++ '}' :: rest) with
  | none => rfl
  | some found =>
      obtain ⟨other, rest'⟩ := found
      obtain ⟨hother, heq⟩ := refName_eq_some hname
      have hother' : '}' ∉ other.toList := by
        obtain ⟨c, tail, hspelled, hstart, htail⟩ := hother
        rw [hspelled, List.mem_cons, not_or]
        exact ⟨(isNameCont_ne_brace (isNameCont_of_isNameStart hstart)).2.symm,
          fun hmem ↦ absurd (htail _ hmem) (by decide)⟩
      have hfront : ∀ text rest : List Char, '}' ∉ text →
          (text ++ '}' :: rest).takeWhile (· ≠ '}') = text := by
        intro text rest htext
        have hall : ∀ c ∈ text, decide (c ≠ '}') = true :=
          fun c hc ↦ decide_eq_true (ne_of_mem_of_not_mem hc htext)
        rw [List.takeWhile_append_of_pos hall, List.takeWhile_cons_of_neg (by decide),
          List.append_nil]
      have hlists : name.toList = other.toList := by
        rw [← hfront name.toList rest hbraces, heq, hfront other.toList rest' hother']
      exact absurd (String.toList_inj.mp hlists ▸ hother) h

/-! ## The pieces of a text -/

/-- The matches of `_INTERP` in a whole text. -/
def pieced (cs : List Char) : List Piece := pieces cs.length cs

theorem length_of_refName {cs rest : List Char} {name : String}
    (h : refName cs = some (name, rest)) : rest.length < cs.length := by
  rw [(refName_eq_some h).2, List.length_append, List.length_cons]
  omega

/-- More fuel than characters changes nothing. -/
theorem pieces_succ {n : ℕ} {cs : List Char} (h : cs.length ≤ n) :
    pieces (n + 1) cs = pieces n cs := by
  induction n, cs using pieces.induct with
  | case1 cs =>
      obtain rfl := List.length_eq_zero_iff.mp (Nat.le_zero.mp h)
      rw [pieces_zero]
      rfl
  | case2 n => rfl
  | case3 n cs ih =>
      simp only [List.length_cons] at h
      rw [pieces, pieces, ih (by omega)]
  | case4 n cs ih =>
      simp only [List.length_cons] at h
      rw [pieces, pieces, ih (by omega)]
  | case5 n cs hopen name rest hname ih =>
      simp only [List.length_cons] at h
      have hrest := length_of_refName hname
      rw [pieces, pieces, hname]
      dsimp only
      rw [ih (by omega)]
      all_goals exact hopen
  | case6 n cs hopen hname ih =>
      simp only [List.length_cons] at h
      rw [pieces, pieces, hname]
      dsimp only
      rw [ih (by omega)]
      all_goals exact hopen
  | case7 n cs hclose ih =>
      simp only [List.length_cons] at h
      rw [pieces, pieces, ih (by omega)]
      all_goals exact hclose
  | case8 n c cs h₁ h₂ h₃ h₄ ih =>
      simp only [List.length_cons] at h
      rw [pieces, pieces, ih (by omega)]
      all_goals assumption

theorem pieces_eq_pieced {n : ℕ} {cs : List Char} (h : cs.length ≤ n) :
    pieces n cs = pieced cs := by
  induction n, h using Nat.le_induction with
  | base => rfl
  | succ n h ih => rw [pieces_succ h, ih]

theorem pieced_openBrace (cs : List Char) :
    pieced ('{' :: '{' :: cs) = .openBrace :: pieced cs := by
  unfold pieced
  rw [List.length_cons, pieces, pieces_eq_pieced (by simp), pieced]

theorem pieced_closeBrace (cs : List Char) :
    pieced ('}' :: '}' :: cs) = .closeBrace :: pieced cs := by
  unfold pieced
  rw [List.length_cons, pieces, pieces_eq_pieced (by simp), pieced]

theorem pieced_char {c : Char} (hopen : c ≠ '{') (hclose : c ≠ '}') (cs : List Char) :
    pieced (c :: cs) = .char c :: pieced cs := by
  unfold pieced
  rw [List.length_cons, pieces]
  all_goals simp [hopen, hclose]

theorem pieced_ref {cs rest : List Char} {name : String} (h : refName cs = some (name, rest)) :
    pieced ('{' :: cs) = .ref name :: pieced rest := by
  have hbrace : ∀ tail, cs ≠ '{' :: tail := by
    obtain ⟨⟨c, tail', hname, hstart, _⟩, hcs⟩ := refName_eq_some h
    rintro tail rfl
    rw [hname, List.cons_append, List.cons.injEq] at hcs
    rw [← hcs.1] at hstart
    contradiction
  unfold pieced
  rw [List.length_cons, pieces, h]
  · dsimp only
    rw [pieces_eq_pieced (length_of_refName h).le, pieced]
  · exact hbrace

theorem pieced_lone {cs : List Char} (hbrace : ∀ tail, cs ≠ '{' :: tail)
    (h : refName cs = none) : pieced ('{' :: cs) = .lone '{' :: pieced cs := by
  unfold pieced
  rw [List.length_cons, pieces, h]
  exact hbrace

/-! ## Writing and splitting -/

/-- A character of a literal, with the braces doubled. -/
def doubled (c : Char) : List Char := if c = '{' ∨ c = '}' then [c, c] else [c]

def writePart : Part → List Char
  | .text s => s.toList.flatMap doubled
  | .ref name => '{' :: name.toList ++ ['}']

def writeParts (parts : List Part) : List Char := parts.flatMap writePart

/-- The template that literals and names write. -/
def writeTemplate (parts : List Part) : String := String.ofList (writeParts parts)

theorem splitFrom_text (line : ℕ) (cs rest : List Char) :
    ∀ buf parts, splitFrom line (pieced (cs.flatMap doubled ++ rest)) buf parts =
      splitFrom line (pieced rest) (buf ++ cs) parts := by
  induction cs with
  | nil => simp
  | cons c cs ih =>
      intro buf parts
      rw [List.flatMap_cons, List.append_assoc]
      have hbuf : buf ++ c :: cs = buf ++ [c] ++ cs := by simp
      rw [hbuf, ← ih]
      by_cases hopen : c = '{'
      · subst hopen
        exact congrArg (splitFrom line · buf parts) (pieced_openBrace _)
      · by_cases hclose : c = '}'
        · subst hclose
          exact congrArg (splitFrom line · buf parts) (pieced_closeBrace _)
        · have hdoubled : doubled c = [c] := if_neg (by simp [hopen, hclose])
          rw [hdoubled]
          exact congrArg (splitFrom line · buf parts) (pieced_char hopen hclose _)

theorem splitFrom_ref {name : String} (h : IsIdentifier name) (line : ℕ) (rest buf : List Char)
    (parts : List Part) :
    splitFrom line (pieced ('{' :: name.toList ++ ['}'] ++ rest)) buf parts =
      splitFrom line (pieced rest) [] (parts ++ [.text (String.ofList buf), .ref name]) := by
  have hcs : '{' :: name.toList ++ ['}'] ++ rest = '{' :: (name.toList ++ '}' :: rest) := by simp
  rw [hcs, pieced_ref (refName_of_isIdentifier h rest), splitFrom]

theorem splitFrom_not_ref {name : String} (h : ¬IsIdentifier name) (hopen : '{' ∉ name.toList)
    (hclose : '}' ∉ name.toList) (line : ℕ) (rest buf : List Char) (parts : List Part) :
    ∃ e, splitFrom line (pieced ('{' :: name.toList ++ ['}'] ++ rest)) buf parts = .error e := by
  have hcs : '{' :: name.toList ++ ['}'] ++ rest = '{' :: (name.toList ++ '}' :: rest) := by simp
  have hbrace : ∀ tail, name.toList ++ '}' :: rest ≠ '{' :: tail := by
    intro tail heq
    cases hname : name.toList with
    | nil => simp [hname] at heq
    | cons c cs => simp_all
  rw [hcs, pieced_lone hbrace (refName_of_not_isIdentifier h hclose rest), splitFrom]
  exact ⟨_, rfl⟩

/-! ## What a template says -/

/-- The value that a name has. -/
def bound (env : Env) (name : String) : Option Val := (env.find? (·.1 = name)).map Prod.snd

/-- Every name has a value that is no miss. -/
def Binds (env : Env) (parts : List Part) : Prop :=
  ∀ name, .ref name ∈ parts → ∃ value prov, bound env name = some (.ok value prov)

def partText (texts : Host) (env : Env) : Part → String
  | .text s => s
  | .ref name => ((bound env name).map (render texts)).getD ""

/-- The literals and the bound texts, one after the other. -/
def templateText (texts : Host) (env : Env) : List Part → String
  | [] => ""
  | part :: parts => partText texts env part ++ templateText texts env parts

theorem templateText_append (texts : Host) (env : Env) (front back : List Part) :
    templateText texts env (front ++ back) =
      templateText texts env front ++ templateText texts env back := by
  induction front with
  | nil => simp [templateText]
  | cons part front ih => simp [templateText, ih, String.append_assoc]

theorem interpolateFrom_binds (texts : Host) {env : Env} (line : ℕ) {parts : List Part}
    (h : Binds env parts) : ∀ out inputs t, ∃ prov,
      interpolateFrom texts line env out inputs parts t =
        (.ok (.ok (.str (out ++ templateText texts env parts)) prov), t) := by
  induction parts with
  | nil =>
      intro out inputs t
      rw [templateText, String.append_empty]
      exact ⟨_, rfl⟩
  | cons part parts ih =>
      intro out inputs t
      have hparts : Binds env parts := fun name hname ↦ h name (List.mem_cons_of_mem _ hname)
      rw [templateText, ← String.append_assoc]
      cases part with
      | text s => exact ih hparts (out ++ s) inputs t
      | ref name =>
          obtain ⟨value, prov, hvalue⟩ := h name List.mem_cons_self
          have hlookup : lookupEnv env name = pure (.ok value prov) := by
            unfold lookupEnv
            unfold bound at hvalue
            rw [hvalue]
            rfl
          obtain ⟨prov', hrest⟩ := ih hparts (out ++ render texts (.ok value prov))
            (inputs ++ [.obj [("name", .str name), ("prov", prov)]]) t
          refine ⟨prov', ?_⟩
          rw [interpolateFrom, hlookup, partText, hvalue]
          exact hrest

theorem splitFrom_writeParts (line : ℕ) {parts : List Part}
    (h : ∀ name, .ref name ∈ parts → IsIdentifier name) : ∀ buf front, ∃ back,
      splitFrom line (pieced (writeParts parts)) buf front = .ok (front ++ back) ∧
        (∀ name, .ref name ∈ back → .ref name ∈ parts) ∧
        ∀ texts env, templateText texts env back =
          String.ofList buf ++ templateText texts env parts := by
  induction parts with
  | nil =>
      intro buf front
      by_cases hempty : (!buf.isEmpty || front.isEmpty) = true
      · refine ⟨[.text (String.ofList buf)], ?_, by simp, by simp [templateText, partText]⟩
        exact (splitFrom_nil line buf front).trans (congrArg Except.ok (if_pos hempty))
      · refine ⟨[], ?_, by simp, ?_⟩
        · rw [List.append_nil]
          exact (splitFrom_nil line buf front).trans (congrArg Except.ok (if_neg hempty))
        · have hbuf : buf = [] := by
            cases buf with
            | nil => rfl
            | cons c cs => simp at hempty
          simp [hbuf, templateText]
  | cons part parts ih =>
      intro buf front
      have hparts : ∀ name, .ref name ∈ parts → IsIdentifier name :=
        fun name hname ↦ h name (List.mem_cons_of_mem _ hname)
      cases part with
      | text s =>
          obtain ⟨back, hsplit, hnames, htext⟩ := ih hparts (buf ++ s.toList) front
          refine ⟨back, ?_, fun name hname ↦ List.mem_cons_of_mem _ (hnames name hname), ?_⟩
          · exact (splitFrom_text line s.toList _ buf front).trans hsplit
          · intro texts env
            rw [htext, String.ofList_append, String.ofList_toList, String.append_assoc]
            rfl
      | ref name =>
          obtain ⟨back, hsplit, hnames, htext⟩ :=
            ih hparts [] (front ++ [.text (String.ofList buf), .ref name])
          refine ⟨[.text (String.ofList buf), .ref name] ++ back, ?_, ?_, ?_⟩
          · rw [← List.append_assoc, ← hsplit]
            exact splitFrom_ref (h name List.mem_cons_self) line _ buf front
          · intro other hother
            rcases List.mem_append.mp hother with hother | hother
            · simp only [List.mem_cons, reduceCtorEq, Part.ref.injEq, List.not_mem_nil, or_false,
                false_or] at hother
              exact hother ▸ List.mem_cons_self
            · exact List.mem_cons_of_mem _ (hnames other hother)
          · intro texts env
            rw [templateText_append, htext]
            simp [templateText, partText, String.append_assoc]

/-- A name that is no identifier leaves its brace alone. -/
theorem splitFrom_lone (line : ℕ) {parts : List Part}
    (hbraces : ∀ name, .ref name ∈ parts → '{' ∉ name.toList ∧ '}' ∉ name.toList)
    {name : String} (hname : .ref name ∈ parts) (hnot : ¬IsIdentifier name) :
    ∀ buf front, ∃ e, splitFrom line (pieced (writeParts parts)) buf front = .error e := by
  induction parts with
  | nil => simp at hname
  | cons part parts ih =>
      intro buf front
      have hrest := fun other hother ↦ hbraces other (List.mem_cons_of_mem _ hother)
      cases part with
      | text s =>
          obtain ⟨e, he⟩ := ih hrest (by simpa using hname) (buf ++ s.toList) front
          exact ⟨e, (splitFrom_text line s.toList _ buf front).trans he⟩
      | ref other =>
          by_cases hother : IsIdentifier other
          · have hmem : .ref name ∈ parts := by
              rcases List.mem_cons.mp hname with heq | hmem
              · rw [Part.ref.injEq] at heq
                exact absurd (heq ▸ hother) hnot
              · exact hmem
            obtain ⟨e, he⟩ := ih hrest hmem [] (front ++ [.text (String.ofList buf), .ref other])
            exact ⟨e, (splitFrom_ref hother line _ buf front).trans he⟩
          · obtain ⟨hopen, hclose⟩ := hbraces other List.mem_cons_self
            exact splitFrom_not_ref hother hopen hclose line _ buf front

/-- What is split without an error is a template. -/
theorem writeParts_of_splitFrom (line : ℕ) (n : ℕ) (cs : List Char) (hn : cs.length ≤ n) :
    ∀ buf front split, splitFrom line (pieces n cs) buf front = .ok split →
      ∃ parts, (∀ name, .ref name ∈ parts → IsIdentifier name) ∧ writeParts parts = cs := by
  induction n, cs using pieces.induct with
  | case1 cs =>
      obtain rfl := List.length_eq_zero_iff.mp (Nat.le_zero.mp hn)
      exact fun _ _ _ _ ↦ ⟨[], by simp, rfl⟩
  | case2 n => exact fun _ _ _ _ ↦ ⟨[], by simp, rfl⟩
  | case3 n cs ih =>
      intro buf front split h
      simp only [List.length_cons] at hn
      rw [pieces, splitFrom] at h
      obtain ⟨parts, hnames, rfl⟩ := ih (by omega) _ _ _ h
      exact ⟨.text "\x7b" :: parts, by simpa using hnames, rfl⟩
  | case4 n cs ih =>
      intro buf front split h
      simp only [List.length_cons] at hn
      rw [pieces, splitFrom] at h
      obtain ⟨parts, hnames, rfl⟩ := ih (by omega) _ _ _ h
      exact ⟨.text "\x7d" :: parts, by simpa using hnames, rfl⟩
  | case5 n cs hopen name rest hname ih =>
      intro buf front split h
      simp only [List.length_cons] at hn
      have hrest := length_of_refName hname
      obtain ⟨hidentifier, hcs⟩ := refName_eq_some hname
      rw [pieces, hname] at h
      · obtain ⟨parts, hnames, rfl⟩ := ih (by omega) _ _ _ h
        refine ⟨.ref name :: parts, ?_, ?_⟩
        · intro other hother
          rcases List.mem_cons.mp hother with heq | hother
          · rw [Part.ref.injEq] at heq
            exact heq ▸ hidentifier
          · exact hnames other hother
        · simp [writeParts, writePart, hcs]
      · exact hopen
  | case6 n cs hopen hname ih =>
      intro buf front split h
      rw [pieces, hname] at h
      · simp [splitFrom] at h
      · exact hopen
  | case7 n cs hclose ih =>
      intro buf front split h
      rw [pieces] at h
      · simp [splitFrom] at h
      · exact hclose
  | case8 n c cs h₁ h₂ h₃ h₄ ih =>
      intro buf front split h
      simp only [List.length_cons] at hn
      rw [pieces] at h
      · obtain ⟨parts, hnames, rfl⟩ := ih (by omega) _ _ _ h
        refine ⟨.text (String.singleton c) :: parts, by simpa using hnames, ?_⟩
        have hdoubled : doubled c = [c] := if_neg (by simp_all)
        simp [writeParts, writePart, hdoubled]
      all_goals assumption

/-- What is written is split, and says what it should wherever its names have values. -/
def Faithful (texts : Host) (parts : List Part) : Prop :=
  ∀ line, ∃ split, splitInterpolation (writeTemplate parts) line = .ok split ∧
    ∀ env t, Binds env parts → ∃ prov, interpolate texts ⟨split, line⟩ env t =
      (.ok (.ok (.str (templateText texts env parts)) prov), t)

/-- Every brace of the text is one of two or stands around an identifier. -/
def IsTemplate (text : String) : Prop :=
  ∃ parts, (∀ name, .ref name ∈ parts → IsIdentifier name) ∧ writeTemplate parts = text

theorem splitInterpolation_writeTemplate (parts : List Part) (line : ℕ) :
    splitInterpolation (writeTemplate parts) line =
      splitFrom line (pieced (writeParts parts)) [] [] := by
  unfold splitInterpolation writeTemplate
  rw [← String.length_toList, String.toList_ofList]
  rfl

theorem faithful_of_isIdentifier (texts : Host) {parts : List Part}
    (h : ∀ name, .ref name ∈ parts → IsIdentifier name) : Faithful texts parts := by
  intro line
  obtain ⟨split, hsplit, hnames, htext⟩ := splitFrom_writeParts line h [] []
  rw [List.nil_append] at hsplit
  refine ⟨split, (splitInterpolation_writeTemplate parts line).trans hsplit, ?_⟩
  intro env t hbinds
  obtain ⟨prov, hprov⟩ := interpolateFrom_binds texts line
    (fun name hname ↦ hbinds name (hnames name hname)) "" [] t
  rw [htext, String.ofList_nil, String.empty_append, String.empty_append] at hprov
  exact ⟨prov, hprov⟩

theorem rejected_iff (text : String) (line : ℕ) :
    (∃ e, splitInterpolation text line = .error e) ↔ ¬IsTemplate text := by
  constructor
  · rintro ⟨e, he⟩ ⟨parts, hnames, rfl⟩
    obtain ⟨split, hsplit, _⟩ := splitFrom_writeParts line hnames [] []
    rw [splitInterpolation_writeTemplate, hsplit] at he
    contradiction
  · intro hnot
    cases hsplit : splitInterpolation text line with
    | error e => exact ⟨e, rfl⟩
    | ok split =>
        obtain ⟨parts, hnames, hwrite⟩ := writeParts_of_splitFrom line text.length text.toList
          (Nat.le_of_eq String.length_toList) [] [] split hsplit
        refine absurd ⟨parts, hnames, ?_⟩ hnot
        rw [writeTemplate, hwrite, String.ofList_toList]

section

variable {φ : Type} {host : Python φ}

theorem IsName.notMem {name : String} (h : IsName host name) {c : Char}
    (hc : host.isAlnum c = false) (hc' : c ≠ '_') : c ∉ name.toList := by
  obtain ⟨d, tail, hname, hstart, htail⟩ := h
  have hcont : Lexer.isNameChar host c = false := by simp [Lexer.isNameChar, hc, hc']
  have hd : Lexer.isNameChar host d = true := by
    simp only [Bool.or_eq_true, decide_eq_true_eq] at hstart
    simp only [Lexer.isNameChar, Bool.or_eq_true, decide_eq_true_eq]
    exact hstart.imp_left (host.isAlnum_of_isAlpha d)
  rw [hname, List.mem_cons, not_or]
  constructor
  · rintro rfl
    exact absurd hd (by simp [hcont])
  · intro hmem
    exact absurd (htail c hmem) (by simp [hcont])

/-- A template of names says what it should if and only if its names are identifiers, and what
is no template is rejected. -/
theorem templates_faithful (host : Python φ) (texts : Host) (hopen : host.isAlnum '{' = false)
    (hclose : host.isAlnum '}' = false) :
    (∀ parts, (∀ name, .ref name ∈ parts → IsName host name) →
      (Faithful texts parts ↔ ∀ name, .ref name ∈ parts → IsIdentifier name)) ∧
    ∀ text line, (∃ e, splitInterpolation text line = .error e) ↔ ¬IsTemplate text := by
  refine ⟨fun parts hnames ↦ ⟨fun hfaithful name hname ↦ ?_, faithful_of_isIdentifier texts⟩,
    rejected_iff⟩
  by_contra hnot
  obtain ⟨split, hsplit, _⟩ := hfaithful 0
  have hbraces : ∀ name, .ref name ∈ parts → '{' ∉ name.toList ∧ '}' ∉ name.toList :=
    fun other hother ↦ ⟨(hnames other hother).notMem hopen (by decide),
      (hnames other hother).notMem hclose (by decide)⟩
  obtain ⟨e, he⟩ := splitFrom_lone 0 hbraces hname hnot [] []
  rw [splitInterpolation_writeTemplate, he] at hsplit
  contradiction

end

theorem templates_faithful_braces :
    Faithful dryHost [.text "\x7b", .ref "x", .text "\x7d"] := by
  refine ((templates_faithful exactHost dryHost rfl rfl).1 _ ?_).mpr ?_
  · intro name hname
    obtain rfl : name = "x" := by simpa using hname
    exact ⟨'x', [], rfl, rfl, by simp⟩
  · intro name hname
    obtain rfl : name = "x" := by simpa using hname
    exact ⟨'x', [], rfl, rfl, by simp⟩

/-- A host with a letter that is not ASCII. -/
def accentHost : Python ℚ where
  __ := exactHost
  isAlpha c := c.isAlpha || c = 'é'
  isAlnum c := c.isAlphanum || c = 'é'
  isAlnum_of_isAlpha c h := by
    simp only [Char.isAlphanum, Bool.or_eq_true] at h ⊢
    exact h.imp_left .inl

/-- A parameter `é` cannot be interpolated. -/
theorem accent_not_faithful : ¬∀ texts parts,
    (∀ name, .ref name ∈ parts → IsName accentHost name) → Faithful texts parts := by
  intro h
  have hname : ∀ name, Part.ref name ∈ [Part.ref "é"] → IsName accentHost name := by
    intro name hname
    obtain rfl : name = "é" := by simpa using hname
    exact ⟨'é', [], rfl, rfl, by simp⟩
  obtain ⟨split, hsplit, _⟩ := h dryHost [.ref "é"] hname 0
  have herror : ∃ e, splitInterpolation (writeTemplate [.ref "é"]) 0 = .error e := ⟨_, rfl⟩
  obtain ⟨e, he⟩ := herror
  rw [he] at hsplit
  contradiction

end NucLlm.Errand.Source
