import NucLlm.Errand.Resolved

/-!
# What the front end can raise

Besides parse errors, what escapes is what the host raises when it cannot do what
it is asked: convert a text or a number, split a URL, or make room for one more
call.  Every loop of the lexer and the parser ends, and no lookup fails.
-/

namespace NucLlm.Errand

open Exec

variable {φ : Type} {host : Python φ}

namespace Raised

/-- What the lexer reports. -/
inductive IsLexError : Raised → Prop where
  | mk (msg : String) (line col : ℕ) : IsLexError (.lexError msg line col)

/-- What the parser reports. -/
inductive IsParseError : Raised → Prop where
  | mk (e : ParseError) : IsParseError (.parseError e)

/-- What the host raises. -/
inductive Escaping : Raised → Prop where
  | valueError : Escaping .valueError
  | overflowError : Escaping .overflowError
  | recursionError : Escaping .recursionError

end Raised

/-- A string literal of a source, by its text. -/
def Literal (src : List Char) (text : String) : Prop :=
  ∃ rest line col cs offset rest', '"' :: rest <:+ src ∧
    Lexer.stringText line col 1 rest [] = .ok (cs, offset, rest') ∧ text = String.ofList cs

/-- The requests that are about what is written in a source. -/
inductive Written (host : Python φ) (src : List Char) : Ask φ → Prop where
  | int {text : List Char} (h : text <:+: src) (hd : ∀ c ∈ text, host.isDigit c = true) :
      Written host src (.int text)
  | float {text : List Char} (h : text <:+: src)
      (hd : ∀ c ∈ text, host.isDigit c = true ∨ c = '.') : Written host src (.float text)
  | floatOf {text : List Char} (h : text <:+: src) (hd : ∀ c ∈ text, host.isDigit c = true) :
      Written host src (.floatOf (host.ofDigits text))
  | intOf {text : List Char} (h : text <:+: src)
      (hd : ∀ c ∈ text, host.isDigit c = true ∨ c = '.') :
      Written host src (.intOf (host.ofText text))
  | url {text : String} (h : Literal src text) : Written host src (.url text)
  | port {text : String} (h : Literal src text) {url : Url} (hurl : host.urlparse text = some url) :
      Written host src (.port url)
  | frame (left : ℕ) : Written host src (.frame left)

section

variable (host) (src : List Char) {σ : Type}

/-- The host was asked about what is written in the source, and could do it. -/
def Answered (s : Logged φ σ) : Prop := ∀ a ∈ s.asked, Written host src a ∧ host.answers a = true

/-- The host could not do what it was asked. -/
structure Escaped (e : Raised) (s : Logged φ σ) : Prop where
  escaping : e.Escaping
  written : ∀ a ∈ s.asked, Written host src a
  refused : ∃ a ∈ s.asked, host.answers a = false

/-- A failure is one of those reported, or the host could not do what it was asked. -/
inductive Failed (Reported : Raised → Prop) : Raised → Logged φ σ → Prop where
  | reported {e : Raised} {s : Logged φ σ} (he : Reported e) (hs : Answered host src s) :
      Failed Reported e s
  | escaped {e : Raised} {s : Logged φ σ} (h : Escaped host src e s) : Failed Reported e s

/-- What the lexer and the parser keep to. -/
def keeping (Reported : Raised → Prop) (J : σ → Prop) (μ : σ → ℕ) :
    Discipline Raised (Logged φ σ) where
  invariant s := J s.state ∧ Answered host src s
  failure := Failed host src Reported
  measure s := μ s.state

/-- A conversion leaves the state alone. -/
def Converts {α : Type} (m : Asking φ σ α) (P : α → Prop) : Prop :=
  ∀ s, Answered host src s →
    m.wp (fun a s' ↦ P a ∧ s'.state = s.state ∧ Answered host src s') (Escaped host src) s

variable {host src}

theorem Answered.ask {s : Logged φ σ} (h : Answered host src s) {a : Ask φ}
    (hwritten : Written host src a)
    (ha : host.answers a = true) : Answered host src { s with asked := s.asked ++ [a] } := by
  intro b hb
  rcases List.mem_append.mp hb with hb | hb
  · exact h b hb
  · obtain rfl := List.mem_singleton.mp hb
    exact ⟨hwritten, ha⟩

theorem escaped_ask {s : Logged φ σ} (h : Answered host src s) {a : Ask φ}
    (hwritten : Written host src a) {e : Raised}
    (he : e.Escaping) (ha : host.answers a = false) :
    Escaped host src e { s with asked := s.asked ++ [a] } := by
  refine ⟨he, ?_, ⟨a, by simp, ha⟩⟩
  intro b hb
  rcases List.mem_append.mp hb with hb | hb
  · exact (h b hb).1
  · obtain rfl := List.mem_singleton.mp hb
    exact hwritten

/-- A request that the host answers or refuses. -/
theorem converts_ask {α : Type} {a : Ask φ} (hwritten : Written host src a) {e : Raised}
    (he : e.Escaping)
    {o : Option α} (ho : o.isSome = host.answers a) :
    Converts host src (ask a >>= fun _ ↦ ofOption e o : Asking φ σ α) fun x ↦ o = some x := by
  intro s hs
  unfold ask
  rw [wp_bind, wp_modify]
  cases o with
  | none => exact escaped_ask hs hwritten he ho.symm
  | some x => exact ⟨rfl, rfl, hs.ask hwritten ho.symm⟩

theorem Converts.map {α β : Type} {m : Asking φ σ α} {P : α → Prop} {f : α → β} {Q : β → Prop}
    (hm : Converts host src m P) (h : ∀ a, P a → Q (f a)) : Converts host src (f <$> m) Q := by
  intro s hs
  change wp (m >>= pure ∘ f) _ _ s
  rw [wp_bind]
  refine wp_mono (hm s hs) ?_ fun _ _ hfail ↦ hfail
  rintro a s' ⟨ha, hs'⟩
  exact ⟨h a ha, hs'⟩

theorem converts_intText {text : List Char} (hwritten : Written host src (.int text)) :
    Converts host src (intText host text : Asking φ σ ℕ) fun n ↦ n = host.ofDigits text := by
  intro s hs
  unfold intText ask
  rw [wp_bind, wp_modify]
  cases ha : host.answers (.int text) with
  | false => exact escaped_ask hs hwritten .valueError ha
  | true => exact ⟨rfl, rfl, hs.ask hwritten ha⟩

theorem converts_floatText {text : List Char} (hwritten : Written host src (.float text)) :
    Converts host src (floatText host text : Asking φ σ φ) fun x ↦ x = host.ofText text := by
  intro s hs
  unfold floatText ask
  rw [wp_bind, wp_modify]
  cases ha : host.answers (.float text) with
  | false => exact escaped_ask hs hwritten .valueError ha
  | true => exact ⟨rfl, rfl, hs.ask hwritten ha⟩

theorem converts_floatInt {n : ℕ} (hwritten : Written host src (.floatOf n)) :
    Converts host src (floatInt host n : Asking φ σ φ) fun x ↦ host.ofInt n = some x :=
  converts_ask hwritten .overflowError rfl

theorem converts_intFloat {x : φ} (hwritten : Written host src (.intOf x)) :
    Converts host src (intFloat host x : Asking φ σ ℕ) fun n ↦ host.trunc x = some n :=
  converts_ask hwritten .overflowError rfl

theorem converts_urlSplit {url : String} (hwritten : Written host src (.url url)) :
    Converts host src (urlSplit host url : Asking φ σ Url) fun u ↦ host.urlparse url = some u :=
  converts_ask hwritten .valueError rfl

theorem converts_urlPort {url : Url} (hwritten : Written host src (.port url)) :
    Converts host src (urlPort url : Asking φ σ (Option ℕ)) fun port ↦ url.port = some port :=
  converts_ask hwritten .valueError rfl

/-- What a token can have the host asked for. -/
def Tok.Sound (host : Python φ) (src : List Char) : Tok φ → Prop
  | .number (.int n) => Written host src (.floatOf n)
  | .number (.float x) => Written host src (.intOf x)
  | .string s =>
      Written host src (.url s) ∧ ∀ url, host.urlparse s = some url → Written host src (.port url)
  | _ => True

end

/-! ## The lexer -/

namespace Lexer

variable {src : List Char}

/-- The tokens so far are sound, and the host could do what it was asked. -/
def Lexed (host : Python φ) (src : List Char) (s : Logged φ (LexState φ)) : Prop :=
  (∀ t ∈ s.state.toks, t.tok.Sound host src) ∧ Answered host src s

/-- A branch of the loop ends in front of less text. -/
def Shortens (host : Python φ) (src : List Char) (m : Lexing φ Unit) (text : List Char) : Prop :=
  ∀ s, s.state.rest = text → Lexed host src s →
    m.wp (fun _ s' ↦ Lexed host src s' ∧ s'.state.rest <:+ text ∧
      s'.state.rest.length < text.length) (Failed host src Raised.IsLexError) s

variable {c : Char} {cs : List Char}

theorem comment_shortens (hc : c = '#') :
    Shortens host src (comment : Lexing φ Unit) (c :: cs) := by
  intro s hs hl
  have hdrop : (c :: cs).dropWhile (· ≠ '\n') = cs.dropWhile (· ≠ '\n') := by
    simp [hc]
  have hsuffix := List.dropWhile_suffix (l := cs) (· ≠ '\n')
  refine ⟨hl, ?_, ?_⟩
  · change s.state.rest.dropWhile (· ≠ '\n') <:+ _
    rw [hs]
    exact List.dropWhile_suffix _
  · change (s.state.rest.dropWhile (· ≠ '\n')).length < _
    rw [hs, hdrop]
    exact Nat.lt_succ_of_le hsuffix.length_le

theorem skip_shortens {n : ℕ} (hn : 0 < n) :
    Shortens host src (skip n : Lexing φ Unit) (c :: cs) := by
  intro s hs hl
  refine ⟨hl, ?_, ?_⟩
  · change s.state.rest.drop n <:+ _
    rw [hs]
    exact List.drop_suffix _ _
  · change (s.state.rest.drop n).length < _
    rw [hs, List.length_drop, List.length_cons]
    omega

/-- Changes that leave the text and the tokens alone. -/
theorem Shortens.after {f : Logged φ (LexState φ) → Logged φ (LexState φ)} {m : Lexing φ Unit}
    {text : List Char} (hm : Shortens host src m text)
    (hf : ∀ s, (f s).state.rest = s.state.rest ∧ (f s).asked = s.asked ∧
      (f s).state.toks = s.state.toks) :
    Shortens host src (do
      Exec.modify f
      m) text := by
  intro s hs hl
  obtain ⟨hrest, hasked, htoks⟩ := hf s
  rw [wp_bind, wp_modify]
  apply hm
  · rw [hrest, hs]
  · unfold Lexed Answered
    rw [htoks, hasked]
    exact hl

theorem emit_shortens {m : Lexing φ Unit} {text : List Char} (hm : Shortens host src m text)
    {tok : Tok φ} (htok : tok.Sound host src) (line col : ℕ) :
    Shortens host src (do
      emit tok line col
      m) text := by
  intro s hs hl
  unfold emit
  rw [wp_bind, wp_modify]
  refine hm _ hs ⟨?_, hl.2⟩
  intro t ht
  rcases List.mem_append.mp ht with ht | ht
  · exact hl.1 t ht
  · obtain rfl := List.mem_singleton.mp ht
    exact htok

theorem Shortens.get {f : Logged φ (LexState φ) → Lexing φ Unit} {text : List Char}
    (h : ∀ s, s.state.rest = text → Shortens host src (f s) text) :
    Shortens host src (Exec.get >>= f) text := by
  intro s hs hl
  rw [wp_bind, wp_get]
  exact h s hs s hs hl

theorem Shortens.convert {α : Type} {m : Lexing φ α} {P : α → Prop} {f : α → Lexing φ Unit}
    {text : List Char} (hm : Converts host src m P)
    (hf : ∀ a, P a → Shortens host src (f a) text) : Shortens host src (m >>= f) text := by
  intro s hs hl
  refine wp_bind_of (wp_mono (hm s hl.2) (fun _ _ h ↦ h) fun _ _ h ↦ .escaped h) ?_
  rintro a s' ⟨ha, hstate, hl'⟩
  refine hf a ha s' (by rw [hstate, hs]) ⟨?_, hl'⟩
  rw [hstate]
  exact hl.1

theorem Shortens.fail {e : Raised} (he : e.IsLexError) {text : List Char} :
    Shortens host src (Exec.fail e : Lexing φ Unit) text :=
  fun _ _ hl ↦ .reported he hl.2

theorem symbol_shortens {tok : Tok φ} (htok : tok.Sound host src) {n : ℕ}
    (hn : 0 < n) : Shortens host src (symbol tok n) (c :: cs) := by
  apply Shortens.get
  intro s _
  exact emit_shortens (skip_shortens hn) htok _ _

theorem newline_shortens : Shortens host src (newline : Lexing φ Unit) (c :: cs) := by
  have hstep : Shortens host src (Exec.modify fun s ↦
      { s with state := { s.state with
        rest := s.state.rest.tail
        line := s.state.line + 1
        col := 1 } } : Lexing φ Unit) (c :: cs) := by
    intro s hs hl
    refine ⟨hl, ?_, ?_⟩
    · change s.state.rest.tail <:+ _
      rw [hs]
      exact List.tail_suffix _
    · change s.state.rest.tail.length < _
      rw [hs]
      exact Nat.lt_succ_self _
  apply Shortens.get
  intro s _
  dsimp only
  split
  · exact emit_shortens hstep (by trivial) _ _
  · exact hstep

theorem stringText_reports {line col : ℕ} {e : Raised} {offset : ℕ} {cs buf : List Char}
    (h : stringText line col offset cs buf = .error e) : e.IsLexError := by
  fun_induction stringText with
  | case1 | case2 | case4 | case6 =>
      cases h
      exact .mk _ _ _
  | case3 => contradiction
  | case5 =>
      rename_i ih
      exact ih h
  | case7 =>
      rename_i ih
      exact ih h

theorem string_shortens (hc : c = '"') (hsrc : c :: cs <:+ src) :
    Shortens host src (string : Lexing φ Unit) (c :: cs) := by
  subst hc
  apply Shortens.get
  intro s hs
  split
  · rename_i e he
    exact Shortens.fail (stringText_reports he)
  · rename_i text offset rest htext
    rw [hs] at htext
    have hliteral : Literal src (String.ofList text) :=
      ⟨cs, _, _, text, offset, rest, hsrc, htext, rfl⟩
    have hsound : (Tok.string (String.ofList text) : Tok φ).Sound host src :=
      ⟨.url hliteral, fun url hurl ↦ .port hliteral hurl⟩
    exact emit_shortens (skip_shortens (Nat.succ_pos _)) hsound _ _

theorem numberText_pos (h : startsNumber host (c :: cs) = true) :
    0 < (numberText host false (c :: cs)).1.length := by
  have hfirst : (host.isDigit c || (c = '.' && !false)) = true := by
    unfold startsNumber at h
    split at h
    · rename_i heq
      obtain ⟨rfl, _⟩ := List.cons_eq_cons.mp heq
      simp
    · rename_i heq
      obtain ⟨rfl, _⟩ := List.cons_eq_cons.mp heq
      simp [h]
    · contradiction
  rw [numberText, if_pos hfirst]
  exact Nat.succ_pos _

/-- The text of a number is read from the front, and its characters are digits and points. -/
theorem startsWith_numberText (host : Python φ) (seenDot : Bool) (cs : List Char) :
    (numberText host seenDot cs).1 <+: cs ∧
      ∀ c ∈ (numberText host seenDot cs).1, host.isDigit c = true ∨ c = '.' := by
  fun_induction numberText host seenDot cs with
  | case1 => simp
  | case2 seenDot c cs hc text rest heq ih =>
      rw [heq] at ih
      obtain ⟨hfront, hchars⟩ := ih
      refine ⟨List.cons_prefix_cons.mpr ⟨rfl, hfront⟩, ?_⟩
      intro d hd
      rcases List.mem_cons.mp hd with rfl | hd
      · rcases Bool.or_eq_true_iff.mp hc with hc | hc
        · exact .inl hc
        · exact .inr (of_decide_eq_true (Bool.and_eq_true_iff.mp hc).1)
      · exact hchars d hd
  | case3 => simp

theorem number_shortens (h : startsNumber host (c :: cs) = true) (hsrc : c :: cs <:+ src) :
    Shortens host src (number host) (c :: cs) := by
  have hpos := numberText_pos h
  obtain ⟨hfront, hchars⟩ := startsWith_numberText host false (c :: cs)
  have hinfix := hfront.isInfix.trans hsrc.isInfix
  apply Shortens.get
  intro s hs
  rw [hs]
  dsimp only
  split
  · split
    · refine Shortens.convert (P := fun v ↦ Tok.Sound host src (.number v))
        ((converts_floatText (.float hinfix hchars)).map ?_) fun value hvalue ↦ ?_
      · rintro x rfl
        exact .intOf hinfix hchars
      · exact emit_shortens (skip_shortens hpos) hvalue _ _
    · rename_i hpoint
      have hdigits : ∀ d ∈ (numberText host false (c :: cs)).1, host.isDigit d = true := by
        intro d hd
        refine (hchars d hd).resolve_right ?_
        rintro rfl
        exact hpoint (List.contains_iff_mem.mpr hd)
      refine Shortens.convert (P := fun v ↦ Tok.Sound host src (.number v))
        ((converts_intText (.int hinfix hdigits)).map ?_) fun value hvalue ↦ ?_
      · rintro n rfl
        exact .floatOf hinfix hdigits
      · exact emit_shortens (skip_shortens hpos) hvalue _ _
  · split
    · exact Shortens.fail (.mk _ _ _)
    · refine Shortens.convert (converts_floatText (.float hinfix hchars)) fun x _ ↦ ?_
      refine emit_shortens ?_ (by trivial) _ _
      apply skip_shortens
      simp only [List.length_append]
      omega

theorem name_shortens (h : (host.isAlpha c || c = '_') = true) :
    Shortens host src (name host) (c :: cs) := by
  have hchar : isNameChar host c = true := by
    rcases Bool.or_eq_true_iff.mp h with h | h
    · simp [isNameChar, host.isAlnum_of_isAlpha c h]
    · simp [isNameChar, h]
  apply Shortens.get
  intro s hs
  refine emit_shortens ?_ (by trivial) _ _
  apply skip_shortens
  rw [hs, List.takeWhile_cons_of_pos hchar]
  exact Nat.succ_pos _

theorem simple_sound {c : Char} {tok : Tok φ} (h : simple c = some tok) :
    tok.Sound host src := by
  unfold simple at h
  split at h <;> first
    | contradiction
    | (obtain rfl := Option.some.inj h
       trivial)

theorem pass_shortens {ch : Char} {rest : List Char} {s : Logged φ (LexState φ)}
    (hs : s.state.rest = ch :: rest) (hsrc : ch :: rest <:+ src) (hl : Lexed host src s) :
    (pass host ()).wp
      (fun r s' ↦ r = .again () ∧ Lexed host src s' ∧ s'.state.rest <:+ ch :: rest ∧
        s'.state.rest.length < (ch :: rest).length)
      (Failed host src Raised.IsLexError) s := by
  have hagain : ∀ m : Lexing φ Unit, Shortens host src m (ch :: rest) →
      (m >>= fun _ ↦ pure (.again ()) : Lexing φ (Pass Unit Unit)).wp
        (fun r s' ↦ r = .again () ∧ Lexed host src s' ∧ s'.state.rest <:+ ch :: rest ∧
          s'.state.rest.length < (ch :: rest).length)
        (Failed host src Raised.IsLexError) s := by
    intro m hm
    refine wp_bind_of (hm s hs hl) ?_
    rintro _ s' hs'
    exact ⟨rfl, hs'⟩
  unfold pass
  rw [wp_bind, wp_get, hs]
  dsimp only
  by_cases hcomment : ch = '#'
  · rw [if_pos hcomment]
    exact hagain _ (comment_shortens hcomment)
  rw [if_neg hcomment]
  by_cases hnewline : ch = '\n'
  · rw [if_pos hnewline]
    exact hagain _ newline_shortens
  rw [if_neg hnewline]
  by_cases hblank : (ch = ' ' || ch = '\t' || ch = '\r') = true
  · rw [if_pos hblank]
    exact hagain _ (skip_shortens Nat.one_pos)
  rw [if_neg hblank]
  split
  · rename_i tok htok
    rw [← Exec.bind_assoc]
    refine hagain _ ?_
    exact (symbol_shortens (simple_sound htok) Nat.one_pos).after fun _ ↦ ⟨rfl, rfl, rfl⟩
  · split_ifs with _ _ _ hquote hnumber hname
    · exact hagain _ (symbol_shortens (by trivial) Nat.two_pos)
    · exact hagain _ (symbol_shortens (by trivial) Nat.two_pos)
    · exact hagain _ (symbol_shortens (by trivial) Nat.one_pos)
    · exact hagain _ (string_shortens hquote hsrc)
    · exact hagain _ (number_shortens hnumber hsrc)
    · exact hagain _ (name_shortens hname)
    · exact .reported (.mk _ _ _) hl.2

/-- What the lexer keeps to: the text left gets shorter. -/
abbrev lexing (host : Python φ) (src : List Char) : Discipline Raised (Logged φ (LexState φ)) :=
  keeping host src Raised.IsLexError
    (fun s ↦ s.rest <:+ src ∧ ∀ t ∈ s.toks, t.tok.Sound host src)
    fun s ↦ s.rest.length

theorem pass_consumes :
    Consumes (lexing host src) (pass host ()) (Proceeds (fun _ ↦ True) fun _ ↦ True) := by
  rintro s ⟨⟨hsrc, htoks⟩, ha⟩
  cases hs : s.state.rest with
  | nil =>
      unfold pass
      rw [wp_bind, wp_get, hs]
      exact ⟨⟨⟨hsrc, htoks⟩, ha⟩, 0, le_rfl, trivial⟩
  | cons ch rest =>
      rw [hs] at hsrc
      refine wp_mono (pass_shortens hs hsrc ⟨htoks, ha⟩) ?_ fun _ _ h ↦ h
      rintro r s' ⟨rfl, ⟨htoks', ha'⟩, hsuffix, hlt⟩
      rw [← hs] at hlt
      refine ⟨⟨⟨hsuffix.trans hsrc, htoks'⟩, ha'⟩,
        s.state.rest.length - s'.state.rest.length, ?_, trivial, ?_⟩
      · change s'.state.rest.length + _ ≤ s.state.rest.length
        omega
      · omega

/-- The lexer comes to the end of the text, and the last token says so. -/
theorem tokenize_ends (host : Python φ) (src : List Char) :
    (tokenize host).wp
      (fun toks s' ↦ Answered host src s' ∧
        (∀ t ∈ toks, t.tok.Sound host src) ∧
        ∃ t, toks.getLast? = some t ∧ Source.isEof t.tok = true)
      (Failed host src Raised.IsLexError) ⟨⟨src, 1, 1, 0, []⟩, []⟩ := by
  unfold tokenize
  rw [wp_bind, wp_get]
  have hstart : (lexing host src).invariant ⟨⟨src, 1, 1, 0, []⟩, []⟩ :=
    ⟨⟨List.suffix_rfl, by simp⟩, by simp [Answered]⟩
  have hloop : (loop .endless (pass host) (src.length + 1) ()).wp _ _ ⟨⟨src, 1, 1, 0, []⟩, []⟩ :=
    loop_consumes (D := lexing host src) (fun _ _ ↦ pass_consumes) trivial hstart
      (Nat.lt_succ_self _)
  refine wp_bind_of hloop ?_
  rintro _ s' ⟨⟨⟨_, htoks⟩, ha⟩, _⟩
  have hadd : ∀ {toks : List (Token φ)} {t : Token φ}, t.tok.Sound host src →
      (∀ t ∈ toks, t.tok.Sound host src) →
      ∀ t' ∈ toks ++ [t], t'.tok.Sound host src := by
    intro toks t ht h t' ht'
    rcases List.mem_append.mp ht' with ht' | ht'
    · exact h t' ht'
    · obtain rfl := List.mem_singleton.mp ht'
      exact ht
  have hlast : ∀ (toks : List (Token φ)) (t : Token φ), Source.isEof t.tok = true →
      ∃ t', (toks ++ [t]).getLast? = some t' ∧ Source.isEof t'.tok = true := by
    intro toks t ht
    exact ⟨t, by simp, ht⟩
  rw [wp_bind, wp_get]
  dsimp only
  split
  · exact ⟨ha, hadd trivial (hadd trivial htoks), hlast _ _ rfl⟩
  · exact ⟨ha, hadd trivial htoks, hlast _ _ rfl⟩

end Lexer

/-! ## The parser -/

namespace Source

/-- The parser stands in front of a token, and the last token is the end. -/
structure Positioned (host : Python φ) (src : List Char) (s : ParseState φ) : Prop where
  lt : s.i < s.toks.length
  ends : ∃ t, s.toks.getLast? = some t ∧ isEof t.tok = true
  sound : ∀ t ∈ s.toks, t.tok.Sound host src

/-- What the parser keeps to: the tokens left get fewer. -/
abbrev reading (host : Python φ) (src : List Char) : Discipline Raised (Logged φ (ParseState φ)) :=
  keeping host src Raised.IsParseError (Positioned host src) fun s ↦ s.toks.length - s.i

section

variable {src : List Char} {α β ι : Type}

/-- `Consumes` in front of a token. -/
def ReadsAt (host : Python φ) (src : List Char) (t : Token φ) (m : Parsing φ α)
    (Q : α → ℕ → Prop) : Prop :=
  ∀ s, (reading host src).invariant s → s.state.toks[s.state.i]? = some t →
    m.wp (fun a s' ↦ (reading host src).invariant s' ∧
      ∃ k, (reading host src).measure s' + k ≤ (reading host src).measure s ∧
        Q a k) (Failed host src Raised.IsParseError) s

variable {t : Token φ} {P : α → ℕ → Prop} {Q : β → ℕ → Prop}

theorem reads_at {m : Parsing φ α} (hm : Consumes (reading host src) m P) :
    ReadsAt host src t m P :=
  fun s hs _ ↦ hm s hs

theorem ReadsAt.mono {P' : α → ℕ → Prop} {m : Parsing φ α} (hm : ReadsAt host src t m P)
    (h : ∀ a k, P a k → P' a k) : ReadsAt host src t m P' := by
  intro s hs ht
  refine wp_mono (hm s hs ht) ?_ fun _ _ hfail ↦ hfail
  rintro a s' ⟨hinv, k, hk, ha⟩
  exact ⟨hinv, k, hk, h a k ha⟩

theorem Positioned.current {s : ParseState φ} (h : Positioned host src s) :
    ∃ t, s.toks[s.i]? = some t ∧ s.toks[min (s.i + 0) (s.toks.length - 1)]? = some t := by
  have hlt := h.lt
  have hmin : min (s.i + 0) (s.toks.length - 1) = s.i := by omega
  rw [hmin]
  exact ⟨s.toks[s.i], List.getElem?_eq_getElem hlt, List.getElem?_eq_getElem hlt⟩

/-- Behind a token that is not the end there is another. -/
theorem Positioned.next {s : ParseState φ} (h : Positioned host src s) (ht : s.toks[s.i]? = some t)
    (heof : isEof t.tok = false) : Positioned host src { s with i := s.i + 1 } := by
  obtain ⟨hlt, ⟨last, hlast, hend⟩, hsound⟩ := h
  refine ⟨?_, ⟨last, hlast, hend⟩, hsound⟩
  by_contra hge
  have hi : s.i = s.toks.length - 1 := by
    dsimp only at hge
    omega
  rw [List.getLast?_eq_getElem?, ← hi, ht] at hlast
  obtain rfl := Option.some.inj hlast
  rw [heof] at hend
  contradiction

theorem ReadsAt.peek {f : Token φ → Parsing φ β} (hf : ReadsAt host src t (f t) Q) :
    ReadsAt host src t (peek 0 >>= f) Q := by
  intro s hs ht
  obtain ⟨t', ht', hpeek⟩ := hs.1.current
  rw [ht] at ht'
  obtain rfl := Option.some.inj ht'
  unfold Source.peek
  rw [wp_bind, wp_bind, wp_get, hpeek]
  exact hf s hs ht

theorem peek_sound {f : Token φ → Parsing φ β}
    (hf : ∀ t, t.tok.Sound host src → ReadsAt host src t (f t) Q) :
    Consumes (reading host src) (peek 0 >>= f) Q := by
  intro s hs
  obtain ⟨t, ht, _⟩ := hs.1.current
  exact (hf t (hs.1.sound t (List.mem_of_getElem? ht))).peek s hs ht

theorem peek_reads {f : Token φ → Parsing φ β} (hf : ∀ t, ReadsAt host src t (f t) Q) :
    Consumes (reading host src) (peek 0 >>= f) Q :=
  peek_sound fun t _ ↦ hf t

theorem ReadsAt.at_ {γ : Type} {pick : Pick φ γ} {f : Bool → Parsing φ β}
    (hf : ReadsAt host src t (f (pick t.tok).isSome) Q) :
      ReadsAt host src t (at_ pick >>= f) Q := by
  unfold Source.at_
  rw [Exec.bind_assoc]
  exact hf.peek

theorem at_reads {γ : Type} {pick : Pick φ γ} {f : Bool → Parsing φ β}
    (hf : ∀ t, ReadsAt host src t (f (pick t.tok).isSome) Q) :
    Consumes (reading host src) (at_ pick >>= f) Q := by
  unfold Source.at_
  rw [Exec.bind_assoc]
  exact peek_reads hf

theorem ReadsAt.advance {f : Token φ → Parsing φ β} (heof : isEof t.tok = false)
    (hf : Consumes (reading host src) (f t) fun b k ↦ Q b (1 + k)) :
    ReadsAt host src t (advance >>= f) Q := by
  intro s hs ht
  have hlt := hs.1.lt
  have hnext := hs.1.next ht heof
  have hs' : (reading host src).invariant
      { s with state := { s.state with i := s.state.i + 1 } } := ⟨hnext, hs.2⟩
  unfold Source.advance
  rw [wp_bind, wp_bind, wp_get, wp_bind, ht]
  change wp (if isEof t.tok = true then _ else _) _ _ s
  rw [heof]
  change wp (f t) _ _ _
  refine wp_mono (hf _ hs') ?_ fun _ _ hfail ↦ hfail
  rintro b s'' ⟨hinv, k, hk, hb⟩
  refine ⟨hinv, 1 + k, ?_, hb⟩
  have hleft : (reading host src).measure s'' + k ≤ s.state.toks.length - (s.state.i + 1) := hk
  change (reading host src).measure s'' + (1 + k) ≤ s.state.toks.length - s.state.i
  omega

theorem raise_reads (msg : String) (line col : ℕ) :
    Consumes (reading host src) (raise msg line col : Parsing φ α) P :=
  consumes_fail fun _ hs ↦ .reported (.mk _) hs.2

theorem ReadsAt.raiseIf {cond : Bool} {msg : String} {line col : ℕ} {f : Unit → Parsing φ β}
    (hf : cond = false → ReadsAt host src t (f ()) Q) :
    ReadsAt host src t (raiseIf cond msg line col >>= f) Q := by
  cases cond with
  | true => exact fun s hs _ ↦ .reported (.mk _) hs.2
  | false => exact hf rfl

theorem raiseIf_reads {cond : Bool} {msg : String} {line col : ℕ} {f : Unit → Parsing φ β}
    (hf : cond = false → Consumes (reading host src) (f ()) Q) :
    Consumes (reading host src) (raiseIf cond msg line col >>= f) Q := by
  cases cond with
  | true => exact fun s hs ↦ .reported (.mk _) hs.2
  | false => exact hf rfl

theorem consumes_of_converts {R : α → Prop} {m : Parsing φ α} (hm : Converts host src m R) :
    Consumes (reading host src) m fun a _ ↦ R a := by
  intro s hs
  refine wp_mono (hm s hs.2) ?_ fun _ _ hfail ↦ .escaped hfail
  rintro a s' ⟨hR, hstate, ha⟩
  refine ⟨⟨?_, ha⟩, 0, ?_, hR⟩
  · rw [hstate]
    exact hs.1
  · change s'.state.toks.length - s'.state.i + 0 ≤ s.state.toks.length - s.state.i
    rw [hstate]
    exact le_rfl

theorem reads_of_converts {R : α → Prop} {m : Parsing φ α} (hm : Converts host src m R) :
    Reads (reading host src) 0 m :=
  (consumes_of_converts hm).mono fun _ _ _ ↦ Nat.zero_le _

theorem noFrame_reads : Consumes (reading host src) (noFrame : Parsing φ α) P := by
  intro s hs
  unfold noFrame ask
  rw [wp_bind, wp_modify]
  exact .escaped (escaped_ask hs.2 (.frame 0) .recursionError (by simp [Python.answers]))

/-- A loop that reads a token in every pass ends. -/
theorem whileTokens_reads {body : ι → Parsing φ (Pass ι α)} {I : ι → Prop} {R : α → Prop}
    (hbody : ∀ a, I a → Consumes (reading host src) (body a) (Proceeds I R)) {a : ι} (ha : I a) :
    Consumes (reading host src) (whileTokens body a) fun b _ ↦ R b := by
  apply consumes_get
  intro s hs
  apply loop_consumes hbody ha hs
  change s.state.toks.length - s.state.i < _
  omega

theorem proceeds_of_pos {r : Pass ι α} {k : ℕ} (h : 1 ≤ k) :
    Proceeds (fun _ ↦ True) (fun _ ↦ True) r k := by
  cases r with
  | again a => exact ⟨trivial, h⟩
  | done b => trivial

theorem whileTokens_reads_any {body : ι → Parsing φ (Pass ι α)}
    (hbody : ∀ a, Consumes (reading host src) (body a) (Proceeds (fun _ ↦ True) fun _ ↦ True))
    (a : ι) :
    Reads (reading host src) 0 (whileTokens body a) :=
  (whileTokens_reads (fun a _ ↦ hbody a) trivial).mono fun _ _ _ ↦ Nat.zero_le _

/-! ### Tokens -/

theorem not_eof {pick : Pick φ α} (hpick : pick .eof = none) {tok : Tok φ}
    (h : (pick tok).isSome = true) : isEof tok = false := by
  cases tok <;> first
    | rfl
    | simp [hpick] at h

theorem expect_sound {pick : Pick φ α} (hpick : pick .eof = none) (want : String) :
    Consumes (reading host src) (expect host pick want) fun r k ↦
      1 ≤ k ∧ ∃ tok : Tok φ, pick tok = some r.1 ∧ tok.Sound host src := by
  apply peek_sound
  intro t ht
  cases h : pick t.tok with
  | none => exact reads_at (raise_reads _ _ _)
  | some a =>
      have heof := not_eof hpick (Option.isSome_iff_exists.mpr ⟨a, h⟩)
      exact ReadsAt.advance heof (consumes_pure ⟨le_rfl, t.tok, h, ht⟩)

theorem expect_reads {pick : Pick φ α} (hpick : pick .eof = none) (want : String) :
    Reads (reading host src) 1 (expect host pick want) :=
  (expect_sound hpick want).mono fun _ _ h ↦ h.1

theorem expectKw_reads (word : String) : Reads (reading host src) 1 (expectKw host word) :=
  (expect_reads rfl _).then fun _ ↦ reads_pure _

theorem expectSymbol_reads {type : String} (htype : type ≠ "EOF") :
    Reads (reading host src) 1 (expectSymbol host type) :=
  (expect_reads (if_neg htype.symm) _).then fun _ ↦ reads_pure _

theorem skipNewlines_reads : Reads (reading host src) 0 (skipNewlines : Parsing φ Unit) := by
  refine whileTokens_reads_any (fun _ ↦ ?_) ()
  apply at_reads
  intro t
  split
  · rename_i h
    exact ReadsAt.advance (not_eof rfl h) (consumes_pure ⟨trivial, Nat.one_pos⟩)
  · exact reads_at (consumes_pure trivial)

theorem name_reads (what : String) : Reads (reading host src) 1 (name host what) := by
  refine (expect_reads rfl _).then ?_
  rintro ⟨s, t⟩
  exact raiseIf_reads fun _ ↦ reads_pure _

theorem number_sound (what : String) :
    Consumes (reading host src) (number host what) fun n k ↦
      1 ≤ k ∧ (Tok.number n).Sound host src := by
  refine (expect_sound rfl _).bind ?_
  rintro ⟨n, t⟩ k ⟨hk, tok, hpick, hsound⟩
  cases tok with
  | number m =>
      obtain rfl := Option.some.inj hpick
      exact consumes_pure ⟨hk, hsound⟩
  | _ => contradiction

theorem number_reads {f : Number φ → Parsing φ β} (what : String)
    (hf : ∀ n, (Tok.number n).Sound host src → Reads (reading host src) 0 (f n)) :
    Reads (reading host src) 0 (number host what >>= f) :=
  (number_sound what).any fun n _ hn ↦ hf n hn.2

theorem toFloat_reads {n : Number φ} (hn : (Tok.number n).Sound host src) :
    Reads (reading host src) 0 (toFloat host n) := by
  cases n with
  | int n => exact reads_of_converts (converts_floatInt hn)
  | float x => exact reads_pure x

theorem toInt_reads {n : Number φ} (hn : (Tok.number n).Sound host src) :
    Reads (reading host src) 0 (toInt host n) := by
  cases n with
  | int n => exact reads_pure n
  | float x => exact reads_of_converts (converts_intFloat hn)

theorem duration_reads (what : String) : Reads (reading host src) 1 (duration host what) := by
  apply peek_sound
  intro t ht
  split
  · rename_i x h
    exact ReadsAt.advance (by rw [h]; rfl) (consumes_pure le_rfl)
  · rename_i n h
    rw [h] at ht
    refine ReadsAt.advance (by rw [h]; rfl) ?_
    exact (toFloat_reads ht).mono fun _ k _ ↦ Nat.le_add_right 1 k
  · exact reads_at (raise_reads _ _ _)

/-! ### Lanes and budgets -/

/-- The URL of a lane stands in a token. -/
def LaneFields.Sound (host : Python φ) (src : List Char) (f : LaneFields φ) : Prop :=
  ∀ url, f.url = some url → (Tok.string url).Sound host src

theorem laneField_reads (key : String) {f : LaneFields φ} (hf : f.Sound host src) :
    Consumes (reading host src) (laneField host key f) fun f' _ ↦ f'.Sound host src := by
  have hpure : ∀ {f' : LaneFields φ}, f'.url = f.url →
      Consumes (reading host src) (pure f') fun f' _ ↦ f'.Sound host src := by
    intro f' hurl
    refine consumes_pure fun url h ↦ hf url ?_
    rw [← hurl, h]
  unfold laneField
  split_ifs
  · refine (expect_sound rfl _).bind ?_
    rintro ⟨s, t⟩ k ⟨_, tok, hpick, hsound⟩
    cases tok with
    | string u =>
        obtain rfl := Option.some.inj hpick
        refine consumes_pure fun url h ↦ ?_
        obtain rfl := Option.some.inj h
        exact hsound
    | _ => contradiction
  · exact (expect_sound rfl _).bind fun _ _ _ ↦ hpure rfl
  · apply at_reads
    intro t
    split
    · rename_i h
      exact ReadsAt.advance (not_eof rfl h) (hpure rfl)
    · refine reads_at ((number_sound _).bind fun n k hn ↦ ?_)
      exact Consumes.bind (toFloat_reads hn.2) fun _ _ _ ↦ hpure rfl
  · refine (number_sound _).bind fun n k hn ↦ ?_
    exact Consumes.bind (toFloat_reads hn.2) fun _ _ _ ↦ hpure rfl
  · exact Consumes.bind (duration_reads _) fun _ _ _ ↦ hpure rfl
  · exact Consumes.bind (duration_reads _) fun _ _ _ ↦ hpure rfl
  · exact Consumes.bind (duration_reads _) fun _ _ _ ↦ hpure rfl
  · refine (number_sound _).bind fun n k hn ↦ ?_
    exact Consumes.bind (toInt_reads hn.2) fun _ _ _ ↦ hpure rfl
  · refine (expect_sound rfl _).bind ?_
    rintro ⟨s, t⟩ _ _
    exact raiseIf_reads fun _ ↦ hpure rfl
  · exact hpure rfl

/-- A loop up to a symbol, each pass of which reads something. -/
theorem untilSymbol_reads {type : String} {body done : ι → Parsing φ (Pass ι α)}
    (hdone : ∀ a, ∃ b, done a = pure (.done b)) (hbody : ∀ a, Reads (reading host src) 1 (body a))
    (a : ι) :
    Reads (reading host src) 0 (whileTokens (fun a ↦ at_ (.symbol type) >>= fun b ↦
      if b = true then done a else body a) a) := by
  refine whileTokens_reads_any (fun a ↦ at_reads fun t ↦ reads_at ?_) a
  split
  · obtain ⟨b, hb⟩ := hdone a
    rw [hb]
    exact consumes_pure trivial
  · exact (hbody a).mono fun _ _ hk ↦ proceeds_of_pos hk

theorem laneFields_reads :
    Consumes (reading host src) (laneFields host) fun f _ ↦ f.Sound host src := by
  refine whileTokens_reads (I := LaneFields.Sound host src) (fun f hf ↦ ?_) fun _ h ↦
    by contradiction
  refine at_reads fun t ↦ reads_at ?_
  split
  · exact consumes_pure hf
  · refine (expect_sound rfl _).bind ?_
    rintro ⟨key, t⟩ k ⟨hk, _⟩
    refine raiseIf_reads fun _ ↦ raiseIf_reads fun _ ↦ ?_
    refine (laneField_reads key hf).bind fun f j hf ↦ ?_
    refine Consumes.bind skipNewlines_reads fun _ _ _ ↦ consumes_pure ⟨hf, ?_⟩
    omega

theorem laneOf_reads (nm : String) (line : ℕ) {f : LaneFields φ} (hf : f.Sound host src) :
    Reads (reading host src) 0 (laneOf host nm line f) := by
  unfold laneOf
  refine raiseIf_reads fun hurl ↦ raiseIf_reads fun hdecode ↦ raiseIf_reads fun hprefill ↦ ?_
  obtain ⟨url, hurl⟩ := Option.isSome_iff_exists.mp (by simpa using hurl)
  obtain ⟨decode, hdecode⟩ := Option.isSome_iff_exists.mp (by simpa using hdecode)
  obtain ⟨prefill, hprefill⟩ := Option.isSome_iff_exists.mp (by simpa using hprefill)
  obtain ⟨hsplit, hport⟩ := hf url hurl
  rw [hurl, hdecode, hprefill]
  refine Consumes.any (consumes_pure (P := fun a _ ↦ a = url) rfl) ?_
  rintro _ _ rfl
  have hurlsplit := consumes_of_converts (converts_urlSplit hsplit)
  refine hurlsplit.any fun parsed _ hparsed ↦ raiseIf_reads fun _ ↦ ?_
  have hurlport := reads_of_converts (converts_urlPort (hport parsed hparsed))
  refine hurlport.then fun given ↦ raiseIf_reads fun _ ↦ ?_
  refine (reads_pure decode).then fun _ ↦ raiseIf_reads fun _ ↦ ?_
  refine (reads_pure prefill).then fun _ ↦ raiseIf_reads fun _ ↦ ?_
  exact raiseIf_reads fun _ ↦ raiseIf_reads fun _ ↦ reads_pure _

theorem lane_reads : Reads (reading host src) 1 (lane host) := by
  refine (expectKw_reads _).then fun head ↦ (name_reads _).any ?_
  rintro ⟨nm, t⟩
  refine (expectSymbol_reads (by decide)).any fun _ ↦ skipNewlines_reads.then fun _ ↦ ?_
  refine laneFields_reads.any fun f k hf ↦ ?_
  exact (expectSymbol_reads (by decide)).any fun _ ↦ laneOf_reads nm _ hf

theorem budgetFields_reads : Reads (reading host src) 0 (budgetFields host) := by
  refine untilSymbol_reads (fun f ↦ ⟨f, rfl⟩) (fun f ↦ ?_) _
  refine (expect_reads rfl _).then ?_
  rintro ⟨key, t⟩
  have hrest : ∀ f, Reads (reading host src) 0 (do
      skipNewlines
      pure (.again f) : Parsing φ (Pass (Option φ × Option ℕ) (Option φ × Option ℕ))) :=
    fun f ↦ skipNewlines_reads.then fun _ ↦ reads_pure _
  dsimp only
  split_ifs
  · refine raiseIf_reads fun _ ↦ (duration_reads _).any fun x ↦ hrest _
  · refine raiseIf_reads fun _ ↦ number_reads _ fun n hn ↦ ?_
    exact (toInt_reads hn).then fun n ↦ hrest _
  · exact raise_reads _ _ _

theorem budget_reads : Reads (reading host src) 1 (budget host) := by
  refine (expectKw_reads _).then fun head ↦ (name_reads _).any ?_
  rintro ⟨nm, t⟩
  refine (expectSymbol_reads (by decide)).any fun _ ↦ skipNewlines_reads.then fun _ ↦ ?_
  refine budgetFields_reads.then ?_
  rintro ⟨timeS, tokens⟩
  refine (expectSymbol_reads (by decide)).any fun _ ↦ ?_
  exact raiseIf_reads fun _ ↦ raiseIf_reads fun _ ↦ reads_pure _

/-! ### Tasks -/

theorem interpolated_reads (s : String) (line : ℕ) :
    Reads (reading host src) 0 (interpolated s line) := by
  unfold interpolated
  split
  · exact reads_pure _
  · exact consumes_fail fun _ hs ↦ .reported (.mk _) hs.2

theorem string_reads : Reads (reading host src) 1 (Source.string host) :=
  (expect_reads rfl _).then fun _ ↦ interpolated_reads _ _

/-- After an item there is a comma, and then another one, or the items are done. -/
theorem commaOr_reads {again done : Pass ι α} :
    Reads (reading host src) 0 (do
      if ← at_ (.symbol "COMMA") then
        let _ ← advance
        pure again
      else pure done : Parsing φ (Pass ι α)) := by
  apply at_reads
  intro t
  split
  · rename_i h
    exact ReadsAt.advance (not_eof rfl h) (consumes_pure (Nat.zero_le _))
  · exact reads_at (reads_pure _)

theorem params_reads : Reads (reading host src) 1 (params host) := by
  refine (expectSymbol_reads (by decide)).then fun _ ↦ at_reads fun t ↦ reads_at ?_
  have hclose : ∀ out, Reads (reading host src) 0 (do
      expectSymbol host "RPAREN"
      pure out : Parsing φ (List String)) :=
    fun out ↦ (expectSymbol_reads (by decide)).any fun _ ↦ reads_pure _
  split
  · exact hclose []
  · refine Reads.then (whileTokens_reads_any (fun out ↦ ?_) []) hclose
    refine Consumes.mono (P := fun _ k ↦ 1 ≤ k) ?_ fun _ _ hk ↦ proceeds_of_pos hk
    refine (name_reads _).then ?_
    rintro ⟨p, t⟩
    exact raiseIf_reads fun _ ↦ commaOr_reads

theorem expectClause_reads : Reads (reading host src) 1 (expectClause host) := by
  refine (expect_reads rfl _).then ?_
  rintro ⟨kind, t⟩
  refine raiseIf_reads fun _ ↦ ?_
  split_ifs
  · refine Reads.then (whileTokens_reads_any (fun options ↦ ?_) []) fun options ↦ ?_
    · apply peek_reads
      intro u
      cases h : Pick.string u.tok with
      | none => exact reads_at (consumes_pure trivial)
      | some s =>
          have heof := not_eof rfl (Option.isSome_iff_exists.mpr ⟨s, h⟩)
          exact ReadsAt.advance heof (consumes_pure ⟨trivial, Nat.one_pos⟩)
    · cases options with
      | nil => exact raise_reads _ _ _
      | cons first rest => exact reads_pure _
  · exact (expect_reads rfl _).any fun _ ↦ reads_pure _
  · exact reads_pure _
  · exact reads_pure _

theorem taskOptions_reads (line : ℕ) : Reads (reading host src) 0 (taskOptions host line) := by
  refine whileTokens_reads_any (fun o ↦ ?_) _
  apply peek_reads
  intro t
  cases h : optionWord t.tok with
  | none => exact reads_at (consumes_pure trivial)
  | some kw =>
      have heof := not_eof rfl (Option.isSome_iff_exists.mpr ⟨kw, h⟩)
      refine ReadsAt.advance heof ?_
      refine Consumes.mono (P := fun _ k ↦ 0 ≤ k) ?_ fun _ k _ ↦
        proceeds_of_pos (Nat.le_add_right 1 k)
      refine raiseIf_reads fun _ ↦ ?_
      dsimp only
      split_ifs
      · refine (name_reads _).any ?_
        rintro ⟨b, t⟩
        exact reads_pure _
      · exact number_reads _ fun n hn ↦ (toInt_reads hn).then fun _ ↦ reads_pure _
      · exact (duration_reads _).any fun x ↦ raiseIf_reads fun _ ↦ reads_pure _

theorem taskField_reads (nm key : String) (t : Token φ) (f : TaskFields) :
    Reads (reading host src) 0 (taskField host nm key t f) := by
  refine raiseIf_reads fun _ ↦ ?_
  dsimp only
  split_ifs
  · exact string_reads.any fun _ ↦ reads_pure _
  · exact string_reads.any fun _ ↦ reads_pure _
  · refine number_reads _ fun n hn ↦ (toInt_reads hn).then fun n ↦ ?_
    exact raiseIf_reads fun _ ↦ reads_pure _
  · exact expectClause_reads.any fun _ ↦ reads_pure _
  · exact raise_reads _ _ _

theorem taskFields_reads (nm : String) : Reads (reading host src) 0 (taskFields host nm) := by
  refine untilSymbol_reads (fun f ↦ ⟨f, rfl⟩) (fun f ↦ ?_) _
  refine (expect_reads rfl _).then ?_
  rintro ⟨key, t⟩
  refine (taskField_reads nm key t f).then fun f ↦ ?_
  exact skipNewlines_reads.then fun _ ↦ reads_pure _

theorem checkPrompt_reads (nm : String) (params : List String) (s : Str) (refs : List String) :
    Reads (reading host src) 0 (checkPrompt host nm params s refs) := by
  induction refs with
  | nil => exact reads_pure _
  | cons ref refs ih => exact raiseIf_reads fun _ ↦ ih

theorem task_reads : Reads (reading host src) 1 (task host) := by
  refine (expectKw_reads _).then fun head ↦ (name_reads _).any ?_
  rintro ⟨nm, t⟩
  refine params_reads.any fun params ↦ (expectKw_reads _).any fun _ ↦ (name_reads _).any ?_
  rintro ⟨lane, t⟩
  refine (taskOptions_reads _).then fun o ↦ ?_
  refine (expectSymbol_reads (by decide)).any fun _ ↦ skipNewlines_reads.then fun _ ↦ ?_
  refine (taskFields_reads nm).then fun f ↦ (expectSymbol_reads (by decide)).any fun _ ↦ ?_
  split
  · exact raise_reads _ _ _
  · split
    · refine (checkPrompt_reads _ _ _ _).then fun _ ↦ ?_
      exact (checkPrompt_reads _ _ _ _).then fun _ ↦ reads_pure _
    · exact (checkPrompt_reads _ _ _ _).then fun _ ↦ reads_pure _

/-! ### Expressions -/

theorem arguments_reads {arg : Parsing φ (Expr φ)} (harg : Reads (reading host src) 1 arg) :
    Reads (reading host src) 0 (arguments arg) := by
  refine whileTokens_reads_any (fun args ↦ ?_) []
  refine Consumes.mono (P := fun _ k ↦ 1 ≤ k) ?_ fun _ _ hk ↦ proceeds_of_pos hk
  exact harg.then fun a ↦ commaOr_reads

/-- The four functions that parse expressions, with so much room on the stack. -/
structure ExprReads (host : Python φ) (src : List Char) (left : ℕ) : Prop where
  expr : Reads (reading host src) 1 (expr host left)
  rescue : Reads (reading host src) 1 (rescue host left)
  cmp : Reads (reading host src) 1 (cmp host left)
  unary : Reads (reading host src) 1 (unary host left)

theorem rescue_reads {left : ℕ} (h : ExprReads host src left) :
    Reads (reading host src) 1 (rescue host (left + 1)) := by
  refine h.cmp.then fun e ↦ whileTokens_reads_any (fun e ↦ ?_) e
  apply at_reads
  intro t
  split
  · rename_i hkw
    refine ReadsAt.advance (not_eof rfl hkw) ?_
    refine Consumes.mono (P := fun _ k ↦ 1 ≤ k) ?_ fun _ k _ ↦
      proceeds_of_pos (Nat.le_add_right 1 k)
    exact h.cmp.then fun other ↦ reads_pure _
  · exact reads_at (consumes_pure trivial)

theorem cmp_reads {left : ℕ} (h : ExprReads host src left) :
    Reads (reading host src) 1 (cmp host (left + 1)) := by
  refine h.unary.then fun e ↦ peek_reads fun t ↦ ?_
  cases hop : comparison t.tok with
  | none => exact reads_at (reads_pure _)
  | some op =>
      have heof := not_eof rfl (Option.isSome_iff_exists.mpr ⟨op, hop⟩)
      refine ReadsAt.advance heof ?_
      refine Consumes.mono (P := fun _ k ↦ 1 ≤ k) ?_ fun _ k _ ↦ Nat.zero_le _
      refine h.unary.then fun other ↦ peek_reads fun u ↦ reads_at ?_
      exact raiseIf_reads fun _ ↦ reads_pure _

theorem callArgs_reads {left : ℕ} (h : ExprReads host src left) (s : String) (line : ℕ) :
    Reads (reading host src) 0 (do
      let args ←
        if ← at_ (.symbol "RPAREN") then pure [] else arguments (expr host left)
      expectSymbol host "RPAREN"
      pure (.call s args line) : Parsing φ (Expr φ)) := by
  have hclose : ∀ args, Reads (reading host src) 0 (do
      expectSymbol host "RPAREN"
      pure (.call s args line) : Parsing φ (Expr φ)) :=
    fun args ↦ (expectSymbol_reads (by decide)).any fun _ ↦ reads_pure _
  refine at_reads fun t ↦ reads_at ?_
  split
  · exact hclose []
  · exact (arguments_reads h.expr).then hclose

theorem unary_reads {left : ℕ} (h : ExprReads host src left) :
    Reads (reading host src) 1 (unary host (left + 1)) := by
  have hone : ∀ {m : Parsing φ (Expr φ)}, Reads (reading host src) 0 m →
      Consumes (reading host src) m fun _ k ↦ 1 ≤ 1 + k :=
    fun hm ↦ hm.mono fun _ k _ ↦ Nat.le_add_right 1 k
  apply peek_reads
  intro t
  split
  · rename_i s htok
    refine ReadsAt.advance (by rw [htok]; rfl) (hone ?_)
    exact (interpolated_reads _ _).then fun _ ↦ reads_pure _
  · rename_i n htok
    exact ReadsAt.advance (by rw [htok]; rfl) (hone (reads_pure _))
  · rename_i htok
    refine ReadsAt.advance (by rw [htok]; rfl) (hone ?_)
    exact h.expr.any fun e ↦ (expectSymbol_reads (by decide)).any fun _ ↦ reads_pure _
  · rename_i s htok
    split
    · exact ReadsAt.advance (by rw [htok]; rfl) (hone (reads_pure _))
    · refine ReadsAt.raiseIf fun _ ↦ ReadsAt.advance (by rw [htok]; rfl) (hone ?_)
      apply at_reads
      intro u
      split
      · rename_i hparen
        refine ReadsAt.advance (not_eof rfl hparen) ?_
        exact (callArgs_reads h s _).mono fun _ _ _ ↦ Nat.zero_le _
      · exact reads_at (reads_pure _)
  · exact reads_at (raise_reads _ _ _)

theorem expr_reads (left : ℕ) : ExprReads host src left := by
  induction left with
  | zero => exact ⟨noFrame_reads, noFrame_reads, noFrame_reads, noFrame_reads⟩
  | succ left ih => exact ⟨ih.rescue, rescue_reads ih, cmp_reads ih, unary_reads ih⟩

/-! ### Statements -/

/-- The three functions that parse statements, with so much room on the stack. -/
structure StmtReads (host : Python φ) (src : List Char) (left : ℕ) : Prop where
  block : Reads (reading host src) 1 (block host left)
  stmt : Reads (reading host src) 1 (stmt host left)
  ifStmt : Reads (reading host src) 1 (ifStmt host left)

theorem block_reads {left : ℕ} (h : StmtReads host src left) :
    Reads (reading host src) 1 (block host (left + 1)) := by
  refine (expectSymbol_reads (by decide)).then fun _ ↦ skipNewlines_reads.then fun _ ↦ ?_
  refine Reads.then (untilSymbol_reads (fun stmts ↦ ⟨stmts, rfl⟩) (fun stmts ↦ ?_) []) fun stmts ↦
    ?_
  · refine h.stmt.then fun s ↦ ?_
    have hnext : Reads (reading host src) 0 (do
        skipNewlines
        pure (.again (stmts ++ [s])) : Parsing φ (Pass (List (Stmt φ)) (List (Stmt φ)))) :=
      skipNewlines_reads.then fun _ ↦ reads_pure _
    refine at_reads fun t ↦ reads_at ?_
    split
    · exact (expect_reads rfl _).any fun _ ↦ hnext
    · exact hnext
  · exact (expectSymbol_reads (by decide)).any fun _ ↦ reads_pure _

theorem stmt_reads {left : ℕ} (h : StmtReads host src left) :
    Reads (reading host src) 1 (stmt host (left + 1)) := by
  have hone : ∀ {m : Parsing φ (Stmt φ)}, Reads (reading host src) 0 m →
      Consumes (reading host src) m fun _ k ↦ 1 ≤ 1 + k :=
    fun hm ↦ hm.mono fun _ k _ ↦ Nat.le_add_right 1 k
  apply peek_reads
  intro t
  apply ReadsAt.at_
  split
  · rename_i hlet
    refine ReadsAt.advance (not_eof rfl hlet) (hone ?_)
    refine (name_reads _).any ?_
    rintro ⟨nm, u⟩
    refine (expectSymbol_reads (by decide)).any fun _ ↦ ?_
    exact (expr_reads left).expr.any fun e ↦ reads_pure _
  · apply ReadsAt.at_
    split
    · exact reads_at h.ifStmt
    · apply ReadsAt.at_
      split
      · rename_i hemit
        refine ReadsAt.advance (not_eof rfl hemit) (hone ?_)
        exact (expr_reads left).expr.any fun e ↦ reads_pure _
      · exact reads_at (raise_reads _ _ _)

theorem ifStmt_reads {left : ℕ} (h : StmtReads host src left) :
    Reads (reading host src) 1 (ifStmt host (left + 1)) := by
  refine (expectKw_reads _).then fun head ↦ (expr_reads left).expr.any fun cond ↦ ?_
  refine h.block.any fun thenBody ↦ ?_
  have hpure : ∀ elseBody, Reads (reading host src) 0
      (pure (.ifStmt cond thenBody elseBody head.line) : Parsing φ (Stmt φ)) :=
    fun elseBody ↦ reads_pure _
  apply at_reads
  intro t
  split
  · rename_i helse
    refine ReadsAt.advance (not_eof rfl helse) ?_
    refine Consumes.mono (P := fun _ k ↦ 0 ≤ k) ?_ fun _ _ _ ↦ Nat.zero_le _
    refine at_reads fun u ↦ reads_at ?_
    split
    · exact h.ifStmt.any fun s ↦ hpure [s]
    · exact h.block.any hpure
  · exact reads_at (hpure [])

theorem stmts_reads (left : ℕ) : StmtReads host src left := by
  induction left with
  | zero => exact ⟨noFrame_reads, noFrame_reads, noFrame_reads⟩
  | succ left ih => exact ⟨block_reads ih, stmt_reads ih, ifStmt_reads ih⟩

/-! ### Programs -/

theorem flow_reads : Reads (reading host src) 1 (flow host) := by
  refine (expectKw_reads _).then fun head ↦ (name_reads _).any ?_
  rintro ⟨nm, t⟩
  refine params_reads.any fun params ↦ ?_
  have hbody : ∀ budget, Reads (reading host src) 0 (do
      let body ← block host host.frames
      pure ⟨nm, params, budget, body, head.line⟩ : Parsing φ (Flow φ)) :=
    fun budget ↦ (stmts_reads host.frames).block.any fun _ ↦ reads_pure _
  apply at_reads
  intro u
  split
  · rename_i hwithin
    refine ReadsAt.advance (not_eof rfl hwithin) ?_
    refine Consumes.mono (P := fun _ k ↦ 0 ≤ k) ?_ fun _ _ _ ↦ Nat.zero_le _
    refine (name_reads _).any ?_
    rintro ⟨b, v⟩
    exact hbody (some b)
  · exact reads_at (hbody none)

theorem checkNew_reads (kind nm : String) (line : ℕ) (table : List (String × ℕ)) :
    Reads (reading host src) 0 (checkNew host kind nm line table) := by
  unfold checkNew
  split
  · exact reads_pure _
  · exact raise_reads _ _ _

theorem declaration_reads (prog : Program φ) :
    Reads (reading host src) 1 (declaration host prog) := by
  apply peek_reads
  intro t
  apply ReadsAt.at_
  split
  · exact reads_at (lane_reads.then fun l ↦ (checkNew_reads _ _ _ _).then fun _ ↦ reads_pure _)
  apply ReadsAt.at_
  split
  · exact reads_at (budget_reads.then fun b ↦ (checkNew_reads _ _ _ _).then fun _ ↦ reads_pure _)
  apply ReadsAt.at_
  split
  · exact reads_at (task_reads.then fun k ↦ (checkNew_reads _ _ _ _).then fun _ ↦ reads_pure _)
  apply ReadsAt.at_
  split
  · exact reads_at (flow_reads.then fun f ↦ (checkNew_reads _ _ _ _).then fun _ ↦ reads_pure _)
  · exact reads_at (raise_reads _ _ _)

theorem program_reads : Reads (reading host src) 0 (program host) := by
  refine skipNewlines_reads.then fun _ ↦
    untilSymbol_reads (fun prog ↦ ⟨prog, rfl⟩) (fun prog ↦ ?_) _
  exact (declaration_reads prog).then fun prog ↦ skipNewlines_reads.then fun _ ↦ reads_pure _

/-! ### Linking -/

theorem forM_reads {γ : Type} {f : γ → Parsing φ Unit} (xs : List γ)
    (hf : ∀ x ∈ xs, Reads (reading host src) 0 (f x)) : Reads (reading host src) 0 (xs.forM f) := by
  induction xs with
  | nil => exact reads_pure _
  | cons x xs ih =>
      refine (hf x (by simp)).then fun _ ↦ ih ?_
      exact fun y hy ↦ hf y (List.mem_cons_of_mem _ hy)

theorem foldlM_reads {γ δ : Type} {f : δ → γ → Parsing φ δ}
    (hf : ∀ d x, Reads (reading host src) 0 (f d x)) (xs : List γ) (d : δ) :
    Reads (reading host src) 0 (xs.foldlM f d) := by
  induction xs generalizing d with
  | nil => exact reads_pure _
  | cons x xs ih => exact (hf d x).then fun d ↦ ih d

theorem checkRefs_reads (line : ℕ) (scope refs : List String) :
    Reads (reading host src) 0 (checkRefs line scope refs) := by
  induction refs with
  | nil => exact reads_pure _
  | cons ref refs ih => exact raiseIf_reads fun _ ↦ ih

theorem raiseIf_last (cond : Bool) (msg : String) (line col : ℕ) :
    Reads (reading host src) 0 (Source.raiseIf cond msg line col : Parsing φ Unit) := by
  cases cond with
  | true => exact raise_reads _ _ _
  | false => exact reads_pure _

theorem checkExpr_reads (p : Program φ) (scope : List String) (left : ℕ) (e : Expr φ) :
    Reads (reading host src) 0 (checkExpr host p scope left e) := by
  induction left generalizing e with
  | zero =>
      unfold checkExpr
      exact noFrame_reads
  | succ left ih =>
      unfold checkExpr
      cases e with
      | str s => exact checkRefs_reads _ _ _
      | num | bool => exact reads_pure _
      | name => exact raiseIf_last _ _ _ _
      | call name args line =>
          refine (forM_reads args fun a _ ↦ ih a).then fun _ ↦ ?_
          dsimp only
          split
          · exact raise_reads _ _ _
          · exact raiseIf_last _ _ _ _
      | rescue l r | cmp _ l r => exact (ih l).then fun _ ↦ ih r

theorem checkBlock_reads (p : Program φ) (left : ℕ) (scope : List String) (stmts : List (Stmt φ)) :
    Reads (reading host src) 0 (checkBlock host p left scope stmts) := by
  induction left generalizing scope stmts with
  | zero =>
      unfold checkBlock
      exact noFrame_reads
  | succ left ih =>
      unfold checkBlock
      refine (foldlM_reads (fun scope s ↦ ?_) stmts scope).then fun _ ↦ reads_pure _
      cases s with
      | letStmt name e line =>
          refine (checkExpr_reads p scope left e).then fun _ ↦ ?_
          exact raiseIf_reads fun _ ↦ reads_pure _
      | ifStmt cond thenBody elseBody line =>
          refine (checkExpr_reads p scope left cond).then fun _ ↦ ?_
          exact (ih scope thenBody).then fun _ ↦ (ih scope elseBody).then fun _ ↦ reads_pure _
      | emitStmt e line =>
          exact (checkExpr_reads p scope left e).then fun _ ↦ reads_pure _

/-- The lane that a task is linked to is there when it is looked up. -/
theorem linkTask_reads (p : Program φ) (t : Task φ) :
    Reads (reading host src) 0 (linkTask host p t) := by
  refine raiseIf_reads fun hlane ↦ raiseIf_reads fun _ ↦ raiseIf_reads fun _ ↦ ?_
  obtain ⟨lane, hlane⟩ := Option.isSome_iff_exists.mp (by simpa using hlane)
  rw [hlane]
  exact (reads_pure lane).then fun _ ↦ raiseIf_last _ _ _ _

theorem linkFlow_reads (p : Program φ) (f : Flow φ) :
    Reads (reading host src) 0 (linkFlow host p f) :=
  raiseIf_reads fun _ ↦ raiseIf_reads fun _ ↦ checkBlock_reads _ _ _ _

theorem link_reads (p : Program φ) : Reads (reading host src) 0 (link host p) := by
  refine (forM_reads _ fun t _ ↦ linkTask_reads p t).then fun _ ↦ ?_
  exact (forM_reads _ fun f _ ↦ linkFlow_reads p f).then fun _ ↦ reads_pure _

theorem parseTokens_reads : Reads (reading host src) 0 (parseTokens host) := by
  refine program_reads.then fun prog ↦ peek_reads fun t ↦ reads_at ?_
  exact raiseIf_reads fun _ ↦ link_reads prog

end

/-! ## The outcome -/

/-- What the front end is to come to: a linked program or a parse error. -/
inductive Settled : Except Raised (Program φ) → Prop where
  | program {p : Program φ} (h : Linked p) : Settled (.ok p)
  | parseError (e : ParseError) : Settled (.error (.parseError e))

/-- What reading a source has the host asked for, in order. -/
def requests (host : Python φ) (src : String) : List (Ask φ) := (parse host src).2

theorem not_settled {e : Raised} (he : e.Escaping) :
    ¬ Settled (.error e : Except Raised (Program φ)) := by
  intro h
  cases h
  cases he

theorem tokens_positioned {toks : List (Token φ)} {src : List Char}
    (hsound : ∀ t ∈ toks, t.tok.Sound host src)
    (hends : ∃ t, toks.getLast? = some t ∧ isEof t.tok = true) :
    Positioned host src ⟨toks, 0⟩ := by
  refine ⟨?_, hends, hsound⟩
  obtain ⟨t, ht, _⟩ := hends
  exact List.length_pos_of_mem (List.mem_of_getLast? ht)

/-- What `parse` comes to: it settles the source, or the host could not do what it was asked. -/
inductive Outcome (host : Python φ) (src : List Char) :
    Except Raised (Program φ) × List (Ask φ) → Prop where
  | settled {r : Except Raised (Program φ)} {asked : List (Ask φ)} (h : Settled r)
      (ha : ∀ a ∈ asked, Written host src a ∧ host.answers a = true) : Outcome host src (r, asked)
  | escaped {e : Raised} {asked : List (Ask φ)} (he : e.Escaping)
      (hwritten : ∀ a ∈ asked, Written host src a) (ha : ∃ a ∈ asked, host.answers a = false) :
      Outcome host src (.error e, asked)

theorem parse_lexed {host : Python φ} {src : String} {toks : List (Token φ)}
    {s : Logged φ (Lexer.LexState φ)}
    (h : Lexer.tokenize host ⟨⟨src.toList, 1, 1, 0, []⟩, []⟩ = (.ok toks, s)) :
    parse host src =
      ((parseTokens host ⟨⟨toks, 0⟩, s.asked⟩).1,
        (parseTokens host ⟨⟨toks, 0⟩, s.asked⟩).2.asked) := by
  unfold parse
  rw [h]

theorem lexer_outcome {host : Python φ} {src : String} {e : Raised}
    {s : Logged φ (Lexer.LexState φ)}
    (h : Lexer.tokenize host ⟨⟨src.toList, 1, 1, 0, []⟩, []⟩ = (.error e, s))
    (hfailed : Failed host src.toList Raised.IsLexError e s) :
    Outcome host src.toList (parse host src) := by
  unfold parse
  rw [h]
  cases hfailed with
  | reported he hs =>
      cases he
      exact .settled (.parseError _) hs
  | escaped h =>
      obtain ⟨he, hwritten, hrefused⟩ := h
      cases he
      · exact .escaped .valueError hwritten hrefused
      · exact .escaped .overflowError hwritten hrefused
      · exact .escaped .recursionError hwritten hrefused

theorem parser_outcome {host : Python φ} {src : List Char} {toks : List (Token φ)}
    {asked : List (Ask φ)} (hpos : Positioned host src ⟨toks, 0⟩)
    (ha : Answered host src (⟨⟨toks, 0⟩, asked⟩ : Logged φ (ParseState φ))) :
    Outcome host src
      ((parseTokens host ⟨⟨toks, 0⟩, asked⟩).1, (parseTokens host ⟨⟨toks, 0⟩, asked⟩).2.asked) := by
  have hreads : (parseTokens host).wp _ _ _ :=
    parseTokens_reads ⟨⟨toks, 0⟩, asked⟩ ⟨hpos, ha⟩
  obtain ⟨p, s, hrun, ⟨_, ha'⟩, _⟩ | ⟨e, s, hrun, hfailed⟩ := wp_cases hreads
  · have hlinked : Linked p := parseTokens_linked.of_ok (by rw [hrun])
    rw [hrun]
    exact .settled (.program hlinked) ha'
  · rw [hrun]
    cases hfailed with
    | reported he hs =>
        cases he
        exact .settled (.parseError _) hs
    | escaped h => exact .escaped h.escaping h.written h.refused

theorem parse_outcome (host : Python φ) (src : String) :
    Outcome host src.toList (parse host src) := by
  obtain ⟨toks, s, hlex, ha, hsound, hends⟩ | ⟨e, s, hlex, hfailed⟩ :=
    wp_cases (Lexer.tokenize_ends host src.toList)
  · rw [parse_lexed hlex]
    exact parser_outcome (tokens_positioned hsound hends) ha
  · exact lexer_outcome hlex hfailed

/-- The front end settles a source if and only if the host can do what it is asked, and it is asked
about what is written in the source only. -/
theorem parse_settles (host : Python φ) (src : String) :
    (Settled (parse host src).1 ↔ ∀ a ∈ requests host src, host.answers a = true) ∧
      ∀ a ∈ requests host src, Written host src.toList a := by
  have houtcome := parse_outcome host src
  unfold requests
  revert houtcome
  generalize parse host src = r
  rintro (⟨hsettled, ha⟩ | ⟨he, hwritten, a, ha, hrefused⟩)
  · exact ⟨⟨fun _ a h ↦ (ha a h).2, fun _ ↦ hsettled⟩, fun a h ↦ (ha a h).1⟩
  · refine ⟨⟨fun h ↦ absurd h (not_settled he), fun h ↦ ?_⟩, hwritten⟩
    rw [h a ha] at hrefused
    contradiction

/-- A host with exact numbers.  A superscript two is a digit, but not one that `int` takes. -/
def exactHost : Python ℚ where
  isDigit c := c.isDigit || c = '²'
  isDecimal := Char.isDigit
  digit c := c.toNat - '0'.toNat
  isAlpha := Char.isAlpha
  isAlnum c := c.isAlphanum || c = '²'
  ofText text :=
    let digits := text.filter (· ≠ '.')
    let decimals := (text.dropWhile (· ≠ '.')).tail.length
    digits.foldl (fun x c ↦ 10 * x + (c.toNat - '0'.toNat : ℕ)) 0 / 10 ^ decimals
  ofInt n := if n < 2 ^ 1024 - 2 ^ 970 then some n else none
  trunc x := some x.floor.toNat
  inUnit x
    | .ms => x / 1000
    | .s => x
    | .m => x * 60
    | .h => x * 3600
  isPositive x := 0 < x
  isNegative x := x < 0
  zero := 0
  one := 1
  urlparse _ := some ⟨"", none, some none⟩
  repr s := "'" ++ s ++ "'"
  reprFloat x := toString x
  frames := 1000
  isAlnum_of_isAlpha c h := by simp [Char.isAlphanum, h]

theorem superscript_escapes : ¬ Settled (parse exactHost "²").1 := by
  have h : (parse exactHost "²").1 = .error .valueError := rfl
  rw [h]
  exact not_settled .valueError

end Source

end NucLlm.Errand
