import Mathlib.Data.List.TakeWhile
import NucLlm.AgentLoop.RecoverySound

/-!
# What a recovered call was written as

Nothing is made up: the tool's name and the keys of a recovered Python call are
pieces of the reply.  And arguments that are written out as such a call are read
back as they were.
-/

namespace NucLlm.AgentLoop.Recovery

open NucLlm.Pattern

theorem strip_stands (s : Text) : strip s <:+: s := by
  have hfront := List.dropWhile_suffix (l := s) isSpace
  have hback := List.dropWhile_suffix (l := (s.dropWhile isSpace).reverse) isSpace
  have hkept : strip s <:+: s.dropWhile isSpace := by
    have h := List.reverse_infix.mpr hback.isInfix
    rwa [List.reverse_reverse] at h
  exact hkept.trans hfront.isInfix

theorem lastLine_stands (s : Text) : lastLine s <:+: s := by
  have htake := List.takeWhile_prefix (l := s.reverse) fun c ↦ !isLineBreak c
  have hline : (s.reverse.takeWhile fun c ↦ !isLineBreak c).reverse <:+: s := by
    have h := List.reverse_infix.mpr htake.isInfix
    rwa [List.reverse_reverse] at h
  exact (strip_stands _).trans hline

/-! ## Pieces -/

theorem ends_append {cur read : Text} (h : cur <:+ read) (cs : Text) :
    cur ++ cs <:+ read ++ cs := by
  obtain ⟨before, rfl⟩ := h
  exact ⟨before, by simp⟩

/-- The pieces stand in the text, the one in work at the end of what has been read. -/
theorem splitFrom_stands {text read rest : Text} {depth : ℤ} {quote : Option Char}
    {parts : List Text} {cur : Text} (htext : read ++ rest = text) (hcur : cur <:+ read)
    (hparts : ∀ p ∈ parts, p <:+: text) :
    (∀ p ∈ (splitFrom rest depth quote parts cur).1, p <:+: text) ∧
      (splitFrom rest depth quote parts cur).2 <:+: text := by
  fun_induction splitFrom rest depth quote parts cur generalizing read with
  | case1 depth quote parts cur =>
      refine ⟨hparts, hcur.isInfix.trans ?_⟩
      rw [← htext, List.append_nil]
  | case2 c rest depth q parts cur ih =>
      exact ih (by simpa using htext) (ends_append hcur ['\\', c]) hparts
  | case3 c rest depth q parts cur _ ih =>
      exact ih (by simpa using htext) (ends_append hcur [c]) hparts
  | case4 c rest depth parts cur _ ih =>
      exact ih (by simpa using htext) (ends_append hcur [c]) hparts
  | case5 c rest depth parts cur _ _ ih =>
      exact ih (by simpa using htext) (ends_append hcur [c]) hparts
  | case6 c rest depth parts cur _ _ _ ih =>
      exact ih (by simpa using htext) (ends_append hcur [c]) hparts
  | case7 c rest depth parts cur _ _ _ _ ih =>
      have hread : read <:+: text := List.IsPrefix.isInfix ⟨c :: rest, htext⟩
      refine @ih (read ++ [c]) (by simpa using htext) List.nil_suffix fun p hp ↦ ?_
      rcases List.mem_append.mp hp with hp | hp
      · exact hparts p hp
      · obtain rfl := List.mem_singleton.mp hp
        exact hcur.isInfix.trans hread
  | case8 c rest depth parts cur _ _ _ _ ih =>
      exact ih (by simpa using htext) (ends_append hcur [c]) hparts

theorem splitTopLevel_stands {s p : Text} (h : p ∈ splitTopLevel s) : p <:+: s := by
  obtain ⟨hparts, hcur⟩ :=
    @splitFrom_stands s [] s 0 none [] [] rfl List.nil_suffix (by simp)
  unfold splitTopLevel at h
  dsimp only at h
  have hmem := (List.mem_filter.mp h).1
  split at hmem
  · rcases List.mem_append.mp hmem with hmem | hmem
    · exact hparts p hmem
    · obtain rfl := List.mem_singleton.mp hmem
      exact hcur
  · exact hparts p hmem

theorem mem_setArg {key : Text} {value : Value} {args : Args} {a : Text × Value}
    (h : a ∈ setArg key value args) : a.1 = key ∨ a ∈ args := by
  induction args with
  | nil =>
      obtain rfl := List.mem_singleton.mp h
      exact .inl rfl
  | cons b args ih =>
      obtain ⟨k, v⟩ := b
      unfold setArg at h
      split at h
      · rcases List.mem_cons.mp h with rfl | h
        · exact .inl rfl
        · exact .inr (List.mem_cons_of_mem _ h)
      · rcases List.mem_cons.mp h with rfl | h
        · exact .inr List.mem_cons_self
        · exact (ih h).imp id (List.mem_cons_of_mem _)

/-- The keys of arguments that are parsed are pieces of their text. -/
theorem go_stands {P : Python} {text : Text} {parts : List Text} {out args : Args}
    (hparts : ∀ p ∈ parts, p <:+: text) (hout : ∀ a ∈ out, a.1 <:+: text)
    (h : parseCallArgs.go P parts out = some (some args)) : ∀ a ∈ args, a.1 <:+: text := by
  induction parts generalizing out with
  | nil =>
      obtain rfl := Option.some.inj (Option.some.inj h)
      exact hout
  | cons part parts ih =>
      obtain ⟨hpart, hrest⟩ := List.forall_mem_cons.mp hparts
      unfold parseCallArgs.go at h
      split at h
      · simp at h
      · dsimp only at h
        split at h
        · simp at h
        · obtain ⟨value, -, h⟩ := Option.bind_eq_some_iff.mp h
          refine ih hrest (fun a ha ↦ ?_) h
          rcases mem_setArg ha with hkey | ha
          · have htake := List.takeWhile_prefix (l := part) (· ≠ '=')
            rw [hkey]
            exact (strip_stands _).trans (htake.isInfix.trans hpart)
          · exact hout a ha

theorem parseCallArgs_stands {P : Python} {argtext : Text} {args : Args}
    (h : parseCallArgs P argtext = some (some args)) : ∀ a ∈ args, a.1 <:+: argtext :=
  go_stands (fun _ hp ↦ splitTopLevel_stands hp) (by simp) h

/-! ## Replies -/

theorem pyCallOf_stands {names : List Text} {candidate name argtext : Text}
    (h : pyCallOf names candidate = some (name, argtext)) :
    name <:+: candidate ∧ argtext <:+: candidate := by
  unfold pyCallOf at h
  split at h
  · rename_i m hmatch
    split at h
    · obtain ⟨rfl, rfl⟩ := Prod.mk.inj (Option.some.inj h)
      exact ⟨(match_in hmatch).group 0, (match_in hmatch).group 1⟩
    · simp at h
  · simp at h

theorem named_stands {names : List Text} {body name : Text} {found : Option Place}
    (hfound : ∀ m, found = some m → m.In body)
    (h : (found.bind fun m ↦ if m.group 0 ∈ names then some (m.group 0) else none) = some name) :
    name <:+: body := by
  obtain ⟨m, hm, h⟩ := Option.bind_eq_some_iff.mp h
  split at h
  · obtain rfl := Option.some.inj h
    exact (hfound m hm).group 0
  · simp at h

/-- What is detected stands in the reply; a JSON call's keys are left to the decoder. -/
theorem detect_stands {P : Python} {names : List Text} {text : Text} {hit : Hit}
    (h : detect P names text = some (some hit)) :
    (∀ name, hit.name = some name → name <:+: text) ∧
      (hit.reason ≠ .malformedJsonToolCall →
        ∀ args, hit.args = some args → ∀ a ∈ args, a.1 <:+: text) := by
  have hbody := strip_stands text
  have hline := (lastLine_stands (strip text)).trans hbody
  unfold detect at h
  dsimp only at h
  split at h
  · simp at h
  · split at h
    · obtain rfl := Option.some.inj (Option.some.inj h)
      refine ⟨fun name hname ↦ (named_stands (fun m hm ↦ ?_) hname).trans hbody, by simp⟩
      rcases Option.or_eq_some_iff.mp hm with hm | ⟨-, hm⟩
      · exact search_in hm
      · exact search_in hm
    · split at h
      · rename_i name argtext hcall
        have hstands : name <:+: text ∧ argtext <:+: text := by
          rcases Option.or_eq_some_iff.mp hcall with hcall | ⟨-, hcall⟩
          · obtain ⟨hname, hargs⟩ := pyCallOf_stands hcall
            exact ⟨hname.trans hbody, hargs.trans hbody⟩
          · obtain ⟨hname, hargs⟩ := pyCallOf_stands hcall
            exact ⟨hname.trans hline, hargs.trans hline⟩
        obtain ⟨args, hparse, h⟩ := Option.bind_eq_some_iff.mp h
        obtain rfl := Option.some.inj (Option.some.inj h)
        refine ⟨fun name' hname ↦ ?_, fun _ args' hargs a ha ↦ ?_⟩
        · obtain rfl := Option.some.inj hname
          exact hstands.1
        · dsimp only at hargs
          subst hargs
          exact (parseCallArgs_stands hparse a ha).trans hstands.2
      · split at h
        · rename_i name hname
          obtain rfl := Option.some.inj (Option.some.inj h)
          refine ⟨fun name' hname' ↦ ?_, fun _ args hargs a ha ↦ ?_⟩
          · obtain rfl := Option.some.inj hname'
            exact (named_stands (fun _ hm ↦ match_in hm) hname).trans hbody
          · obtain rfl := Option.some.inj hargs
            simp at ha
        · split at h
          · simp at h
          · rename_i name hname
            have hstands := (named_stands (fun _ hm ↦ search_in hm) hname).trans hbody
            obtain ⟨obj, -, h⟩ := Option.bind_eq_some_iff.mp h
            split at h
            · obtain rfl := Option.some.inj (Option.some.inj h)
              exact ⟨fun name' hname' ↦ by
                obtain rfl := Option.some.inj hname'
                exact hstands, by simp⟩
            · split at h
              · obtain rfl := Option.some.inj (Option.some.inj h)
                exact ⟨fun name' hname' ↦ by
                  obtain rfl := Option.some.inj hname'
                  exact hstands, by simp⟩
              · simp at h

/-- The name of a proposed call stands in the reply; so do its keys, unless it was JSON. -/
theorem proposed_stands {P : Python} {g : ProseToolCallGuard} {ctx : GuardContext} {text : Text}
    {r : Rejection} (h : check P g ctx text = some (some r)) :
    ∀ c ∈ r.calls, c.name <:+: text ∧
      (r.reason ≠ Reason.malformedJsonToolCall.text → ∀ a ∈ c.args, a.1 <:+: text) := by
  intro c hc
  obtain ⟨hit, call, hfound, hcall, hcalls, hreason⟩ := check_calls h
  rw [hcalls, Option.mem_toList] at hc
  obtain rfl := hc
  obtain ⟨args, tool, hargs, -, hname, -, -, hcname, hfit⟩ := recovered_cases hcall
  obtain ⟨hstands, hkeys⟩ := detect_stands hfound
  refine ⟨hcname ▸ hstands tool.name hname, fun hjson a ha ↦ ?_⟩
  have hnot : hit.reason ≠ .malformedJsonToolCall := by
    intro heq
    rw [hreason, heq] at hjson
    exact hjson rfl
  have hmap : c.args.map Prod.fst = args.map Prod.fst := by
    rw [fitSchema_eq args tool (keysFit_of_fitSchema hfit)] at hfit
    rcases fitArgs_spec (P := P) tool args with ⟨fitted, hfit', -, hmap, -⟩ | ⟨hnone, -⟩
    · rw [hfit] at hfit'
      obtain rfl := Option.some.inj (Option.some.inj hfit')
      exact hmap
    · exact absurd hfit (hnone c.args)
  have hmem : a.1 ∈ args.map Prod.fst := hmap ▸ List.mem_map_of_mem ha
  obtain ⟨b, hb, hkey⟩ := List.mem_map.mp hmem
  rw [← hkey]
  exact hkeys hnot args hargs b hb

theorem startAbc_stands : readFile.name <:+: startAbc := by
  obtain ⟨r, hr, hcalls⟩ := startAbc_proposed
  exact (proposed_stands hr startAbcCall (by rw [hcalls]; exact List.mem_singleton_self _)).1

/-! ## Arguments written out -/

/-- A character that splits nothing. -/
def Inert (c : Char) : Prop := c ∉ ['"', '\'', '(', '[', '{', ')', ']', '}', ',']

instance : DecidablePred Inert := fun c ↦
  inferInstanceAs (Decidable (c ∉ ['"', '\'', '(', '[', '{', ')', ']', '}', ',']))

theorem splitFrom_inert {piece : Text} (h : ∀ c ∈ piece, Inert c) (rest : Text) (parts : List Text)
    (cur : Text) :
    splitFrom (piece ++ rest) 0 none parts cur = splitFrom rest 0 none parts (cur ++ piece) := by
  induction piece generalizing cur with
  | nil => rw [List.nil_append, List.append_nil]
  | cons c piece ih =>
      obtain ⟨hc, hpiece⟩ := List.forall_mem_cons.mp h
      simp only [Inert, List.mem_cons, List.not_mem_nil, or_false, not_or] at hc
      have hstep : splitFrom (c :: (piece ++ rest)) 0 none parts cur =
          splitFrom (piece ++ rest) 0 none parts (cur ++ [c]) := by
        simp [splitFrom, hc]
      rw [List.cons_append, hstep, ih hpiece, List.append_assoc]
      rfl

theorem splitFrom_intercalate {piece : Text} {pieces : List Text}
    (h : ∀ p ∈ piece :: pieces, ∀ c ∈ p, Inert c) (parts : List Text) (cur : Text) :
    (splitFrom ([','].intercalate (piece :: pieces)) 0 none parts cur).1 ++
        [(splitFrom ([','].intercalate (piece :: pieces)) 0 none parts cur).2] =
      parts ++ (cur ++ piece) :: pieces := by
  obtain ⟨hpiece, hpieces⟩ := List.forall_mem_cons.mp h
  induction pieces generalizing piece parts cur with
  | nil =>
      have hsplit := splitFrom_inert hpiece [] parts cur
      rw [List.append_nil] at hsplit
      rw [List.intercalate_singleton, hsplit]
      rfl
  | cons next pieces ih =>
      obtain ⟨hnext, hrest⟩ := List.forall_mem_cons.mp hpieces
      have hcomma : splitFrom ([','] ++ [','].intercalate (next :: pieces)) 0 none parts
          (cur ++ piece) = splitFrom ([','].intercalate (next :: pieces)) 0 none
            (parts ++ [cur ++ piece]) [] := by
        simp [splitFrom]
      rw [List.intercalate_cons_cons, List.append_assoc, splitFrom_inert hpiece, hcomma,
        ih hpieces _ _ hnext hrest]
      simp

theorem isSpace_of_identChar {c : Char} (h : identChar c = true) : isSpace c = false := by
  have hle : ∀ a b : Char, a ≤ b ↔ a.toNat ≤ b.toNat := fun _ _ ↦ Iff.rfl
  simp only [identChar, identStart, Bool.or_eq_true, Bool.and_eq_true, decide_eq_true_eq, hle] at h
  unfold isSpace
  rw [decide_eq_false_iff_not]
  rcases h with ((h | h) | rfl) | h
  · have : 97 ≤ c.toNat ∧ c.toNat ≤ 122 := h
    omega
  · have : 65 ≤ c.toNat ∧ c.toNat ≤ 90 := h
    omega
  · decide
  · have : 48 ≤ c.toNat ∧ c.toNat ≤ 57 := h
    omega

theorem strip_ident {k : Text} (h : ∀ c ∈ k, isSpace c = false) {spaces : Text}
    (hspaces : ∀ c ∈ spaces, isSpace c = true) : strip (spaces ++ k) = k := by
  have hnone : ∀ t : Text, (∀ c ∈ t, isSpace c = false) → t.dropWhile isSpace = t := by
    intro t ht
    cases t with
    | nil => rfl
    | cons c t => rw [List.dropWhile_cons_of_neg (by simp [ht c List.mem_cons_self])]
  unfold strip
  rw [List.dropWhile_append_of_pos hspaces, hnone k h,
    hnone k.reverse fun c hc ↦ h c (List.mem_reverse.mp hc), List.reverse_reverse]

/-- A value that is written without quotes. -/
structure PlainValue (P : Python) (v : Text) : Prop where
  nonempty : v ≠ []
  stripped : strip v = v
  inert : ∀ c ∈ v, Inert c
  noLiteral : P.literalEval v = .invalid
  noWord : lower v ∉ [['t', 'r', 'u', 'e'], ['f', 'a', 'l', 's', 'e'], ['n', 'u', 'l', 'l'],
    ['n', 'o', 'n', 'e']]

theorem PlainValue.coerce {P : Python} {v : Text} (h : PlainValue P v) :
    coerce P v = some (.str v) := by
  have hword := h.noWord
  simp only [List.mem_cons, List.not_mem_nil, or_false, not_or] at hword
  unfold Recovery.coerce
  dsimp only
  rw [h.stripped, if_neg h.nonempty, h.noLiteral]
  dsimp only
  rw [if_neg hword.1, if_neg hword.2.1, if_neg (by simp [hword.2.2.1, hword.2.2.2])]

def writeArg (a : Text × Text) : Text := a.1 ++ '=' :: a.2

/-- `k=v, k=v`. -/
def writeArgs : List (Text × Text) → Text
  | [] => []
  | a :: args => [','].intercalate (writeArg a :: args.map fun b ↦ ' ' :: writeArg b)

theorem setArg_new {key : Text} (value : Value) {args : Args} (h : key ∉ args.map Prod.fst) :
    setArg key value args = args ++ [(key, value)] := by
  induction args with
  | nil => rfl
  | cons a args ih =>
      obtain ⟨k, v⟩ := a
      rw [List.map_cons, List.mem_cons, not_or] at h
      rw [setArg, if_neg (Ne.symm h.1), ih h.2]
      rfl

theorem isIdent_chars {k : Text} (h : isIdent k = true) : k ≠ [] ∧ ∀ c ∈ k, identChar c = true := by
  cases k with
  | nil => simp [isIdent] at h
  | cons c k =>
      simp only [isIdent, Bool.and_eq_true, List.all_eq_true] at h
      refine ⟨List.cons_ne_nil _ _, List.forall_mem_cons.mpr ⟨?_, h.2⟩⟩
      rw [identChar, h.1, Bool.true_or]

theorem go_written {P : Python} {spaces : Text} (hspaces : ∀ c ∈ spaces, isSpace c = true)
    (heq : '=' ∉ spaces) {k v : Text} (hk : isIdent k = true) (hv : PlainValue P v)
    (parts : List Text) (out : Args) :
    parseCallArgs.go P ((spaces ++ writeArg (k, v)) :: parts) out =
      parseCallArgs.go P parts (setArg k (.str v) out) := by
  obtain ⟨-, hchars⟩ := isIdent_chars hk
  have hnoeq : ∀ c ∈ spaces ++ k, decide (c ≠ '=') = true := by
    intro c hc
    rw [decide_eq_true_iff]
    rintro rfl
    rcases List.mem_append.mp hc with hc | hc
    · exact heq hc
    · have := hchars _ hc
      contradiction
  have hpart : spaces ++ writeArg (k, v) = spaces ++ k ++ '=' :: v := by
    rw [writeArg, List.append_assoc]
  have hkey : ((spaces ++ k ++ '=' :: v).takeWhile (· ≠ '=')) = spaces ++ k := by
    rw [List.takeWhile_append_of_pos hnoeq, List.takeWhile_cons_of_neg (by simp), List.append_nil]
  have hvalue : ((spaces ++ k ++ '=' :: v).dropWhile (· ≠ '=')) = '=' :: v := by
    rw [List.dropWhile_append_of_pos hnoeq, List.dropWhile_cons_of_neg (by simp)]
  have hstrip := strip_ident (fun c hc ↦ isSpace_of_identChar (hchars c hc)) hspaces
  rw [hpart, parseCallArgs.go, if_neg (by simp), hkey, hvalue, hstrip]
  simp only [hk, Bool.not_true, Bool.false_eq_true, if_false, List.drop_succ_cons, List.drop_zero,
    hv.coerce]
  rfl

theorem isBlank_of_mem {s : Text} {c : Char} (hc : c ∈ s) (h : isSpace c = false) :
    isBlank s = false := by
  unfold isBlank
  rw [List.isEmpty_eq_false_iff]
  intro hstrip
  have hback : ∀ d ∈ (s.dropWhile isSpace).reverse, isSpace d = true :=
    List.dropWhile_eq_nil_iff.mp (List.reverse_eq_nil_iff.mp hstrip)
  cases hfront : s.dropWhile isSpace with
  | nil =>
      have hall := List.dropWhile_eq_nil_iff.mp hfront c hc
      rw [h] at hall
      contradiction
  | cons d rest =>
      have hd := hback d (by rw [hfront]; simp)
      have hhead := List.head_dropWhile_not isSpace (by rw [hfront]; exact List.cons_ne_nil d rest)
      simp only [hfront, List.head_cons] at hhead
      rw [hd] at hhead
      contradiction

theorem splitTopLevel_intercalate {piece : Text} {pieces : List Text}
    (hinert : ∀ p ∈ piece :: pieces, ∀ c ∈ p, Inert c)
    (hblank : ∀ p ∈ piece :: pieces, isBlank p = false) :
    splitTopLevel ([','].intercalate (piece :: pieces)) = piece :: pieces := by
  have hsplit := splitFrom_intercalate hinert [] []
  rw [List.nil_append, List.nil_append] at hsplit
  unfold splitTopLevel
  dsimp only
  generalize splitFrom ([','].intercalate (piece :: pieces)) 0 none [] [] = done at hsplit ⊢
  have hlast : isBlank done.2 = false := hblank _ (by rw [← hsplit]; simp)
  rw [hlast, Bool.not_false, Bool.true_or, if_pos rfl, hsplit, List.filter_eq_self]
  intro p hp
  rw [hblank p hp, Bool.not_false]

/-- What can be written as arguments and read back. -/
structure Writable (P : Python) (args : List (Text × Text)) : Prop where
  keys : ∀ a ∈ args, isIdent a.1 = true
  distinct : (args.map Prod.fst).Nodup
  values : ∀ a ∈ args, PlainValue P a.2

theorem go_all {P : Python} {args : List (Text × Text)} (h : Writable P args) {out : Args}
    (hnew : ∀ a ∈ args, a.1 ∉ out.map Prod.fst) :
    parseCallArgs.go P (args.map fun b ↦ ' ' :: writeArg b) out =
      some (some (out ++ args.map fun a ↦ (a.1, .str a.2))) := by
  induction args generalizing out with
  | nil => simp [parseCallArgs.go]
  | cons a args ih =>
      obtain ⟨k, v⟩ := a
      obtain ⟨hk, hkeys⟩ := List.forall_mem_cons.mp h.keys
      obtain ⟨hv, hvalues⟩ := List.forall_mem_cons.mp h.values
      obtain ⟨hfresh, hdistinct⟩ := List.nodup_cons.mp h.distinct
      obtain ⟨hkout, hnew⟩ := List.forall_mem_cons.mp hnew
      have hgo := @go_written P [' '] (by simp; rfl) (by decide) k v hk hv
        (args.map fun b ↦ ' ' :: writeArg b) out
      have hset := setArg_new (.str v) hkout
      rw [hset] at hgo
      rw [List.map_cons]
      refine hgo.trans ((ih ⟨hkeys, hdistinct, hvalues⟩ fun b hb ↦ ?_).trans ?_)
      · rw [List.map_append, List.mem_append, not_or]
        refine ⟨hnew b hb, fun hmem ↦ ?_⟩
        have hkey : b.1 = k := List.mem_singleton.mp hmem
        exact hfresh (List.mem_map.mpr ⟨b, hb, hkey⟩)
      · rw [List.append_assoc]
        rfl

/-- Arguments that are written out as `k=v, k=v` are read back as texts. -/
theorem parseCallArgs_written {P : Python} {args : List (Text × Text)} (h : Writable P args) :
    parseCallArgs P (writeArgs args) = some (some (args.map fun a ↦ (a.1, .str a.2))) := by
  cases args with
  | nil => rfl
  | cons a args =>
      have hinert : ∀ b ∈ a :: args, ∀ c ∈ writeArg b, Inert c := by
        intro b hb c hc
        rcases List.mem_append.mp hc with hc | hc
        · have hident := (isIdent_chars (h.keys b hb)).2 c hc
          intro hspecial
          simp only [List.mem_cons, List.not_mem_nil, or_false] at hspecial
          rcases hspecial with rfl | rfl | rfl | rfl | rfl | rfl | rfl | rfl | rfl <;> contradiction
        · rcases List.mem_cons.mp hc with rfl | hc
          · decide
          · exact (h.values b hb).inert c hc
      have hblank : ∀ b ∈ a :: args, ∀ spaces : Text, isBlank (spaces ++ writeArg b) = false := by
        intro b hb spaces
        refine isBlank_of_mem (c := '=') ?_ (by decide)
        simp [writeArg]
      have hsplit : splitTopLevel (writeArgs (a :: args)) =
          writeArg a :: args.map fun b ↦ ' ' :: writeArg b := by
        refine splitTopLevel_intercalate (fun p hp ↦ ?_) fun p hp ↦ ?_
        · rcases List.mem_cons.mp hp with rfl | hp
          · exact hinert a List.mem_cons_self
          · obtain ⟨b, hb, rfl⟩ := List.mem_map.mp hp
            exact List.forall_mem_cons.mpr ⟨by decide, hinert b (List.mem_cons_of_mem _ hb)⟩
        · rcases List.mem_cons.mp hp with rfl | hp
          · exact hblank a List.mem_cons_self []
          · obtain ⟨b, hb, rfl⟩ := List.mem_map.mp hp
            exact hblank b (List.mem_cons_of_mem _ hb) [' ']
      obtain ⟨k, v⟩ := a
      obtain ⟨hk, hkeys⟩ := List.forall_mem_cons.mp h.keys
      obtain ⟨hv, hvalues⟩ := List.forall_mem_cons.mp h.values
      obtain ⟨hfresh, hdistinct⟩ := List.nodup_cons.mp h.distinct
      have hfirst := @go_written P [] (by simp) (by simp) k v hk hv
        (args.map fun b ↦ ' ' :: writeArg b) []
      have hrest := @go_all P args ⟨hkeys, hdistinct, hvalues⟩ [(k, .str v)] fun b hb ↦ by
        rw [List.map_singleton, List.mem_singleton]
        intro hkey
        exact hfresh (List.mem_map.mpr ⟨b, hb, hkey⟩)
      rw [parseCallArgs, hsplit]
      exact hfirst.trans hrest

theorem path_written :
    parseCallArgs noLiterals (writeArgs [(['p', 'a', 't', 'h'], ['a', '.', 'p', 'y'])]) =
      some (some [(['p', 'a', 't', 'h'], .str ['a', '.', 'p', 'y'])]) := by
  have hvalue : PlainValue noLiterals ['a', '.', 'p', 'y'] :=
    ⟨by decide, by decide, by simp [Inert], rfl, by decide⟩
  exact parseCallArgs_written ⟨by simp; decide, by simp, by simpa using hvalue⟩

end NucLlm.AgentLoop.Recovery
