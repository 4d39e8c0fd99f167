import Mathlib.Data.List.TakeWhile
import NucLlm.Whence.Grammar

/-!
# The parser follows the grammar

What each method consumes derives, by the declared levels, what it returns.
-/

namespace NucLlm.Whence.Parser

open Parsing
open NucLlm.Whence.Grammar

/-! ## What the token operations read -/

section Reads

variable {α β : Type} {ts : List Token} {Q : α → List Token → Prop}

abbrev Reads (m : M α) (ts : List Token) (Q : α → List Token → Prop) : Prop := Yields stream m ts Q

theorem reads_failAt {tok : Option Token} {message : String} :
    Reads (failAt tok message : M α) ts Q := by
  refine Yields.get fun s _ ↦ ?_
  cases tok with
  | none => exact Yields.fail
  | some t => exact Yields.fail

theorem reads_outOfFuel : Reads (outOfFuel : M α) ts Q := Yields.fail

theorem reads_advance {k : Unit → M α} {t : Token} (h : Reads (k ()) ts Q) :
    Reads (advance >>= k) (t :: ts) Q :=
  Yields.advance h

theorem reads_expect {read : Tok → Option β} {want : String} {k : Token × β → M α}
    (h : ∀ t rest a, ts = t :: rest → read t.tok = some a → Reads (k (t, a)) rest Q) :
    Reads (expect read want >>= k) ts Q := by
  refine Yields.bind (P := fun p rest ↦ Reads (k p) rest Q) ?_ fun _ _ hk ↦ hk
  refine Yields.get fun s hs ↦ ?_
  change s.toks = ts at hs
  cases ts with
  | nil =>
      rw [hs]
      exact reads_failAt
  | cons t rest =>
      rw [hs]
      cases hread : read t.tok with
      | none =>
          simp only [hread]
          exact reads_failAt
      | some a =>
          simp only [hread]
          exact reads_advance (Yields.pure (h t rest a rfl hread))

theorem reads_expectName {want : String} {k : Token × String → M α}
    (h : ∀ n line col rest, ts = ⟨.name n, line, col⟩ :: rest →
      Reads (k (⟨.name n, line, col⟩, n)) rest Q) : Reads (expect readName want >>= k) ts Q := by
  refine reads_expect ?_
  rintro ⟨tok, line, col⟩ rest n hts hread
  cases tok <;> cases hread
  exact h _ line col rest hts

theorem reads_expectString {want : String} {k : Token × String → M α}
    (h : ∀ s line col rest, ts = ⟨.string s, line, col⟩ :: rest →
      Reads (k (⟨.string s, line, col⟩, s)) rest Q) :
    Reads (expect readString want >>= k) ts Q := by
  refine reads_expect ?_
  rintro ⟨tok, line, col⟩ rest s hts hread
  cases tok <;> cases hread
  exact h _ line col rest hts

theorem reads_expectTok {t : Tok} {want : String} {k : Token → M α}
    (h : ∀ line col rest, ts = ⟨t, line, col⟩ :: rest → Reads (k ⟨t, line, col⟩) rest Q) :
    Reads (expectTok t want >>= k) ts Q := by
  refine Yields.bind (P := fun tok rest ↦ Reads (k tok) rest Q) ?_ fun _ _ hk ↦ hk
  refine reads_expect ?_
  rintro ⟨tok, line, col⟩ rest _ hts hread
  split at hread
  · next heq =>
      cases heq
      exact Yields.pure (h line col rest hts)
  · cases hread

theorem reads_expectPunct {p : Punct} {k : Token → M α}
    (h : ∀ line col rest, ts = ⟨.punct p, line, col⟩ :: rest →
      Reads (k ⟨.punct p, line, col⟩) rest Q) : Reads (expectPunct p >>= k) ts Q :=
  reads_expectTok h

theorem reads_get {k : PState → M α} (h : ∀ s : PState, s.toks = ts → Reads (k s) ts Q) :
    Reads (Exec.get >>= k) ts Q :=
  Yields.get h

theorem reads_peek {k : Option Token → M α} (h : Reads (k ts.head?) ts Q) :
    Reads (peek >>= k) ts Q := by
  refine Yields.bind (P := fun tok rest ↦ tok = ts.head? ∧ rest = ts) ?_ ?_
  · refine reads_get fun s hs ↦ ?_
    rw [hs]
    exact Yields.pure ⟨rfl, rfl⟩
  · rintro _ _ ⟨rfl, rfl⟩
    exact h

theorem reads_at {t : Tok} {k : Bool → M α}
    (h : Reads (k (ts.head?.any fun tok ↦ tok.tok = t)) ts Q) : Reads (at_ t >>= k) ts Q := by
  refine Yields.bind (P := fun b rest ↦ b = (ts.head?.any fun tok ↦ tok.tok = t) ∧ rest = ts) ?_ ?_
  · refine reads_get fun s hs ↦ ?_
    rw [hs]
    exact Yields.pure ⟨rfl, rfl⟩
  · rintro _ _ ⟨rfl, rfl⟩
    exact h

theorem reads_modifyScopes {f : Scopes → Scopes} {k : Unit → M α} (h : Reads (k ()) ts Q) :
    Reads (modifyScopes f >>= k) ts Q :=
  Yields.modify (fun _ ↦ rfl) h

theorem reads_getScopes {k : Scopes → M α} (h : ∀ sc, Reads (k sc) ts Q) :
    Reads (getScopes >>= k) ts Q :=
  Yields.bind (P := fun _ rest ↦ rest = ts) (reads_get fun _ _ ↦ Yields.pure rfl)
    fun sc _ hrest ↦ hrest ▸ h sc

def newlineToken (t : Token) : Bool := isNewline t.tok

theorem newlineToken_iff {t : Token} : newlineToken t = true ↔ t.tok = .newline := by
  obtain ⟨tok, line, col⟩ := t
  cases tok <;> simp [newlineToken, isNewline]

theorem reads_skipNewlines_eq {Q : Bool → List Token → Prop}
    (h : Q (!(ts.takeWhile newlineToken).isEmpty) (ts.dropWhile newlineToken)) :
    Reads skipNewlines ts Q := by
  refine reads_get fun s hs s' hs' ↦ ?_
  rw [Exec.wp_bind, Exec.wp_modify, Exec.wp_pure, hs]
  change s'.toks = ts at hs'
  change Q _ (s'.toks.dropWhile newlineToken)
  rw [hs']
  exact h

theorem reads_skipNewlines {Q : Bool → List Token → Prop}
    (h : ∀ ns rest, ts = ns ++ rest → Newlines ns → Q (!ns.isEmpty) rest) :
    Reads skipNewlines ts Q :=
  reads_skipNewlines_eq (h _ _ List.takeWhile_append_dropWhile.symm fun _ ht ↦
    newlineToken_iff.mp (List.mem_takeWhile_imp ht))

/-- Line breaks up to something else are all skipped. -/
theorem reads_skipNewlines_of {ns rest : List Token} {Q : Bool → List Token → Prop}
    (hns : Newlines ns) (hrest : ∀ t ∈ rest.head?, t.tok ≠ .newline) (h : Q (!ns.isEmpty) rest) :
    Reads skipNewlines (ns ++ rest) Q := by
  have hall : ∀ t ∈ ns, newlineToken t = true := fun t ht ↦ newlineToken_iff.mpr (hns t ht)
  have hnone (rest : List Token) (hrest : ∀ t ∈ rest.head?, t.tok ≠ .newline) :
      rest.takeWhile newlineToken = [] ∧ rest.dropWhile newlineToken = rest := by
    cases rest with
    | nil => exact ⟨rfl, rfl⟩
    | cons t rest =>
        have ht : newlineToken t = false := by
          rw [Bool.eq_false_iff]
          exact fun ht ↦ hrest t rfl (newlineToken_iff.mp ht)
        exact ⟨List.takeWhile_cons_of_neg (by simp [ht]), List.dropWhile_cons_of_neg (by simp [ht])⟩
  refine reads_skipNewlines_eq ?_
  rw [List.takeWhile_append_of_pos hall, List.dropWhile_append_of_pos hall, (hnone rest hrest).1,
    (hnone rest hrest).2, List.append_nil]
  exact h

theorem reads_nested {m : M α} (h : Reads m ts Q) : Reads (nested m) ts Q := by
  refine Yields.bind (P := fun _ rest ↦ rest = ts) ?_ ?_
  · refine Yields.modify (fun _ ↦ rfl) (reads_get fun s _ ↦ ?_)
    split
    · exact reads_failAt
    · exact Yields.pure rfl
  · rintro _ _ rfl
    exact Yields.tryFinally (fun _ ↦ rfl) h

end Reads

/-! ## Lists, types and parameters -/

section Sound

variable {α β : Type} {strict : Bool} {P : Parsers} {G : Nonterminals}

theorem listUntil_sound {view : α → β} {item : List α → M α} {L : Lang Token β} {close : Punct}
    {I : List α → Prop} (hnil : I [])
    (hitem : ∀ done ts, I done → Reads (item done) ts fun a rest ↦
      (∃ used, ts = used ++ rest ∧ L used (view a)) ∧ I (done ++ [a])) (ts : List Token) :
    Reads (listUntil P close item) ts fun as rest ↦
      ∃ used, ts = used ++ rest ∧ ListOf L used (as.map view) ∧ I as := by
  refine reads_at ?_
  split
  · exact Yields.pure ⟨[], rfl, .nil, hnil⟩
  · refine Yields.mono (sepLoop_sound hitem P.fuel [] ts hnil) ?_
    rintro as rest ⟨used, new, rfl, rfl, hnew, has⟩
    exact ⟨used, rfl, .items hnew, has⟩

theorem items_sound {view : α → β} {item : M α} {L : Lang Token β} {close : Punct}
    (hitem : Sound stream view item L) (ts : List Token) :
    Reads (listUntil P close fun _ ↦ item) ts fun as rest ↦
      ∃ used, ts = used ++ rest ∧ ListOf L used (as.map view) := by
  have hitem' (done : List α) (ts : List Token) (_ : True) :=
    Yields.mono (hitem ts) fun _ _ h ↦ And.intro h trivial
  refine Yields.mono (listUntil_sound (I := fun _ ↦ True) trivial hitem' ts) ?_
  exact fun _ _ ⟨used, hts, has, _⟩ ↦ ⟨used, hts, has⟩

theorem parseType_sound : Sound stream id parseType TypeName := by
  intro ts
  refine reads_get fun s hs ↦ ?_
  have hchecked (t : Token) (name : String) (rest : List Token) (h : TypeName [t] name) :
      Reads (do
        advance
        if primitiveTypes.contains name || s.scopes.shapeInScope name then pure name
        else if s.scopes.shapesSeen.contains name then
          failAt (some t) s!"type '{name}' is not in scope here"
        else failAt (some t) s!"unknown type '{name}'") (t :: rest) fun a rest' ↦
        ∃ used, t :: rest = used ++ rest' ∧ TypeName used (id a) := by
    refine reads_advance ?_
    split
    · exact Yields.pure ⟨[t], rfl, h⟩
    · split
      · exact reads_failAt
      · exact reads_failAt
  dsimp only
  rw [hs]
  split
  · next line col heq =>
      obtain ⟨rest, rfl⟩ := List.head?_eq_some_iff.mp heq
      exact hchecked _ _ rest (.fn line col)
  · next n line col heq =>
      obtain ⟨rest, rfl⟩ := List.head?_eq_some_iff.mp heq
      exact hchecked _ _ rest (.name n line col)
  · exact reads_failAt

/-- A name that the names before it lack keeps them distinct. -/
theorem nodup_concat {done : List (String × α)} {name : String} {a : α}
    (hdone : (done.map Prod.fst).Nodup) (hnew : ¬ (done.map Prod.fst).contains name = true) :
    ((done ++ [(name, a)]).map Prod.fst).Nodup := by
  rw [List.map_append]
  refine List.nodup_append.mpr ⟨hdone, List.nodup_singleton _, ?_⟩
  rintro x hx y hy rfl
  rw [List.mem_singleton.mp hy] at hx
  exact hnew (List.contains_iff_mem.mpr hx)

theorem param_sound (done : List (String × Option String)) (ts : List Token)
    (hdone : (done.map Prod.fst).Nodup) :
    Reads (param done) ts fun p rest ↦
      (∃ used, ts = used ++ rest ∧ Param used (id p)) ∧ ((done ++ [p]).map Prod.fst).Nodup := by
  refine reads_expectName ?_
  rintro n line col rest rfl
  dsimp only
  split
  · exact reads_failAt
  · next hnew =>
      refine Yields.bind (P := fun t rest' ↦ ∃ used, rest = used ++ rest' ∧
        Param (⟨.name n, line, col⟩ :: used) (n, t)) ?_ ?_
      · refine reads_at ?_
        split
        · next hcolon =>
            obtain ⟨⟨tok, line', col'⟩, hhead, htok⟩ := (Option.any_eq_true ..).mp hcolon
            obtain ⟨rest, rfl⟩ := List.head?_eq_some_iff.mp hhead
            cases of_decide_eq_true htok
            refine reads_advance (Yields.bind (parseType_sound rest) ?_)
            rintro type rest' ⟨used, rfl, htype⟩
            exact Yields.pure ⟨_ :: used, rfl, .typed n line col line' col' htype⟩
        · exact Yields.pure ⟨[], rfl, .plain n line col⟩
      · rintro t rest' ⟨used, rfl, h⟩
        exact Yields.pure ⟨⟨_ :: used, rfl, h⟩, nodup_concat hdone hnew⟩

theorem paramList_sound (ts : List Token) :
    Reads (paramList P) ts fun params rest ↦ ∃ line col line' col' used,
      ts = ⟨.punct .lparen, line, col⟩ :: (used ++ ⟨.punct .rparen, line', col'⟩ :: rest) ∧
      ListOf Param used params ∧ (params.map Prod.fst).Nodup := by
  refine reads_expectPunct ?_
  rintro line col rest rfl
  refine Yields.bind (listUntil_sound (I := fun done ↦ (done.map Prod.fst).Nodup)
    List.nodup_nil param_sound rest) ?_
  rintro params rest' ⟨used, rfl, hparams, hnames⟩
  refine reads_expectPunct ?_
  rintro line' col' rest rfl
  rw [List.map_id] at hparams
  exact Yields.pure ⟨line, col, line', col', used, rfl, hparams, hnames⟩

theorem parseReturnType_sound : Sound stream id parseReturnType ReturnType := by
  intro ts
  refine reads_get fun s hs ↦ ?_
  rw [hs]
  split
  · next line col heq =>
      obtain ⟨rest, rfl⟩ := List.head?_eq_some_iff.mp heq
      refine reads_advance (Yields.bind (parseType_sound rest) ?_)
      rintro type rest' ⟨used, rfl, htype⟩
      exact Yields.pure ⟨_ :: used, rfl, .arrow line col htype⟩
  · exact Yields.pure ⟨[], rfl, .none⟩

theorem effectName_sound (done : List String) : Sound stream id (effectName done) Name := by
  intro ts
  refine reads_expectName ?_
  rintro n line col rest rfl
  exact Yields.pure ⟨[_], rfl, .mk n line col⟩

theorem parseEffectsClause_sound (ts : List Token) :
    Reads (parseEffectsClause P) ts fun _ rest ↦ ∃ used, ts = used ++ rest ∧ Effects used := by
  refine reads_get fun s hs ↦ ?_
  change s.toks = ts at hs
  rw [hs]
  split
  · next line col line' col' rest =>
      refine reads_advance (reads_advance (Yields.bind (items_sound (effectName_sound []) rest) ?_))
      rintro names rest' ⟨used, rfl, hnames⟩
      refine reads_expectPunct ?_
      rintro line'' col'' rest rfl
      refine Yields.pure ⟨_ :: _ :: (used ++ [_]), ?_,
        .clause line col line' col' line'' col'' hnames⟩
      simp
  · exact Yields.pure ⟨[], rfl, .none⟩

/-! ## Functions -/

/-- The methods called back into follow the grammar. -/
structure Follows (P : Parsers) (G : Nonterminals) : Prop where
  expression : Sound stream Expr.erase P.expression G.expression
  notExpr : Sound stream Expr.erase P.notExpr G.notExpr
  unary : Sound stream Expr.erase P.unary G.unary
  ifExpr : Sound stream Expr.erase P.ifExpr G.ifExpr
  block : Sound stream Block.erase P.block G.block

def FnParts.tree (f : FnParts) : FnTree := ⟨f.params, f.retType, f.body.erase⟩

theorem fnParts_sound (strict : Bool) (hP : Follows P G) :
    Sound stream FnParts.tree (fnParts P) (Fn strict G) := by
  intro ts
  refine Yields.bind (paramList_sound ts) ?_
  rintro params rest ⟨line, col, line', col', ps, rfl, hparams, hnames⟩
  refine Yields.bind (parseEffectsClause_sound rest) ?_
  rintro effects rest ⟨es, rfl, heffects⟩
  refine Yields.bind (parseReturnType_sound rest) ?_
  rintro ret rest ⟨rs, rfl, hret⟩
  refine reads_getScopes fun sc ↦ reads_modifyScopes ?_
  refine Yields.bind (P := fun b rest' ↦ ∃ bs, rest = bs ++ rest' ∧ G.block bs b.1.erase) ?_ ?_
  · refine Yields.tryFinally (fun _ ↦ rfl) (Yields.bind (hP.block rest) ?_)
    intro body rest' hbody
    exact reads_getScopes fun sc ↦ Yields.pure hbody
  · rintro ⟨body, called⟩ rest ⟨bs, rfl, hbody⟩
    refine Yields.pure ⟨_, ?_, .mk line col line' col' hparams (fun _ ↦ hnames) heffects hret hbody⟩
    simp

mutual

theorem erase_markTails : ∀ e : Expr, (markTails e).erase = e.erase
  | .call .. => rfl
  | .ifExpr line cond thenBlock otherwise => by
      simp only [markTails, Expr.erase, erase_markTailsBlock thenBlock, erase_markTails otherwise]
  | .block b => by simp only [markTails, Expr.erase, erase_markTailsBlock b]
  | .num .. | .str .. | .boolLit .. | .nameRef .. | .listLit .. | .recordLit .. | .missLit ..
  | .unary .. | .why .. | .snip .. | .binary .. | .rescue .. | .index .. | .fieldAccess ..
  | .fnExpr .. => rfl

theorem erase_markTailsBlock : ∀ b : Block, (markTailsBlock b).erase = b.erase
  | .mk line stmts tag param => by
      simp only [markTailsBlock, Block.erase, erase_markTailsStmts stmts]

theorem erase_markTailsStmts : ∀ ss : List Stmt, eraseStmts (markTailsStmts ss) = eraseStmts ss
  | [] => rfl
  | [.exprStmt line e] => by simp only [markTailsStmts, eraseStmts, Stmt.erase, erase_markTails e]
  | [.letStmt ..] | [.fnDef ..] | [.check ..] => rfl
  | s :: s' :: ss => by
      simp only [markTailsStmts, eraseStmts, erase_markTailsStmts (s' :: ss)]

end

theorem fnStatement_sound (strict : Bool) (hP : Follows P G) (line col line₁ col₁ : ℕ)
    (name : String)
    (ts : List Token) :
    Reads (fnStatement P line name) ts fun s rest ↦ ∃ used, ts = used ++ rest ∧
      Statement strict G (⟨.kw .fn, line, col⟩ :: ⟨.name name, line₁, col₁⟩ :: used) s.erase := by
  refine reads_modifyScopes (Yields.bind (fnParts_sound strict hP ts) ?_)
  rintro f rest ⟨used, rfl, hf⟩
  refine reads_modifyScopes (Yields.pure ⟨used, rfl, ?_⟩)
  have h : Statement strict G _ _ := .fn name line col line₁ col₁ hf
  simpa only [Stmt.erase, erase_markTailsBlock, FnTree.toStmt, FnTree.names, FnTree.contracts,
    FnParts.tree, Block.line_erase] using h

theorem fnExpr_sound (strict : Bool) (hP : Follows P G) (line col : ℕ) (ts : List Token) :
    Reads (fnExpr P line) ts fun e rest ↦ ∃ used, ts = used ++ rest ∧
      Primary strict G (⟨.kw .fn, line, col⟩ :: used) e.erase := by
  refine Yields.bind (fnParts_sound strict hP ts) ?_
  rintro f rest ⟨used, rfl, hf⟩
  refine Yields.pure ⟨used, rfl, ?_⟩
  have h : Primary strict G _ _ := .fn line col hf
  simpa only [Expr.erase, erase_markTailsBlock, FnTree.toExpr, FnTree.names, FnTree.contracts,
    FnParts.tree, Block.line_erase] using h

/-! ## Statements -/

theorem letStatement_sound (strict : Bool) (hP : Follows P G) (line col : ℕ) (ts : List Token) :
    Reads (letStatement P line) ts fun s rest ↦ ∃ used, ts = used ++ rest ∧
      Statement strict G (⟨.kw .let_, line, col⟩ :: used) s.erase := by
  refine reads_expectName ?_
  rintro n line₁ col₁ rest rfl
  refine reads_expectPunct ?_
  rintro line₂ col₂ rest rfl
  refine Yields.bind (hP.expression rest) ?_
  rintro e rest ⟨used, rfl, he⟩
  exact reads_modifyScopes
    (Yields.pure ⟨_ :: _ :: used, rfl, .let_ n line col line₁ col₁ line₂ col₂ he⟩)

theorem checkStatement_sound (strict : Bool) (hP : Follows P G) (line col : ℕ) (ts : List Token) :
    Reads (checkStatement P line) ts fun s rest ↦ ∃ used, ts = used ++ rest ∧
      Statement strict G (⟨.kw .check, line, col⟩ :: used) s.erase := by
  refine reads_expectString ?_
  rintro label line₁ col₁ rest rfl
  refine reads_expectPunct ?_
  rintro line₂ col₂ rest rfl
  refine Yields.bind (hP.expression rest) ?_
  rintro e rest ⟨used, rfl, he⟩
  exact Yields.pure ⟨_ :: _ :: used, rfl, .check label line col line₁ col₁ line₂ col₂ he⟩

theorem shapeField_sound (done : List (String × String)) (ts : List Token)
    (hdone : (done.map Prod.fst).Nodup) :
    Reads (shapeField done) ts fun p rest ↦
      (∃ used, ts = used ++ rest ∧ ShapeField used (id p)) ∧
        ((done ++ [p]).map Prod.fst).Nodup := by
  refine reads_expectName ?_
  rintro n line col rest rfl
  dsimp only
  split
  · exact reads_failAt
  · next hnew =>
      refine reads_expectPunct ?_
      rintro line' col' rest rfl
      refine Yields.bind (parseType_sound rest) ?_
      rintro type rest ⟨used, rfl, htype⟩
      exact Yields.pure ⟨⟨_ :: _ :: used, rfl, .mk n line col line' col' htype⟩,
        nodup_concat hdone hnew⟩

theorem erasePairs_shapePairs (line : ℕ) (name : String) (fields : List (String × String)) :
    erasePairs (shapePairs line name fields) = shapePairs line name fields := by
  rw [erasePairs_eq, shapePairs, List.map_cons, List.map_map]
  congr 1
  refine List.map_congr_left fun f _ ↦ ?_
  simp only [Function.comp_apply, typeSpecExpr]
  split <;> rfl

theorem shapeDef_sound (strict : Bool) (G : Nonterminals) (line col : ℕ) (ts : List Token) :
    Reads (shapeDef P line) ts fun s rest ↦ ∃ used, ts = used ++ rest ∧
      Statement strict G (⟨.name "shape", line, col⟩ :: used) s.erase := by
  refine reads_expectName ?_
  rintro n line₁ col₁ rest rfl
  refine reads_getScopes fun sc ↦ ?_
  split
  · exact reads_failAt
  · split
    · exact reads_failAt
    · refine reads_expectPunct ?_
      rintro line₂ col₂ rest rfl
      refine reads_expectTok ?_
      rintro line₃ col₃ rest rfl
      refine Yields.bind (listUntil_sound (I := fun done ↦ (done.map Prod.fst).Nodup)
        List.nodup_nil shapeField_sound rest) ?_
      rintro fields rest ⟨used, rfl, hfields, hnames⟩
      rw [List.map_id] at hfields
      refine reads_expectPunct ?_
      rintro line₄ col₄ rest rfl
      have h : Statement strict G _ _ := .shape n line col line₁ col₁ line₂ col₂ line₃ col₃ line₄
        col₄ hfields fun _ ↦ hnames
      rw [← erasePairs_shapePairs] at h
      refine reads_modifyScopes (Yields.pure ⟨_, ?_, h⟩)
      simp

theorem statement_sound (strict : Bool) (hP : Follows P G) :
    Sound stream Stmt.erase (statement P) (Statement strict G) := by
  intro ts
  refine reads_get fun s hs ↦ ?_
  rw [hs]
  split
  · next line col rest =>
      refine reads_advance (Yields.mono (letStatement_sound strict hP line col rest) ?_)
      rintro st rest' ⟨used, rfl, h⟩
      exact ⟨_ :: used, rfl, h⟩
  · next line col name line₁ col₁ rest =>
      refine reads_advance (reads_advance
        (Yields.mono (fnStatement_sound strict hP line col line₁ col₁ name rest) ?_))
      rintro st rest' ⟨used, rfl, h⟩
      exact ⟨_ :: _ :: used, rfl, h⟩
  · next line col rest =>
      refine reads_advance (Yields.mono (checkStatement_sound strict hP line col rest) ?_)
      rintro st rest' ⟨used, rfl, h⟩
      exact ⟨_ :: used, rfl, h⟩
  · next line col name line₁ col₁ line₂ col₂ rest =>
      refine reads_advance (Yields.mono (shapeDef_sound strict G line col _) ?_)
      rintro st rest' ⟨used, hused, h⟩
      exact ⟨_ :: used, by rw [hused]; rfl, h⟩
  · refine Yields.bind (hP.expression ts) ?_
    rintro e rest ⟨used, rfl, he⟩
    refine Yields.pure ⟨used, rfl, ?_⟩
    rw [Stmt.erase, ← Expr.line_erase]
    exact .expr he

@[simp] theorem boundName_erase (s : Stmt) : boundName s.erase = boundName s := by
  cases s <;> rfl

theorem boundNames_erase (ss : List Stmt) : boundNames (ss.map Stmt.erase) = boundNames ss := by
  rw [boundNames, List.filterMap_map]
  exact List.filterMap_congr fun s _ ↦ by rw [Function.comp_apply, boundName_erase]

theorem boundAfter_reads (bound : Dict ℕ) (start : Option Token) (s : Stmt) (ts : List Token) :
    Reads (boundAfter bound start s) ts fun bound' rest ↦ rest = ts ∧
      (bound'.map Prod.fst) = (boundNames [s]) ++ bound.map Prod.fst ∧
      (boundNames [s]).Disjoint (bound.map Prod.fst) := by
  unfold boundAfter
  cases hs : boundName s with
  | none =>
      have hnames : boundNames [s] = [] := by simp [boundNames, hs]
      exact Yields.pure ⟨rfl, by simp [hnames], by simp [hnames]⟩
  | some p =>
      obtain ⟨name, line⟩ := p
      have hnames : boundNames [s] = [name] := by simp [boundNames, hs]
      dsimp only
      cases hget : bound.get? name with
      | some before => exact reads_failAt
      | none =>
          refine Yields.pure ⟨rfl, by simp [hnames], ?_⟩
          rw [hnames, List.singleton_disjoint]
          intro hmem
          obtain ⟨⟨key, v⟩, hp, rfl⟩ := List.mem_map.mp hmem
          rw [Dict.get?, Option.map_eq_none_iff, List.find?_eq_none] at hget
          exact hget _ hp (decide_eq_true rfl)

theorem checkSeparated_reads (separated : Bool) (ts : List Token) :
    Reads (checkSeparated separated) ts fun _ rest ↦ rest = ts ∧
      ∀ t ∈ ts.head?, startsStatement t.tok = true → separated = true := by
  refine reads_get fun s hs ↦ ?_
  rw [hs]
  cases hhead : ts.head? with
  | none => exact Yields.pure ⟨rfl, fun t ht ↦ nomatch ht⟩
  | some t =>
      dsimp only
      split
      · exact reads_failAt
      · next hsep =>
          refine Yields.pure ⟨rfl, fun t' ht' hstart ↦ ?_⟩
          cases ht'
          simpa [hstart] using hsep

/-- The statements from here on: they derive, need a line break before them,
bind other names than those before them, and go up to the end. -/
theorem stmtLoop_sound (strict : Bool) (hP : Follows P G) (hG : G.Headed) (stop : Option Punct)
    (k : ℕ) :
    ∀ separated bound ts, Reads (stmtLoop P stop k separated bound) ts fun ss rest ↦
      atEnd stop rest.head? = true ∧ (ss ≠ [] → separated = true) ∧
      (∃ used, ts = used ++ rest ∧ Statements strict G used (ss.map Stmt.erase)) ∧
      (boundNames ss).Nodup ∧ (boundNames ss).Disjoint (bound.map Prod.fst) := by
  induction k with
  | zero => exact fun _ _ _ ↦ reads_outOfFuel
  | succ k ih =>
      intro separated bound ts
      refine reads_peek ?_
      split
      · next hend =>
          exact Yields.pure ⟨hend, fun h ↦ absurd rfl h, ⟨[], rfl, .nil⟩, List.nodup_nil,
            List.disjoint_nil_left _⟩
      · refine Yields.bind (checkSeparated_reads separated ts) ?_
        rintro _ _ ⟨rfl, hsep⟩
        refine Yields.bind (statement_sound strict hP _) ?_
        rintro s rest ⟨used, rfl, hs⟩
        refine Yields.bind (boundAfter_reads bound _ s rest) ?_
        rintro bound' rest₁ ⟨rfl, hbound, hnew⟩
        refine Yields.bind (reads_skipNewlines (Q := fun b rest' ↦ ∃ ns, rest₁ = ns ++ rest' ∧
          Newlines ns ∧ b = !ns.isEmpty) fun ns rest' h hns ↦ ⟨ns, h, hns, rfl⟩) ?_
        rintro _ rest' ⟨ns, rfl, hns, rfl⟩
        refine Yields.bind (ih _ bound' rest') ?_
        rintro ss rest ⟨hend, hseparated, ⟨used', rfl, hss⟩, hnodup, hdisjoint⟩
        have hnames : boundNames (s :: ss) = boundNames [s] ++ boundNames ss :=
          List.filterMap_append (l := [s])
        have hone : (boundNames [s]).Nodup := by
          rw [boundNames]
          cases hs : boundName s <;> simp [hs]
        rw [hbound, List.disjoint_append_right] at hdisjoint
        refine Yields.pure ⟨hend, fun _ ↦ ?_, ?_, ?_, ?_⟩
        · obtain ⟨t, ts', rfl, hstart⟩ := hs.starts hG
          exact hsep t rfl hstart
        · cases ss with
          | nil =>
              cases hss
              exact ⟨used ++ ns, by simp, .last hs hns⟩
          | cons s' ss =>
              have hsome : ns ≠ [] := by simpa using hseparated (List.cons_ne_nil _ _)
              exact ⟨used ++ (ns ++ used'), by simp, .cons hs hns hsome hss⟩
        · rw [hnames]
          exact hone.append hnodup hdisjoint.1.symm
        · rw [hnames, List.disjoint_append_left]
          exact ⟨hnew, hdisjoint.2⟩

theorem stmtList_sound (strict : Bool) (hP : Follows P G) (hG : G.Headed) (stop : Option Punct)
    (ts : List Token) :
    Reads (stmtList P stop) ts fun p rest ↦ atEnd stop rest.head? = true ∧
      (∃ used, ts = used ++ rest ∧ StmtList strict G used (p.1.map Stmt.erase)) := by
  refine reads_modifyScopes (Yields.tryFinally (fun _ ↦ rfl) ?_)
  refine Yields.bind (reads_skipNewlines (Q := fun _ rest ↦ ∃ ns, ts = ns ++ rest ∧ Newlines ns)
    fun ns rest h hns ↦ ⟨ns, h, hns⟩) ?_
  rintro _ rest ⟨ns, rfl, hns⟩
  refine Yields.bind (stmtLoop_sound strict hP hG stop P.fuel true [] rest) ?_
  rintro ss rest' ⟨hend, _, ⟨used, rfl, hss⟩, hnames, _⟩
  refine reads_getScopes fun sc ↦ Yields.pure ⟨hend, ns ++ used, by simp, .mk hns hss fun _ ↦ ?_⟩
  rwa [boundNames_erase]

theorem block_sound (strict : Bool) (hP : Follows P G) (hG : G.Headed) :
    Sound stream Block.erase (block P) (BlockRule strict G) := by
  intro ts
  refine reads_expectTok ?_
  rintro line col rest rfl
  refine reads_get fun s _ ↦ ?_
  split
  · exact reads_failAt
  · refine Yields.bind (stmtList_sound strict hP hG _ rest) ?_
    rintro ⟨ss, tag, param⟩ rest' ⟨_, used, rfl, hss⟩
    refine reads_expectPunct ?_
    rintro line' col' rest rfl
    split
    · exact reads_failAt
    · next line'' e hlast =>
        have hend : EndsInExpr (ss.map Stmt.erase) := by
          refine ⟨line'', e.erase, ?_⟩
          rw [List.getLast?_map, hlast]
          rfl
        have h : BlockRule strict G _ _ := .mk line col line' col' hss fun _ ↦ hend
        rw [← eraseStmts_eq] at h
        refine Yields.pure ⟨_, ?_, h⟩
        simp
    · exact reads_failAt

/-! ## Expressions -/

theorem recordPair_sound (hP : Follows P G) (done : List (String × Expr)) (ts : List Token)
    (hdone : (done.map Prod.fst).Nodup) :
    Reads (recordPair P done) ts fun p rest ↦
      (∃ used, ts = used ++ rest ∧ RecordPair G used (p.1, p.2.erase)) ∧
        ((done ++ [p]).map Prod.fst).Nodup := by
  refine reads_expectName ?_
  rintro n line col rest rfl
  dsimp only
  split
  · exact reads_failAt
  · next hnew =>
      refine reads_expectPunct ?_
      rintro line' col' rest rfl
      refine Yields.bind (hP.expression rest) ?_
      rintro e rest ⟨used, rfl, he⟩
      exact Yields.pure ⟨⟨_ :: _ :: used, rfl, .mk n line col line' col' he⟩,
        nodup_concat hdone hnew⟩

theorem primary_sound (strict : Bool) (hP : Follows P G) :
    Sound stream Expr.erase (primary P) (Primary strict G) := by
  intro ts
  refine reads_get fun s hs ↦ ?_
  rw [hs]
  split
  · next v line col hhead =>
      obtain ⟨rest, rfl⟩ := List.head?_eq_some_iff.mp hhead
      exact reads_advance (Yields.pure ⟨[_], rfl, .number v line col⟩)
  · next v line col hhead =>
      obtain ⟨rest, rfl⟩ := List.head?_eq_some_iff.mp hhead
      exact reads_advance (Yields.pure ⟨[_], rfl, .string v line col⟩)
  · next line col hhead =>
      obtain ⟨rest, rfl⟩ := List.head?_eq_some_iff.mp hhead
      exact reads_advance (Yields.pure ⟨[_], rfl, .true_ line col⟩)
  · next line col hhead =>
      obtain ⟨rest, rfl⟩ := List.head?_eq_some_iff.mp hhead
      exact reads_advance (Yields.pure ⟨[_], rfl, .false_ line col⟩)
  · next n line col hhead =>
      obtain ⟨rest, rfl⟩ := List.head?_eq_some_iff.mp hhead
      exact reads_advance (Yields.pure ⟨[_], rfl, .name n line col⟩)
  · next line col hhead =>
      obtain ⟨rest, rfl⟩ := List.head?_eq_some_iff.mp hhead
      refine reads_advance (Yields.bind (items_sound hP.expression rest) ?_)
      rintro items rest ⟨used, rfl, hitems⟩
      refine reads_expectPunct ?_
      rintro line' col' rest rfl
      have h : Primary strict G _ _ := .list line col line' col' hitems
      rw [← eraseItems_eq] at h
      refine Yields.pure ⟨_, ?_, h⟩
      simp
  · next line col hhead =>
      obtain ⟨rest, rfl⟩ := List.head?_eq_some_iff.mp hhead
      refine reads_advance (Yields.bind (listUntil_sound
        (I := fun done ↦ (done.map Prod.fst).Nodup) List.nodup_nil (recordPair_sound hP) rest) ?_)
      rintro pairs rest ⟨used, rfl, hpairs, hkeys⟩
      refine reads_expectPunct ?_
      rintro line' col' rest rfl
      have hsame : (pairs.map fun p ↦ (p.1, p.2.erase)).map Prod.fst = pairs.map Prod.fst := by
        rw [List.map_map]
        rfl
      have h : Primary strict G _ _ := .record line col line' col' hpairs fun _ ↦ hsame ▸ hkeys
      rw [← erasePairs_eq] at h
      refine Yields.pure ⟨_, ?_, h⟩
      simp
  · next line col hhead =>
      obtain ⟨rest, rfl⟩ := List.head?_eq_some_iff.mp hhead
      refine reads_advance (Yields.bind (hP.expression rest) ?_)
      rintro e rest ⟨used, rfl, he⟩
      refine reads_expectPunct ?_
      rintro line' col' rest rfl
      have h : Primary strict G _ _ := .paren line col line' col' he
      refine Yields.pure ⟨_, ?_, h⟩
      simp
  · refine Yields.mono (hP.ifExpr ts) ?_
    rintro e rest ⟨used, rfl, he⟩
    exact ⟨used, rfl, .if_ he⟩
  · refine Yields.bind (hP.block ts) ?_
    rintro b rest ⟨used, rfl, hb⟩
    exact Yields.pure ⟨used, rfl, .block hb⟩
  · next line col hhead =>
      obtain ⟨rest, rfl⟩ := List.head?_eq_some_iff.mp hhead
      refine reads_advance (Yields.mono (fnExpr_sound strict hP line col rest) ?_)
      rintro e rest ⟨used, rfl, he⟩
      exact ⟨_ :: used, rfl, he⟩
  · exact reads_failAt

theorem checkCall_reads (callee : Expr) (args : List Expr) (tok : Token) (ts : List Token) :
    Reads (checkCall callee args tok) ts fun _ rest ↦ rest = ts := by
  refine reads_modifyScopes (reads_getScopes fun sc ↦ ?_)
  split
  · exact reads_failAt
  · split
    · exact reads_failAt
    · exact fun s hs ↦ hs

theorem postfixLoop_sound (strict : Bool) (hP : Follows P G) (k : ℕ) :
    ∀ e before ts, Postfix strict G before e.erase →
      Reads (postfixLoop P k e) ts fun e' rest ↦
        ∃ used, ts = used ++ rest ∧ Postfix strict G (before ++ used) e'.erase := by
  induction k with
  | zero => exact fun _ _ _ _ ↦ reads_outOfFuel
  | succ k ih =>
      intro e before ts hbefore
      have hnext (e' : Expr) (rest : List Token) {used : List Token} {f : Expr → Expr}
          (hs : Suffix G used f) (he' : e'.erase = f e.erase) :
            Reads (postfixLoop P k e') rest fun e'' rest' ↦
            ∃ used', used ++ rest = used' ++ rest' ∧
              Postfix strict G (before ++ used') e''.erase := by
        have hafter : Postfix strict G (before ++ used) e'.erase := by
          rw [he']
          exact .extend hbefore hs
        refine Yields.mono (ih e' _ rest hafter) ?_
        rintro e'' rest' ⟨used', rfl, h⟩
        exact ⟨used ++ used', by simp, by rwa [List.append_assoc] at h⟩
      refine reads_get fun s hs ↦ ?_
      rw [hs]
      split
      · next line col hhead =>
          obtain ⟨rest, rfl⟩ := List.head?_eq_some_iff.mp hhead
          refine reads_advance (Yields.bind (items_sound hP.expression rest) ?_)
          rintro args rest ⟨used, rfl, hargs⟩
          refine reads_expectPunct ?_
          rintro line' col' rest rfl
          refine Yields.bind (checkCall_reads _ _ _ rest) ?_
          rintro _ rest rfl
          have h := hnext (.call line e args false) rest (.call line col line' col' hargs)
            (by rw [Expr.erase, eraseItems_eq])
          simpa using h
      · next line col hhead =>
          obtain ⟨rest, rfl⟩ := List.head?_eq_some_iff.mp hhead
          refine reads_advance (Yields.bind (hP.expression rest) ?_)
          rintro i rest ⟨used, rfl, hi⟩
          refine reads_expectPunct ?_
          rintro line' col' rest rfl
          have h := hnext (.index line e i) rest (.index line col line' col' hi) rfl
          simpa using h
      · next line col hhead =>
          obtain ⟨rest, rfl⟩ := List.head?_eq_some_iff.mp hhead
          refine reads_advance (reads_expectName ?_)
          rintro n line' col' rest rfl
          exact hnext (.fieldAccess line e n) rest (.field n line col line' col') rfl
      · exact Yields.pure ⟨[], rfl, by rwa [List.append_nil]⟩

theorem postfix_sound (strict : Bool) (hP : Follows P G) :
    Sound stream Expr.erase (postfix_ P) (Postfix strict G) := by
  intro ts
  refine Yields.bind (primary_sound strict hP ts) ?_
  rintro e rest ⟨used, rfl, he⟩
  refine Yields.mono (postfixLoop_sound strict hP P.fuel e used rest (.operand he)) ?_
  rintro e' rest' ⟨used', rfl, he'⟩
  exact ⟨used ++ used', by simp, he'⟩

/-- The operator tables of the methods are the declared levels. -/
theorem tables_eq (t : Token) :
    unaryOp t = prefixOp t ∧ multiplicativeOp t = opAt 7 t ∧ additiveOp t = opAt 6 t ∧
      compareOp t = opAt 5 t ∧ andOp t = opAt 3 t ∧ orOp t = opAt 2 t ∧ rescueOp t = opAt 1 t := by
  obtain ⟨tok, line, col⟩ := t
  cases tok with
  | kw k => cases k <;> exact ⟨rfl, rfl, rfl, rfl, rfl, rfl, rfl⟩
  | punct p => cases p <;> exact ⟨rfl, rfl, rfl, rfl, rfl, rfl, rfl⟩
  | _ => exact ⟨rfl, rfl, rfl, rfl, rfl, rfl, rfl⟩

theorem prefixOp_erase {t : Token} {node : Expr → Expr} (h : prefixOp t = some node) (e : Expr) :
    (node e).erase = node e.erase := by
  unfold prefixOp at h
  split at h <;> cases h <;> rfl

theorem unary_sound (strict : Bool) (hP : Follows P G) :
    Sound stream Expr.erase (unary P) (Unary strict G) := by
  intro ts
  refine reads_get fun s hs ↦ ?_
  rw [hs]
  split
  · next node hnode =>
      obtain ⟨t, ht, hop⟩ := Option.bind_eq_some_iff.mp hnode
      obtain ⟨rest, rfl⟩ := List.head?_eq_some_iff.mp ht
      rw [(tables_eq t).1] at hop
      refine reads_advance (Yields.bind (reads_nested (hP.unary rest)) ?_)
      rintro e rest ⟨used, rfl, he⟩
      refine Yields.pure ⟨t :: used, rfl, ?_⟩
      rw [prefixOp_erase hop]
      exact .op hop he
  · refine Yields.mono (postfix_sound strict hP ts) ?_
    rintro e rest ⟨used, rfl, he⟩
    exact ⟨used, rfl, .postfix_ he⟩

theorem opAt_erase {level : ℕ} (t : Token) (f : Expr → Expr → Expr) (a b : Expr)
    (h : opAt level t = some f) : (f a b).erase = f a.erase b.erase := by
  have hop := opAt_eq h
  unfold infixOp at hop
  split at hop <;> cases hop <;> rfl

theorem leftLevel_sound {operand : M Expr} {L : Lang Token Expr}
    {op : Token → Option (Expr → Expr → Expr)} {level : ℕ} (hop : ∀ t, op t = opAt level t)
    (hoperand : Sound stream Expr.erase operand L) :
    Sound stream Expr.erase (leftLevel P operand op) (LeftAssoc L (opAt level)) := by
  intro ts
  rw [funext hop]
  refine Yields.bind (hoperand ts) ?_
  rintro left rest ⟨used, rfl, hleft⟩
  refine Yields.mono (leftLoop_sound hoperand opAt_erase P.fuel left used rest (.operand hleft)) ?_
  rintro e rest' ⟨used', rfl, he⟩
  exact ⟨used ++ used', by simp, he⟩

theorem additive_sound (strict : Bool) (hP : Follows P G) :
    Sound stream Expr.erase (additive P) (Additive strict G) :=
  leftLevel_sound (fun t ↦ (tables_eq t).2.2.1)
    (leftLevel_sound (fun t ↦ (tables_eq t).2.1) (unary_sound strict hP))

theorem comparison_sound (strict : Bool) (hP : Follows P G) :
    Sound stream Expr.erase (comparison P) (Comparison strict G) := by
  intro ts
  refine Yields.bind (additive_sound strict hP ts) ?_
  rintro left rest ⟨used, rfl, hleft⟩
  refine reads_get fun s hs ↦ ?_
  rw [hs]
  split
  · exact Yields.pure ⟨used, rfl, .additive hleft⟩
  · next node hnode =>
      obtain ⟨t, ht, hop⟩ := Option.bind_eq_some_iff.mp hnode
      obtain ⟨rest, rfl⟩ := List.head?_eq_some_iff.mp ht
      rw [(tables_eq t).2.2.2.1] at hop
      refine reads_advance (Yields.bind (additive_sound strict hP rest) ?_)
      rintro right rest ⟨used', rfl, hright⟩
      refine reads_get fun s' _ ↦ ?_
      split
      · refine Yields.pure ⟨used ++ t :: used', by simp, ?_⟩
        rw [opAt_erase t node left right hop]
        exact .op hleft hop hright
      · exact reads_failAt

theorem notExpr_sound (strict : Bool) (hP : Follows P G) :
    Sound stream Expr.erase (notExpr P) (NotExpr strict G) := by
  intro ts
  refine reads_get fun s hs ↦ ?_
  rw [hs]
  split
  · next line col hhead =>
      obtain ⟨rest, rfl⟩ := List.head?_eq_some_iff.mp hhead
      refine reads_advance (Yields.bind (hP.notExpr rest) ?_)
      rintro e rest ⟨used, rfl, he⟩
      exact Yields.pure ⟨_ :: used, rfl, .not line col he⟩
  · refine Yields.mono (comparison_sound strict hP ts) ?_
    rintro e rest ⟨used, rfl, he⟩
    exact ⟨used, rfl, .comparison he⟩

theorem expression_sound (strict : Bool) (hP : Follows P G) :
    Sound stream Expr.erase (expression P) (Expression strict G) := fun ts ↦
  reads_nested (leftLevel_sound (fun t ↦ (tables_eq t).2.2.2.2.2.2)
    (leftLevel_sound (fun t ↦ (tables_eq t).2.2.2.2.2.1)
      (leftLevel_sound (fun t ↦ (tables_eq t).2.2.2.2.1) (notExpr_sound strict hP))) ts)

theorem elseBranch_sound (hP : Follows P G) :
    Sound stream Expr.erase (elseBranch P) (ElseBranch G) := by
  intro ts
  refine reads_at ?_
  split
  · refine Yields.mono (reads_nested (hP.ifExpr ts)) ?_
    rintro e rest ⟨used, rfl, he⟩
    exact ⟨used, rfl, .if_ he⟩
  · refine Yields.bind (hP.block ts) ?_
    rintro b rest ⟨used, rfl, hb⟩
    exact Yields.pure ⟨used, rfl, .block hb⟩

theorem ifExpr_sound (hP : Follows P G) : Sound stream Expr.erase (ifExpr P) (IfExpr G) := by
  intro ts
  refine reads_expectTok ?_
  rintro line col rest rfl
  refine Yields.bind (hP.expression rest) ?_
  rintro cond rest ⟨cs, rfl, hcond⟩
  refine Yields.bind (hP.block rest) ?_
  rintro b rest ⟨bs, rfl, hb⟩
  refine Yields.bind (reads_skipNewlines (Q := fun _ rest' ↦ ∃ ns, rest = ns ++ rest' ∧ Newlines ns)
    fun ns rest' h hns ↦ ⟨ns, h, hns⟩) ?_
  rintro _ rest ⟨ns, rfl, hns⟩
  refine reads_get fun s hs ↦ ?_
  rw [hs]
  split
  · next line' col' hhead =>
      obtain ⟨rest, rfl⟩ := List.head?_eq_some_iff.mp hhead
      refine reads_advance (Yields.bind (elseBranch_sound hP rest) ?_)
      rintro otherwise rest ⟨es, rfl, helse⟩
      refine Yields.pure ⟨_, ?_, .mk line col line' col' hcond hb hns helse⟩
      simp
  · exact reads_failAt

end Sound

/-! ## The parser -/

theorem parsers_follow (strict : Bool) (n : ℕ) : Follows (parsers n) (grammar strict n) := by
  induction n with
  | zero =>
      exact ⟨fun _ ↦ reads_outOfFuel, fun _ ↦ reads_outOfFuel, fun _ ↦ reads_outOfFuel,
        fun _ ↦ reads_outOfFuel, fun _ ↦ reads_outOfFuel⟩
  | succ n ih =>
      exact ⟨expression_sound strict ih, notExpr_sound strict ih, unary_sound strict ih,
        ifExpr_sound ih, block_sound strict ih (grammar_headed strict n)⟩

/-- The tokens of an accepted program derive it. -/
theorem parse_derives (strict : Bool) {fuel eofLine eofCol : ℕ} {toks : List Token}
    {program : List Stmt} (h : parse fuel toks eofLine eofCol = .ok program) :
    Derives strict toks (eraseStmts program) := by
  have hP := parsers_follow strict fuel
  have hreads : Reads (parseProgram (parsers fuel)) toks fun program rest ↦
      rest = [] ∧ StmtList strict (grammar strict fuel) toks (program.map Stmt.erase) := by
    refine Yields.bind (stmtList_sound strict hP (grammar_headed strict fuel) none toks) ?_
    rintro ⟨ss, tag, param⟩ rest ⟨hend, used, rfl, hss⟩
    cases rest with
    | nil => exact Yields.pure ⟨rfl, by rwa [List.append_nil]⟩
    | cons t rest => cases hend
  have hrun := hreads (.init toks eofLine eofCol) rfl
  unfold Exec.wp at hrun
  unfold parse at h
  split at hrun
  · next heq =>
      rw [heq] at h
      cases h
      exact ⟨fuel, by rw [eraseStmts_eq]; exact hrun.2⟩
  · next heq =>
      rw [heq] at h
      cases h

end NucLlm.Whence.Parser
