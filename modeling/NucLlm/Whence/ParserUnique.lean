import NucLlm.Whence.ParserSound

/-!
# The grammar leaves the parser no choice

On tokens that derive a tree, a method that succeeds returns that tree.
-/

namespace NucLlm.Whence.Parser

open Parsing
open NucLlm.Whence.Grammar

/-! ## What may follow -/

/-- The next token binds less tightly than the level. -/
def Loose (level : ℕ) (rest : List Token) : Prop := ∀ t ∈ rest.head?, tightness t < level

theorem Loose.mono {level level' : ℕ} {rest : List Token} (h : Loose level rest)
    (hle : level ≤ level') : Loose level' rest := fun t ht ↦
  (h t ht).trans_le hle

theorem loose_cons {level : ℕ} {t : Token} (ts : List Token) (h : tightness t < level) :
    Loose level (t :: ts) := by
  intro t' ht'
  cases ht'
  exact h

theorem tightness_of_opAt {level : ℕ} {t : Token} {f : Expr → Expr → Expr}
    (h : opAt level t = some f) : tightness t = level := by
  have hop := opAt_eq h
  obtain ⟨tok, line, col⟩ := t
  cases tok with
  | kw k => cases k <;> cases hop <;> rfl
  | punct p => cases p <;> cases hop <;> rfl
  | _ => cases hop

theorem Loose.noOp {level : ℕ} {rest : List Token} (h : Loose level rest) :
    NoOp (opAt level) rest := by
  rw [NoOp, Option.bind_eq_none_iff]
  intro t ht
  by_contra hop
  obtain ⟨f, hf⟩ := Option.ne_none_iff_exists'.mp hop
  exact absurd (tightness_of_opAt hf) (h t ht).ne

/-- A statement ends at a line break, at a closing brace or with the input. -/
def EndsStatement (rest : List Token) : Prop :=
  ∀ t ∈ rest.head?, t.tok = .newline ∨ t.tok = .punct .rbrace

theorem EndsStatement.loose {rest : List Token} (h : EndsStatement rest) : Loose 1 rest := by
  intro t ht
  rcases h t ht with htok | htok <;> simp [tightness, infixOp, htok]

theorem EndsStatement.noName {rest : List Token} (h : EndsStatement rest) : NoName rest := by
  intro t ht
  rcases h t ht with htok | htok <;> rw [htok] <;> rfl

def NotAt (p : Punct) (ts : List Token) : Prop := ∀ t ∈ ts.head?, t.tok ≠ .punct p

theorem notAt_cons {p p' : Punct} (h : p ≠ p') (line col : ℕ) (ts : List Token) :
    NotAt p' (⟨.punct p, line, col⟩ :: ts) := by
  rintro t ht htok
  cases ht
  cases htok
  exact h rfl

/-! ## Lists, types and parameters -/

section Unique

variable {α β : Type} {strict : Bool} {P : Parsers} {G : Nonterminals}

/-- A list that its closing token, and no comma, follows. -/
theorem listUntil_determined {view : α → β} {item : List α → M α} {L : Lang Token β}
    {close : Punct} {follow : List Token → Prop} (hclose : close ≠ .comma)
    (hitem : ∀ done, Determined stream view (item done) L follow)
    (hcomma : ∀ line col ts, follow (⟨.punct .comma, line, col⟩ :: ts))
    (hfirst : ∀ {ts a}, L ts a → ts ≠ [] ∧ NotAt close ts) {line col : ℕ} {rest : List Token}
    (hrest : follow (⟨.punct close, line, col⟩ :: rest)) {ts : List Token} {as : List β}
    (h : ListOf L ts as) :
    Reads (listUntil P close item) (ts ++ ⟨.punct close, line, col⟩ :: rest) fun as' rest' ↦
      as'.map view = as ∧ rest' = ⟨.punct close, line, col⟩ :: rest := by
  refine reads_at ?_
  cases h with
  | nil =>
      rw [List.nil_append, List.head?_cons, Option.any_some, decide_eq_true rfl]
      exact Yields.pure ⟨rfl, rfl⟩
  | items h =>
      have hne : ts ≠ [] ∧ NotAt close ts := by
        cases h with
        | single h => exact hfirst h
        | cons h =>
            obtain ⟨hne, hat⟩ := hfirst h
            obtain ⟨t, ts, rfl⟩ := List.exists_cons_of_ne_nil hne
            exact ⟨List.cons_ne_nil _ _, hat⟩
      obtain ⟨t, ts, rfl⟩ := List.exists_cons_of_ne_nil hne.1
      rw [List.cons_append, List.head?_cons, Option.any_some, decide_eq_false (hne.2 t rfl)]
      refine Yields.mono (sepLoop_determined hitem ?_ hrest ?_ P.fuel [] (t :: ts) as h) ?_
      · rintro ⟨tok, line, col⟩ ts htok
        cases of_decide_eq_true htok
        exact hcomma line col ts
      · simpa [isComma] using hclose
      · rintro as' rest' ⟨has, rfl⟩
        exact ⟨by simpa using has, rfl⟩

theorem parseType_determined : Determined stream id parseType TypeName fun _ ↦ True := by
  intro ts rest type h _
  refine reads_get fun s hs ↦ ?_
  have hchecked (t : Token) (name : String) :
      Reads (do
        advance
        if primitiveTypes.contains name || s.scopes.shapeInScope name then pure name
        else if s.scopes.shapesSeen.contains name then
          failAt (some t) s!"type '{name}' is not in scope here"
        else failAt (some t) s!"unknown type '{name}'") (t :: rest) fun a rest' ↦
        id a = name ∧ rest' = rest := by
    refine reads_advance ?_
    split
    · exact Yields.pure ⟨rfl, rfl⟩
    · split
      · exact reads_failAt
      · exact reads_failAt
  dsimp only
  rw [hs]
  cases h with
  | fn line col => exact hchecked _ _
  | name n line col => exact hchecked _ _

theorem param_determined (done : List (String × Option String)) :
    Determined stream id (param done) Param (NotAt .colon) := by
  intro ts rest p h hrest
  refine reads_expectName fun n line col rest' heq ↦ ?_
  dsimp only
  split
  · exact reads_failAt
  · cases h with
    | plain =>
        cases heq
        have hcolon : (rest.head?.any fun tok ↦ tok.tok = .punct .colon) = false := by
          rw [Option.any_eq_false]
          intro t ht
          simpa using hrest t ht
        refine Yields.bind (P := fun t rest' ↦ t = none ∧ rest' = rest) (reads_at ?_) ?_
        · change Reads (if (rest.head?.any fun tok ↦ tok.tok = .punct .colon) then _ else _) rest _
          rw [hcolon]
          exact Yields.pure ⟨rfl, rfl⟩
        · rintro _ _ ⟨rfl, rfl⟩
          exact Yields.pure ⟨rfl, rfl⟩
    | @typed n line col line' col' ts type htype =>
        cases heq
        refine Yields.bind (P := fun t rest' ↦ t = some type ∧ rest' = rest)
          (reads_at (reads_advance (Yields.bind (parseType_determined _ rest _ htype trivial) ?_)))
            ?_
        · rintro type _ ⟨rfl, rfl⟩
          exact Yields.pure ⟨rfl, rfl⟩
        · rintro _ _ ⟨rfl, rfl⟩
          exact Yields.pure ⟨rfl, rfl⟩

theorem Param.head {ts : List Token} {p : String × Option String} (h : Param ts p) :
    ts ≠ [] ∧ NotAt .rparen ts := by
  cases h <;> exact ⟨List.cons_ne_nil _ _, fun t ht htok ↦ by cases ht; cases htok⟩

theorem paramList_determined {line col line' col' : ℕ} {ts rest : List Token}
    {params : List (String × Option String)} (h : ListOf Param ts params) :
    Reads (paramList P)
      (⟨.punct .lparen, line, col⟩ :: (ts ++ ⟨.punct .rparen, line', col'⟩ :: rest))
      fun params' rest' ↦ params' = params ∧ rest' = rest := by
  refine reads_expectPunct fun line₁ col₁ rest₁ heq ↦ ?_
  cases heq
  refine Yields.bind (listUntil_determined (by decide) param_determined
    (notAt_cons (by decide)) Param.head (notAt_cons (by decide) line' col' rest) h) ?_
  rintro params' _ ⟨rfl, rfl⟩
  refine reads_expectPunct fun line₁ col₁ rest₁ heq ↦ ?_
  cases heq
  exact Yields.pure ⟨(List.map_id _).symm, rfl⟩

theorem effectName_determined (done : List String) :
    Determined stream id (effectName done) Name fun _ ↦ True := by
  rintro _ rest _ ⟨n, line, col⟩ _
  refine reads_expectName fun n' line' col' rest' heq ↦ ?_
  cases heq
  exact Yields.pure ⟨rfl, rfl⟩

theorem Name.head {ts : List Token} {n : String} (h : Name ts n) :
    ts ≠ [] ∧ NotAt .rbracket ts := by
  cases h
  exact ⟨List.cons_ne_nil _ _, fun t ht htok ↦ by cases ht; cases htok⟩

theorem parseEffectsClause_determined {ts rest : List Token} (h : Effects ts)
    (hrest : NoName rest) :
    Reads (parseEffectsClause P) (ts ++ rest) fun _ rest' ↦ rest' = rest := by
  refine reads_get fun s hs ↦ ?_
  change s.toks = _ at hs
  rw [hs]
  cases h with
  | none =>
      rw [List.nil_append]
      split
      · exact Bool.noConfusion (hrest _ rfl)
      · exact Yields.pure rfl
  | @clause line col line' col' line'' col'' ts names h =>
      rw [List.cons_append, List.cons_append, List.append_assoc, List.singleton_append]
      refine reads_advance (reads_advance (Yields.bind (listUntil_determined (by decide)
        effectName_determined (fun _ _ _ ↦ trivial) Name.head trivial h) ?_))
      rintro names _ ⟨_, rfl⟩
      refine reads_expectPunct fun line₁ col₁ rest₁ heq ↦ ?_
      cases heq
      exact Yields.pure rfl

theorem parseReturnType_determined :
    Determined stream id parseReturnType ReturnType (NotAt .arrow) := by
  intro ts rest ret h hrest
  refine reads_get fun s hs ↦ ?_
  rw [hs]
  cases h with
  | none =>
      rw [List.nil_append]
      split
      · next heq => exact absurd rfl (hrest _ heq)
      · exact Yields.pure ⟨rfl, rfl⟩
  | arrow line col htype =>
      refine reads_advance (Yields.bind (parseType_determined _ rest _ htype trivial) ?_)
      rintro _ _ ⟨rfl, rfl⟩
      exact Yields.pure ⟨rfl, rfl⟩

/-! ## Functions -/

/-- The methods called back into have no choice. -/
structure Settled (P : Parsers) (G : Nonterminals) : Prop where
  expression : Determined stream Expr.erase P.expression G.expression (Loose 1)
  notExpr : Determined stream Expr.erase P.notExpr G.notExpr (Loose 5)
  unary : Determined stream Expr.erase P.unary G.unary (Loose 9)
  ifExpr : Determined stream Expr.erase P.ifExpr G.ifExpr fun _ ↦ True
  block : Determined stream Block.erase P.block G.block fun _ ↦ True

theorem fnParts_determined (hP : Settled P G) (hG : G.Headed) :
    Determined stream FnParts.tree (fnParts P) (Fn strict G) fun _ ↦ True := by
  rintro _ rest f h _
  cases h with
  | @mk line col line' col' ps es rs bs _ hparams _ heffects hret hbody =>
      have hbrace : ∃ line col ts', bs ++ rest = ⟨.punct .lbrace, line, col⟩ :: ts' := by
        obtain ⟨line, col, ts', rfl⟩ := hG.block hbody
        exact ⟨line, col, ts' ++ rest, rfl⟩
      have harrow : NotAt .arrow (bs ++ rest) := by
        obtain ⟨line, col, ts', heq⟩ := hbrace
        rw [heq]
        exact notAt_cons (by decide) line col ts'
      have hname : NoName (rs ++ (bs ++ rest)) := by
        intro t ht
        generalize f.retType = ret at hret
        cases hret with
        | none =>
            obtain ⟨line, col, ts', heq⟩ := hbrace
            rw [List.nil_append, heq] at ht
            cases ht
            rfl
        | arrow line col =>
            cases ht
            rfl
      simp only [List.cons_append, List.append_assoc]
      refine Yields.bind (paramList_determined hparams) ?_
      rintro params _ ⟨rfl, rfl⟩
      refine Yields.bind (parseEffectsClause_determined heffects hname) ?_
      rintro effects _ rfl
      refine Yields.bind (parseReturnType_determined rs _ f.retType hret harrow) ?_
      rintro ret _ ⟨hret, rfl⟩
      refine reads_getScopes fun sc ↦ reads_modifyScopes ?_
      refine Yields.bind (P := fun b rest' ↦ b.1.erase = f.body ∧ rest' = rest) ?_ ?_
      · refine Yields.tryFinally (fun _ ↦ rfl) (Yields.bind (hP.block bs rest _ hbody trivial) ?_)
        rintro body _ ⟨hbody, rfl⟩
        exact reads_getScopes fun sc ↦ Yields.pure ⟨hbody, rfl⟩
      · rintro ⟨body, called⟩ _ ⟨hbody, rfl⟩
        refine Yields.pure ⟨?_, rfl⟩
        rw [FnParts.tree, hbody]
        exact congrArg (FnTree.mk f.params · f.body) hret

theorem fnStatement_determined (hP : Settled P G) (hG : G.Headed) (line : ℕ) (name : String)
    {ts rest : List Token} {f : FnTree} (h : Fn strict G ts f) :
    Reads (fnStatement P line name) (ts ++ rest) fun s rest' ↦
      s.erase = f.toStmt line name ∧ rest' = rest := by
  refine reads_modifyScopes (Yields.bind (fnParts_determined hP hG ts rest f h trivial) ?_)
  rintro f _ ⟨rfl, rfl⟩
  refine reads_modifyScopes (Yields.pure ⟨?_, rfl⟩)
  simp only [Stmt.erase, erase_markTailsBlock, FnTree.toStmt, FnTree.names, FnTree.contracts,
    FnParts.tree, Block.line_erase]

theorem fnExpr_determined (hP : Settled P G) (hG : G.Headed) (line : ℕ)
    {ts rest : List Token} {f : FnTree} (h : Fn strict G ts f) :
    Reads (fnExpr P line) (ts ++ rest) fun e rest' ↦
      e.erase = f.toExpr line ∧ rest' = rest := by
  refine Yields.bind (fnParts_determined hP hG ts rest f h trivial) ?_
  rintro f _ ⟨rfl, rfl⟩
  refine Yields.pure ⟨?_, rfl⟩
  simp only [Expr.erase, erase_markTailsBlock, FnTree.toExpr, FnTree.names, FnTree.contracts,
    FnParts.tree, Block.line_erase]

/-! ## Statements -/

theorem shapeField_determined (done : List (String × String)) :
    Determined stream id (shapeField done) ShapeField fun _ ↦ True := by
  rintro _ rest _ ⟨n, line, col, line', col', h⟩ _
  refine reads_expectName fun n' line₁ col₁ rest₁ heq ↦ ?_
  dsimp only
  split
  · exact reads_failAt
  · cases heq
    refine reads_expectPunct fun line₁ col₁ rest₁ heq ↦ ?_
    cases heq
    refine Yields.bind (parseType_determined _ rest _ h trivial) ?_
    rintro _ _ ⟨rfl, rfl⟩
    exact Yields.pure ⟨rfl, rfl⟩

theorem ShapeField.head {ts : List Token} {p : String × String} (h : ShapeField ts p) :
    ts ≠ [] ∧ NotAt .rbrace ts := by
  cases h
  exact ⟨List.cons_ne_nil _ _, fun t ht htok ↦ by cases ht; cases htok⟩

theorem shapeDef_determined (n : String) (line line₁ col₁ line₂ col₂ line₃ col₃ line₄ col₄ : ℕ)
    {ts : List Token} (rest : List Token) {fields : List (String × String)}
    (h : ListOf ShapeField ts fields) : Reads (shapeDef P line)
      (⟨.name n, line₁, col₁⟩ :: ⟨.punct .assign, line₂, col₂⟩ :: ⟨.punct .record, line₃, col₃⟩ ::
        (ts ++ ⟨.punct .rbrace, line₄, col₄⟩ :: rest)) fun s rest' ↦
      s.erase = .letStmt line n (.recordLit line (shapePairs line n fields)) ∧ rest' = rest := by
  refine reads_expectName fun n' line' col' rest' heq ↦ ?_
  refine reads_getScopes fun sc ↦ ?_
  split
  · exact reads_failAt
  · split
    · exact reads_failAt
    · cases heq
      refine reads_expectPunct fun line' col' rest' heq ↦ ?_
      cases heq
      refine reads_expectTok fun line' col' rest' heq ↦ ?_
      cases heq
      refine Yields.bind (listUntil_determined (by decide) shapeField_determined
        (fun _ _ _ ↦ trivial) ShapeField.head trivial h) ?_
      rintro fields _ ⟨rfl, rfl⟩
      refine reads_expectPunct fun line' col' rest' heq ↦ ?_
      cases heq
      refine reads_modifyScopes (Yields.pure ⟨?_, rfl⟩)
      rw [Stmt.erase, Expr.erase, erasePairs_shapePairs, List.map_id]

theorem statement_determined (hP : Settled P G) (hG : G.Headed) :
    Determined stream Stmt.erase (statement P) (Statement strict G) EndsStatement := by
  intro ts rest s h hrest
  refine reads_get fun st hst ↦ ?_
  change st.toks = _ at hst
  rw [hst]
  cases h with
  | let_ n line col line₁ col₁ line₂ col₂ h =>
      refine reads_advance (reads_expectName fun n' line' col' rest' heq ↦ ?_)
      cases heq
      refine reads_expectPunct fun line' col' rest' heq ↦ ?_
      cases heq
      refine Yields.bind (hP.expression _ rest _ h hrest.loose) ?_
      rintro e _ ⟨rfl, rfl⟩
      exact reads_modifyScopes (Yields.pure ⟨rfl, rfl⟩)
  | fn n line col line₁ col₁ h =>
      exact reads_advance (reads_advance (fnStatement_determined hP hG line n h))
  | check label line col line₁ col₁ line₂ col₂ h =>
      refine reads_advance (reads_expectString fun n' line' col' rest' heq ↦ ?_)
      cases heq
      refine reads_expectPunct fun line' col' rest' heq ↦ ?_
      cases heq
      refine Yields.bind (hP.expression _ rest _ h hrest.loose) ?_
      rintro e _ ⟨rfl, rfl⟩
      exact Yields.pure ⟨rfl, rfl⟩
  | shape n line col line₁ col₁ line₂ col₂ line₃ col₃ line₄ col₄ h =>
      have hread := shapeDef_determined (P := P) n line line₁ col₁ line₂ col₂ line₃ col₃ line₄ col₄
        rest h
      refine reads_advance ?_
      simpa using hread
  | expr h =>
      have hopens := (hG.expression h).append hrest.noName
      split
      · next heq =>
          rw [heq] at hopens
          cases hopens with
          | mk _ _ hstart => cases hstart
      · next heq =>
          rw [heq] at hopens
          cases hopens with
          | mk _ _ _ hfn =>
              obtain ⟨_, _, _, hparen⟩ := hfn rfl
              cases hparen
      · next heq =>
          rw [heq] at hopens
          cases hopens with
          | mk _ _ hstart => cases hstart
      · next heq =>
          rw [heq] at hopens
          cases hopens with
          | mk _ _ _ _ hname => cases hname rfl _ rfl
      · refine Yields.bind (hP.expression _ rest _ h hrest.loose) ?_
        rintro e _ ⟨rfl, rfl⟩
        exact Yields.pure ⟨by rw [Stmt.erase, Expr.line_erase], rfl⟩

theorem boundAfter_determined (bound : Dict ℕ) (start : Option Token) (s : Stmt)
    (ts : List Token) : Reads (boundAfter bound start s) ts fun _ rest ↦ rest = ts :=
  Yields.mono (boundAfter_reads bound start s ts) fun _ _ h ↦ h.1

/-- Where a list of statements can stop. -/
structure Stops (stop : Option Punct) : Prop where
  start : ∀ t, startsStatement t.tok = true → atEnd stop (some t) = false
  rest : ∀ ts : List Token, atEnd stop ts.head? = true →
    EndsStatement ts ∧ ∀ t ∈ ts.head?, t.tok ≠ .newline

theorem stops_program : Stops none := by
  refine ⟨fun _ _ ↦ rfl, fun ts h ↦ ?_⟩
  cases ts with
  | nil => exact ⟨fun t ht ↦ (nomatch ht), fun t ht ↦ (nomatch ht)⟩
  | cons t ts => cases h

theorem stops_block : Stops (some .rbrace) := by
  refine ⟨fun t ht ↦ ?_, fun ts h ↦ ?_⟩
  · refine decide_eq_false fun htok ↦ ?_
    rw [htok] at ht
    cases ht
  · cases ts with
    | nil => cases h
    | cons t ts =>
        have htok : t.tok = .punct .rbrace := of_decide_eq_true h
        refine ⟨fun t' ht' ↦ ?_, fun t' ht' hnewline ↦ ?_⟩
        · cases ht'
          exact .inr htok
        · cases ht'
          rw [htok] at hnewline
          cases hnewline

theorem newlines_end {ns rest : List Token} (hns : Newlines ns) (h : ns ≠ [] ∨ EndsStatement rest) :
    EndsStatement (ns ++ rest) := by
  cases ns with
  | nil => exact h.resolve_left fun h ↦ h rfl
  | cons t ns =>
      intro t' ht'
      cases ht'
      exact .inl (hns t (List.mem_cons_self ..))

/-- Statements begin with something else than a line break. -/
theorem Statements.noNewline (hG : G.Headed) {ts rest : List Token} {ss : List Stmt}
    (h : Statements strict G ts ss) (hrest : ∀ t ∈ rest.head?, t.tok ≠ .newline) :
    ∀ t ∈ (ts ++ rest).head?, t.tok ≠ .newline := by
  have hstatement {used ts' : List Token} {s : Stmt} (hs : Statement strict G used s) :
      ∀ t ∈ (used ++ ts').head?, t.tok ≠ .newline := by
    obtain ⟨t, used, rfl, hstart⟩ := hs.starts hG
    intro t' ht' hnewline
    cases ht'
    rw [hnewline] at hstart
    cases hstart
  cases h with
  | nil => exact hrest
  | last hs =>
      rw [List.append_assoc]
      exact hstatement hs
  | cons hs =>
      rw [List.append_assoc]
      exact hstatement hs

theorem stmtLoop_determined (hP : Settled P G) (hG : G.Headed) {stop : Option Punct}
    (hstop : Stops stop) {rest : List Token} (hrest : atEnd stop rest.head? = true) (k : ℕ) :
    ∀ separated bound ts ss, Statements strict G ts ss →
      Reads (stmtLoop P stop k separated bound) (ts ++ rest) fun ss' rest' ↦
        ss'.map Stmt.erase = ss ∧ rest' = rest := by
  induction k with
  | zero => exact fun _ _ _ _ _ ↦ reads_outOfFuel
  | succ k ih =>
      intro separated bound ts ss h
      have hmore {used ns ts' : List Token} {s : Stmt} {ss : List Stmt}
          (hs : Statement strict G used s) (hns : Newlines ns)
          (hss : Statements strict G ts' ss) (hnext : ns ≠ [] ∨ EndsStatement (ts' ++ rest))
          (hline : ∀ t ∈ (ts' ++ rest).head?, t.tok ≠ .newline) :
          Reads (stmtLoop P stop (k + 1) separated bound) (used ++ (ns ++ (ts' ++ rest)))
            fun ss' rest' ↦ ss'.map Stmt.erase = s :: ss ∧ rest' = rest := by
        refine reads_peek ?_
        have hstart : atEnd stop (used ++ (ns ++ (ts' ++ rest))).head? = false := by
          obtain ⟨t, used, rfl, hstart⟩ := hs.starts hG
          exact hstop.start t hstart
        rw [hstart]
        refine Yields.bind (Yields.mono (checkSeparated_reads separated _) fun _ _ h ↦ h.1) ?_
        rintro _ _ rfl
        refine Yields.bind (statement_determined hP hG used _ s hs (newlines_end hns hnext)) ?_
        rintro s' _ ⟨rfl, rfl⟩
        refine Yields.bind (boundAfter_determined bound _ s' _) ?_
        rintro bound' _ rfl
        refine Yields.bind (reads_skipNewlines_of (Q := fun _ rest' ↦ rest' = ts' ++ rest) hns hline
          rfl) ?_
        rintro separated' _ rfl
        refine Yields.bind (ih separated' bound' ts' ss hss) ?_
        rintro ss' _ ⟨rfl, rfl⟩
        exact Yields.pure ⟨rfl, rfl⟩
      cases h with
      | nil =>
          refine reads_peek ?_
          rw [List.nil_append, hrest]
          exact Yields.pure ⟨rfl, rfl⟩
      | last hs hns =>
          have h := hmore hs hns .nil (.inr (hstop.rest rest hrest).1) (hstop.rest rest hrest).2
          simpa using h
      | @cons used ns ts' s s' ss hs hns hsome hss =>
          have hline := Statements.noNewline hG hss (hstop.rest rest hrest).2
          have h := hmore hs hns hss (.inl hsome) hline
          simpa using h

theorem stmtList_determined (hP : Settled P G) (hG : G.Headed) {stop : Option Punct}
    (hstop : Stops stop) {ts : List Token} (rest : List Token)
    (hrest : atEnd stop rest.head? = true) {ss : List Stmt} (h : StmtList strict G ts ss) :
    Reads (stmtList P stop) (ts ++ rest) fun p rest' ↦
      p.1.map Stmt.erase = ss ∧ rest' = rest := by
  cases h with
  | mk hns hss =>
      rw [List.append_assoc]
      refine reads_modifyScopes (Yields.tryFinally (fun _ ↦ rfl) ?_)
      refine Yields.bind (reads_skipNewlines_of (Q := fun _ rest' ↦ rest' = _) hns
        (Statements.noNewline hG hss (hstop.rest rest hrest).2) rfl) ?_
      rintro _ _ rfl
      refine Yields.bind (stmtLoop_determined hP hG hstop hrest P.fuel true [] _ _ hss) ?_
      rintro ss' _ ⟨rfl, rfl⟩
      exact reads_getScopes fun sc ↦ Yields.pure ⟨rfl, rfl⟩

theorem block_determined (hP : Settled P G) (hG : G.Headed) :
    Determined stream Block.erase (block P) (BlockRule strict G) fun _ ↦ True := by
  rintro _ rest _ ⟨line, col, line', col', h, _⟩ _
  rw [List.cons_append, List.append_assoc, List.singleton_append]
  refine reads_expectTok fun line₁ col₁ rest₁ heq ↦ ?_
  cases heq
  refine reads_get fun s _ ↦ ?_
  split
  · exact reads_failAt
  · refine Yields.bind (stmtList_determined hP hG stops_block
      (⟨.punct .rbrace, line', col'⟩ :: rest) (by simp [atEnd]) h) ?_
    rintro ⟨ss, tag, param⟩ _ ⟨rfl, rfl⟩
    refine reads_expectPunct fun line₁ col₁ rest₁ heq ↦ ?_
    cases heq
    split
    · exact reads_failAt
    · exact Yields.pure ⟨by rw [Block.erase, eraseStmts_eq], rfl⟩
    · exact reads_failAt

/-! ## Expressions -/

theorem recordPair_determined (hP : Settled P G) (done : List (String × Expr)) :
    Determined stream (fun p ↦ (p.1, p.2.erase)) (recordPair P done) (RecordPair G) (Loose 1) := by
  rintro _ rest _ ⟨n, line, col, line', col', h⟩ hrest
  refine reads_expectName fun n' line₁ col₁ rest₁ heq ↦ ?_
  dsimp only
  split
  · exact reads_failAt
  · cases heq
    refine reads_expectPunct fun line₁ col₁ rest₁ heq ↦ ?_
    cases heq
    refine Yields.bind (hP.expression _ rest _ h hrest) ?_
    rintro _ _ ⟨rfl, rfl⟩
    exact Yields.pure ⟨rfl, rfl⟩

theorem RecordPair.head {ts : List Token} {p : String × Expr} (h : RecordPair G ts p) :
    ts ≠ [] ∧ NotAt .rbrace ts := by
  cases h
  exact ⟨List.cons_ne_nil _ _, fun t ht htok ↦ by cases ht; cases htok⟩

theorem opens_head {ts : List Token} (h : Opens ts) {close : Punct}
    (hclose : startsExpr (.punct close) = false) : ts ≠ [] ∧ NotAt close ts := by
  cases h with
  | mk t ts hstart =>
      refine ⟨List.cons_ne_nil _ _, fun t' ht' htok ↦ ?_⟩
      cases ht'
      rw [htok, hclose] at hstart
      cases hstart

theorem items_determined (close : Punct) (hP : Settled P G) (hG : G.Headed)
    (hclose : startsExpr (.punct close) = false) (hcomma : close ≠ .comma)
    (hloose : ∀ line col, tightness ⟨.punct close, line, col⟩ < 1) {line col : ℕ}
    {ts rest : List Token} {es : List Expr} (h : ListOf G.expression ts es) :
    Reads (listUntil P close fun _ ↦ P.expression) (ts ++ ⟨.punct close, line, col⟩ :: rest)
      fun es' rest' ↦ es'.map Expr.erase = es ∧ rest' = ⟨.punct close, line, col⟩ :: rest :=
  listUntil_determined hcomma (fun _ ↦ hP.expression)
    (fun _ _ ts ↦ loose_cons ts Nat.zero_lt_one)
    (fun h ↦ opens_head (hG.expression h) hclose) (loose_cons rest (hloose line col)) h

theorem primary_determined (hP : Settled P G) (hG : G.Headed) :
    Determined stream Expr.erase (primary P) (Primary strict G) fun _ ↦ True := by
  intro ts rest e h _
  refine reads_get fun s hs ↦ ?_
  rw [hs]
  cases h with
  | list line col line' col' h =>
      rw [List.cons_append, List.append_assoc, List.singleton_append]
      refine reads_advance (Yields.bind
        (items_determined .rbracket hP hG rfl (by decide) (fun _ _ ↦ Nat.zero_lt_one) h) ?_)
      rintro items _ ⟨rfl, rfl⟩
      refine reads_expectPunct fun line₁ col₁ rest₁ heq ↦ ?_
      cases heq
      exact Yields.pure ⟨by rw [Expr.erase, eraseItems_eq], rfl⟩
  | record line col line' col' h =>
      rw [List.cons_append, List.append_assoc, List.singleton_append]
      refine reads_advance (Yields.bind (listUntil_determined (by decide)
        (recordPair_determined hP) (fun _ _ ts ↦ loose_cons ts Nat.zero_lt_one) RecordPair.head
        (loose_cons rest Nat.zero_lt_one) h) ?_)
      rintro pairs _ ⟨rfl, rfl⟩
      refine reads_expectPunct fun line₁ col₁ rest₁ heq ↦ ?_
      cases heq
      exact Yields.pure ⟨by rw [Expr.erase, erasePairs_eq], rfl⟩
  | paren line col line' col' h =>
      rw [List.cons_append, List.append_assoc, List.singleton_append]
      refine reads_advance (Yields.bind
        (hP.expression _ _ e h (loose_cons rest Nat.zero_lt_one)) ?_)
      rintro e _ ⟨rfl, rfl⟩
      refine reads_expectPunct fun line₁ col₁ rest₁ heq ↦ ?_
      cases heq
      exact Yields.pure ⟨rfl, rfl⟩
  | if_ h =>
      have hread := hP.ifExpr ts rest e h trivial
      obtain ⟨line, col, ts, rfl⟩ := hG.ifExpr h
      exact hread
  | block h =>
      have hread := hP.block ts rest _ h trivial
      obtain ⟨line, col, ts, rfl⟩ := hG.block h
      refine Yields.bind hread ?_
      rintro b _ ⟨rfl, rfl⟩
      exact Yields.pure ⟨rfl, rfl⟩
  | fn line col h => exact reads_advance (fnExpr_determined hP hG line h)
  | _ => exact reads_advance (Yields.pure ⟨rfl, rfl⟩)

theorem postfixLoop_determined (hP : Settled P G) (hG : G.Headed) {rest : List Token}
    (hrest : Loose 9 rest) (k : ℕ) :
    ∀ e ts b, ChainTail (Suffix G) e.erase ts b →
      Reads (postfixLoop P k e) (ts ++ rest) fun e' rest' ↦ e'.erase = b ∧ rest' = rest := by
  induction k with
  | zero => exact fun _ _ _ _ ↦ reads_outOfFuel
  | succ k ih =>
      intro e ts b h
      refine reads_get fun s hs ↦ ?_
      rw [hs]
      generalize he : e.erase = e₀ at h
      cases h with
      | done =>
          rw [List.nil_append]
          split
          · next heq => exact absurd (hrest _ heq) (Nat.lt_irrefl 9)
          · next heq => exact absurd (hrest _ heq) (Nat.lt_irrefl 9)
          · next heq => exact absurd (hrest _ heq) (Nat.lt_irrefl 9)
          · exact Yields.pure ⟨he, rfl⟩
      | @more ts ts' _ _ _ hsuffix htail =>
          rw [List.append_assoc]
          cases hsuffix with
          | call line col line' col' h =>
              rw [List.cons_append, List.append_assoc, List.singleton_append]
              refine reads_advance (Yields.bind
                (items_determined .rparen hP hG rfl (by decide) (fun _ _ ↦ Nat.zero_lt_one) h) ?_)
              rintro args _ ⟨rfl, rfl⟩
              refine reads_expectPunct fun line₁ col₁ rest₁ heq ↦ ?_
              cases heq
              refine Yields.bind (checkCall_reads _ _ _ _) ?_
              rintro _ _ rfl
              refine ih _ ts' b ?_
              rw [Expr.erase, eraseItems_eq, he]
              exact htail
          | index line col line' col' h =>
              rw [List.cons_append, List.append_assoc, List.singleton_append]
              refine reads_advance (Yields.bind
                (hP.expression _ _ _ h (loose_cons _ Nat.zero_lt_one)) ?_)
              rintro i _ ⟨rfl, rfl⟩
              refine reads_expectPunct fun line₁ col₁ rest₁ heq ↦ ?_
              cases heq
              refine ih _ ts' b ?_
              rw [Expr.erase, he]
              exact htail
          | field n line col line' col' =>
              refine reads_advance (reads_expectName fun n' line₁ col₁ rest₁ heq ↦ ?_)
              cases heq
              refine ih _ ts' b ?_
              rw [Expr.erase, he]
              exact htail

theorem postfix_determined (hP : Settled P G) (hG : G.Headed) :
    Determined stream Expr.erase (postfix_ P) (Postfix strict G) (Loose 9) := by
  intro ts rest b h hrest
  obtain ⟨ts₁, ts₂, a, rfl, ha, htail⟩ := h.unroll
  rw [List.append_assoc]
  refine Yields.bind (primary_determined hP hG ts₁ _ a ha trivial) ?_
  rintro e _ ⟨rfl, rfl⟩
  exact postfixLoop_determined hP hG hrest P.fuel e ts₂ b htail

theorem primary_head (hG : G.Headed) {ts : List Token} {e : Expr} (h : Primary strict G ts e) :
    ∃ t ts', ts = t :: ts' ∧ prefixOp t = none ∧ t.tok ≠ .kw .not := by
  cases h with
  | if_ h =>
      obtain ⟨line, col, ts', rfl⟩ := hG.ifExpr h
      exact ⟨_, ts', rfl, rfl, fun h ↦ nomatch h⟩
  | block h =>
      obtain ⟨line, col, ts', rfl⟩ := hG.block h
      exact ⟨_, ts', rfl, rfl, fun h ↦ nomatch h⟩
  | _ => exact ⟨_, _, rfl, rfl, fun h ↦ nomatch h⟩

theorem unary_determined (hP : Settled P G) (hG : G.Headed) :
    Determined stream Expr.erase (unary P) (Unary strict G) (Loose 9) := by
  intro ts rest b h hrest
  refine reads_get fun s hs ↦ ?_
  rw [hs]
  cases h with
  | postfix_ h =>
      have hread := postfix_determined hP hG ts rest b h hrest
      obtain ⟨t, ts, rfl, hprefix, _⟩ := h.head (primary_head hG)
      rw [List.cons_append, List.head?_cons, Option.bind_some, (tables_eq t).1, hprefix]
      exact hread
  | op hop h =>
      rw [List.cons_append, List.head?_cons, Option.bind_some, (tables_eq _).1, hop]
      refine reads_advance (Yields.bind (reads_nested (hP.unary _ rest _ h hrest)) ?_)
      rintro e _ ⟨rfl, rfl⟩
      exact Yields.pure ⟨prefixOp_erase hop e, rfl⟩

theorem leftLevel_determined {operand : M Expr} {L : Lang Token Expr}
    {op : Token → Option (Expr → Expr → Expr)} {level tighter : ℕ}
    (hop : ∀ t, op t = opAt level t) (hlevel : level < tighter)
    (hoperand : Determined stream Expr.erase operand L (Loose tighter)) :
    Determined stream Expr.erase (leftLevel P operand op) (LeftAssoc L (opAt level))
      (Loose level) := by
  intro ts rest b h hrest
  rw [funext hop]
  refine leftAssoc_determined hoperand opAt_erase ?_ P.fuel ts rest b h
    ⟨hrest.mono hlevel.le, hrest.noOp⟩
  intro t ts hop
  obtain ⟨f, hf⟩ := Option.ne_none_iff_exists'.mp hop
  exact loose_cons ts (tightness_of_opAt hf ▸ hlevel)

theorem additive_determined (hP : Settled P G) (hG : G.Headed) :
    Determined stream Expr.erase (additive P) (Additive strict G) (Loose 6) :=
  leftLevel_determined (fun t ↦ (tables_eq t).2.2.1) (by decide)
    (leftLevel_determined (fun t ↦ (tables_eq t).2.1) (by decide) (unary_determined hP hG))

theorem comparison_determined (hP : Settled P G) (hG : G.Headed) :
    Determined stream Expr.erase (comparison P) (Comparison strict G) (Loose 5) := by
  intro ts rest b h hrest
  have hnone : rest.head?.bind compareOp = none := by
    have hnoop := hrest.noOp
    rwa [NoOp, ← funext fun t ↦ (tables_eq t).2.2.2.1] at hnoop
  cases h with
  | additive h =>
      refine Yields.bind (additive_determined hP hG ts rest b h (hrest.mono (by decide))) ?_
      rintro left _ ⟨rfl, rfl⟩
      refine reads_get fun s hs ↦ ?_
      rw [hs, hnone]
      exact Yields.pure ⟨rfl, rfl⟩
  | @op ts ts' t node left right hleft hop hright =>
      rw [List.append_assoc, List.cons_append]
      have hloose : Loose 6 (t :: (ts' ++ rest)) :=
        loose_cons _ (by rw [tightness_of_opAt hop]; decide)
      refine Yields.bind (additive_determined hP hG ts _ left hleft hloose) ?_
      rintro left _ ⟨rfl, rfl⟩
      refine reads_get fun s hs ↦ ?_
      rw [hs, List.head?_cons, Option.bind_some, (tables_eq t).2.2.2.1, hop]
      refine reads_advance (Yields.bind
        (additive_determined hP hG ts' rest right hright (hrest.mono (by decide))) ?_)
      rintro right _ ⟨rfl, rfl⟩
      refine reads_get fun s' hs' ↦ ?_
      rw [hs', hnone]
      exact Yields.pure ⟨opAt_erase t node left right hop, rfl⟩

theorem comparison_head (hG : G.Headed) {ts : List Token} {e : Expr}
    (h : Comparison strict G ts e) : ∃ t ts', ts = t :: ts' ∧ t.tok ≠ .kw .not := by
  have hunary {ts : List Token} {e : Expr} (h : Unary strict G ts e) :
      ∃ t ts', ts = t :: ts' ∧ t.tok ≠ .kw .not := by
    cases h with
    | postfix_ h =>
        obtain ⟨t, ts', rfl, _, ht⟩ := h.head (primary_head hG)
        exact ⟨t, ts', rfl, ht⟩
    | op hop _ =>
        refine ⟨_, _, rfl, fun htok ↦ ?_⟩
        simp [prefixOp, htok] at hop
  have hadditive {ts : List Token} {e : Expr} (h : Additive strict G ts e) :
      ∃ t ts', ts = t :: ts' ∧ t.tok ≠ .kw .not :=
    h.head fun h ↦ h.head hunary
  cases h with
  | additive h => exact hadditive h
  | op hleft _ _ =>
      obtain ⟨t, ts', rfl, ht⟩ := hadditive hleft
      exact ⟨t, _, rfl, ht⟩

theorem notExpr_determined (hP : Settled P G) (hG : G.Headed) :
    Determined stream Expr.erase (notExpr P) (NotExpr strict G) (Loose 5) := by
  intro ts rest b h hrest
  refine reads_get fun s hs ↦ ?_
  rw [hs]
  cases h with
  | comparison h =>
      have hread := comparison_determined hP hG ts rest b h hrest
      obtain ⟨t, ts, rfl, ht⟩ := comparison_head hG h
      split
      · next heq =>
          cases heq
          exact absurd rfl ht
      · exact hread
  | not line col h =>
      refine reads_advance (Yields.bind (hP.notExpr _ rest _ h hrest) ?_)
      rintro e _ ⟨rfl, rfl⟩
      exact Yields.pure ⟨rfl, rfl⟩

theorem expression_determined (hP : Settled P G) (hG : G.Headed) :
    Determined stream Expr.erase (expression P) (Expression strict G) (Loose 1) :=
  fun ts rest b h hrest ↦
    reads_nested (leftLevel_determined (fun t ↦ (tables_eq t).2.2.2.2.2.2) (by decide)
      (leftLevel_determined (fun t ↦ (tables_eq t).2.2.2.2.2.1) (by decide)
        (leftLevel_determined (fun t ↦ (tables_eq t).2.2.2.2.1) (by decide)
          (notExpr_determined hP hG))) ts rest b h hrest)

theorem elseBranch_determined (hP : Settled P G) (hG : G.Headed) :
    Determined stream Expr.erase (elseBranch P) (ElseBranch G) fun _ ↦ True := by
  intro ts rest b h _
  refine reads_at ?_
  cases h with
  | if_ h =>
      have hread := hP.ifExpr ts rest b h trivial
      obtain ⟨line, col, ts, rfl⟩ := hG.ifExpr h
      exact reads_nested hread
  | block h =>
      have hread := hP.block ts rest _ h trivial
      obtain ⟨line, col, ts, rfl⟩ := hG.block h
      refine Yields.bind hread ?_
      rintro b _ ⟨rfl, rfl⟩
      exact Yields.pure ⟨rfl, rfl⟩

theorem ifExpr_determined (hP : Settled P G) (hG : G.Headed) :
    Determined stream Expr.erase (ifExpr P) (IfExpr G) fun _ ↦ True := by
  rintro _ rest _ (@⟨line, col, line', col', cs, bs, ns, es, _, _, _, hcond, hthen, hns, helse⟩) _
  simp only [List.cons_append, List.append_assoc]
  refine reads_expectTok fun line₁ col₁ rest₁ heq ↦ ?_
  cases heq
  have hloose (ts : List Token) : Loose 1 (bs ++ ts) := by
    obtain ⟨line, col, ts', rfl⟩ := hG.block hthen
    exact loose_cons _ Nat.zero_lt_one
  refine Yields.bind (hP.expression _ _ _ hcond (hloose _)) ?_
  rintro cond _ ⟨rfl, rfl⟩
  refine Yields.bind (hP.block _ _ _ hthen trivial) ?_
  rintro b _ ⟨rfl, rfl⟩
  refine Yields.bind (reads_skipNewlines_of (Q := fun _ rest' ↦ rest' = _) hns
    (fun t ht ↦ by cases ht; exact fun h ↦ nomatch h) rfl) ?_
  rintro _ _ rfl
  refine reads_get fun s hs ↦ ?_
  rw [hs]
  refine reads_advance (Yields.bind (elseBranch_determined hP hG _ rest _ helse trivial) ?_)
  rintro otherwise _ ⟨rfl, rfl⟩
  exact Yields.pure ⟨rfl, rfl⟩

end Unique

/-! ## The parser -/

theorem parsers_settled (strict : Bool) (n : ℕ) :
    ∀ m, Settled (parsers n) (grammar strict m) := by
  induction n with
  | zero =>
      exact fun _ ↦ ⟨fun _ _ _ _ _ ↦ reads_outOfFuel, fun _ _ _ _ _ ↦ reads_outOfFuel,
        fun _ _ _ _ _ ↦ reads_outOfFuel, fun _ _ _ _ _ ↦ reads_outOfFuel,
        fun _ _ _ _ _ ↦ reads_outOfFuel⟩
  | succ n ih =>
      intro m
      cases m with
      | zero => exact ⟨nofun, nofun, nofun, nofun, nofun⟩
      | succ m =>
          have hG := grammar_headed strict m
          exact ⟨expression_determined (ih m) hG, notExpr_determined (ih m) hG,
            unary_determined (ih m) hG, ifExpr_determined (ih m) hG, block_determined (ih m) hG⟩

/-- What the tokens of an accepted program derive is that program. -/
theorem parse_unique {strict : Bool} {fuel eofLine eofCol : ℕ} {toks : List Token}
    {program tree : List Stmt} (h : parse fuel toks eofLine eofCol = .ok program)
    (htree : Derives strict toks tree) : tree = eraseStmts program := by
  obtain ⟨m, htree⟩ := htree
  have hreads : Reads (parseProgram (parsers fuel)) toks fun program _ ↦
      program.map Stmt.erase = tree := by
    have hlist := stmtList_determined (parsers_settled strict fuel m) (grammar_headed strict m)
      stops_program [] rfl htree
    rw [List.append_nil] at hlist
    refine Yields.bind hlist ?_
    rintro ⟨ss, tag, param⟩ rest ⟨hss, _⟩
    exact Yields.pure hss
  have hrun := hreads (.init toks eofLine eofCol) rfl
  unfold Exec.wp at hrun
  unfold parse at h
  split at hrun
  · next heq =>
      rw [heq] at h
      cases h
      rw [eraseStmts_eq]
      exact hrun.symm
  · next heq =>
      rw [heq] at h
      cases h

end NucLlm.Whence.Parser
