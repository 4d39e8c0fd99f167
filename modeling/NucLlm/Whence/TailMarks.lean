import NucLlm.Whence.ParserSound

/-!
# Tail marks

Where a call is marked as a tail call.  A function's body is in tail position,
and so are the branches of an `if` and the last expression of a block that are
in tail position themselves.
-/

namespace NucLlm.Whence

mutual

/-- The calls are marked that are in tail position of the innermost function, and no others;
`tail` says whether the expression itself is in tail position. -/
def Expr.TailMarked (tail : Bool) : Expr → Prop
  | .num _ _ | .str _ _ | .boolLit _ _ | .nameRef _ _ => True
  | .listLit _ items => TailMarkedItems items
  | .recordLit _ pairs => TailMarkedPairs pairs
  | .missLit _ operand | .unary _ _ operand | .why _ operand | .snip _ operand
  | .fieldAccess _ operand _ => operand.TailMarked false
  | .binary _ _ left right | .rescue _ left right | .index _ left right =>
      left.TailMarked false ∧ right.TailMarked false
  | .call _ fn args mark => mark = tail ∧ fn.TailMarked false ∧ TailMarkedItems args
  | .ifExpr _ cond thenBlock otherwise =>
      cond.TailMarked false ∧ thenBlock.TailMarked tail ∧ otherwise.TailMarked tail
  | .fnExpr _ _ body _ _ _ => body.TailMarked true
  | .block b => b.TailMarked tail

def TailMarkedItems : List Expr → Prop
  | [] => True
  | e :: es => e.TailMarked false ∧ TailMarkedItems es

def TailMarkedPairs : List (String × Expr) → Prop
  | [] => True
  | (_, e) :: pairs => e.TailMarked false ∧ TailMarkedPairs pairs

def Stmt.TailMarked (tail : Bool) : Stmt → Prop
  | .letStmt _ _ e | .check _ _ e => e.TailMarked false
  | .fnDef _ _ _ body _ _ => body.TailMarked true
  | .exprStmt _ e => e.TailMarked tail

/-- Only the last of the statements may be in tail position. -/
def TailMarkedStmts (tail : Bool) : List Stmt → Prop
  | [] => True
  | [s] => s.TailMarked tail
  | s :: ss => s.TailMarked false ∧ TailMarkedStmts tail ss

def Block.TailMarked (tail : Bool) : Block → Prop
  | .mk _ stmts _ _ => TailMarkedStmts tail stmts

end

/-! ## Functions -/

mutual

/-- The bodies of the functions of an expression. -/
def Expr.bodies : Expr → List Block
  | .num _ _ | .str _ _ | .boolLit _ _ | .nameRef _ _ => []
  | .listLit _ items => itemsBodies items
  | .recordLit _ pairs => pairsBodies pairs
  | .missLit _ operand | .unary _ _ operand | .why _ operand | .snip _ operand
  | .fieldAccess _ operand _ => operand.bodies
  | .binary _ _ left right | .rescue _ left right | .index _ left right =>
      left.bodies ++ right.bodies
  | .call _ fn args _ => fn.bodies ++ itemsBodies args
  | .ifExpr _ cond thenBlock otherwise => cond.bodies ++ thenBlock.bodies ++ otherwise.bodies
  | .fnExpr _ _ body _ _ _ => body :: body.bodies
  | .block b => b.bodies

def itemsBodies : List Expr → List Block
  | [] => []
  | e :: es => e.bodies ++ itemsBodies es

def pairsBodies : List (String × Expr) → List Block
  | [] => []
  | (_, e) :: pairs => e.bodies ++ pairsBodies pairs

def Stmt.bodies : Stmt → List Block
  | .letStmt _ _ e | .check _ _ e | .exprStmt _ e => e.bodies
  | .fnDef _ _ _ body _ _ => body :: body.bodies

def stmtsBodies : List Stmt → List Block
  | [] => []
  | s :: ss => s.bodies ++ stmtsBodies ss

def Block.bodies : Block → List Block
  | .mk _ stmts _ _ => stmtsBodies stmts

end

theorem tailMarkedItems_iff (es : List Expr) :
    TailMarkedItems es ↔ ∀ e ∈ es, e.TailMarked false := by
  induction es with
  | nil => simp [TailMarkedItems]
  | cons e es ih => simp [TailMarkedItems, ih]

theorem tailMarkedPairs_iff (pairs : List (String × Expr)) :
    TailMarkedPairs pairs ↔ ∀ p ∈ pairs, p.2.TailMarked false := by
  induction pairs with
  | nil => simp [TailMarkedPairs]
  | cons p pairs ih =>
      obtain ⟨key, e⟩ := p
      simp [TailMarkedPairs, ih]

theorem tailMarkedStmts_iff (ss : List Stmt) :
    TailMarkedStmts false ss ↔ ∀ s ∈ ss, s.TailMarked false := by
  induction ss with
  | nil => simp [TailMarkedStmts]
  | cons s ss ih =>
      cases ss with
      | nil => simp [TailMarkedStmts]
      | cons s' ss => simp [TailMarkedStmts, ih]

mutual

/-- The body of a function is in tail position. -/
theorem Expr.TailMarked.bodies :
    (e : Expr) → {tail : Bool} → e.TailMarked tail → ∀ b ∈ e.bodies, b.TailMarked true
  | .num _ _, _, _ | .str _ _, _, _ | .boolLit _ _, _, _ | .nameRef _ _, _, _ => by
      simp [Expr.bodies]
  | .listLit _ items, _, h => by
      simp only [Expr.TailMarked] at h
      simpa only [Expr.bodies] using tailMarkedItems_bodies items h
  | .recordLit _ pairs, _, h => by
      simp only [Expr.TailMarked] at h
      simpa only [Expr.bodies] using tailMarkedPairs_bodies pairs h
  | .missLit _ operand, _, h | .unary _ _ operand, _, h | .why _ operand, _, h
  | .snip _ operand, _, h | .fieldAccess _ operand _, _, h => by
      simp only [Expr.TailMarked] at h
      simpa only [Expr.bodies] using Expr.TailMarked.bodies operand h
  | .binary _ _ left right, _, h | .rescue _ left right, _, h | .index _ left right, _, h => by
      simp only [Expr.TailMarked] at h
      simp only [Expr.bodies, List.forall_mem_append]
      exact ⟨Expr.TailMarked.bodies left h.1, Expr.TailMarked.bodies right h.2⟩
  | .call _ fn args _, _, h => by
      simp only [Expr.TailMarked] at h
      simp only [Expr.bodies, List.forall_mem_append]
      exact ⟨Expr.TailMarked.bodies fn h.2.1, tailMarkedItems_bodies args h.2.2⟩
  | .ifExpr _ cond thenBlock otherwise, _, h => by
      simp only [Expr.TailMarked] at h
      simp only [Expr.bodies, List.forall_mem_append]
      exact ⟨⟨Expr.TailMarked.bodies cond h.1, Block.TailMarked.bodies thenBlock h.2.1⟩,
        Expr.TailMarked.bodies otherwise h.2.2⟩
  | .fnExpr _ _ body _ _ _, _, h => by
      simp only [Expr.TailMarked] at h
      simp only [Expr.bodies, List.forall_mem_cons]
      exact ⟨h, Block.TailMarked.bodies body h⟩
  | .block b, _, h => by
      simp only [Expr.TailMarked] at h
      simpa only [Expr.bodies] using Block.TailMarked.bodies b h

theorem tailMarkedItems_bodies :
    (es : List Expr) → TailMarkedItems es → ∀ b ∈ itemsBodies es, b.TailMarked true
  | [], _ => by simp [itemsBodies]
  | e :: es, h => by
      simp only [TailMarkedItems] at h
      simp only [itemsBodies, List.forall_mem_append]
      exact ⟨Expr.TailMarked.bodies e h.1, tailMarkedItems_bodies es h.2⟩

theorem tailMarkedPairs_bodies :
    (pairs : List (String × Expr)) → TailMarkedPairs pairs →
      ∀ b ∈ pairsBodies pairs, b.TailMarked true
  | [], _ => by simp [pairsBodies]
  | (_, e) :: pairs, h => by
      simp only [TailMarkedPairs] at h
      simp only [pairsBodies, List.forall_mem_append]
      exact ⟨Expr.TailMarked.bodies e h.1, tailMarkedPairs_bodies pairs h.2⟩

theorem Stmt.TailMarked.bodies :
    (s : Stmt) → {tail : Bool} → s.TailMarked tail → ∀ b ∈ s.bodies, b.TailMarked true
  | .letStmt _ _ e, _, h | .check _ _ e, _, h | .exprStmt _ e, _, h => by
      simp only [Stmt.TailMarked] at h
      simpa only [Stmt.bodies] using Expr.TailMarked.bodies e h
  | .fnDef _ _ _ body _ _, _, h => by
      simp only [Stmt.TailMarked] at h
      simp only [Stmt.bodies, List.forall_mem_cons]
      exact ⟨h, Block.TailMarked.bodies body h⟩

theorem tailMarkedStmts_bodies :
    (ss : List Stmt) → {tail : Bool} → TailMarkedStmts tail ss →
      ∀ b ∈ stmtsBodies ss, b.TailMarked true
  | [], _, _ => by simp [stmtsBodies]
  | [s], _, h => by
      simp only [TailMarkedStmts] at h
      simpa only [stmtsBodies, List.append_nil] using Stmt.TailMarked.bodies s h
  | s :: s' :: ss, _, h => by
      simp only [TailMarkedStmts] at h
      have hrest := tailMarkedStmts_bodies (s' :: ss) h.2
      rw [stmtsBodies, List.forall_mem_append]
      exact ⟨Stmt.TailMarked.bodies s h.1, hrest⟩

theorem Block.TailMarked.bodies :
    (b : Block) → {tail : Bool} → b.TailMarked tail → ∀ c ∈ b.bodies, c.TailMarked true
  | .mk _ stmts _ _, _, h => by
      simp only [Block.TailMarked] at h
      simpa only [Block.bodies] using tailMarkedStmts_bodies stmts h

end

namespace Parser

/-! ## Marking -/

theorem markTailsStmts_ne_nil (s : Stmt) (ss : List Stmt) : markTailsStmts (s :: ss) ≠ [] := by
  cases ss with
  | nil => cases s <;> simp [markTailsStmts]
  | cons s' ss => simp [markTailsStmts]

mutual

/-- `mark_tails` marks what was not in tail position as being there. -/
theorem tailMarked_markTails : (e : Expr) → e.TailMarked false → (markTails e).TailMarked true
  | .call _ _ _ _, h => by
      simp only [Expr.TailMarked] at h
      simp only [markTails, Expr.TailMarked, true_and]
      exact h.2
  | .ifExpr _ _ thenBlock otherwise, h => by
      simp only [Expr.TailMarked] at h
      simp only [markTails, Expr.TailMarked]
      exact ⟨h.1, tailMarked_markTailsBlock thenBlock h.2.1, tailMarked_markTails otherwise h.2.2⟩
  | .block b, h => by
      simp only [Expr.TailMarked] at h
      simp only [markTails, Expr.TailMarked]
      exact tailMarked_markTailsBlock b h
  | .num _ _, _ | .str _ _, _ | .boolLit _ _, _ | .nameRef _ _, _ => by
      simp only [markTails, Expr.TailMarked]
  | .listLit _ _, h
  | .recordLit _ _, h | .missLit _ _, h | .unary _ _ _, h | .why _ _, h | .snip _ _, h
  | .fieldAccess _ _ _, h | .binary _ _ _ _, h | .rescue _ _ _, h | .index _ _ _, h
  | .fnExpr _ _ _ _ _ _, h => by
      simpa only [markTails, Expr.TailMarked] using h

theorem tailMarked_markTailsBlock :
    (b : Block) → b.TailMarked false → (markTailsBlock b).TailMarked true
  | .mk _ stmts _ _, h => by
      simp only [Block.TailMarked] at h
      simp only [markTailsBlock, Block.TailMarked]
      exact tailMarked_markTailsStmts stmts h

theorem tailMarked_markTailsStmts :
    (ss : List Stmt) → TailMarkedStmts false ss → TailMarkedStmts true (markTailsStmts ss)
  | [], _ => by simp only [markTailsStmts, TailMarkedStmts]
  | [.exprStmt _ e], h => by
      simp only [TailMarkedStmts, Stmt.TailMarked] at h
      simp only [markTailsStmts, TailMarkedStmts, Stmt.TailMarked]
      exact tailMarked_markTails e h
  | [.letStmt _ _ _], h | [.check _ _ _], h | [.fnDef _ _ _ _ _ _], h => by
      simpa only [markTailsStmts, TailMarkedStmts, Stmt.TailMarked] using h
  | s :: s' :: ss, h => by
      simp only [TailMarkedStmts] at h
      have hrest := tailMarked_markTailsStmts (s' :: ss) h.2
      cases hmarked : markTailsStmts (s' :: ss) with
      | nil => exact absurd hmarked (markTailsStmts_ne_nil s' ss)
      | cons m ms =>
          rw [hmarked] at hrest
          simp only [markTailsStmts, hmarked, TailMarkedStmts]
          exact ⟨h.1, hrest⟩

end

/-! ## Parsing -/

open Parsing Exec Grammar

/-- The methods return what has no call in tail position, as far as functions have been left. -/
structure MarksTails (P : Parsers) : Prop where
  expression : P.expression.Returns (Expr.TailMarked false)
  notExpr : P.notExpr.Returns (Expr.TailMarked false)
  unary : P.unary.Returns (Expr.TailMarked false)
  ifExpr : P.ifExpr.Returns (Expr.TailMarked false)
  block : P.block.Returns (Block.TailMarked false)

theorem listUntil_returns {α : Type} {Q : α → Prop} (P : Parsers) (close : Punct)
    {item : List α → M α} (hitem : ∀ done, (item done).Returns Q) :
    (listUntil P close item).Returns fun as ↦ ∀ a ∈ as, Q a := by
  apply Returns.after
  intro empty
  split
  · exact gives_pure nofun
  · exact sepLoop_returns hitem P.fuel [] nofun

theorem failAt_returns {α : Type} (tok : Option Token) (message : String) (Q : α → Prop) :
    (failAt tok message : M α).Returns Q := by
  refine Returns.after fun s ↦ ?_
  cases tok with
  | none => exact gives_fail trivial
  | some t => exact gives_fail trivial

theorem nested_returns {α : Type} {Q : α → Prop} {m : M α} (hm : m.Returns Q) :
    (nested m).Returns Q :=
  Returns.after fun _ ↦ hm.tryFinally

section

variable {P : Parsers} (hP : MarksTails P)

include hP

theorem fnParts_returns : (fnParts P).Returns fun f ↦ f.body.TailMarked false := by
  iterate 5 refine Returns.after fun _ ↦ ?_
  have hbody : (do
      let body ← P.block
      let sc ← getScopes
      pure (body, sc.directParamCallsStack.head?.getD []) : M (Block × List String)).Returns
        fun r ↦ r.1.TailMarked false := by
    apply hP.block.bind
    intro body hmarked
    exact Returns.after fun _ ↦ gives_pure hmarked
  apply hbody.tryFinally.bind
  rintro ⟨body, called⟩ hmarked
  exact gives_pure hmarked

theorem fnStatement_returns (line : ℕ) (name : String) :
    (fnStatement P line name).Returns (Stmt.TailMarked false) := by
  refine Returns.after fun _ ↦ ?_
  apply (fnParts_returns hP).bind
  intro f hbody
  refine Returns.after fun _ ↦ gives_pure ?_
  simp only [Stmt.TailMarked]
  exact tailMarked_markTailsBlock f.body hbody

theorem fnExpr_returns (line : ℕ) : (fnExpr P line).Returns (Expr.TailMarked false) := by
  apply (fnParts_returns hP).bind
  intro f hbody
  apply gives_pure
  simp only [Expr.TailMarked]
  exact tailMarked_markTailsBlock f.body hbody

theorem letStatement_returns (line : ℕ) :
    (letStatement P line).Returns (Stmt.TailMarked false) := by
  iterate 2 refine Returns.after fun _ ↦ ?_
  apply hP.expression.bind
  intro e he
  refine Returns.after fun _ ↦ gives_pure ?_
  simpa only [Stmt.TailMarked] using he

theorem checkStatement_returns (line : ℕ) :
    (checkStatement P line).Returns (Stmt.TailMarked false) := by
  iterate 2 refine Returns.after fun _ ↦ ?_
  apply hP.expression.bind
  intro e he
  apply gives_pure
  simpa only [Stmt.TailMarked] using he

omit hP in
theorem shapeDef_returns (line : ℕ) : (shapeDef P line).Returns (Stmt.TailMarked false) := by
  refine Returns.after fun (tok, name) ↦ Returns.after fun sc ↦ ?_
  split
  · exact failAt_returns _ _ _
  · split
    · exact failAt_returns _ _ _
    · iterate 5 refine Returns.after fun _ ↦ ?_
      apply gives_pure
      simp only [Stmt.TailMarked, Expr.TailMarked, tailMarkedPairs_iff, shapePairs]
      intro p hp
      rcases List.mem_cons.mp hp with rfl | hp
      · simp only [Expr.TailMarked]
      · obtain ⟨f, _, rfl⟩ := List.mem_map.mp hp
        unfold typeSpecExpr
        split <;> simp only [TypeSpec.toExpr, Expr.TailMarked]

theorem statement_returns : (statement P).Returns (Stmt.TailMarked false) := by
  refine Returns.after fun s ↦ ?_
  split
  · exact Returns.after fun _ ↦ letStatement_returns hP _
  · exact Returns.after fun _ ↦ Returns.after fun _ ↦ fnStatement_returns hP _ _
  · exact Returns.after fun _ ↦ checkStatement_returns hP _
  · exact Returns.after fun _ ↦ shapeDef_returns _
  · apply hP.expression.bind
    intro e he
    apply gives_pure
    simpa only [Stmt.TailMarked] using he

theorem stmtLoop_returns (stop : Option Punct) (k : ℕ) : ∀ separated bound,
    (stmtLoop P stop k separated bound).Returns fun ss ↦ ∀ s ∈ ss, s.TailMarked false := by
  induction k with
  | zero => exact fun _ _ ↦ gives_fail trivial
  | succ k ih =>
      intro separated bound
      refine Returns.after fun start ↦ ?_
      split
      · exact gives_pure nofun
      · refine Returns.after fun _ ↦ ?_
        apply (statement_returns hP).bind
        intro s hs
        refine Returns.after fun bound' ↦ Returns.after fun separated' ↦ ?_
        apply (ih separated' bound').bind
        intro ss hss
        exact gives_pure (List.forall_mem_cons.mpr ⟨hs, hss⟩)

theorem stmtList_returns (stop : Option Punct) :
    (stmtList P stop).Returns fun r ↦ ∀ s ∈ r.1, s.TailMarked false := by
  refine Returns.after fun _ ↦ Gives.tryFinally ?_
  refine Returns.after fun _ ↦ ?_
  apply (stmtLoop_returns hP stop P.fuel true []).bind
  intro ss hss
  exact Returns.after fun _ ↦ gives_pure hss

theorem block_returns : (block P).Returns (Block.TailMarked false) := by
  refine Returns.after fun opening ↦ Returns.after fun s ↦ ?_
  dsimp only
  split
  · exact failAt_returns _ _ _
  · apply (stmtList_returns hP _).bind
    rintro ⟨ss, tag, param⟩ hss
    refine Returns.after fun close ↦ ?_
    dsimp only
    split
    · exact failAt_returns _ _ _
    · apply gives_pure
      simpa only [Block.TailMarked, tailMarkedStmts_iff] using hss
    · exact failAt_returns _ _ _

theorem recordPair_returns (done : List (String × Expr)) :
    (recordPair P done).Returns fun p ↦ p.2.TailMarked false := by
  refine Returns.after fun (tok, name) ↦ ?_
  dsimp only
  split
  · exact failAt_returns _ _ _
  · refine Returns.after fun _ ↦ ?_
    apply hP.expression.bind
    intro e he
    exact gives_pure he

theorem primary_returns : (primary P).Returns (Expr.TailMarked false) := by
  have hleaf : ∀ {e : Expr}, e.TailMarked false →
      (do
        advance
        pure e : M Expr).Returns (Expr.TailMarked false) :=
    fun he ↦ Returns.after fun _ ↦ gives_pure he
  refine Returns.after fun s ↦ ?_
  split
  · exact hleaf (by simp only [Expr.TailMarked])
  · exact hleaf (by simp only [Expr.TailMarked])
  · exact hleaf (by simp only [Expr.TailMarked])
  · exact hleaf (by simp only [Expr.TailMarked])
  · exact hleaf (by simp only [Expr.TailMarked])
  · refine Returns.after fun _ ↦ ?_
    apply (listUntil_returns P .rbracket fun _ ↦ hP.expression).bind
    intro items hitems
    refine Returns.after fun _ ↦ gives_pure ?_
    simpa only [Expr.TailMarked, tailMarkedItems_iff] using hitems
  · refine Returns.after fun _ ↦ ?_
    apply (listUntil_returns P .rbrace (recordPair_returns hP)).bind
    intro pairs hpairs
    refine Returns.after fun _ ↦ gives_pure ?_
    simpa only [Expr.TailMarked, tailMarkedPairs_iff] using hpairs
  · refine Returns.after fun _ ↦ ?_
    apply hP.expression.bind
    intro e he
    exact Returns.after fun _ ↦ gives_pure he
  · exact hP.ifExpr
  · apply hP.block.bind
    intro b hb
    apply gives_pure
    simpa only [Expr.TailMarked] using hb
  · exact Returns.after fun _ ↦ fnExpr_returns hP _
  · exact failAt_returns _ _ _

theorem postfixLoop_returns (k : ℕ) : ∀ e, e.TailMarked false →
    (postfixLoop P k e).Returns (Expr.TailMarked false) := by
  induction k with
  | zero => exact fun _ _ ↦ gives_fail trivial
  | succ k ih =>
      intro e he
      refine Returns.after fun s ↦ ?_
      split
      · refine Returns.after fun _ ↦ ?_
        apply (listUntil_returns P .rparen fun _ ↦ hP.expression).bind
        intro args hargs
        refine Returns.after fun _ ↦ Returns.after fun _ ↦ ih _ ?_
        simp only [Expr.TailMarked, tailMarkedItems_iff]
        exact ⟨trivial, he, hargs⟩
      · refine Returns.after fun _ ↦ ?_
        apply hP.expression.bind
        intro index hindex
        refine Returns.after fun _ ↦ ih _ ?_
        simp only [Expr.TailMarked]
        exact ⟨he, hindex⟩
      · refine Returns.after fun _ ↦ Returns.after fun (_, name) ↦ ih _ ?_
        simpa only [Expr.TailMarked] using he
      · exact gives_pure he

theorem unary_returns : (unary P).Returns (Expr.TailMarked false) := by
  refine Returns.after fun s ↦ ?_
  cases hop : s.toks.head?.bind unaryOp with
  | none =>
      apply (primary_returns hP).bind
      exact postfixLoop_returns hP P.fuel
  | some node =>
      refine Returns.after fun _ ↦ ?_
      apply (nested_returns hP.unary).bind
      intro e he
      apply gives_pure
      obtain ⟨t, _, hnode⟩ := Option.bind_eq_some_iff.mp hop
      unfold unaryOp at hnode
      split at hnode
      all_goals first
        | contradiction
        | (obtain rfl := Option.some.inj hnode
           simpa only [Expr.TailMarked] using he)

omit hP in
theorem tailMarked_opAt {level : ℕ} {t : Token} {f : Expr → Expr → Expr} {left right : Expr}
    (h : opAt level t = some f) (hleft : left.TailMarked false) (hright : right.TailMarked false) :
    (f left right).TailMarked false := by
  have hop := opAt_eq h
  unfold infixOp at hop
  split at hop
  all_goals first
    | contradiction
    | (cases hop
       simp only [Expr.TailMarked]
       exact ⟨hleft, hright⟩)

omit hP in
theorem leftLevel_returns {operand : M Expr} {op : Token → Option (Expr → Expr → Expr)}
    {level : ℕ} (hoperand : operand.Returns (Expr.TailMarked false))
    (hop : ∀ t, op t = opAt level t) :
    (leftLevel P operand op).Returns (Expr.TailMarked false) := by
  apply hoperand.bind
  apply leftLoop_returns hoperand
  intro t f left right hf
  rw [hop] at hf
  exact tailMarked_opAt hf

theorem additive_returns : (additive P).Returns (Expr.TailMarked false) := by
  apply leftLevel_returns _ fun t ↦ (tables_eq t).2.2.1
  exact leftLevel_returns (unary_returns hP) fun t ↦ (tables_eq t).2.1

theorem comparison_returns : (comparison P).Returns (Expr.TailMarked false) := by
  apply (additive_returns hP).bind
  intro left hleft
  refine Returns.after fun s ↦ ?_
  cases hop : s.toks.head?.bind compareOp with
  | none => exact gives_pure hleft
  | some node =>
      obtain ⟨t, _, hnode⟩ := Option.bind_eq_some_iff.mp hop
      rw [(tables_eq t).2.2.2.1] at hnode
      refine Returns.after fun _ ↦ ?_
      apply (additive_returns hP).bind
      intro right hright
      refine Returns.after fun s ↦ ?_
      cases s.toks.head?.bind compareOp with
      | none => exact gives_pure (tailMarked_opAt hnode hleft hright)
      | some _ => exact failAt_returns _ _ _

theorem notExpr_returns : (notExpr P).Returns (Expr.TailMarked false) := by
  refine Returns.after fun s ↦ ?_
  split
  · refine Returns.after fun _ ↦ ?_
    apply hP.notExpr.bind
    intro e he
    apply gives_pure
    simpa only [Expr.TailMarked] using he
  · exact comparison_returns hP

theorem expression_returns : (expression P).Returns (Expr.TailMarked false) := by
  apply nested_returns
  apply leftLevel_returns _ fun t ↦ (tables_eq t).2.2.2.2.2.2
  apply leftLevel_returns _ fun t ↦ (tables_eq t).2.2.2.2.2.1
  exact leftLevel_returns (notExpr_returns hP) fun t ↦ (tables_eq t).2.2.2.2.1

theorem elseBranch_returns : (elseBranch P).Returns (Expr.TailMarked false) := by
  refine Returns.after fun chained ↦ ?_
  split
  · exact nested_returns hP.ifExpr
  · apply hP.block.bind
    intro b hb
    apply gives_pure
    simpa only [Expr.TailMarked] using hb

theorem ifExpr_returns : (ifExpr P).Returns (Expr.TailMarked false) := by
  refine Returns.after fun _ ↦ ?_
  apply hP.expression.bind
  intro cond hcond
  apply hP.block.bind
  intro thenBlock hthen
  refine Returns.after fun _ ↦ Returns.after fun s ↦ ?_
  split
  · refine Returns.after fun _ ↦ ?_
    apply (elseBranch_returns hP).bind
    intro otherwise helse
    apply gives_pure
    simp only [Expr.TailMarked]
    exact ⟨hcond, hthen, helse⟩
  · exact failAt_returns _ _ _

end

theorem parsers_marksTails (n : ℕ) : MarksTails (parsers n) := by
  induction n with
  | zero =>
      constructor <;> exact gives_fail trivial
  | succ n ih =>
      exact ⟨expression_returns ih, notExpr_returns ih, unary_returns ih, ifExpr_returns ih,
        block_returns ih⟩

/-- In an accepted program exactly the calls in tail position are marked. -/
theorem tailMarked_of_parse {fuel eofLine eofCol : ℕ} {toks : List Token} {stmts : List Stmt}
    (h : parse fuel toks eofLine eofCol = .ok stmts) : ∀ s ∈ stmts, s.TailMarked false := by
  have hprogram : (parseProgram (parsers fuel)).Returns fun ss ↦ ∀ s ∈ ss, s.TailMarked false := by
    apply (stmtList_returns (parsers_marksTails fuel) none).bind
    rintro ⟨ss, tag, param⟩ hss
    exact gives_pure hss
  exact hprogram.of_ok h

end Parser

end NucLlm.Whence
