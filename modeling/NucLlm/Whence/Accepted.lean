import NucLlm.Whence.ParserUnique

/-!
# What an accepted program satisfies

The evaluator counts on blocks that end in an expression and on names that are
bound once.  The parser sees to it everywhere but in a `shape` declaration
with a field `__shape`: the record it stands for has a key `__shape` already.
-/

namespace NucLlm.Whence

open Parsing
open NucLlm.Whence.Grammar
open NucLlm.Whence.Parser (parse boundName shapePairs typeSpecExpr isName)

/-! ## Well-formed trees -/

def endsInExpr (ss : List Stmt) : Bool :=
  match ss.getLast? with
  | some (.exprStmt _ _) => true
  | _ => false

def namesDistinct (names : List String) : Bool := decide names.Nodup

mutual

/-- Blocks end in an expression and bind a name once; so do parameter lists
and record literals. -/
def Expr.wellFormed : Expr → Bool
  | .num .. | .str .. | .boolLit .. | .nameRef .. => true
  | .listLit _ items => itemsWellFormed items
  | .recordLit _ pairs => namesDistinct (pairs.map Prod.fst) && pairsWellFormed pairs
  | .missLit _ e | .unary _ _ e | .why _ e | .snip _ e | .fieldAccess _ e _ => e.wellFormed
  | .binary _ _ a b | .rescue _ a b | .index _ a b => a.wellFormed && b.wellFormed
  | .call _ fn args _ => fn.wellFormed && itemsWellFormed args
  | .ifExpr _ cond thenBlock otherwise =>
      cond.wellFormed && thenBlock.wellFormed && otherwise.wellFormed
  | .fnExpr _ params body _ _ _ => namesDistinct params && body.wellFormed
  | .block b => b.wellFormed

def itemsWellFormed : List Expr → Bool
  | [] => true
  | e :: es => e.wellFormed && itemsWellFormed es

def pairsWellFormed : List (String × Expr) → Bool
  | [] => true
  | (_, e) :: pairs => e.wellFormed && pairsWellFormed pairs

def Stmt.wellFormed : Stmt → Bool
  | .letStmt _ _ e | .check _ _ e | .exprStmt _ e => e.wellFormed
  | .fnDef _ _ params body _ _ => namesDistinct params && body.wellFormed

def stmtsWellFormed : List Stmt → Bool
  | [] => true
  | s :: ss => s.wellFormed && stmtsWellFormed ss

def Block.wellFormed : Block → Bool
  | .mk _ stmts _ _ =>
      endsInExpr stmts && namesDistinct (boundNames stmts) && stmtsWellFormed stmts

end

def programWellFormed (program : List Stmt) : Bool :=
  namesDistinct (boundNames program) && stmtsWellFormed program

/-! ## Shapes with a field `__shape` -/

/-- A field `__shape` among the tokens of a shape's fields. -/
def hasTagField : List Token → Bool
  | [] => false
  | t :: ts =>
      (decide (t.tok = .name "__shape") && ts.head?.any fun t' ↦ decide (t'.tok = .punct .colon)) ||
        hasTagField ts

def beforeBrace (ts : List Token) : List Token :=
  ts.takeWhile fun t ↦ decide (t.tok ≠ .punct .rbrace)

/-- A shape declared at the head of the tokens has a field `__shape`. -/
def tagFieldHere : List Token → Bool
  | ⟨.name "shape", _, _⟩ :: ⟨.name _, _, _⟩ :: ⟨.punct .assign, _, _⟩ ::
      ⟨.punct .record, _, _⟩ :: fields => hasTagField (beforeBrace fields)
  | _ => false

/-- No shape declared anywhere has a field `__shape`. -/
def noTagField : List Token → Bool
  | [] => true
  | t :: ts => !tagFieldHere (t :: ts) && noTagField ts

/-- What these tokens say of `noTagField`, whatever follows them. -/
def Says (ts : List Token) (b : Bool) : Prop :=
  ∀ rest, NoName rest → noTagField (ts ++ rest) = (b && noTagField rest)

theorem says_nil : Says [] true := fun _ _ ↦ rfl

theorem tagFieldHere_of_noName {t : Token} {ts : List Token} (h : isName t.tok = true → NoName ts) :
    tagFieldHere (t :: ts) = false := by
  unfold tagFieldHere
  split
  · next heq =>
      cases heq
      exact Bool.noConfusion (h rfl _ rfl)
  · rfl

theorem Says.cons {t : Token} {ts : List Token} {b : Bool} (ht : isName t.tok = false)
    (h : Says ts b) : Says (t :: ts) b := by
  intro rest hrest
  rw [List.cons_append, noTagField, h rest hrest,
    tagFieldHere_of_noName fun hname ↦ by rw [ht] at hname; cases hname]
  rfl

theorem noName_nil : NoName [] := nofun

theorem noName_append {ts rest : List Token} (h : NoName ts) (hrest : NoName rest) :
    NoName (ts ++ rest) := by
  cases ts with
  | nil => exact hrest
  | cons t ts => exact h

theorem Says.name {t : Token} {ts : List Token} {b : Bool} (hts : NoName ts) (h : Says ts b) :
    Says (t :: ts) b := by
  intro rest hrest
  rw [List.cons_append, noTagField, h rest hrest,
    tagFieldHere_of_noName fun _ ↦ noName_append hts hrest]
  rfl

theorem Says.append {ts ts' : List Token} {b b' : Bool} (h : Says ts b) (hts' : NoName ts')
    (h' : Says ts' b') : Says (ts ++ ts') (b && b') := by
  intro rest hrest
  rw [List.append_assoc, h _ (noName_append hts' hrest), h' rest hrest, Bool.and_assoc]

theorem noName_cons {t : Token} (ts : List Token) (h : isName t.tok = false) :
    NoName (t :: ts) := by
  intro t' ht'
  cases ht'
  exact h

/-- Tokens up to a closing one, which is no name. -/
theorem Says.closed {ts : List Token} {b : Bool} (h : Says ts b) {t : Token}
    (ht : isName t.tok = false) : Says (ts ++ [t]) b := by
  have h' := h.append (noName_cons [] ht) (says_nil.cons ht)
  rwa [Bool.and_true] at h'

/-- Line breaks say nothing, whatever comes after them. -/
theorem Says.newlines {ns ts : List Token} {b : Bool} (hns : Newlines ns) (h : Says ts b) :
    Says (ns ++ ts) b := by
  induction ns with
  | nil => exact h
  | cons t ns ih =>
      refine Says.cons (by rw [hns t (List.mem_cons_self ..)]; rfl) (ih fun t' ht' ↦ ?_)
      exact hns t' (List.mem_cons_of_mem t ht')

theorem noName_newlines {ns ts : List Token} (hns : Newlines ns) (h : ns = [] → NoName ts) :
    NoName (ns ++ ts) := by
  cases ns with
  | nil => exact h rfl
  | cons t ns => exact noName_cons _ (by rw [hns t (List.mem_cons_self ..)]; rfl)

section Lists

variable {α : Type} {L : Lang Token α} {f : α → Bool}

theorem says_sepBy (hitem : ∀ ts a, L ts a → Says ts (f a)) {ts : List Token} {as : List α}
    (h : SepBy L isComma ts as) : Says ts (as.all f) := by
  induction h with
  | @single ts a h =>
      have hs := hitem _ _ h
      rwa [← Bool.and_true (f a)] at hs
  | @cons ts ts' t a as h hcomma _ ih =>
      have ht : isName t.tok = false := by rw [of_decide_eq_true hcomma]; rfl
      exact (hitem _ _ h).append (noName_cons ts' ht) (ih.cons ht)

theorem says_listOf (hitem : ∀ ts a, L ts a → Says ts (f a)) {ts : List Token} {as : List α}
    (h : ListOf L ts as) : Says ts (as.all f) := by
  cases h with
  | nil => exact says_nil
  | items h => exact says_sepBy hitem h

end Lists

/-! ## What derivations say -/

theorem itemsWellFormed_eq (es : List Expr) : itemsWellFormed es = es.all Expr.wellFormed := by
  induction es with
  | nil => rfl
  | cons e es ih => rw [itemsWellFormed, List.all_cons, ih]

theorem pairsWellFormed_eq (pairs : List (String × Expr)) :
    pairsWellFormed pairs = pairs.all fun p ↦ p.2.wellFormed := by
  induction pairs with
  | nil => rfl
  | cons p pairs ih => rw [pairsWellFormed, List.all_cons, ih]

theorem namesDistinct_of {names : List String} (h : names.Nodup) : namesDistinct names = true :=
  decide_eq_true h

theorem endsInExpr_of {ss : List Stmt} (h : EndsInExpr ss) : endsInExpr ss = true := by
  obtain ⟨line, e, h⟩ := h
  rw [endsInExpr, h]

theorem opAt_wellFormed {level : ℕ} {t : Token} {f : Expr → Expr → Expr}
    (h : opAt level t = some f) (a b : Expr) :
    (f a b).wellFormed = (a.wellFormed && b.wellFormed) := by
  have hop := opAt_eq h
  unfold infixOp at hop
  split at hop <;> cases hop <;> rfl

theorem prefixOp_wellFormed {t : Token} {node : Expr → Expr} (h : prefixOp t = some node)
    (e : Expr) : (node e).wellFormed = e.wellFormed := by
  unfold prefixOp at h
  split at h <;> cases h <;> rfl

theorem isName_of_prefixOp {t : Token} {node : Expr → Expr} (h : prefixOp t = some node) :
    isName t.tok = false := by
  unfold prefixOp at h
  split at h <;> cases h <;> (next htok => rw [htok]; rfl)

theorem says_typeName {ts : List Token} {type : String} (h : TypeName ts type) : Says ts true := by
  cases h with
  | fn => exact says_nil.cons rfl
  | name => exact says_nil.name noName_nil

theorem says_param (ts : List Token) (p : String × Option String) (h : Param ts p) :
    Says ts true := by
  cases h with
  | plain => exact says_nil.name noName_nil
  | typed _ _ _ _ _ h => exact ((says_typeName h).cons rfl).name (noName_cons _ rfl)

theorem says_effects {ts : List Token} (h : Effects ts) : Says ts true := by
  cases h with
  | none => exact says_nil
  | @clause line col line' col' line'' col'' ts names h =>
      have hnames : Says ts (names.all fun _ ↦ true) := by
        refine says_listOf (fun ts a h ↦ ?_) h
        cases h
        exact says_nil.name noName_nil
      rw [List.all_eq_true.mpr fun _ _ ↦ rfl] at hnames
      exact ((hnames.closed rfl).cons rfl).name (noName_cons _ rfl)

theorem says_returnType {ts : List Token} {ret : Option TypeSpec} (h : ReturnType ts ret) :
    Says ts true := by
  cases h with
  | none => exact says_nil
  | arrow _ _ h => exact (says_typeName h).cons rfl

section Rules

/-- What the derivations of the nonterminals say. -/
structure Describes (G : Nonterminals) : Prop where
  expression : ∀ ts e, G.expression ts e → Says ts e.wellFormed
  notExpr : ∀ ts e, G.notExpr ts e → Says ts e.wellFormed
  unary : ∀ ts e, G.unary ts e → Says ts e.wellFormed
  ifExpr : ∀ ts e, G.ifExpr ts e → Says ts e.wellFormed
  block : ∀ ts b, G.block ts b → Says ts b.wellFormed

variable {G : Nonterminals}

theorem says_fn (hG : Describes G) (hheads : G.Headed) {ts : List Token} {f : FnTree}
    (h : Fn true G ts f) : Says ts (namesDistinct f.names && f.body.wellFormed) := by
  cases h with
  | @mk line col line' col' ps es rs bs _ hparams hnames heffects hret hbody =>
      rw [namesDistinct_of (hnames rfl), Bool.true_and]
      have hps : Says ps true := by
        have h := says_listOf says_param hparams
        rwa [List.all_eq_true.mpr fun _ _ ↦ rfl] at h
      have hbs : NoName bs := by
        obtain ⟨line, col, ts', rfl⟩ := hheads.block hbody
        exact noName_cons _ rfl
      have hrs : NoName (rs ++ bs) := by
        generalize f.retType = ret at hret
        cases hret with
        | none => exact hbs
        | arrow => exact noName_cons _ rfl
      have h := (says_effects heffects).append hrs
        ((says_returnType hret).append hbs (hG.block bs _ hbody))
      exact (hps.append (noName_cons _ rfl) (h.cons rfl)).cons rfl

theorem says_chain {operand : Lang Token Expr} {suffix : Lang Token (Expr → Expr)}
    (hoperand : ∀ ts e, operand ts e → Says ts e.wellFormed)
    (hsuffix : ∀ ts f, suffix ts f →
      NoName ts ∧ ∃ b, Says ts b ∧ ∀ e, (f e).wellFormed = (e.wellFormed && b))
    {ts : List Token} {e : Expr} (h : Chain operand suffix ts e) : Says ts e.wellFormed := by
  induction h with
  | operand h => exact hoperand _ _ h
  | extend _ hs ih =>
      obtain ⟨hname, b, hb, hf⟩ := hsuffix _ _ hs
      rw [hf]
      exact ih.append hname hb

theorem says_leftAssoc {operand : Lang Token Expr} {level : ℕ}
    (hoperand : ∀ ts e, operand ts e → Says ts e.wellFormed) (ts : List Token) (e : Expr)
    (h : LeftAssoc operand (opAt level) ts e) : Says ts e.wellFormed := by
  refine says_chain hoperand (fun ts f h ↦ ⟨Infix.noName h, ?_⟩) h
  cases h with
  | mk hop hright =>
      exact ⟨_, (hoperand _ _ hright).cons (isName_of_infixOp (opAt_eq hop)),
        fun e ↦ opAt_wellFormed hop e _⟩

theorem says_primary (hG : Describes G) (hheads : G.Headed) (ts : List Token) (e : Expr)
    (h : Primary true G ts e) : Says ts e.wellFormed := by
  cases h with
  | name => exact says_nil.name noName_nil
  | list line col line' col' h =>
      rw [Expr.wellFormed, itemsWellFormed_eq]
      exact ((says_listOf hG.expression h).closed rfl).cons rfl
  | record line col line' col' h hkeys =>
      rw [Expr.wellFormed, namesDistinct_of (hkeys rfl), Bool.true_and, pairsWellFormed_eq]
      refine ((says_listOf (fun ts p h ↦ ?_) h).closed rfl).cons rfl
      cases h with
      | mk _ _ _ _ _ h => exact ((hG.expression _ _ h).cons rfl).name (noName_cons _ rfl)
  | paren line col line' col' h => exact ((hG.expression _ _ h).closed rfl).cons rfl
  | if_ h => exact hG.ifExpr _ _ h
  | block h => exact hG.block _ _ h
  | fn line col h => exact (says_fn hG hheads h).cons rfl
  | _ => exact says_nil.cons rfl

theorem says_postfix (hG : Describes G) (hheads : G.Headed) (ts : List Token) (e : Expr)
    (h : Postfix true G ts e) : Says ts e.wellFormed := by
  refine says_chain (says_primary hG hheads) (fun ts f h ↦ ⟨Suffix.noName h, ?_⟩) h
  cases h with
  | call line col line' col' h =>
      refine ⟨_, ((says_listOf hG.expression h).closed rfl).cons rfl, fun e ↦ ?_⟩
      rw [Expr.wellFormed, itemsWellFormed_eq]
  | index line col line' col' h =>
      exact ⟨_, ((hG.expression _ _ h).closed rfl).cons rfl, fun _ ↦ rfl⟩
  | field n line col line' col' =>
      exact ⟨true, (says_nil.name noName_nil).cons rfl, fun e ↦ (Bool.and_true _).symm⟩

theorem says_unary (hG : Describes G) (hheads : G.Headed) (ts : List Token) (e : Expr)
    (h : Unary true G ts e) : Says ts e.wellFormed := by
  cases h with
  | postfix_ h => exact says_postfix hG hheads ts e h
  | op hop h =>
      rw [prefixOp_wellFormed hop]
      exact (hG.unary _ _ h).cons (isName_of_prefixOp hop)

theorem says_additive (hG : Describes G) (hheads : G.Headed) (ts : List Token) (e : Expr)
    (h : Additive true G ts e) : Says ts e.wellFormed :=
  says_leftAssoc (says_leftAssoc (says_unary hG hheads)) ts e h

theorem says_notExpr (hG : Describes G) (hheads : G.Headed) (ts : List Token) (e : Expr)
    (h : NotExpr true G ts e) : Says ts e.wellFormed := by
  cases h with
  | comparison h =>
      cases h with
      | additive h => exact says_additive hG hheads ts e h
      | op hleft hop hright =>
          have hname := isName_of_infixOp (opAt_eq hop)
          rw [opAt_wellFormed hop]
          exact (says_additive hG hheads _ _ hleft).append (noName_cons _ hname)
            ((says_additive hG hheads _ _ hright).cons hname)
  | not line col h => exact (hG.notExpr _ _ h).cons rfl

theorem says_expression (hG : Describes G) (hheads : G.Headed) (ts : List Token) (e : Expr)
    (h : Expression true G ts e) : Says ts e.wellFormed :=
  says_leftAssoc (says_leftAssoc (says_leftAssoc (says_notExpr hG hheads))) ts e h

theorem says_ifExpr (hG : Describes G) (hheads : G.Headed) (ts : List Token) (e : Expr)
    (h : IfExpr G ts e) : Says ts e.wellFormed := by
  obtain @⟨line, col, line', col', cs, bs, ns, es, cond, otherwise, b, hcond, hthen, hns, helse⟩ :=
    h
  have hes : Says es otherwise.wellFormed := by
    cases helse with
    | if_ h => exact hG.ifExpr _ _ h
    | block h => exact hG.block _ _ h
  have hbs : NoName (bs ++ (ns ++ ⟨.kw .else_, line', col'⟩ :: es)) := by
    obtain ⟨line, col, ts', rfl⟩ := hheads.block hthen
    exact noName_cons _ rfl
  have hnl : NoName (ns ++ ⟨.kw .else_, line', col'⟩ :: es) :=
    noName_newlines hns fun _ ↦ noName_cons _ rfl
  have h := (hes.cons (t := ⟨.kw .else_, line', col'⟩) rfl).newlines hns
  have hall := ((hG.expression _ _ hcond).append hbs ((hG.block _ _ hthen).append hnl h)).cons
    (t := ⟨.kw .if_, line, col⟩) rfl
  rwa [← Bool.and_assoc] at hall

/-! ## Shapes -/

theorem beforeBrace_append {ts rest : List Token} {line col : ℕ}
    (h : ∀ t ∈ ts, t.tok ≠ .punct .rbrace) :
    beforeBrace (ts ++ ⟨.punct .rbrace, line, col⟩ :: rest) = ts := by
  have hall : ∀ t ∈ ts, decide (t.tok ≠ .punct .rbrace) = true := fun t ht ↦
    decide_eq_true (h t ht)
  rw [beforeBrace, List.takeWhile_append_of_pos hall, List.takeWhile_cons_of_neg (by simp),
    List.append_nil]

/-- A field ends before a comma or with the fields. -/
def EndsField (rest : List Token) : Prop := ∀ t ∈ rest.head?, isComma t = true

theorem hasTagField_typeName {ts rest : List Token} {type : String} (h : TypeName ts type)
    (hrest : EndsField rest) : hasTagField (ts ++ rest) = hasTagField rest := by
  have hcolon : (rest.head?.any fun t ↦ decide (t.tok = .punct .colon)) = false := by
    rw [Option.any_eq_false]
    intro t ht
    rw [of_decide_eq_true (hrest t ht)]
    decide
  cases h with
  | fn => simp [hasTagField]
  | name =>
      rw [List.singleton_append, hasTagField, hcolon, Bool.and_false, Bool.false_or]

theorem hasTagField_field {ts rest : List Token} {p : String × String} (h : ShapeField ts p)
    (hrest : EndsField rest) :
    hasTagField (ts ++ rest) = (decide (p.1 = "__shape") || hasTagField rest) := by
  cases h with
  | mk n line col line' col' h =>
      rw [List.cons_append, List.cons_append, hasTagField, hasTagField,
        hasTagField_typeName h hrest]
      simp

theorem says_shapeField (ts : List Token) (p : String × String) (h : ShapeField ts p) :
    Says ts true := by
  cases h with
  | mk _ _ _ _ _ h => exact ((says_typeName h).cons rfl).name (noName_cons _ rfl)

theorem shapeField_noBrace {ts : List Token} {p : String × String} (h : ShapeField ts p) :
    ∀ t ∈ ts, t.tok ≠ .punct .rbrace := by
  cases h with
  | mk _ _ _ _ _ h => cases h <;> simp

theorem shapeFields_tokens {ts : List Token} {fields : List (String × String)}
    (h : SepBy ShapeField isComma ts fields) :
    (∀ t ∈ ts, t.tok ≠ .punct .rbrace) ∧
      hasTagField ts = fields.any fun p ↦ decide (p.1 = "__shape") := by
  induction h with
  | @single ts p h =>
      refine ⟨shapeField_noBrace h, ?_⟩
      have htag : hasTagField (ts ++ []) = (decide (p.1 = "__shape") || false) :=
        hasTagField_field h nofun
      rwa [List.append_nil] at htag
  | @cons ts ts' t p fields h hcomma _ ih =>
      have htok : t.tok = .punct .comma := of_decide_eq_true hcomma
      refine ⟨fun t' ht' ↦ ?_, ?_⟩
      · rcases List.mem_append.mp ht' with ht' | ht'
        · exact shapeField_noBrace h t' ht'
        · rcases List.mem_cons.mp ht' with rfl | ht'
          · rw [htok]
            decide
          · exact ih.1 t' ht'
      · have hends : EndsField (t :: ts') := by
          intro t' ht'
          cases ht'
          exact hcomma
        rw [hasTagField_field h hends, hasTagField, ih.2, htok]
        simp

theorem shapePairs_distinct {line : ℕ} {name : String} {fields : List (String × String)}
    (h : (fields.map Prod.fst).Nodup) :
    namesDistinct ((shapePairs line name fields).map Prod.fst) =
      !fields.any fun p ↦ decide (p.1 = "__shape") := by
  have hkeys : (shapePairs line name fields).map Prod.fst = "__shape" :: fields.map Prod.fst := by
    simp [shapePairs]
  rw [namesDistinct, hkeys, Bool.eq_iff_iff, decide_eq_true_iff, List.nodup_cons, List.mem_map,
    Bool.not_eq_true', List.any_eq_false]
  constructor
  · rintro ⟨hnot, _⟩ p hp htag
    exact hnot ⟨p, hp, of_decide_eq_true htag⟩
  · intro hnone
    refine ⟨?_, h⟩
    rintro ⟨p, hp, htag⟩
    exact hnone p hp (decide_eq_true htag)

theorem says_shape {ts : List Token} {fields : List (String × String)} (n : String)
    (line col line₁ col₁ line₂ col₂ line₃ col₃ line₄ col₄ : ℕ) (h : ListOf ShapeField ts fields)
    (hfields : (fields.map Prod.fst).Nodup) :
    Says (⟨.name "shape", line, col⟩ :: ⟨.name n, line₁, col₁⟩ ::
      ⟨.punct .assign, line₂, col₂⟩ :: ⟨.punct .record, line₃, col₃⟩ ::
        (ts ++ [⟨.punct .rbrace, line₄, col₄⟩]))
      (namesDistinct ((shapePairs line n fields).map Prod.fst)) := by
  have htokens : (∀ t ∈ ts, t.tok ≠ .punct .rbrace) ∧
      hasTagField ts = fields.any fun p ↦ decide (p.1 = "__shape") := by
    cases h with
    | nil => exact ⟨nofun, rfl⟩
    | items h => exact shapeFields_tokens h
  have hts : Says ts true := by
    have h := says_listOf says_shapeField h
    rwa [List.all_eq_true.mpr fun _ _ ↦ rfl] at h
  have hinner : Says (⟨.name n, line₁, col₁⟩ :: ⟨.punct .assign, line₂, col₂⟩ ::
      ⟨.punct .record, line₃, col₃⟩ :: (ts ++ [⟨.punct .rbrace, line₄, col₄⟩])) true :=
    (((hts.closed rfl).cons rfl).cons rfl).name (noName_cons _ rfl)
  intro rest hrest
  rw [List.cons_append, noTagField, hinner rest hrest, Bool.true_and, shapePairs_distinct hfields,
    ← htokens.2]
  congr 2
  change hasTagField (beforeBrace ((ts ++ [_]) ++ rest)) = _
  rw [List.append_assoc, List.singleton_append, beforeBrace_append htokens.1]

/-! ## Statements and programs -/

/-- The record of a shape holds type specs, which are plain expressions. -/
theorem pairsWellFormed_shapePairs (line : ℕ) (name : String) (fields : List (String × String)) :
    pairsWellFormed (shapePairs line name fields) = true := by
  rw [pairsWellFormed_eq, List.all_eq_true]
  intro p hp
  rcases List.mem_cons.mp hp with rfl | hp
  · rfl
  · obtain ⟨f, _, rfl⟩ := List.mem_map.mp hp
    dsimp only [typeSpecExpr]
    split <;> rfl

theorem says_statement (hG : Describes G) (hheads : G.Headed) {ts : List Token} {s : Stmt}
    (h : Statement true G ts s) : Says ts s.wellFormed := by
  cases h with
  | let_ n line col line₁ col₁ line₂ col₂ h =>
      exact (((hG.expression _ _ h).cons rfl).name (noName_cons _ rfl)).cons rfl
  | fn n line col line₁ col₁ h =>
      have hfn := says_fn hG hheads h
      cases h with
      | mk => exact (hfn.name (noName_cons _ rfl)).cons rfl
  | check label line col line₁ col₁ line₂ col₂ h =>
      exact (((hG.expression _ _ h).cons rfl).cons rfl).cons rfl
  | shape n line col line₁ col₁ line₂ col₂ line₃ col₃ line₄ col₄ h hfields =>
      rw [Stmt.wellFormed, Expr.wellFormed, pairsWellFormed_shapePairs, Bool.and_true]
      exact says_shape n line col line₁ col₁ line₂ col₂ line₃ col₃ line₄ col₄ h (hfields rfl)
  | expr h => exact hG.expression _ _ h

theorem says_statements (hG : Describes G) (hheads : G.Headed) {ts : List Token} {ss : List Stmt}
    (h : Statements true G ts ss) : Says ts (stmtsWellFormed ss) := by
  induction h with
  | nil => exact says_nil
  | last h hns =>
      have hname := noName_newlines hns fun _ ↦ noName_nil
      have hrest := says_nil.newlines hns
      rw [List.append_nil] at hname hrest
      exact (says_statement hG hheads h).append hname hrest
  | cons h hns hsome _ ih =>
      exact (says_statement hG hheads h).append (noName_newlines hns fun h ↦ absurd h hsome)
        (ih.newlines hns)

theorem says_stmtList (hG : Describes G) (hheads : G.Headed) {ts : List Token} {ss : List Stmt}
    (h : StmtList true G ts ss) : Says ts (programWellFormed ss) := by
  cases h with
  | mk hns h hnames =>
      rw [programWellFormed, namesDistinct_of (hnames rfl), Bool.true_and]
      exact (says_statements hG hheads h).newlines hns

theorem says_block (hG : Describes G) (hheads : G.Headed) (ts : List Token) (b : Block)
    (h : BlockRule true G ts b) : Says ts b.wellFormed := by
  obtain ⟨line, col, line', col', h, hend⟩ := h
  rw [Block.wellFormed, endsInExpr_of (hend rfl), Bool.true_and]
  exact ((says_stmtList hG hheads h).closed rfl).cons rfl

end Rules

theorem grammar_describes (n : ℕ) : Describes (grammar true n) := by
  induction n with
  | zero => exact ⟨nofun, nofun, nofun, nofun, nofun⟩
  | succ n ih =>
      have hheads := grammar_headed true n
      exact ⟨says_expression ih hheads, says_notExpr ih hheads, says_unary ih hheads,
        says_ifExpr ih hheads, says_block ih hheads⟩

/-! ## Marks do not matter -/

theorem boundNames_eraseStmts (ss : List Stmt) : boundNames (eraseStmts ss) = boundNames ss := by
  rw [eraseStmts_eq, Parser.boundNames_erase]

theorem endsInExpr_erase (ss : List Stmt) : endsInExpr (eraseStmts ss) = endsInExpr ss := by
  rw [eraseStmts_eq, endsInExpr, endsInExpr, List.getLast?_map]
  cases ss.getLast? with
  | none => rfl
  | some s => cases s <;> rfl

theorem keys_erasePairs (pairs : List (String × Expr)) :
    (erasePairs pairs).map Prod.fst = pairs.map Prod.fst := by
  rw [erasePairs_eq, List.map_map]
  rfl

mutual

theorem Expr.wellFormed_erase : ∀ e : Expr, e.erase.wellFormed = e.wellFormed
  | .num .. | .str .. | .boolLit .. | .nameRef .. => rfl
  | .listLit _ items => itemsWellFormed_erase items
  | .recordLit _ pairs => by
      rw [Expr.erase, Expr.wellFormed, Expr.wellFormed, keys_erasePairs,
        pairsWellFormed_erase pairs]
  | .missLit _ e | .unary _ _ e | .why _ e | .snip _ e | .fieldAccess _ e _ =>
      Expr.wellFormed_erase e
  | .binary _ _ a b | .rescue _ a b | .index _ a b =>
      congrArg₂ and (Expr.wellFormed_erase a) (Expr.wellFormed_erase b)
  | .call _ fn args _ =>
      congrArg₂ and (Expr.wellFormed_erase fn) (itemsWellFormed_erase args)
  | .ifExpr _ cond thenBlock otherwise =>
      congrArg₂ and (congrArg₂ and (Expr.wellFormed_erase cond) (Block.wellFormed_erase thenBlock))
        (Expr.wellFormed_erase otherwise)
  | .fnExpr _ params body _ _ _ =>
      congrArg (namesDistinct params && ·) (Block.wellFormed_erase body)
  | .block b => Block.wellFormed_erase b

theorem itemsWellFormed_erase : ∀ es : List Expr,
    itemsWellFormed (eraseItems es) = itemsWellFormed es
  | [] => rfl
  | e :: es => congrArg₂ and (Expr.wellFormed_erase e) (itemsWellFormed_erase es)

theorem pairsWellFormed_erase : ∀ pairs : List (String × Expr),
    pairsWellFormed (erasePairs pairs) = pairsWellFormed pairs
  | [] => rfl
  | (_, e) :: pairs => congrArg₂ and (Expr.wellFormed_erase e) (pairsWellFormed_erase pairs)

theorem Stmt.wellFormed_erase : ∀ s : Stmt, s.erase.wellFormed = s.wellFormed
  | .letStmt _ _ e | .check _ _ e | .exprStmt _ e => Expr.wellFormed_erase e
  | .fnDef _ _ params body _ _ =>
      congrArg (namesDistinct params && ·) (Block.wellFormed_erase body)

theorem stmtsWellFormed_erase : ∀ ss : List Stmt,
    stmtsWellFormed (eraseStmts ss) = stmtsWellFormed ss
  | [] => rfl
  | s :: ss => congrArg₂ and (Stmt.wellFormed_erase s) (stmtsWellFormed_erase ss)

theorem Block.wellFormed_erase : ∀ b : Block, b.erase.wellFormed = b.wellFormed
  | .mk _ stmts _ _ => by
      rw [Block.erase, Block.wellFormed, Block.wellFormed, endsInExpr_erase,
        boundNames_eraseStmts, stmtsWellFormed_erase stmts]

end

theorem programWellFormed_erase (program : List Stmt) :
    programWellFormed (eraseStmts program) = programWellFormed program := by
  rw [programWellFormed, programWellFormed, boundNames_eraseStmts, stmtsWellFormed_erase]

/-! ## Accepted programs -/

/-- The program is well-formed, and it is the one tree that its tokens derive
by the declared levels, with line breaks between statements. -/
structure Meets (toks : List Token) (program : List Stmt) : Prop where
  wellFormed : programWellFormed program = true
  derives : Derives false toks (eraseStmts program)
  unique : ∀ tree, Derives false toks tree → tree = eraseStmts program

theorem wellFormed_eq_noTagField {fuel eofLine eofCol : ℕ} {toks : List Token}
    {program : List Stmt} (h : parse fuel toks eofLine eofCol = .ok program) :
    programWellFormed program = noTagField toks := by
  obtain ⟨n, hderives⟩ := Parser.parse_derives true h
  have hsays := says_stmtList (grammar_describes n) (grammar_headed true n) hderives [] noName_nil
  rw [List.append_nil, noTagField, Bool.and_true, programWellFormed_erase] at hsays
  exact hsays.symm

/-- An accepted program is what the evaluator assumes if and only if it
declares no shape with a field `__shape`. -/
theorem accepted_meets_iff {fuel eofLine eofCol : ℕ} {toks : List Token} {program : List Stmt}
    (h : parse fuel toks eofLine eofCol = .ok program) :
    Meets toks program ↔ noTagField toks = true := by
  rw [← wellFormed_eq_noTagField h]
  constructor
  · exact Meets.wellFormed
  · exact fun hwell ↦ ⟨hwell, Parser.parse_derives false h, fun tree ↦ Parser.parse_unique h⟩

/-- `let n = 1 - 2 - 3`, a line break, `shape S = @{a: num}`. -/
def letThenShape : List Token :=
  [⟨.kw .let_, 1, 1⟩, ⟨.name "n", 1, 5⟩, ⟨.punct .assign, 1, 7⟩, ⟨.number (.int 1), 1, 9⟩,
    ⟨.punct .minus, 1, 11⟩, ⟨.number (.int 2), 1, 13⟩, ⟨.punct .minus, 1, 15⟩,
    ⟨.number (.int 3), 1, 17⟩, ⟨.newline, 1, 18⟩, ⟨.name "shape", 2, 1⟩, ⟨.name "S", 2, 7⟩,
    ⟨.punct .assign, 2, 9⟩, ⟨.punct .record, 2, 11⟩, ⟨.name "a", 2, 13⟩, ⟨.punct .colon, 2, 14⟩,
    ⟨.name "num", 2, 16⟩, ⟨.punct .rbrace, 2, 19⟩]

theorem letThenShape_meets :
    ∃ program, parse 8 letThenShape 2 20 = .ok program ∧ Meets letThenShape program :=
  ⟨_, rfl, (@accepted_meets_iff 8 2 20 letThenShape _ rfl).mpr (by decide)⟩

/-- `shape S = @{__shape: str}`. -/
def shapeWithTag : List Token :=
  [⟨.name "shape", 1, 1⟩, ⟨.name "S", 1, 7⟩, ⟨.punct .assign, 1, 9⟩, ⟨.punct .record, 1, 11⟩,
    ⟨.name "__shape", 1, 13⟩, ⟨.punct .colon, 1, 20⟩, ⟨.name "str", 1, 22⟩,
    ⟨.punct .rbrace, 1, 25⟩]

theorem shapeWithTag_accepted :
    ∃ program, parse 8 shapeWithTag 1 26 = .ok program ∧ ¬ Meets shapeWithTag program :=
  ⟨[.letStmt 1 "S" (.recordLit 1 [("__shape", .str 1 "S"), ("__shape", .str 1 "str")])], rfl,
    fun h ↦ absurd h.wellFormed (by decide)⟩

end NucLlm.Whence
