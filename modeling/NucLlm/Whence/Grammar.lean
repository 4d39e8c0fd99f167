import NucLlm.Whence.Parser

/-!
# The declared grammar

The precedence levels of the language, from `rescue` to calls, and the trees
that token lists derive by them.  A nonterminal that occurs inside what it
derives is taken as `G`, and `grammar` unfolds the rules to a bounded depth.
With `strict`, the names of a block, of a parameter list and of a literal must
be distinct and a block must end in an expression.
-/

namespace NucLlm.Whence.Grammar

open Parsing
open NucLlm.Whence.Parser (typeSpecExpr paramContracts shapePairs boundName startsStatement
  isName)

/-! ## Operators -/

/-- The level of an infix operator and the node it builds. -/
def infixOp (t : Token) : Option (ℕ × (Expr → Expr → Expr)) :=
  match t.tok with
  | .kw .rescue => some (1, .rescue t.line)
  | .kw .or => some (2, .binary t.line .or)
  | .kw .and => some (3, .binary t.line .and)
  | .punct .eqEq => some (5, .binary t.line .eq)
  | .punct .notEq => some (5, .binary t.line .ne)
  | .punct .lt => some (5, .binary t.line .lt)
  | .punct .le => some (5, .binary t.line .le)
  | .punct .gt => some (5, .binary t.line .gt)
  | .punct .ge => some (5, .binary t.line .ge)
  | .punct .plus => some (6, .binary t.line .add)
  | .punct .minus => some (6, .binary t.line .sub)
  | .punct .star => some (7, .binary t.line .mul)
  | .punct .slash => some (7, .binary t.line .div)
  | .punct .percent => some (7, .binary t.line .mod)
  | _ => none

/-- The operators of one level. -/
def opAt (level : ℕ) (t : Token) : Option (Expr → Expr → Expr) :=
  (infixOp t).bind fun op ↦ if op.1 = level then some op.2 else none

/-- The prefix operators tighter than every infix one. -/
def prefixOp (t : Token) : Option (Expr → Expr) :=
  match t.tok with
  | .punct .minus => some (.unary t.line .neg)
  | .kw .why => some (.why t.line)
  | .kw .snip => some (.snip t.line)
  | .kw .miss => some (.missLit t.line)
  | _ => none

/-- How tightly a token binds the expression before it; nothing else does. -/
def tightness (t : Token) : ℕ :=
  match t.tok with
  | .punct .lparen | .punct .lbracket | .punct .dot => 9
  | _ => ((infixOp t).map Prod.fst).getD 0

/-! ## Lists, types and parameters -/

def isComma (t : Token) : Bool := decide (t.tok = .punct .comma)

def Newlines (ts : List Token) : Prop := ∀ t ∈ ts, t.tok = .newline

section Lists

variable {α : Type}

/-- Nothing, or items with commas between them. -/
inductive ListOf (item : Lang Token α) : Lang Token (List α) where
  | nil : ListOf item [] []
  | items {ts : List Token} {as : List α} (h : SepBy item isComma ts as) : ListOf item ts as

end Lists

inductive TypeName : Lang Token String where
  | fn (line col : ℕ) : TypeName [⟨.kw .fn, line, col⟩] "fn"
  | name (n : String) (line col : ℕ) : TypeName [⟨.name n, line, col⟩] n

inductive Param : Lang Token (String × Option String) where
  | plain (n : String) (line col : ℕ) : Param [⟨.name n, line, col⟩] (n, none)
  | typed (n : String) (line col line' col' : ℕ) {ts : List Token} {type : String}
      (h : TypeName ts type) :
      Param (⟨.name n, line, col⟩ :: ⟨.punct .colon, line', col'⟩ :: ts) (n, some type)

inductive Name : Lang Token String where
  | mk (n : String) (line col : ℕ) : Name [⟨.name n, line, col⟩] n

inductive ShapeField : Lang Token (String × String) where
  | mk (n : String) (line col line' col' : ℕ) {ts : List Token} {type : String}
      (h : TypeName ts type) :
      ShapeField (⟨.name n, line, col⟩ :: ⟨.punct .colon, line', col'⟩ :: ts) (n, type)

/-- An effects clause leaves nothing in the tree. -/
inductive Effects : List Token → Prop where
  | none : Effects []
  | clause (line col line' col' line'' col'' : ℕ) {ts : List Token} {names : List String}
      (h : ListOf Name ts names) :
      Effects (⟨.name "effects", line, col⟩ :: ⟨.punct .lbracket, line', col'⟩ ::
        (ts ++ [⟨.punct .rbracket, line'', col''⟩]))

inductive ReturnType : Lang Token (Option TypeSpec) where
  | none : ReturnType [] none
  | arrow (line col : ℕ) {ts : List Token} {type : String} (h : TypeName ts type) :
      ReturnType (⟨.punct .arrow, line, col⟩ :: ts) (some (typeSpecExpr type line))

/-! ## The rules -/

/-- The nonterminals that occur inside what they derive. -/
structure Nonterminals where
  expression : Lang Token Expr
  notExpr : Lang Token Expr
  unary : Lang Token Expr
  ifExpr : Lang Token Expr
  block : Lang Token Block

/-- A function from its parameters on. -/
structure FnTree where
  params : List (String × Option String)
  retType : Option TypeSpec
  body : Block

namespace FnTree

def names (f : FnTree) : List String := f.params.map Prod.fst

def contracts (f : FnTree) (fnName : Option String) : List ParamContract :=
  paramContracts (Block.line f.body) f.params fnName

def toExpr (f : FnTree) (line : ℕ) : Expr :=
  .fnExpr line f.names f.body f.retType none (f.contracts none)

def toStmt (f : FnTree) (line : ℕ) (name : String) : Stmt :=
  .fnDef line name f.names f.body f.retType (f.contracts (some name))

end FnTree

def EndsInExpr (ss : List Stmt) : Prop := ∃ line e, ss.getLast? = some (.exprStmt line e)

def boundNames (ss : List Stmt) : List String := ss.filterMap fun s ↦ (boundName s).map Prod.fst

section Rules

variable (strict : Bool) (G : Nonterminals)

inductive Fn : Lang Token FnTree where
  | mk (line col line' col' : ℕ) {ps es rs bs : List Token} {f : FnTree}
      (hparams : ListOf Param ps f.params) (hnames : strict → f.names.Nodup)
      (heffects : Effects es) (hret : ReturnType rs f.retType) (hbody : G.block bs f.body) :
      Fn (⟨.punct .lparen, line, col⟩ ::
        (ps ++ ⟨.punct .rparen, line', col'⟩ :: (es ++ (rs ++ bs)))) f

inductive RecordPair : Lang Token (String × Expr) where
  | mk (n : String) (line col line' col' : ℕ) {ts : List Token} {e : Expr}
      (h : G.expression ts e) :
      RecordPair (⟨.name n, line, col⟩ :: ⟨.punct .colon, line', col'⟩ :: ts) (n, e)

inductive Primary : Lang Token Expr where
  | number (v : Number) (line col : ℕ) : Primary [⟨.number v, line, col⟩] (.num line v)
  | string (s : String) (line col : ℕ) : Primary [⟨.string s, line, col⟩] (.str line s)
  | true_ (line col : ℕ) : Primary [⟨.kw .true_, line, col⟩] (.boolLit line true)
  | false_ (line col : ℕ) : Primary [⟨.kw .false_, line, col⟩] (.boolLit line false)
  | name (n : String) (line col : ℕ) : Primary [⟨.name n, line, col⟩] (.nameRef line n)
  | list (line col line' col' : ℕ) {ts : List Token} {items : List Expr}
      (h : ListOf G.expression ts items) :
      Primary (⟨.punct .lbracket, line, col⟩ :: (ts ++ [⟨.punct .rbracket, line', col'⟩]))
        (.listLit line items)
  | record (line col line' col' : ℕ) {ts : List Token} {pairs : List (String × Expr)}
      (h : ListOf (RecordPair G) ts pairs) (hkeys : strict → (pairs.map Prod.fst).Nodup) :
      Primary (⟨.punct .record, line, col⟩ :: (ts ++ [⟨.punct .rbrace, line', col'⟩]))
        (.recordLit line pairs)
  | paren (line col line' col' : ℕ) {ts : List Token} {e : Expr} (h : G.expression ts e) :
      Primary (⟨.punct .lparen, line, col⟩ :: (ts ++ [⟨.punct .rparen, line', col'⟩])) e
  | if_ {ts : List Token} {e : Expr} (h : G.ifExpr ts e) : Primary ts e
  | block {ts : List Token} {b : Block} (h : G.block ts b) : Primary ts (.block b)
  | fn (line col : ℕ) {ts : List Token} {f : FnTree} (h : Fn strict G ts f) :
      Primary (⟨.kw .fn, line, col⟩ :: ts) (f.toExpr line)

/-- A call, an index or a field after an expression. -/
inductive Suffix : Lang Token (Expr → Expr) where
  | call (line col line' col' : ℕ) {ts : List Token} {args : List Expr}
      (h : ListOf G.expression ts args) :
      Suffix (⟨.punct .lparen, line, col⟩ :: (ts ++ [⟨.punct .rparen, line', col'⟩]))
        fun e ↦ .call line e args false
  | index (line col line' col' : ℕ) {ts : List Token} {i : Expr} (h : G.expression ts i) :
      Suffix (⟨.punct .lbracket, line, col⟩ :: (ts ++ [⟨.punct .rbracket, line', col'⟩]))
        fun e ↦ .index line e i
  | field (n : String) (line col line' col' : ℕ) :
      Suffix [⟨.punct .dot, line, col⟩, ⟨.name n, line', col'⟩] fun e ↦ .fieldAccess line e n

abbrev Postfix : Lang Token Expr := Chain (Primary strict G) (Suffix G)

inductive Unary : Lang Token Expr where
  | postfix_ {ts : List Token} {e : Expr} (h : Postfix strict G ts e) : Unary ts e
  | op {t : Token} {ts : List Token} {node : Expr → Expr} {e : Expr} (hop : prefixOp t = some node)
      (h : G.unary ts e) : Unary (t :: ts) (node e)

abbrev Multiplicative : Lang Token Expr := LeftAssoc (Unary strict G) (opAt 7)

abbrev Additive : Lang Token Expr := LeftAssoc (Multiplicative strict G) (opAt 6)

/-- Comparisons do not chain. -/
inductive Comparison : Lang Token Expr where
  | additive {ts : List Token} {e : Expr} (h : Additive strict G ts e) : Comparison ts e
  | op {ts ts' : List Token} {t : Token} {node : Expr → Expr → Expr} {left right : Expr}
      (hleft : Additive strict G ts left) (hop : opAt 5 t = some node)
      (hright : Additive strict G ts' right) : Comparison (ts ++ t :: ts') (node left right)

inductive NotExpr : Lang Token Expr where
  | comparison {ts : List Token} {e : Expr} (h : Comparison strict G ts e) : NotExpr ts e
  | not (line col : ℕ) {ts : List Token} {e : Expr} (h : G.notExpr ts e) :
      NotExpr (⟨.kw .not, line, col⟩ :: ts) (.unary line .not e)

abbrev AndExpr : Lang Token Expr := LeftAssoc (NotExpr strict G) (opAt 3)

abbrev OrExpr : Lang Token Expr := LeftAssoc (AndExpr strict G) (opAt 2)

abbrev Expression : Lang Token Expr := LeftAssoc (OrExpr strict G) (opAt 1)

inductive ElseBranch : Lang Token Expr where
  | if_ {ts : List Token} {e : Expr} (h : G.ifExpr ts e) : ElseBranch ts e
  | block {ts : List Token} {b : Block} (h : G.block ts b) : ElseBranch ts (.block b)

inductive IfExpr : Lang Token Expr where
  | mk (line col line' col' : ℕ) {cs bs ns es : List Token} {cond otherwise : Expr} {b : Block}
      (hcond : G.expression cs cond) (hthen : G.block bs b) (hnewlines : Newlines ns)
      (helse : ElseBranch G es otherwise) :
      IfExpr (⟨.kw .if_, line, col⟩ ::
        (cs ++ (bs ++ (ns ++ ⟨.kw .else_, line', col'⟩ :: es)))) (.ifExpr line cond b otherwise)

inductive Statement : Lang Token Stmt where
  | let_ (n : String) (line col line₁ col₁ line₂ col₂ : ℕ) {ts : List Token} {e : Expr}
      (h : G.expression ts e) :
      Statement (⟨.kw .let_, line, col⟩ :: ⟨.name n, line₁, col₁⟩ ::
        ⟨.punct .assign, line₂, col₂⟩ :: ts) (.letStmt line n e)
  | fn (n : String) (line col line₁ col₁ : ℕ) {ts : List Token} {f : FnTree}
      (h : Fn strict G ts f) :
      Statement (⟨.kw .fn, line, col⟩ :: ⟨.name n, line₁, col₁⟩ :: ts) (f.toStmt line n)
  | check (s : String) (line col line₁ col₁ line₂ col₂ : ℕ) {ts : List Token} {e : Expr}
      (h : G.expression ts e) :
      Statement (⟨.kw .check, line, col⟩ :: ⟨.string s, line₁, col₁⟩ ::
        ⟨.punct .colon, line₂, col₂⟩ :: ts) (.check line s e)
  | shape (n : String) (line col line₁ col₁ line₂ col₂ line₃ col₃ line₄ col₄ : ℕ)
      {ts : List Token} {fields : List (String × String)} (h : ListOf ShapeField ts fields)
      (hfields : strict → (fields.map Prod.fst).Nodup) :
      Statement (⟨.name "shape", line, col⟩ :: ⟨.name n, line₁, col₁⟩ ::
        ⟨.punct .assign, line₂, col₂⟩ :: ⟨.punct .record, line₃, col₃⟩ ::
          (ts ++ [⟨.punct .rbrace, line₄, col₄⟩]))
        (.letStmt line n (.recordLit line (shapePairs line n fields)))
  | expr {ts : List Token} {e : Expr} (h : G.expression ts e) :
      Statement ts (.exprStmt (Expr.line e) e)

/-- Statements with at least one line break between any two. -/
inductive Statements : Lang Token (List Stmt) where
  | nil : Statements [] []
  | last {ts ns : List Token} {s : Stmt} (h : Statement strict G ts s) (hnewlines : Newlines ns) :
      Statements (ts ++ ns) [s]
  | cons {ts ns ts' : List Token} {s s' : Stmt} {ss : List Stmt} (h : Statement strict G ts s)
      (hnewlines : Newlines ns) (hsome : ns ≠ []) (hrest : Statements ts' (s' :: ss)) :
      Statements (ts ++ (ns ++ ts')) (s :: s' :: ss)

inductive StmtList : Lang Token (List Stmt) where
  | mk {ns ts : List Token} {ss : List Stmt} (hnewlines : Newlines ns)
      (h : Statements strict G ts ss) (hnames : strict → (boundNames ss).Nodup) :
      StmtList (ns ++ ts) ss

inductive BlockRule : Lang Token Block where
  | mk (line col line' col' : ℕ) {ts : List Token} {ss : List Stmt} (h : StmtList strict G ts ss)
      (hend : strict → EndsInExpr ss) :
      BlockRule (⟨.punct .lbrace, line, col⟩ :: (ts ++ [⟨.punct .rbrace, line', col'⟩]))
        (.mk line ss none none)

end Rules

/-- The languages of derivations of a bounded depth. -/
def grammar (strict : Bool) : ℕ → Nonterminals
  | 0 => ⟨fun _ _ ↦ False, fun _ _ ↦ False, fun _ _ ↦ False, fun _ _ ↦ False, fun _ _ ↦ False⟩
  | n + 1 =>
      let G := grammar strict n
      ⟨Expression strict G, NotExpr strict G, Unary strict G, IfExpr G, BlockRule strict G⟩

/-- The tokens derive the program. -/
def Derives (strict : Bool) (toks : List Token) (program : List Stmt) : Prop :=
  ∃ n, StmtList strict (grammar strict n) toks program

/-! ## How expressions begin -/

def startsExpr (t : Tok) : Bool :=
  startsStatement t && decide (t ≠ .kw .let_) && decide (t ≠ .kw .check)

def NoName (ts : List Token) : Prop := ∀ t ∈ ts.head?, isName t.tok = false

/-- The first token of an expression and, after `fn` or a name, the second. -/
inductive Opens : List Token → Prop where
  | mk (t : Token) (ts : List Token) (hstart : startsExpr t.tok = true)
      (hfn : t.tok = .kw .fn → ∃ line col ts', ts = ⟨.punct .lparen, line, col⟩ :: ts')
      (hname : isName t.tok = true → NoName ts) : Opens (t :: ts)

theorem Opens.append {ts ts' : List Token} (h : Opens ts) (hnext : NoName ts') :
    Opens (ts ++ ts') := by
  cases h with
  | mk t ts hstart hfn hname =>
      refine .mk t (ts ++ ts') hstart (fun h ↦ ?_) fun h ↦ ?_
      · obtain ⟨line, col, rest, rfl⟩ := hfn h
        exact ⟨line, col, rest ++ ts', rfl⟩
      · cases ts with
        | nil => exact hnext
        | cons t' ts => exact hname h

/-- A token that is neither `fn` nor a name opens an expression by itself. -/
theorem Opens.of_start {t : Token} (ts : List Token) (h : startsExpr t.tok = true)
    (hfn : t.tok ≠ .kw .fn) (hname : isName t.tok = false) : Opens (t :: ts) :=
  .mk t ts h (fun h ↦ absurd h hfn) fun h ↦ absurd h (by simp [hname])

theorem Opens.ne_nil {ts : List Token} (h : Opens ts) : ts ≠ [] := by
  cases h
  exact List.cons_ne_nil _ _

theorem opAt_eq {level : ℕ} {t : Token} {f : Expr → Expr → Expr} (h : opAt level t = some f) :
    infixOp t = some (level, f) := by
  obtain ⟨⟨l, g⟩, hop, h⟩ := Option.bind_eq_some_iff.mp h
  dsimp only at h
  split at h
  · next hl =>
      cases h
      rw [hop, hl]
  · cases h

theorem isName_of_infixOp {t : Token} {op : ℕ × (Expr → Expr → Expr)} (h : infixOp t = some op) :
    isName t.tok = false := by
  unfold infixOp at h
  cases htok : t.tok <;> simp_all [isName]

section Heads

variable {strict : Bool} {G : Nonterminals}

theorem Chain.opens {operand : Lang Token Expr} {suffix : Lang Token (Expr → Expr)}
    {ts : List Token} {e : Expr} (h : Chain operand suffix ts e)
    (hoperand : ∀ {ts e}, operand ts e → Opens ts) (hsuffix : ∀ {ts f}, suffix ts f → NoName ts) :
    Opens ts := by
  induction h with
  | operand h => exact hoperand h
  | extend _ hs ih => exact ih.append (hsuffix hs)

theorem Suffix.noName {ts : List Token} {f : Expr → Expr} (h : Suffix G ts f) : NoName ts := by
  cases h <;> (intro t ht; cases ht; rfl)

theorem Infix.noName {operand : Lang Token Expr} {level : ℕ} {ts : List Token} {f : Expr → Expr}
    (h : Infix operand (opAt level) ts f) : NoName ts := by
  cases h with
  | mk hop _ =>
      intro t ht
      cases ht
      exact isName_of_infixOp (opAt_eq hop)

/-- The nonterminals whose derivations are known to begin like an expression. -/
structure Nonterminals.Headed (G : Nonterminals) : Prop where
  expression {ts : List Token} {e : Expr} : G.expression ts e → Opens ts
  notExpr {ts : List Token} {e : Expr} : G.notExpr ts e → Opens ts
  unary {ts : List Token} {e : Expr} : G.unary ts e → Opens ts
  ifExpr {ts : List Token} {e : Expr} : G.ifExpr ts e →
    ∃ line col ts', ts = ⟨.kw .if_, line, col⟩ :: ts'
  block {ts : List Token} {b : Block} : G.block ts b →
    ∃ line col ts', ts = ⟨.punct .lbrace, line, col⟩ :: ts'

theorem Primary.opens (hG : G.Headed) {ts : List Token} {e : Expr} (h : Primary strict G ts e) :
    Opens ts := by
  cases h with
  | name n line col =>
      exact .mk _ [] rfl (fun h ↦ nomatch h) fun _ _ ht ↦ nomatch ht
  | if_ h =>
      obtain ⟨line, col, ts', rfl⟩ := hG.ifExpr h
      exact .of_start ts' rfl (fun h ↦ nomatch h) rfl
  | block h =>
      obtain ⟨line, col, ts', rfl⟩ := hG.block h
      exact .of_start ts' rfl (fun h ↦ nomatch h) rfl
  | fn line col h =>
      cases h with
      | mk line' col' => exact .mk _ _ rfl (fun _ ↦ ⟨line', col', _, rfl⟩) fun h ↦ nomatch h
  | _ => exact .of_start _ rfl (fun h ↦ nomatch h) rfl

theorem Unary.opens (hG : G.Headed) {ts : List Token} {e : Expr} (h : Unary strict G ts e) :
    Opens ts := by
  cases h with
  | postfix_ h => exact Chain.opens h (Primary.opens hG) Suffix.noName
  | @op t ts node e hop _ =>
      unfold prefixOp at hop
      split at hop
      case h_5 => cases hop
      all_goals
        next htok =>
          exact .of_start _ (by rw [htok]; rfl) (by rw [htok]; decide) (by rw [htok]; rfl)

theorem Multiplicative.opens (hG : G.Headed) {ts : List Token} {e : Expr}
    (h : Multiplicative strict G ts e) : Opens ts :=
  Chain.opens h (Unary.opens hG) Infix.noName

theorem Additive.opens (hG : G.Headed) {ts : List Token} {e : Expr} (h : Additive strict G ts e) :
    Opens ts :=
  Chain.opens h (Multiplicative.opens hG) Infix.noName

theorem Comparison.opens (hG : G.Headed) {ts : List Token} {e : Expr}
    (h : Comparison strict G ts e) : Opens ts := by
  cases h with
  | additive h => exact h.opens hG
  | op hleft hop _ =>
      refine (Additive.opens hG hleft).append fun t ht ↦ ?_
      cases ht
      exact isName_of_infixOp (opAt_eq hop)

theorem NotExpr.opens (hG : G.Headed) {ts : List Token} {e : Expr} (h : NotExpr strict G ts e) :
    Opens ts := by
  cases h with
  | comparison h => exact h.opens hG
  | not => exact .of_start _ rfl (fun h ↦ nomatch h) rfl

theorem Expression.opens (hG : G.Headed) {ts : List Token} {e : Expr}
    (h : Expression strict G ts e) : Opens ts :=
  Chain.opens h
    (fun h ↦ Chain.opens h (fun h ↦ Chain.opens h (NotExpr.opens hG) Infix.noName) Infix.noName)
    Infix.noName

theorem grammar_headed (strict : Bool) (n : ℕ) : (grammar strict n).Headed := by
  induction n with
  | zero => exact ⟨False.elim, False.elim, False.elim, False.elim, False.elim⟩
  | succ n ih =>
      refine ⟨Expression.opens ih, NotExpr.opens ih, Unary.opens ih, ?_, ?_⟩
      · rintro _ _ ⟨line, col, _, _⟩
        exact ⟨line, col, _, rfl⟩
      · rintro _ _ ⟨line, col, _, _⟩
        exact ⟨line, col, _, rfl⟩

/-- The first token of a statement. -/
theorem Statement.starts (hG : G.Headed) {ts : List Token} {s : Stmt}
    (h : Statement strict G ts s) : ∃ t ts', ts = t :: ts' ∧ startsStatement t.tok = true := by
  cases h with
  | expr h =>
      cases hG.expression h with
      | mk t ts hstart =>
          simp only [startsExpr, Bool.and_eq_true] at hstart
          exact ⟨t, ts, rfl, hstart.1.1⟩
  | _ => exact ⟨_, _, rfl, rfl⟩

end Heads

end NucLlm.Whence.Grammar
