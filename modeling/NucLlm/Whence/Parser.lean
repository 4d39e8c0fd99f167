import NucLlm.Lib.Parsing
import NucLlm.Whence.Token
import NucLlm.Whence.Scopes

/-!
# The Whence parser

The recursive descent parser, one definition for each of its methods.  A method
takes the methods it calls back into as `P`, and `parsers` ties the knot to a
bounded depth.  A parse error carries its message and its position.
-/

namespace NucLlm.Whence.Parser

open Parsing

inductive ParseError where
  | at_ (message : String) (line col : ℕ)
  | outOfFuel

structure PState where
  toks : List Token
  prev : Option Token
  eofLine : ℕ
  eofCol : ℕ
  boundNames : List String
  nesting : ℕ
  scopes : Scopes

abbrev M (α : Type) := Exec ParseError PState α

def PState.advance (s : PState) : PState :=
  { s with toks := s.toks.tail, prev := s.toks.head?.or s.prev }

/-- `next`. -/
def stream : TokenStream PState Token := ⟨PState.toks, PState.advance, fun _ ↦ rfl⟩

/-! ## Hints -/

def nameIntroducers : List String := ["shape"]

/-- `FOREIGN_NAMES`. -/
def foreignNames : List (String × String) :=
  let loops := "Whence has no loops; iterate with `map`/`filter`/`fold` or recursion"
  let failure (word : String) :=
    s!"Whence has no `{word}`; a failure is a value --- write `miss <reason>`"
  let missing (word : String) := s!"Whence has no {word}; a missing value is `miss <reason>`"
  let spelled (digits : String) :=
    s!"Whence has no spelled-out numbers; write the literal `{digits}`"
  [("println", "Whence has no `println`; `print` already ends the line"),
    ("catch", "Whence has no `catch`; recover with `risky rescue fallback`"),
    ("Miss", "Whence's `miss` is lower case: `miss <reason>`"),
    ("return", "Whence has no `return`; a block's value is its last expression"),
    ("for", loops),
    ("then", "an `if` needs no `then`: `if c \x7b a \x7d else \x7b b \x7d`"),
    ("while", loops),
    ("try", "Whence has no `try`; recover with `risky rescue fallback`"),
    ("throw", failure "throw"),
    ("raise", failure "raise"),
    ("null", missing "null"),
    ("nil", missing "nil"),
    ("None", missing "None"),
    ("zero_point_zero", spelled "0.0"),
    ("one_hundred", spelled "100")]

def braceHint : String :=
  "blocks are always braced: `if c \x7b a \x7d else \x7b b \x7d`, `fn f(x) \x7b x \x7d`"

def recordHint : String := "records are written `@\x7ba: 1\x7d`, not `\x7ba: 1\x7d`"

def ifElseHint : String := "every expression has a value"

def juxtaposeHint : String :=
  "two names in a row: Whence has no juxtaposition — a call is `f(x)` and text must be quoted"

def emptyBlockHint : String :=
  "every block has a value and an empty one has none — `\x7b 0 \x7d` is the smallest block there is"

def withHint (message : String) : Option String → String
  | none => message
  | some hint => s!"{message} ({hint})"

def isName : Tok → Bool
  | .name _ => true
  | _ => false

def isNewline : Tok → Bool
  | .newline => true
  | _ => false

/-- A name right after a name that does not introduce one: the earlier name. -/
def juxtaposed (s : PState) (tok : Option Token) : Option String :=
  match tok, s.prev with
  | some ⟨.name _, _, _⟩, some ⟨.name prev, _, _⟩ =>
      if nameIntroducers.contains prev then none else some prev
  | _, _ => none

/-- `_foreign_hint`. -/
def foreignHint (s : PState) (tok : Option Token) : Option String :=
  let candidate := match juxtaposed s tok, tok with
    | some prev, _ => some prev
    | none, some ⟨.name n, _, _⟩ => some n
    | _, _ => none
  candidate.bind fun n ↦
    if s.boundNames.contains n then none
    else (foreignNames.find? (·.1 = n)).map Prod.snd

def opensBrace : Tok → Bool
  | .punct .lbrace | .punct .record => true
  | _ => false

/-- The scan of a body for a name, `depth` braces deep. -/
def mentionsFrom (name : String) : ℕ → List Token → Bool
  | _, [] => false
  | depth, t :: ts =>
      if opensBrace t.tok then mentionsFrom name (depth + 1) ts
      else if t.tok = .punct .rbrace then
        if depth = 1 then false else mentionsFrom name (depth - 1) ts
      else if t.tok = .name name then true
      else mentionsFrom name depth ts

/-- `_fn_body_mentions`. -/
def fnBodyMentions (s : PState) (name : String) : Bool :=
  mentionsFrom name 0 (s.toks.dropWhile fun t ↦ !opensBrace t.tok)

/-- `_fn_expr_hint`. -/
def fnExprHint (s : PState) (name : String) : String :=
  if fnBodyMentions s name then
    s!"a `fn` expression is anonymous and this body calls `{name}`: give it a statement of its " ++
      s!"own — `fn {name}(x) \x7b x \x7d` on its own line, then pass `{name}` here"
  else
    "a `fn` expression is anonymous: write `fn(x) \x7b x \x7d` — " ++
      s!"`fn {name}(x) \x7b x \x7d` is a statement, not a value"

/-- `_expect_hint`. -/
def expectHint (s : PState) (want : String) (tok : Option Token) : Option String :=
  match foreignHint s tok with
  | some hint => some hint
  | none =>
      if want = "'\x7b'" then some braceHint
      else match tok, s.prev with
        | some ⟨.name name, _, _⟩, some ⟨.kw .fn, _, _⟩ =>
            if want = "'('" then some (fnExprHint s name) else none
        | _, _ => (juxtaposed s tok).map fun _ ↦ juxtaposeHint

/-- `_separator_hint`. -/
def separatorHint (s : PState) (tok : Token) : String :=
  let shapeHead := match s.toks with
    | ⟨.name "shape", _, _⟩ :: ⟨.name _, _, _⟩ :: ⟨.punct .assign, _, _⟩ :: _ => true
    | _ => false
  let foreign := if shapeHead then none else foreignHint s (some tok)
  match foreign with
  | some hint => hint
  | none =>
      if !shapeHead && (juxtaposed s (some tok)).isSome then juxtaposeHint
      else "a line break is the only statement separator Whence has — " ++
        s!"start `{tok.tok.spell}` on the next line"

/-- `_block_tail_hint`. -/
def blockTailHint : Stmt → Option String
  | .letStmt _ name (.recordLit _ (("__shape", .str _ shape) :: _)) =>
      if shape = name then
        some <| "a block's value is its last expression — a `shape` declares a type, " ++
          "it is not a value; put the value on the next line"
      else some (letHint name)
  | .letStmt _ name _ => some (letHint name)
  | .fnDef _ name _ _ _ _ =>
      some <| s!"a block's value is its last expression — `fn {name}(x) \x7b x \x7d` is a " ++
        "statement; write `fn(x) \x7b x \x7d` to make it the value"
  | .check _ _ _ =>
      some <| "a block's value is its last expression — a `check` is a statement, " ++
        "not a value; put the value on the next line"
  | .exprStmt _ _ => none
where
  letHint (name : String) : String :=
    s!"a block's value is its last expression — `let {name} = e` binds a name nothing can read " ++
      "here (a block's bindings do not escape it); write `e` on its own"

/-- `_INFIX_OPS`. -/
def isInfix : Tok → Bool
  | .kw .and | .kw .or => true
  | .punct p => match p with
    | .eqEq | .notEq | .lt | .le | .gt | .ge | .plus | .star | .slash | .percent => true
    | _ => false
  | _ => false

/-- The hint of a token that starts no expression. -/
def primaryHint (s : PState) (tok : Option Token) : Option String :=
  match tok.map Token.tok with
  | some (.punct .assign) =>
      some "Whence has no assignment; a name binds once — write `let name = value`"
  | some (.kw .rescue) => some "`rescue` is infix: `risky rescue fallback`"
  | some t =>
      if isInfix t then
        some s!"`{t.text}` is infix and has nothing on its left: `a {t.text} b`"
      else foreignHint s tok
  | none => none

/-! ## Tokens -/

/-- A parse error at a token, or at the end of the input. -/
def failAt {α : Type} (tok : Option Token) (message : String) : M α := do
  let s ← Exec.get
  match tok with
  | some t => Exec.fail (.at_ message t.line t.col)
  | none => Exec.fail (.at_ message s.eofLine s.eofCol)

def advance : M Unit := Exec.modify PState.advance

def outOfFuel {α : Type} : M α := Exec.fail .outOfFuel

/-- `peek`. -/
def peek : M (Option Token) := do
  let s ← Exec.get
  pure s.toks.head?

def at_ (t : Tok) : M Bool := do
  let s ← Exec.get
  pure (s.toks.head?.any fun tok ↦ tok.tok = t)

/-- `expect`: the token that `read` accepts, with what `read` makes of it. -/
def expect {α : Type} (read : Tok → Option α) (want : String) : M (Token × α) := do
  let s ← Exec.get
  match s.toks with
  | t :: _ =>
      match read t.tok with
      | some a => do
          advance
          pure (t, a)
      | none =>
          let got := Tok.showTok (some t.tok)
          failAt (some t) (withHint s!"expected {want}, got {got}" (expectHint s want (some t)))
  | [] =>
      failAt none (withHint s!"expected {want}, got {Tok.showTok none}" (expectHint s want none))

def readName : Tok → Option String
  | .name n => some n
  | _ => none

def readString : Tok → Option String
  | .string s => some s
  | _ => none

def expectTok (t : Tok) (want : String) : M Token := do
  let (tok, ()) ← expect (fun t' ↦ if t' = t then some () else none) want
  pure tok

def expectPunct (p : Punct) : M Token := expectTok (.punct p) s!"'{p.text}'"

/-- `skip_newlines`: whether there was one. -/
def skipNewlines : M Bool := do
  let s ← Exec.get
  let newlines := s.toks.takeWhile fun t ↦ isNewline t.tok
  Exec.modify fun s ↦ { s with
    toks := s.toks.dropWhile fun t ↦ isNewline t.tok
    prev := newlines.getLast?.or s.prev }
  pure (!newlines.isEmpty)

def modifyScopes (f : Scopes → Scopes) : M Unit :=
  Exec.modify fun s ↦ { s with scopes := f s.scopes }

def getScopes : M Scopes := do
  let s ← Exec.get
  pure s.scopes

def maxNesting : ℕ := 60

/-- `_enter`. -/
def enter : M Unit := do
  Exec.modify fun s ↦ { s with nesting := s.nesting + 1 }
  let s ← Exec.get
  if maxNesting < s.nesting then
    failAt s.toks.head? s!"expression nested more than {maxNesting} levels deep"
  else pure ()

/-- `self._enter()`, then `try: ... finally: self.nesting -= 1`. -/
def nested {α : Type} (m : M α) : M α := do
  enter
  Exec.tryFinally m fun s ↦ { s with nesting := s.nesting - 1 }

/-! ## The methods called back into -/

structure Parsers where
  fuel : ℕ
  expression : M Expr
  notExpr : M Expr
  unary : M Expr
  ifExpr : M Expr
  block : M Block

def Parsers.stuck : Parsers := ⟨0, outOfFuel, outOfFuel, outOfFuel, outOfFuel, outOfFuel⟩

/-- `while True: item; if at(","): continue; break`. -/
def commaList {α : Type} (P : Parsers) (item : List α → M α) : M (List α) :=
  sepLoop stream .outOfFuel item (fun t : Token ↦ decide (t.tok = .punct .comma)) P.fuel []

/-- A list that `close` may end at once. -/
def listUntil {α : Type} (P : Parsers) (close : Punct) (item : List α → M α) : M (List α) := do
  let empty ← at_ (.punct close)
  if empty then pure [] else commaList P item

/-! ## Types and parameters -/

/-- `parse_type`. -/
def parseType : M String := do
  let s ← Exec.get
  let checked (t : Token) (name : String) : M String := do
    advance
    if primitiveTypes.contains name || s.scopes.shapeInScope name then pure name
    else if s.scopes.shapesSeen.contains name then
      failAt (some t) s!"type '{name}' is not in scope here"
    else failAt (some t) s!"unknown type '{name}'"
  match s.toks.head? with
  | some ⟨.kw .fn, line, col⟩ => checked ⟨.kw .fn, line, col⟩ "fn"
  | some ⟨.name n, line, col⟩ => checked ⟨.name n, line, col⟩ n
  | tok => failAt tok "expected a type name"

/-- `_type_spec_expr`. -/
def typeSpecExpr (name : String) (line : ℕ) : TypeSpec :=
  if primitiveTypes.contains name then .tag line name else .shape line name

/-- The annotation of a parameter, if it has one. -/
def paramType : M (Option String) := do
  let annotated ← at_ (.punct .colon)
  if annotated then do
    advance
    let t ← parseType
    pure (some t)
  else pure none

def param (done : List (String × Option String)) : M (String × Option String) := do
  let (tok, name) ← expect readName "parameter name"
  if (done.map Prod.fst).contains name then failAt (some tok) s!"duplicate parameter '{name}'"
  else do
    let t ← paramType
    pure (name, t)

/-- `param_list`: the parameters with their types. -/
def paramList (P : Parsers) : M (List (String × Option String)) := do
  let _ ← expectPunct .lparen
  let params ← listUntil P .rparen param
  let _ ← expectPunct .rparen
  pure params

/-- `parse_return_type`. -/
def parseReturnType : M (Option TypeSpec) := do
  let s ← Exec.get
  match s.toks.head? with
  | some ⟨.punct .arrow, line, _⟩ => do
      advance
      let name ← parseType
      pure (some (typeSpecExpr name line))
  | _ => pure none

def effectName (_ : List String) : M String := do
  let (_, name) ← expect readName "effect name"
  pure name

/-- `parse_effects_clause`. -/
def parseEffectsClause (P : Parsers) : M (Option (List String)) := do
  let s ← Exec.get
  match s.toks with
  | ⟨.name "effects", _, _⟩ :: ⟨.punct .lbracket, _, _⟩ :: _ => do
      advance
      advance
      let names ← listUntil P .rbracket effectName
      let _ ← expectPunct .rbracket
      pure (some names.dedup)
  | _ => pure none

/-- `_param_contracts`. -/
def paramContracts (line : ℕ) (params : List (String × Option String)) (fnName : Option String) :
    List ParamContract :=
  let suffix := match fnName with
    | none => ""
    | some name => s!" of {name}"
  params.zipIdx.filterMap fun p ↦
    p.1.2.map fun t ↦ ⟨p.2, p.1.1, typeSpecExpr t line, s!"parameter '{p.1.1}'{suffix}"⟩

/-! ## Tail marks -/

mutual

/-- `mark_tails` on an expression in tail position. -/
def markTails : Expr → Expr
  | .call line fn args _ => .call line fn args true
  | .ifExpr line cond thenBlock otherwise =>
      .ifExpr line cond (markTailsBlock thenBlock) (markTails otherwise)
  | .block b => .block (markTailsBlock b)
  | e => e

def markTailsBlock : Block → Block
  | .mk line stmts tag param => .mk line (markTailsStmts stmts) tag param

/-- Only the last statement of a block is in tail position. -/
def markTailsStmts : List Stmt → List Stmt
  | [] => []
  | [.exprStmt line e] => [.exprStmt line (markTails e)]
  | s :: ss => s :: markTailsStmts ss

end

/-! ## Functions -/

structure FnParts where
  params : List (String × Option String)
  retType : Option TypeSpec
  ownEffects : Option (List String)
  body : Block
  called : List String

/-- A function from its parameters on, named or not. -/
def fnParts (P : Parsers) : M FnParts := do
  let params ← paramList P
  let effects ← parseEffectsClause P
  let retType ← parseReturnType
  let sc ← getScopes
  let own := sc.resolveEffectsScope effects
  modifyScopes fun sc ↦ sc.pushFn own (params.map Prod.fst)
  let (body, called) ← Exec.tryFinally
    (do
      let body ← P.block
      let sc ← getScopes
      pure (body, sc.directParamCallsStack.head?.getD []))
    fun s ↦ { s with scopes := s.scopes.popFn }
  pure ⟨params, retType, own, body, called⟩

/-- The `fn` statement after its name. -/
def fnStatement (P : Parsers) (line : ℕ) (name : String) : M Stmt := do
  modifyScopes fun sc ↦ sc.forget name
  let f ← fnParts P
  let params := f.params.map Prod.fst
  let fact := Scopes.paramCallFact f.ownEffects params f.called
  modifyScopes fun sc ↦ sc.recordFn name params f.body fact
  pure (.fnDef line name params (markTailsBlock f.body) f.retType
    (paramContracts (Block.line f.body) f.params (some name)))

/-- The `fn` expression after its keyword. -/
def fnExpr (P : Parsers) (line : ℕ) : M Expr := do
  let f ← fnParts P
  let params := f.params.map Prod.fst
  let fact := Scopes.paramCallFact f.ownEffects params f.called
  pure (.fnExpr line params (markTailsBlock f.body) f.retType fact
    (paramContracts (Block.line f.body) f.params none))

/-! ## Statements -/

/-- The `let` statement after its keyword. -/
def letStatement (P : Parsers) (line : ℕ) : M Stmt := do
  let (_, name) ← expect readName "a name"
  let _ ← expectPunct .assign
  let e ← P.expression
  modifyScopes fun sc ↦ sc.recordLet name e
  pure (.letStmt line name e)

/-- The `check` statement after its keyword. -/
def checkStatement (P : Parsers) (line : ℕ) : M Stmt := do
  let (_, label) ← expect readString "a string label after 'check'"
  let _ ← expectPunct .colon
  let e ← P.expression
  pure (.check line label e)

def shapeField (done : List (String × String)) : M (String × String) := do
  let (tok, name) ← expect readName "field name"
  if (done.map Prod.fst).contains name then failAt (some tok) s!"duplicate field '{name}'"
  else do
    let _ ← expectPunct .colon
    let t ← parseType
    pure (name, t)

/-- The pairs of a shape's record: its name, then the specs of its fields. -/
def shapePairs (line : ℕ) (name : String) (fields : List (String × String)) :
    List (String × Expr) :=
  ("__shape", .str line name) ::
    fields.map fun f ↦ (f.1, TypeSpec.toExpr (typeSpecExpr f.2 line))

/-- `shape_def` after its first token. -/
def shapeDef (P : Parsers) (line : ℕ) : M Stmt := do
  let (tok, name) ← expect readName "shape name"
  let sc ← getScopes
  if primitiveTypes.contains name then
    failAt (some tok) s!"'{name}' is a reserved type name"
  else match sc.shapeScopes.head?.bind fun d ↦ d.get? name with
    | some declared =>
        failAt (some tok) s!"shape '{name}' is already declared in this block (line {declared})"
    | none => do
        let _ ← expectPunct .assign
        let _ ← expectTok (.punct .record) "'@\x7b' after shape name"
        let fields ← listUntil P .rbrace shapeField
        let _ ← expectPunct .rbrace
        modifyScopes fun sc ↦ sc.declareShape name line
        pure (.letStmt line name (.recordLit line (shapePairs line name fields)))

/-- `statement`. -/
def statement (P : Parsers) : M Stmt := do
  let s ← Exec.get
  match s.toks with
  | ⟨.kw .let_, line, _⟩ :: _ => do
      advance
      letStatement P line
  | ⟨.kw .fn, line, _⟩ :: ⟨.name name, _, _⟩ :: _ => do
      advance
      advance
      fnStatement P line name
  | ⟨.kw .check, line, _⟩ :: _ => do
      advance
      checkStatement P line
  | ⟨.name "shape", line, _⟩ :: ⟨.name _, _, _⟩ :: ⟨.punct .assign, _, _⟩ :: _ => do
      advance
      shapeDef P line
  | _ => do
      let e ← P.expression
      pure (.exprStmt (Expr.line e) e)

/-- `_starts_statement`. -/
def startsStatement : Tok → Bool
  | .kw k => match k with
    | .let_ | .fn | .check | .if_ | .true_ | .false_ | .why | .snip | .miss | .not => true
    | _ => false
  | .number _ | .string _ | .name _ => true
  | .punct p => match p with
    | .lbracket | .record | .lparen | .lbrace | .minus => true
    | _ => false
  | .newline => false

/-- The name a statement binds in its block, with its line. -/
def boundName : Stmt → Option (String × ℕ)
  | .letStmt line name _ => some (name, line)
  | .fnDef line name _ _ _ _ => some (name, line)
  | _ => none

/-- The token list ends here: a closing brace, or the end of the input. -/
def atEnd (stop : Option Punct) (tok : Option Token) : Bool :=
  match stop, tok with
  | none, none => true
  | some p, some t => decide (t.tok = .punct p)
  | _, _ => false

/-- One more statement of a block with these names bound: the names after it. -/
def boundAfter (bound : Dict ℕ) (start : Option Token) (s : Stmt) : M (Dict ℕ) :=
  match boundName s with
  | none => pure bound
  | some (name, line) =>
      match bound.get? name with
      | some before =>
          failAt start <| s!"'{name}' is already bound in this block (line {before}); " ++
            "Whence has no rebinding"
      | none => pure ((name, line) :: bound)

/-- Two statements need a line break between them. -/
def checkSeparated (separated : Bool) : M Unit := do
  let s ← Exec.get
  match s.toks.head? with
  | some t =>
      if !separated && startsStatement t.tok then
        failAt (some t) (withHint "two statements on one line" (some (separatorHint s t)))
      else pure ()
  | none => pure ()

/-- The `while` loop of `stmt_list`; nothing is required before the first
statement. -/
def stmtLoop (P : Parsers) (stop : Option Punct) : ℕ → Bool → Dict ℕ → M (List Stmt)
  | 0, _, _ => outOfFuel
  | k + 1, separated, bound => do
      let start ← peek
      if atEnd stop start then pure []
      else do
        checkSeparated separated
        let s ← statement P
        let bound ← boundAfter bound start s
        let separated ← skipNewlines
        let ss ← stmtLoop P stop k separated bound
        pure (s :: ss)

/-- `stmt_list`: the statements, and what the last of them stands for. -/
def stmtList (P : Parsers) (stop : Option Punct) :
    M (List Stmt × Option String × Option String) := do
  modifyScopes Scopes.pushBlock
  Exec.tryFinally
    (do
      let _ ← skipNewlines
      let stmts ← stmtLoop P stop P.fuel true []
      let sc ← getScopes
      pure (stmts, sc.tailFacts stmts))
    fun s ↦ { s with scopes := s.scopes.popBlock }

/-- The record literal without its `@`, right after an opening brace. -/
def looksLikeRecord (toks : List Token) : Option Token :=
  match toks.dropWhile fun t ↦ isNewline t.tok with
  | ⟨.name _, _, _⟩ :: ⟨.punct .colon, line, col⟩ :: _ => some ⟨.punct .colon, line, col⟩
  | ⟨.string _, _, _⟩ :: ⟨.punct .colon, line, col⟩ :: _ => some ⟨.punct .colon, line, col⟩
  | _ => none

/-- `block`. -/
def block (P : Parsers) : M Block := do
  let opening ← expectTok (.punct .lbrace) "'\x7b'"
  let s ← Exec.get
  match looksLikeRecord s.toks with
  | some colon => failAt (some colon) (withHint "unexpected ':'" (some recordHint))
  | none => do
      let (stmts, tag, param) ← stmtList P (some .rbrace)
      let close ← expectPunct .rbrace
      match stmts.getLast? with
      | none =>
          failAt (some opening)
            (withHint "block must contain at least one expression" (some emptyBlockHint))
      | some (.exprStmt _ _) => pure (.mk opening.line stmts tag param)
      | some s =>
          failAt (some close) (withHint "block must end with an expression" (blockTailHint s))

/-! ## Expressions, from the tightest level up -/

def recordPair (P : Parsers) (done : List (String × Expr)) : M (String × Expr) := do
  let (tok, name) ← expect readName "field name"
  if (done.map Prod.fst).contains name then failAt (some tok) s!"duplicate field '{name}'"
  else do
    let _ ← expectPunct .colon
    let e ← P.expression
    pure (name, e)

/-- `primary`. -/
def primary (P : Parsers) : M Expr := do
  let s ← Exec.get
  match s.toks.head? with
  | some ⟨.number value, line, _⟩ => do
      advance
      pure (.num line value)
  | some ⟨.string value, line, _⟩ => do
      advance
      pure (.str line value)
  | some ⟨.kw .true_, line, _⟩ => do
      advance
      pure (.boolLit line true)
  | some ⟨.kw .false_, line, _⟩ => do
      advance
      pure (.boolLit line false)
  | some ⟨.name name, line, _⟩ => do
      advance
      pure (.nameRef line name)
  | some ⟨.punct .lbracket, line, _⟩ => do
      advance
      let items ← listUntil P .rbracket fun _ ↦ P.expression
      let _ ← expectPunct .rbracket
      pure (.listLit line items)
  | some ⟨.punct .record, line, _⟩ => do
      advance
      let pairs ← listUntil P .rbrace (recordPair P)
      let _ ← expectPunct .rbrace
      pure (.recordLit line pairs)
  | some ⟨.punct .lparen, _, _⟩ => do
      advance
      let e ← P.expression
      let _ ← expectPunct .rparen
      pure e
  | some ⟨.kw .if_, _, _⟩ => P.ifExpr
  | some ⟨.punct .lbrace, _, _⟩ => do
      let b ← P.block
      pure (.block b)
  | some ⟨.kw .fn, line, _⟩ => do
      advance
      fnExpr P line
  | tok =>
      failAt tok (withHint s!"unexpected {Tok.showTok (tok.map Token.tok)}" (primaryHint s tok))

/-- The effect checks of a call. -/
def checkCall (callee : Expr) (args : List Expr) (tok : Token) : M Unit := do
  modifyScopes fun sc ↦ sc.noteDirectCall callee
  let sc ← getScopes
  match sc.checkEffectCall callee with
  | some message => failAt (some tok) message
  | none =>
      match sc.checkCallSiteParamEffects callee args with
      | some message => failAt (some tok) message
      | none => modifyScopes fun sc ↦ sc.noteParamForwarding callee args

/-- The loop of `postfix`. -/
def postfixLoop (P : Parsers) : ℕ → Expr → M Expr
  | 0, _ => outOfFuel
  | k + 1, e => do
      let s ← Exec.get
      match s.toks.head? with
      | some ⟨.punct .lparen, line, col⟩ => do
          advance
          let args ← listUntil P .rparen fun _ ↦ P.expression
          let _ ← expectPunct .rparen
          checkCall e args ⟨.punct .lparen, line, col⟩
          postfixLoop P k (.call line e args false)
      | some ⟨.punct .lbracket, line, _⟩ => do
          advance
          let index ← P.expression
          let _ ← expectPunct .rbracket
          postfixLoop P k (.index line e index)
      | some ⟨.punct .dot, line, _⟩ => do
          advance
          let (_, name) ← expect readName "field name after '.'"
          postfixLoop P k (.fieldAccess line e name)
      | _ => pure e

/-- `postfix`. -/
def postfix_ (P : Parsers) : M Expr := do
  let e ← primary P
  postfixLoop P P.fuel e

/-- The node a unary operator builds. -/
def unaryOp (t : Token) : Option (Expr → Expr) :=
  match t.tok with
  | .punct .minus => some (.unary t.line .neg)
  | .kw .why => some (.why t.line)
  | .kw .snip => some (.snip t.line)
  | .kw .miss => some (.missLit t.line)
  | _ => none

/-- `unary`. -/
def unary (P : Parsers) : M Expr := do
  let s ← Exec.get
  match s.toks.head?.bind unaryOp with
  | some node => do
      advance
      let operand ← nested P.unary
      pure (node operand)
  | none => postfix_ P

def binaryOp (line : ℕ) (op : BinOp) : Option (Expr → Expr → Expr) := some (.binary line op)

def multiplicativeOp (t : Token) : Option (Expr → Expr → Expr) :=
  match t.tok with
  | .punct .star => binaryOp t.line .mul
  | .punct .slash => binaryOp t.line .div
  | .punct .percent => binaryOp t.line .mod
  | _ => none

def additiveOp (t : Token) : Option (Expr → Expr → Expr) :=
  match t.tok with
  | .punct .plus => binaryOp t.line .add
  | .punct .minus => binaryOp t.line .sub
  | _ => none

/-- `COMPARE_OPS`. -/
def compareOp (t : Token) : Option (Expr → Expr → Expr) :=
  match t.tok with
  | .punct .eqEq => binaryOp t.line .eq
  | .punct .notEq => binaryOp t.line .ne
  | .punct .lt => binaryOp t.line .lt
  | .punct .le => binaryOp t.line .le
  | .punct .gt => binaryOp t.line .gt
  | .punct .ge => binaryOp t.line .ge
  | _ => none

def andOp (t : Token) : Option (Expr → Expr → Expr) :=
  match t.tok with
  | .kw .and => binaryOp t.line .and
  | _ => none

def orOp (t : Token) : Option (Expr → Expr → Expr) :=
  match t.tok with
  | .kw .or => binaryOp t.line .or
  | _ => none

def rescueOp (t : Token) : Option (Expr → Expr → Expr) :=
  match t.tok with
  | .kw .rescue => some (.rescue t.line)
  | _ => none

/-- A level of left associative operators over the next tighter one. -/
def leftLevel (P : Parsers) (operand : M Expr) (op : Token → Option (Expr → Expr → Expr)) :
    M Expr := do
  let left ← operand
  leftLoop stream .outOfFuel operand op P.fuel left

def multiplicative (P : Parsers) : M Expr := leftLevel P (unary P) multiplicativeOp

def additive (P : Parsers) : M Expr := leftLevel P (multiplicative P) additiveOp

/-- `comparison`: at most one. -/
def comparison (P : Parsers) : M Expr := do
  let left ← additive P
  let s ← Exec.get
  match s.toks.head?.bind compareOp with
  | none => pure left
  | some node => do
      advance
      let right ← additive P
      let s ← Exec.get
      match s.toks.head?.bind compareOp with
      | none => pure (node left right)
      | some _ => failAt s.toks.head? "comparisons do not chain; use 'and'"

/-- `not_expr`. -/
def notExpr (P : Parsers) : M Expr := do
  let s ← Exec.get
  match s.toks.head? with
  | some ⟨.kw .not, line, _⟩ => do
      advance
      let e ← P.notExpr
      pure (.unary line .not e)
  | _ => comparison P

def andExpr (P : Parsers) : M Expr := leftLevel P (notExpr P) andOp

def orExpr (P : Parsers) : M Expr := leftLevel P (andExpr P) orOp

def rescueExpr (P : Parsers) : M Expr := leftLevel P (orExpr P) rescueOp

/-- `expression`. -/
def expression (P : Parsers) : M Expr := nested (rescueExpr P)

/-- What follows `else`: another `if`, or a block. -/
def elseBranch (P : Parsers) : M Expr := do
  let chained ← at_ (.kw .if_)
  if chained then nested P.ifExpr
  else do
    let b ← P.block
    pure (.block b)

/-- `if_expr`. -/
def ifExpr (P : Parsers) : M Expr := do
  let tok ← expectTok (.kw .if_) "'if'"
  let cond ← P.expression
  let thenBlock ← P.block
  let _ ← skipNewlines
  let s ← Exec.get
  match s.toks.head? with
  | some ⟨.kw .else_, _, _⟩ => do
      advance
      let otherwise ← elseBranch P
      pure (.ifExpr tok.line cond thenBlock otherwise)
  | bad => failAt bad (withHint "'if' requires 'else'" (some ifElseHint))

/-! ## The parser -/

/-- The methods, with at most `n` of them active at once. -/
def parsers : ℕ → Parsers
  | 0 => .stuck
  | n + 1 =>
      let P := parsers n
      ⟨n, expression P, notExpr P, unary P, ifExpr P, block P⟩

/-- The names in parentheses from here on, and the tokens from the closing
parenthesis on. -/
def parenNames : ℕ → List Token → List String × List Token
  | _, [] => ([], [])
  | depth, t :: ts =>
      match t.tok with
      | .punct .lparen => parenNames (depth + 1) ts
      | .punct .rparen => if depth = 1 then ([], t :: ts) else parenNames (depth - 1) ts
      | .name n =>
          let (names, rest) := parenNames depth ts
          (n :: names, rest)
      | _ => parenNames depth ts

/-- `bound_anywhere`, on at most `fuel` tokens. -/
def boundFrom : ℕ → List Token → List String
  | 0, _ => []
  | _ + 1, [] => []
  | fuel + 1, t :: ts =>
      match t.tok, ts with
      | .kw .let_, ⟨.name n, _, _⟩ :: rest => n :: boundFrom fuel rest
      | .kw .fn, ⟨.name n, _, _⟩ :: ⟨.punct .lparen, line, col⟩ :: rest =>
          let (names, rest) := parenNames 0 (⟨.punct .lparen, line, col⟩ :: rest)
          n :: (names ++ boundFrom fuel rest)
      | .kw .fn, ⟨.name n, _, _⟩ :: rest => n :: boundFrom fuel rest
      | .kw .fn, ⟨.punct .lparen, line, col⟩ :: rest =>
          let (names, rest) := parenNames 0 (⟨.punct .lparen, line, col⟩ :: rest)
          names ++ boundFrom fuel rest
      | _, ts => boundFrom fuel ts

def boundAnywhere (toks : List Token) : List String := boundFrom toks.length toks

/-- The parser of a token list that ends at the given position. -/
def PState.init (toks : List Token) (eofLine eofCol : ℕ) : PState :=
  ⟨toks, none, eofLine, eofCol, boundAnywhere toks, 0, {}⟩

/-- `parse_program`. -/
def parseProgram (P : Parsers) : M (List Stmt) := do
  let (stmts, _, _) ← stmtList P none
  pure stmts

/-- The program that the tokens are parsed to within a depth, if they are. -/
def parse (fuel : ℕ) (toks : List Token) (eofLine eofCol : ℕ) : Except ParseError (List Stmt) :=
  (parseProgram (parsers fuel) (.init toks eofLine eofCol)).1

end NucLlm.Whence.Parser
