import Mathlib.Data.List.Nodup

/-!
# The Whence AST

The nodes the parser builds.  `erase` forgets what the parser notes on a node
for its own later use: tail marks, alias tags and parameter call facts.
-/

namespace NucLlm.Whence

/-- A numeric literal; a float is known by its `repr`. -/
inductive Number where
  | int (n : ℕ)
  | float (repr : String)
deriving DecidableEq

inductive UnOp where
  | not
  | neg
deriving DecidableEq

inductive BinOp where
  | add | sub | mul | div | mod
  | eq | ne | lt | le | gt | ge
  | and | or
deriving DecidableEq

/-- A type annotation as the expression it becomes: a tag string or the name
of a shape. -/
inductive TypeSpec where
  | tag (line : ℕ) (name : String)
  | shape (line : ℕ) (name : String)
deriving DecidableEq

/-- One entry of `param_types`. -/
structure ParamContract where
  index : ℕ
  param : String
  spec : TypeSpec
  label : String
deriving DecidableEq

/-- What a call site must know of a function that calls its own parameters. -/
structure ParamCallFact where
  scope : Option (List String)
  params : List String
  called : List String
deriving DecidableEq

mutual

inductive Expr where
  | num (line : ℕ) (value : Number)
  | str (line : ℕ) (value : String)
  | boolLit (line : ℕ) (value : Bool)
  | nameRef (line : ℕ) (name : String)
  | listLit (line : ℕ) (items : List Expr)
  | recordLit (line : ℕ) (pairs : List (String × Expr))
  | missLit (line : ℕ) (reason : Expr)
  | unary (line : ℕ) (op : UnOp) (operand : Expr)
  | why (line : ℕ) (operand : Expr)
  | snip (line : ℕ) (operand : Expr)
  | binary (line : ℕ) (op : BinOp) (left right : Expr)
  | rescue (line : ℕ) (left right : Expr)
  | call (line : ℕ) (fn : Expr) (args : List Expr) (tail : Bool)
  | index (line : ℕ) (obj index : Expr)
  | fieldAccess (line : ℕ) (obj : Expr) (name : String)
  | ifExpr (line : ℕ) (cond : Expr) (thenBlock : Block) (otherwise : Expr)
  | fnExpr (line : ℕ) (params : List String) (body : Block) (retType : Option TypeSpec)
      (paramCallFact : Option ParamCallFact) (paramTypes : List ParamContract)
  | block (b : Block)

inductive Stmt where
  | letStmt (line : ℕ) (name : String) (expr : Expr)
  | fnDef (line : ℕ) (name : String) (params : List String) (body : Block)
      (retType : Option TypeSpec) (paramTypes : List ParamContract)
  | check (line : ℕ) (label : String) (expr : Expr)
  | exprStmt (line : ℕ) (expr : Expr)

inductive Block where
  | mk (line : ℕ) (stmts : List Stmt) (tailAliasTag tailParamName : Option String)

end

def TypeSpec.toExpr : TypeSpec → Expr
  | .tag line name => .str line name
  | .shape line name => .nameRef line name

def Block.line : Block → ℕ
  | .mk line _ _ _ => line

def Expr.line : Expr → ℕ
  | .num line _ | .str line _ | .boolLit line _ | .nameRef line _ | .listLit line _
  | .recordLit line _ | .missLit line _ | .unary line _ _ | .why line _ | .snip line _
  | .binary line _ _ _ | .rescue line _ _ | .call line _ _ _ | .index line _ _
  | .fieldAccess line _ _ | .ifExpr line _ _ _ | .fnExpr line _ _ _ _ _ => line
  | .block b => Block.line b

mutual

def Expr.erase : Expr → Expr
  | .num line value => .num line value
  | .str line value => .str line value
  | .boolLit line value => .boolLit line value
  | .nameRef line name => .nameRef line name
  | .listLit line items => .listLit line (eraseItems items)
  | .recordLit line pairs => .recordLit line (erasePairs pairs)
  | .missLit line reason => .missLit line reason.erase
  | .unary line op operand => .unary line op operand.erase
  | .why line operand => .why line operand.erase
  | .snip line operand => .snip line operand.erase
  | .binary line op left right => .binary line op left.erase right.erase
  | .rescue line left right => .rescue line left.erase right.erase
  | .call line fn args _ => .call line fn.erase (eraseItems args) false
  | .index line obj index => .index line obj.erase index.erase
  | .fieldAccess line obj name => .fieldAccess line obj.erase name
  | .ifExpr line cond thenBlock otherwise =>
      .ifExpr line cond.erase thenBlock.erase otherwise.erase
  | .fnExpr line params body retType _ paramTypes =>
      .fnExpr line params body.erase retType none paramTypes
  | .block b => .block b.erase

def eraseItems : List Expr → List Expr
  | [] => []
  | e :: es => e.erase :: eraseItems es

def erasePairs : List (String × Expr) → List (String × Expr)
  | [] => []
  | (key, e) :: pairs => (key, e.erase) :: erasePairs pairs

def Stmt.erase : Stmt → Stmt
  | .letStmt line name expr => .letStmt line name expr.erase
  | .fnDef line name params body retType paramTypes =>
      .fnDef line name params body.erase retType paramTypes
  | .check line label expr => .check line label expr.erase
  | .exprStmt line expr => .exprStmt line expr.erase

def eraseStmts : List Stmt → List Stmt
  | [] => []
  | s :: ss => s.erase :: eraseStmts ss

def Block.erase : Block → Block
  | .mk line stmts _ _ => .mk line (eraseStmts stmts) none none

end

theorem eraseItems_eq (es : List Expr) : eraseItems es = es.map Expr.erase := by
  induction es with
  | nil => rfl
  | cons e es ih => rw [eraseItems, ih]; rfl

theorem erasePairs_eq (pairs : List (String × Expr)) :
    erasePairs pairs = pairs.map fun p ↦ (p.1, p.2.erase) := by
  induction pairs with
  | nil => rfl
  | cons p pairs ih => rw [erasePairs, ih]; rfl

theorem eraseStmts_eq (ss : List Stmt) : eraseStmts ss = ss.map Stmt.erase := by
  induction ss with
  | nil => rfl
  | cons s ss ih => rw [eraseStmts, ih]; rfl

@[simp] theorem Block.line_erase (b : Block) : b.erase.line = b.line := by
  cases b
  rfl

@[simp] theorem Expr.line_erase (e : Expr) : e.erase.line = e.line := by
  cases e with
  | block b => exact b.line_erase
  | _ => rfl

end NucLlm.Whence
