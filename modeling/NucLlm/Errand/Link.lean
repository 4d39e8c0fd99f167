import NucLlm.Errand.Syntax
import Mathlib.Control.Basic

/-!
# The link pass

The checks across declarations that `parse` makes last.  A program is linked
when none of them raises.
-/

namespace NucLlm.Errand

structure ParseError where
  msg : String
  line : ℕ
  col : ℕ := 0
deriving DecidableEq

def raiseIf (cond : Bool) (msg : String) (line : ℕ) : Except ParseError Unit :=
  if cond then .error { msg, line } else .ok ()

/-- `repr` of a name: names are identifiers. -/
def quoted (name : String) : String := "'" ++ name ++ "'"

namespace Program

variable (p : Program)

def isBuiltin (name : String) : Bool := (builtins.find? (·.1 = name)).isSome

/-- The number of arguments `name` takes: a task's, a flow's or a builtin's. -/
def arity? (name : String) : Option ℕ :=
  match p.task? name with
  | some t => some t.params.length
  | none =>
      match p.flow? name with
      | some f => some f.params.length
      | none => (builtins.find? (·.1 = name)).map Prod.snd

/-- The interpolated names of a string, in order, against the scope. -/
def checkRefs (line : ℕ) (scope : List String) : List String → Except ParseError Unit
  | [] => .ok ()
  | ref :: refs => do
      raiseIf (!scope.contains ref) s!"\x7b{ref}\x7d is not bound here" line
      checkRefs line scope refs

def checkCall (name : String) (given line : ℕ) : Except ParseError Unit :=
  let quotedName := quoted name
  match p.arity? name with
  | none => .error { msg := s!"unknown task/flow/builtin {quotedName}", line }
  | some want =>
      raiseIf (given ≠ want) s!"{quotedName} takes {want} argument(s), got {given}" line

mutual

/-- `_check_expr`. -/
def checkExpr (scope : List String) : Expr → Except ParseError Unit
  | .str s => checkRefs s.line scope (interpolatedNames s)
  | .num _ _ => .ok ()
  | .bool _ _ => .ok ()
  | .name name line =>
      let quotedName := quoted name
      raiseIf (!scope.contains name) s!"{quotedName} is not bound here" line
  | .call name args line => do
      checkExprs scope args
      p.checkCall name args.length line
  | .rescue left right _ => do
      checkExpr scope left
      checkExpr scope right
  | .cmp _ left right _ => do
      checkExpr scope left
      checkExpr scope right

def checkExprs (scope : List String) : List Expr → Except ParseError Unit
  | [] => .ok ()
  | e :: es => do
      checkExpr scope e
      checkExprs scope es

end

mutual

/-- A statement of `_check_block`, and the scope after it. -/
def checkStmt : List String → Stmt → Except ParseError (List String)
  | scope, .letStmt name e line => do
      p.checkExpr scope e
      let quotedName := quoted name
      raiseIf (scope.contains name)
        s!"{quotedName} is already bound in this block (no rebinding)" line
      pure (name :: scope)
  | scope, .emitStmt e _ => do
      p.checkExpr scope e
      pure scope
  | scope, .ifStmt cond thenBody elseBody _ => do
      p.checkExpr scope cond
      checkBlock scope thenBody
      checkBlock scope elseBody
      pure scope

def checkBlock : List String → List Stmt → Except ParseError Unit
  | _, [] => .ok ()
  | scope, s :: stmts => do
      let scope ← checkStmt scope s
      checkBlock scope stmts

end

def linkTask (t : Task) : Except ParseError Unit :=
  let task := quoted t.name
  match p.lane? t.lane with
  | none =>
      let lane := quoted t.lane
      .error { msg := s!"task {task}: unknown lane {lane}", line := t.line }
  | some lane => do
      let budget := quoted (t.budget.getD "")
      raiseIf (t.budget.any fun b ↦ (p.budget? b).isNone)
        s!"task {task}: unknown budget {budget}" t.line
      raiseIf (isBuiltin t.name) s!"task {task} shadows a builtin" t.line
      let laneName := quoted lane.name
      let ctx := lane.ctx.getD 0
      raiseIf (lane.ctx.any fun ctx ↦ decide (ctx ≤ t.reply))
        s!"task {task}: reply {t.reply} cannot fit lane {laneName} ctx {ctx}" t.line

def linkFlow (f : Flow) : Except ParseError Unit := do
  let flow := quoted f.name
  let budget := quoted (f.budget.getD "")
  raiseIf (f.budget.any fun b ↦ (p.budget? b).isNone)
    s!"flow {flow}: unknown budget {budget}" f.line
  raiseIf ((p.task? f.name).isSome || isBuiltin f.name)
    s!"flow {flow} collides with a task or builtin" f.line
  p.checkBlock f.params f.body

def linkTasks : List Task → Except ParseError Unit
  | [] => .ok ()
  | t :: ts => do
      p.linkTask t
      linkTasks ts

def linkFlows : List Flow → Except ParseError Unit
  | [] => .ok ()
  | f :: fs => do
      p.linkFlow f
      linkFlows fs

/-- `link`. -/
def link : Except ParseError Unit := do
  p.linkTasks p.tasks
  p.linkFlows p.flows

def Linked : Prop := p.link = .ok ()

instance : Decidable p.Linked := inferInstanceAs (Decidable (p.link = .ok ()))

end Program

end NucLlm.Errand
