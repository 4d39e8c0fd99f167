import Mathlib.Data.Rat.Defs
import Mathlib.Algebra.Order.Ring.Rat

/-!
# Errand programs

The AST of a task script.  The declarations carry what the parser has checked
of them: the lexer reads no sign, rates and budgets are positive, a task asks
for at least one reply token and interpolates its parameters only.  Seconds are
exact rationals.
-/

namespace NucLlm.Errand

/-- A scalar: what `Ok.value` holds. -/
inductive Value where
  | str (s : String)
  | int (n : ℤ)
  | float (q : ℚ)
  | bool (b : Bool)
deriving DecidableEq

/-- A chunk of a string literal, or a name to interpolate. -/
inductive Part where
  | text (s : String)
  | ref (name : String)
deriving DecidableEq

/-- A string with its interpolations. -/
structure Str where
  parts : List Part
  line : ℕ
deriving DecidableEq

def Part.ref? : Part → Option String
  | text _ => none
  | ref name => some name

/-- `interpolated_names`. -/
def interpolatedNames (s : Str) : List String := s.parts.filterMap Part.ref?

inductive CmpOp where
  | eq
  | ne
deriving DecidableEq

def CmpOp.text : CmpOp → String
  | .eq => "=="
  | .ne => "!="

inductive Expr where
  | str (s : Str)
  | num (value : Value) (line : ℕ)
  | bool (value : Bool) (line : ℕ)
  | name (name : String) (line : ℕ)
  | call (name : String) (args : List Expr) (line : ℕ)
  | rescue (left right : Expr) (line : ℕ)
  | cmp (op : CmpOp) (left right : Expr) (line : ℕ)

inductive Stmt where
  | letStmt (name : String) (expr : Expr) (line : ℕ)
  | ifStmt (cond : Expr) (thenBody elseBody : List Stmt) (line : ℕ)
  | emitStmt (expr : Expr) (line : ℕ)

/-- An `expect` clause; `one_of` lists at least one option. -/
inductive Expect where
  | oneOf (first : String) (rest : List String)
  | contains (needle : String)
  | nonempty
  | json
deriving DecidableEq

/-- Prompt speed in tokens per second, or the measured curve. -/
inductive Prefill where
  | e1
  | rate (tokensPerS : ℚ)
deriving DecidableEq

structure Lane where
  name : String
  url : String
  model : String
  prefill : Prefill
  decode : ℚ
  fixed : ℚ
  ctx : Option ℕ
  tools : Bool
  coldPenalty : ℚ
  coldAfter : Option ℚ
  decode_pos : 0 < decode
  prefill_pos : ∀ r, prefill = .rate r → 0 < r
  fixed_nonneg : 0 ≤ fixed
  coldPenalty_nonneg : 0 ≤ coldPenalty

structure Budget where
  name : String
  timeS : Option ℚ
  tokens : Option ℕ
  time_pos : ∀ t, timeS = some t → 0 < t

structure Task where
  name : String
  params : List String
  lane : String
  budget : Option String
  retry : ℕ
  backoffS : ℚ
  system : Option Str
  user : Str
  reply : ℕ
  expect : Option Expect
  line : ℕ
  reply_pos : 0 < reply
  system_params : ∀ s, system = some s → ∀ ref ∈ interpolatedNames s, ref ∈ params
  user_params : ∀ ref ∈ interpolatedNames user, ref ∈ params

structure Flow where
  name : String
  params : List String
  budget : Option String
  body : List Stmt
  line : ℕ

structure Program where
  lanes : List Lane
  budgets : List Budget
  tasks : List Task
  flows : List Flow

namespace Program

def lane? (p : Program) (name : String) : Option Lane := p.lanes.find? (·.name = name)

def budget? (p : Program) (name : String) : Option Budget := p.budgets.find? (·.name = name)

def task? (p : Program) (name : String) : Option Task := p.tasks.find? (·.name = name)

def flow? (p : Program) (name : String) : Option Flow := p.flows.find? (·.name = name)

end Program

/-- `BUILTINS`, with their arities. -/
def builtins : List (String × ℕ) :=
  [("why", 1), ("missed", 1), ("len", 1), ("lower", 1), ("trim", 1)]

end NucLlm.Errand
