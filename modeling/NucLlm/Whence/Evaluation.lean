import NucLlm.Whence.TailMarks

/-!
# Evaluation

How the evaluators hand values and pending tail calls on: the generators with
their driver, and the closures compiled for a node, `direct` ones for what
calls closures and others for what does not.  What is computed from values is
the host's, and so is which evaluator runs a node: caches and budgets decide
that, and any decision is admitted here.
-/

namespace NucLlm.Whence

/-- Why an evaluation ends early.  It leaks where a pending tail call is taken for a value. -/
inductive Stop where
  | leak
  | raised
  | notCompiled
  | outOfFuel

/-- An `if` on the way to a tail call: its line, the branch taken and the condition. -/
structure IfTaken (V : Type) where
  line : ℕ
  branch : Bool
  cond : V

/-- `_TailCall`. -/
structure TailCall (V : Type) where
  fn : V
  args : List V
  line : ℕ
  ifs : List (IfTaken V)

/-- What evaluating a node gives. -/
inductive Obj (V : Type) where
  | value (v : V)
  | tailCall (t : TailCall V)

/-- Why a call is not made. -/
inductive Refusal where
  | missCallee
  | arity
  | notCallable
  | tooDeep
  | tailTooLong (merged : ℕ)

/-- The tail calls that a call has gone through: the `if`s on the way, the closures handed over
to with the lines of the calls, those of them that ran, and the number of calls merged into one. -/
structure Chain (V : Type) where
  ifs : List (IfTaken V) := []
  handed : List (V × ℕ) := []
  ran : List V
  merged : ℕ := 1

/-- A builtin at work: those that call their arguments are resumed with what the calls return. -/
inductive Script (V σ : Type) where
  | done (v : V)
  | raised
  | call (fn : V) (args : List V) (line : ℕ) (resume : V → σ → Script V σ) (after : V → σ → σ)

inductive Evaluator where
  | generator
  | compiled (direct : Bool)

/-- The parser accepts some token list as this program. -/
def Accepted (program : List Stmt) : Prop :=
  ∃ fuel toks eofLine eofCol, Parser.parse fuel toks eofLine eofCol = .ok program

/-- A function of an accepted program. -/
structure Function where
  params : List String
  body : Block
  program : List Stmt
  accepted : Accepted program
  mem : body ∈ stmtsBodies program

/-- What a callee is. -/
inductive Callee where
  | miss
  | builtin (name : String)
  | closure (f : Function)
  | other

/-- The host: what is computed from values, and the decisions of caches and budgets.  A
computation of the host may raise. -/
structure Host (V E σ : Type) where
  callee : V → Callee
  /-- Literals, names and function expressions. -/
  leaf : Expr → E → σ → Option V × σ
  /-- What a node makes of the values of its operands. -/
  operate : Evaluator → Expr → List V → σ → Option V × σ
  /-- `_logic_left`: the value of `and` or `or` where the left operand decides it. -/
  logicLeft : Expr → V → σ → Option (Option V) × σ
  /-- The branch that the condition of an `if` takes, or `_if_bad`. -/
  test : ℕ → V → σ → Option (V ⊕ Bool) × σ
  ifTaken : IfTaken V → V → σ → Option V × σ
  newEnv : E → σ → Option E × σ
  bindLet : Stmt → V → E → σ → Option V × σ
  bindFn : Stmt → E → σ → Option Unit × σ
  recordCheck : Stmt → V → E → σ → Option Unit × σ
  noteDrop : V → ℕ → σ → Option Unit × σ
  arityOk : String → ℕ → Bool
  builtin : String → List V → ℕ → σ → Script V σ × σ
  refuse : Refusal → V → List V → ℕ → σ → Option V × σ
  /-- Whether another call may be entered, and whether so many may be merged into one. -/
  mayEnter : σ → Bool
  mayMerge : ℕ → σ → Bool
  enter : σ → σ
  leave : σ → σ
  /-- The environment of a call with its parameters bound and checked. -/
  bindParams : V → List V → ℕ → σ → Option E × σ
  /-- The value of a call with its contracts checked. -/
  finishCall : V → ℕ → Chain V → V → σ → Option V × σ
  /-- Whether `compile_fast` has compiled the node. -/
  isFast : Expr → σ → Bool × σ
  /-- Whether the node is compiled for direct calls, and the stack has room for it. -/
  isDirect : Expr → σ → Bool × σ
  /-- Whether calls are direct ones, and the stack has room. -/
  callsDirectly : σ → Bool × σ
  /-- The builtin that was compiled into a call of a name, and whether a callee is that builtin. -/
  inlined : Expr → σ → Option String × σ
  isInlined : String → V → Bool

/-- Evaluating with what may stop it. -/
abbrev Evaluation (σ α : Type) := Exec Stop σ α

/-- What is evaluated by calling back. -/
structure Evaluators (V E σ : Type) where
  fuel : ℕ
  drive : Expr → E → Evaluation σ (Obj V)
  compiled : Bool → Expr → E → Evaluation σ (Obj V)
  call : V → List V → ℕ → Evaluation σ V
  callDirect : V → List V → ℕ → Evaluation σ V
  callGen : V → List V → ℕ → Evaluation σ V

namespace Evaluation

variable {V E σ α : Type}

/-- A computation of the host. -/
def host (f : σ → Option α × σ) : Evaluation σ α := fun s ↦
  match f s with
  | (some a, s') => (.ok a, s')
  | (none, s') => (.error .raised, s')

def decide (f : σ → α × σ) : Evaluation σ α := fun s ↦
  match f s with
  | (a, s') => (.ok a, s')

/-- What is taken for a value must be one. -/
def asValue : Obj V → Evaluation σ V
  | .value v => pure v
  | .tailCall _ => Exec.fail .leak

/-- A node evaluated to a value. -/
def operand (ask : Expr → E → Evaluation σ (Obj V)) (e : Expr) (env : E) : Evaluation σ V := do
  let r ← ask e env
  asValue r

def operands (ask : Expr → E → Evaluation σ (Obj V)) : List Expr → E → Evaluation σ (List V)
  | [], _ => pure []
  | e :: es, env => do
      let v ← operand ask e env
      let vs ← operands ask es env
      pure (v :: vs)

end Evaluation

namespace Host

open Evaluation

variable {V E σ : Type} (H : Host V E σ)

def isMiss (v : V) : Bool :=
  match H.callee v with
  | .miss => true
  | _ => false

/-- The function of a closure. -/
def function (v : V) : Option Function :=
  match H.callee v with
  | .closure f => some f
  | _ => none

/-- What a node makes of the values of these operands. -/
def strict (by_ : Evaluator) (ask : Expr → E → Evaluation σ (Obj V)) (e : Expr) (es : List Expr)
    (env : E) : Evaluation σ (Obj V) := do
  let vs ← operands ask es env
  let v ← host (H.operate by_ e vs)
  pure (.value v)

/-- The nodes that only compute with the values of their parts, by any evaluator. -/
def operator (by_ : Evaluator) (ask : Expr → E → Evaluation σ (Obj V)) (e : Expr) (env : E) :
    Evaluation σ (Obj V) :=
  match e with
  | .listLit _ items => H.strict by_ ask e items env
  | .recordLit _ pairs => H.strict by_ ask e (pairs.map Prod.snd) env
  | .missLit _ operand | .unary _ _ operand | .why _ operand | .snip _ operand
  | .fieldAccess _ operand _ => H.strict by_ ask e [operand] env
  | .index _ obj index => H.strict by_ ask e [obj, index] env
  | .binary _ .and left right | .binary _ .or left right => do
      let l ← operand ask left env
      let decided ← host (H.logicLeft e l)
      match decided with
      | some v => pure (.value v)
      | none => do
          let r ← operand ask right env
          let v ← host (H.operate by_ e [l, r])
          pure (.value v)
  | .binary _ _ left right => H.strict by_ ask e [left, right] env
  | .rescue _ left right => do
      let l ← operand ask left env
      if H.isMiss l then do
        let r ← operand ask right env
        let v ← host (H.operate by_ e [r, l])
        pure (.value v)
      else pure (.value l)
  | e => do
      let v ← host (H.leaf e env)
      pure (.value v)

/-- The value of an `if`, or the tail call that its branch hands over. -/
def handOver (taken : IfTaken V) : Obj V → Evaluation σ (Obj V)
  | .tailCall t => pure (.tailCall { t with ifs := t.ifs ++ [taken] })
  | .value v => do
      let v ← host (H.ifTaken taken v)
      pure (.value v)

def branchOf (c : Bool) (thenBlock : Block) (otherwise : Expr) : Expr :=
  if c then .block thenBlock else otherwise

/-- `eval_If` with its condition. -/
def evalIf (ask : Expr → E → Evaluation σ (Obj V)) (line : ℕ) (thenBlock : Block)
    (otherwise : Expr) (env : E) (cond : V) : Evaluation σ (Obj V) := do
  let tested ← host (H.test line cond)
  match tested with
  | .inl bad => pure (.value bad)
  | .inr c => do
      let branch ← ask (branchOf c thenBlock otherwise) env
      H.handOver ⟨line, c, cond⟩ branch

/-- A statement of a block: its value if it is the last, and it has one. -/
def statement (ask : Expr → E → Evaluation σ (Obj V)) (last : Bool) (env : E) (s : Stmt) :
    Evaluation σ (Option (Obj V)) :=
  match s with
  | .exprStmt line e => do
      let r ← ask e env
      if last then pure (some r)
      else do
        let v ← asValue r
        host (H.noteDrop v line)
        pure none
  | .letStmt _ _ e => do
      let v ← operand ask e env
      let bound ← host (H.bindLet s v env)
      pure (some (.value bound))
  | .fnDef .. => do
      host (H.bindFn s env)
      pure none
  | .check _ _ e => do
      let v ← operand ask e env
      host (H.recordCheck s v env)
      pure none

/-- The statements of a block. -/
def statements (ask : Expr → E → Evaluation σ (Obj V)) (env : E) :
    List Stmt → Evaluation σ (Obj V)
  | [] => Exec.fail .raised
  | [s] => do
      let r ← H.statement ask true env s
      match r with
      | some r => pure r
      | none => Exec.fail .raised
  | s :: ss => do
      let _ ← H.statement ask false env s
      statements ask env ss

/-- `eval_Block`, `f_block`. -/
def block (ask : Expr → E → Evaluation σ (Obj V)) (b : Block) (env : E) :
    Evaluation σ (Obj V) :=
  match b with
  | .mk _ stmts _ _ => do
      let inner ← host (H.newEnv env)
      H.statements ask inner stmts

/-- The expression of a block of one statement; anything else itself. -/
def single : Expr → Option Expr
  | .block (.mk _ [s] _ _) =>
      match s with
      | .exprStmt _ e | .letStmt _ _ e | .check _ _ e => some e
      | .fnDef .. => none
  | e => some e

/-! ## Calls -/

section

variable (P : Evaluators V E σ)

def runScript : Script V σ → Evaluation σ V
  | .done v => pure v
  | .raised => Exec.fail .raised
  | .call fn args line resume after => fun s ↦
      match P.call fn args line s with
      | (.ok v, s') => runScript (resume v s') (after v s')
      | (.error e, s') => (.error e, s')

/-- `_builtin_inline`, and the calls of a builtin everywhere else. -/
def callBuiltin (name : String) (fn : V) (args : List V) (line : ℕ) : Evaluation σ V :=
  if H.arityOk name args.length then do
    let script ← decide (H.builtin name args line)
    runScript P script
  else host (H.refuse .arity fn args line)

/-- `_wrap_ifs`. -/
def wrapIfs : List (IfTaken V) → V → Evaluation σ V
  | [], v => pure v
  | taken :: ifs, v => do
      let v ← host (H.ifTaken taken v)
      wrapIfs ifs v

/-- The loop over the tail calls of a call, whose bodies `run` evaluates: the value of the last
body with the chain of the calls.  What is no closure is called by `callOther`. -/
def tailLoop (run : Block → E → Evaluation σ (Obj V))
    (callOther : V → List V → ℕ → Evaluation σ V) :
    ℕ → Chain V → V → Function → List V → ℕ → Evaluation σ (V × Chain V)
  | 0, _, _, _, _, _ => Exec.fail .outOfFuel
  | k + 1, chain, fn, f, args, line => do
      let env ← host (H.bindParams fn args line)
      let r ← run f.body env
      match r with
      | .value v => pure (v, chain)
      | .tailCall t =>
          match H.function t.fn with
          | none => do
              let v ← callOther t.fn t.args t.line
              let v ← H.wrapIfs t.ifs v
              pure (v, chain)
          | some f' => do
              let chain := { chain with
                ifs := chain.ifs ++ t.ifs, handed := chain.handed ++ [(t.fn, t.line)] }
              let s ← Exec.get
              if t.args.length ≠ f'.params.length then do
                let v ← host (H.refuse .arity t.fn t.args t.line)
                pure (v, chain)
              else if H.mayMerge chain.merged s then
                let chain := { chain with ran := chain.ran ++ [t.fn], merged := chain.merged + 1 }
                tailLoop run callOther k chain t.fn f' t.args t.line
              else do
                let v ← host (H.refuse (.tailTooLong chain.merged) t.fn t.args t.line)
                pure (v, chain)

/-- The call of a closure where its arguments fit and it is not too deep. -/
def guarded (fn : V) (f : Function) (args : List V) (line : ℕ) (go : Evaluation σ V) :
    Evaluation σ V :=
  if args.length ≠ f.params.length then host (H.refuse .arity fn args line)
  else do
    let s ← Exec.get
    if H.mayEnter s then go else host (H.refuse .tooDeep fn args line)

/-- A call with the tail calls it goes through. -/
def runClosure (run : Block → E → Evaluation σ (Obj V))
    (callOther : V → List V → ℕ → Evaluation σ V) (fn : V) (f : Function) (args : List V)
    (line : ℕ) : Evaluation σ V := do
  Exec.modify H.enter
  let (v, chain) ← Exec.tryFinally
    (H.tailLoop run callOther P.fuel { ran := [fn] } fn f args line) H.leave
  host (H.finishCall fn line chain v)

/-- `_call_gen`. -/
def callGen (fn : V) (args : List V) (line : ℕ) : Evaluation σ V :=
  match H.callee fn with
  | .miss => host (H.refuse .missCallee fn args line)
  | .builtin name => H.callBuiltin P name fn args line
  | .closure f =>
      H.guarded fn f args line
        (H.runClosure P (fun body env ↦ P.drive (.block body) env) P.call fn f args line)
  | .other => host (H.refuse .notCallable fn args line)

/-- `_closure_inline`. -/
def closureInline (fn : V) (f : Function) (args : List V) (line : ℕ) :
    Evaluation σ (Option V) := do
  let fast ← decide (H.isFast (.block f.body))
  if fast then do
    let v ← H.guarded fn f args line do
      Exec.modify H.enter
      let v ← Exec.tryFinally
        (do
          let env ← host (H.bindParams fn args line)
          operand (P.compiled false) (.block f.body) env)
        H.leave
      host (H.finishCall fn line { ran := [fn] } v)
    pure (some v)
  else pure none

/-- A call that the driver makes without going deeper, where it can. -/
def callInlined (fn : V) (args : List V) (line : ℕ) : Evaluation σ V :=
  match H.callee fn with
  | .builtin name => H.callBuiltin P name fn args line
  | .closure f => do
      let inlined ← H.closureInline P fn f args line
      match inlined with
      | some v => pure v
      | none => P.callGen fn args line
  | _ => P.callGen fn args line

/-- The driver's answer to a `_Call`. -/
def call (fn : V) (args : List V) (line : ℕ) : Evaluation σ V := do
  let directly ← decide H.callsDirectly
  if directly then P.callDirect fn args line else H.callInlined P fn args line

/-! ## Generators -/

/-- The callee or an argument of a call. -/
def part (e : Expr) (env : E) : Evaluation σ (Obj V) := do
  let fast ← decide (H.isFast e)
  if fast then P.compiled false e env else P.drive e env

/-- The generator of a node. -/
def generate (e : Expr) (env : E) : Evaluation σ (Obj V) :=
  match e with
  | .call line fn args tail => do
      let v ← operand (H.part P) fn env
      let vs ← operands (H.part P) args env
      if tail then pure (.tailCall ⟨v, vs, line, []⟩)
      else do
        let result ← P.call v vs line
        pure (.value result)
  | .ifExpr line cond thenBlock otherwise => do
      let c ← operand P.drive cond env
      H.evalIf P.drive line thenBlock otherwise env c
  | .block b => H.block P.drive b env
  | e => H.operator .generator P.drive e env

/-- `Interpreter.eval`. -/
def eval (e : Expr) (env : E) : Evaluation σ (Obj V) := do
  let fast ← decide (H.isFast e)
  if fast then P.compiled false e env else H.generate P e env

/-- Whether all of the nodes are compiled. -/
def allFast : List Expr → Evaluation σ Bool
  | [] => pure true
  | e :: es => do
      let fast ← decide (H.isFast e)
      let rest ← allFast es
      pure (fast && rest)

/-- A compiled branch: its `if`s are wrapped around its value. -/
def fastBranch (ifs : List (IfTaken V)) (branch : Expr) (env : E) : Evaluation σ (Obj V) := do
  let v ← operand (P.compiled false) branch env
  let v ← H.wrapIfs ifs v
  pure (.value v)

/-- `_tail_inline`, with the `if`s on the way. -/
def tailInline (ifs : List (IfTaken V)) (line : ℕ) (fn : Expr) (args : List Expr) (env : E) :
    Evaluation σ (Obj V) := do
  let v ← operand (P.compiled false) fn env
  let vs ← operands (P.compiled false) args env
  pure (.tailCall ⟨v, vs, line, ifs⟩)

/-- `_if_chain_gen`. -/
def chainGen (pending : List (IfTaken V)) (branch : Expr) (env : E) : Evaluation σ (Obj V) := do
  let r ← P.drive branch env
  match r with
  | .tailCall t => pure (.tailCall { t with ifs := t.ifs ++ pending.reverse })
  | .value v => do
      let v ← H.wrapIfs pending.reverse v
      pure (.value v)

/-- `_if_chain`. -/
def ifChain : ℕ → List (IfTaken V) → ℕ → Block → Expr → E → V → Evaluation σ (Obj V)
  | 0, _, _, _, _, _, _ => Exec.fail .outOfFuel
  | k + 1, pending, line, thenBlock, otherwise, env, cond => do
      let tested ← host (H.test line cond)
      match tested with
      | .inl bad => do
          let v ← H.wrapIfs pending.reverse bad
          pure (.value v)
      | .inr c =>
          let pending := pending ++ [⟨line, c, cond⟩]
          match single (branchOf c thenBlock otherwise) with
          | none => Exec.fail .raised
          | some branch => do
              let fast ← decide (H.isFast branch)
              if fast then H.fastBranch P pending.reverse branch env
              else match branch with
                | .call line fn args true => do
                    let parts ← H.allFast (fn :: args)
                    if parts then tailInline P pending.reverse line fn args env
                    else H.chainGen P pending branch env
                | .ifExpr line cond thenBlock otherwise => do
                    let fast ← decide (H.isFast cond)
                    if fast then do
                      let v ← operand (P.compiled false) cond env
                      ifChain k pending line thenBlock otherwise env v
                    else H.chainGen P pending branch env
                | branch => H.chainGen P pending branch env

/-- `_if_inline`: nothing where the generator of the `if` has to go on. -/
def ifInline (line : ℕ) (thenBlock : Block) (otherwise : Expr) (env : E) (cond : V) :
    Evaluation σ (Option (Obj V)) := do
  let tested ← host (H.test line cond)
  match tested with
  | .inl bad => pure (some (.value bad))
  | .inr c =>
      let taken : IfTaken V := ⟨line, c, cond⟩
      match single (branchOf c thenBlock otherwise) with
      | none => Exec.fail .raised
      | some branch => do
          let fast ← decide (H.isFast branch)
          if fast then do
            let r ← H.fastBranch P [taken] branch env
            pure (some r)
          else match branch with
            | .call line fn args true => do
                let parts ← H.allFast (fn :: args)
                if parts then do
                  let r ← tailInline P [taken] line fn args env
                  pure (some r)
                else pure none
            | .ifExpr line cond thenBlock otherwise => do
                let fast ← decide (H.isFast cond)
                if fast then do
                  let v ← operand (P.compiled false) cond env
                  let r ← H.ifChain P P.fuel [taken] line thenBlock otherwise env v
                  pure (some r)
                else pure none
            | _ => pure none

/-- The driver's answer to a node. -/
def drive (e : Expr) (env : E) : Evaluation σ (Obj V) :=
  match single e with
  | none => Exec.fail .raised
  | some e => do
      let fast ← decide (H.isFast e)
      if fast then P.compiled false e env
      else do
        let direct ← decide (H.isDirect e)
        if direct then P.compiled true e env
        else match e with
          | .call line fn args tail => do
              let parts ← H.allFast (fn :: args)
              if parts then do
                let v ← operand (P.compiled false) fn env
                let vs ← operands (P.compiled false) args env
                if tail then pure (.tailCall ⟨v, vs, line, []⟩)
                else do
                  let result ← H.callInlined P v vs line
                  pure (.value result)
              else H.generate P e env
          | .ifExpr line cond thenBlock otherwise => do
              let fast ← decide (H.isFast cond)
              if fast then do
                let c ← operand (P.compiled false) cond env
                let r ← H.ifInline P line thenBlock otherwise env c
                match r with
                | some r => pure r
                | none => H.evalIf P.drive line thenBlock otherwise env c
              else H.generate P e env
          | e => H.generate P e env

/-! ## Compiled nodes -/

/-- The closure of a part of a compiled node. -/
def sub (direct : Bool) (e : Expr) (env : E) : Evaluation σ (Obj V) := do
  let fast ← decide (H.isFast e)
  P.compiled (direct && !fast) e env

/-- The branch of a compiled `if`; only `d_if` looks for tail calls. -/
def compiledBranch (direct : Bool) (e : Expr) (env : E) : Evaluation σ (Obj V) :=
  if direct then H.sub P true e env
  else do
    let v ← operand (H.sub P false) e env
    pure (.value v)

/-- `f_bcall`: the call of a name that a builtin was compiled into. -/
def builtinCall (direct : Bool) (b : String) (fn : Expr) (args : List Expr) (line : ℕ) (env : E) :
    Evaluation σ (Obj V) := do
  let v ← host (H.leaf fn env)
  let vs ← operands (H.sub P direct) args env
  if H.isInlined b v then do
    let result ← H.callBuiltin P b v vs line
    pure (.value result)
  else do
    let directly ← decide H.callsDirectly
    let result ← if directly then P.callDirect v vs line else P.callGen v vs line
    pure (.value result)

/-- The closure compiled for a node; only direct ones call closures. -/
def compiled (direct : Bool) (e : Expr) (env : E) : Evaluation σ (Obj V) :=
  match e with
  | .call line fn args tail => do
      let inlined ← decide (H.inlined e)
      match fn, inlined with
      | .nameRef _ _, some b => H.builtinCall P direct b fn args line env
      | _, _ =>
          if direct then do
            let v ← operand (H.sub P true) fn env
            let vs ← operands (H.sub P true) args env
            if tail then pure (.tailCall ⟨v, vs, line, []⟩)
            else do
              let result ← P.callDirect v vs line
              pure (.value result)
          else Exec.fail .notCompiled
  | .ifExpr line cond thenBlock otherwise => do
      let c ← operand (H.sub P direct) cond env
      H.evalIf (H.compiledBranch P direct) line thenBlock otherwise env c
  | .block (.mk _ [_] _ _) =>
      match single e with
      | none => Exec.fail .notCompiled
      | some e => H.sub P direct e env
  | .block b => H.block (H.sub P direct) b env
  | e => H.operator (.compiled direct) (H.sub P direct) e env

/-- The body of a closure that is called directly. -/
def runBody (body : Block) (env : E) : Evaluation σ (Obj V) := do
  let fast ← decide (H.isFast (.block body))
  if fast then P.compiled false (.block body) env
  else do
    let direct ← decide (H.isDirect (.block body))
    -- `_trampoline_body`
    if direct then P.compiled true (.block body) env else H.eval P (.block body) env

/-- `_call_direct`. -/
def callDirect (fn : V) (args : List V) (line : ℕ) : Evaluation σ V :=
  match H.callee fn with
  | .miss => host (H.refuse .missCallee fn args line)
  | .builtin name => H.callBuiltin P name fn args line
  | .closure f =>
      H.guarded fn f args line do
        let fits ← decide (H.isDirect (.block f.body))
        if fits then H.runClosure P (H.runBody P) P.callDirect fn f args line
        else P.callGen fn args line
  | .other => host (H.refuse .notCallable fn args line)

end

/-! ## Runs -/

/-- The evaluators, with at most `n` calls back active at once. -/
def evaluators : ℕ → Evaluators V E σ
  | 0 =>
      let stuck {α : Type} : Evaluation σ α := Exec.fail .outOfFuel
      ⟨0, fun _ _ ↦ stuck, fun _ _ _ ↦ stuck, fun _ _ _ ↦ stuck, fun _ _ _ ↦ stuck,
        fun _ _ _ ↦ stuck⟩
  | n + 1 =>
      let P := evaluators n
      ⟨n, H.drive P, H.compiled P, H.call P, H.callDirect P, H.callGen P⟩

/-- `exec_stmt`. -/
def execStmt (n : ℕ) (env : E) (s : Stmt) : Evaluation σ (Option (Obj V)) :=
  H.statement (H.evaluators n).drive true env s

/-- The loop of `run`. -/
def run (n : ℕ) (env : E) : List Stmt → Evaluation σ Unit
  | [] => pure ()
  | s :: ss => do
      let _ ← H.statement (H.evaluators n).drive false env s
      run n env ss

end Host

end NucLlm.Whence
