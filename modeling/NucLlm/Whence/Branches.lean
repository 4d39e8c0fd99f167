import NucLlm.Whence.Operations

/-!
# The decisions of a tail loop

A pending tail call carries the `if`s it has passed through, innermost first.
The loop of a call keeps them as runs, where the same branch of the same `if`
comes several times in a row, and the node of the call shows the runs.  Nodes
of the program are told apart by identity.
-/

namespace NucLlm.Whence.Branches

/-- A branch that an `if` has taken. -/
structure Decision (N : Type) where
  node : N
  branch : Bool
  cond : Node
  decided : cond.value = .bool branch

/-- An entry of `runs`: one decision, or the same one several times. -/
structure Run (N : Type) where
  node : N
  branch : Bool
  conds : List Node
  nonempty : conds ≠ []
  decided : ∀ c ∈ conds, c.value = .bool branch

/-- `_TailCall`. -/
structure Pending (N : Type) where
  fn : Node
  args : List Node
  line : ℕ
  ifs : List (Decision N)

inductive Given (N : Type) where
  | value (v : Node)
  | pending (t : Pending N)

variable {N : Type}

namespace Run

def decisions (r : Run N) : List (Decision N) :=
  r.conds.pmap (fun c h ↦ ⟨r.node, r.branch, c, h⟩) r.decided

def single (t : Decision N) : Run N :=
  ⟨t.node, t.branch, [t.cond], List.cons_ne_nil _ _, by simpa using t.decided⟩

/-- The decision repeats those of the run. -/
abbrev Same (r : Run N) (t : Decision N) : Prop := r.node = t.node ∧ r.branch = t.branch

def push (r : Run N) (t : Decision N) (h : r.Same t) : Run N :=
  ⟨r.node, r.branch, r.conds ++ [t.cond], by simp, by
    intro c hc
    rcases List.mem_append.mp hc with hc | hc
    · exact r.decided c hc
    · rw [List.mem_singleton.mp hc, h.2]
      exact t.decided⟩

/-- What the node of the call is made from. -/
def toIfRun (ifLine : N → ℕ) (r : Run N) : IfRun :=
  ⟨ifLine r.node, r.branch, r.conds, r.nonempty, r.decided⟩

end Run

/-! ## The source's functions -/

variable [DecidableEq N]

def mergeIf (runs : List (Run N)) (t : Decision N) : List (Run N) :=
  match runs.getLast? with
  | some last =>
      if h : last.Same t then runs.dropLast ++ [last.push t h] else runs ++ [.single t]
  | none => [.single t]

/-- `_merge_ifs`. -/
def mergeIfs (runs : List (Run N)) (ifs : List (Decision N)) : List (Run N) :=
  ifs.reverse.foldl mergeIf runs

/-- The host of a tail loop. -/
structure Host (N E σ : Type) where
  ifLine : N → ℕ
  /-- The name and the number of parameters of a closure. -/
  closure : Node → Option (String × ℕ)
  /-- The environment of a call with its parameters bound and checked. -/
  bind : Node → List Node → ℕ → Evaluation (σ × Tally) E
  body : Node → E → Evaluation (σ × Tally) (Given N)
  /-- The call of what is no closure. -/
  callOther : Node → List Node → ℕ → Evaluation (σ × Tally) Node
  /-- `_check_chain_rets` and `_check_contract`, for the closures entered at these lines. -/
  contracts : Node → List (Node × ℕ) → Node → Evaluation (σ × Tally) Node
  maxIter : Option ℕ

/-- The variables of a tail loop. -/
structure Loop (N : Type) where
  runs : Option (List (Run N)) := none
  names : List String
  merged : ℕ := 1
  /-- The tail calls that closures were asked for; of these the code keeps callees and lines. -/
  handed : List (Pending N) := []

variable {E σ α : Type} (F : FloatOps) (H : Host N E σ)

def making (m : Making α) : Evaluation (σ × Tally) α := fun s ↦
  match m s.2 with
  | (a, t) => (.ok a, (s.1, t))

/-- `_wrap_ifs`. -/
def wrapIfs (ifLine : N → ℕ) : List (Decision N) → Node → Making Node
  | [], v => pure v
  | t :: ifs, v => do
      let v ← ifNode ⟨ifLine t.node, t.branch, t.cond⟩ v
      wrapIfs ifLine ifs v

/-- A tail call that a closure is asked for joins the runs. -/
def Loop.merge (l : Loop N) (t : Pending N) : Loop N :=
  { l with runs := some (mergeIfs (l.runs.getD []) t.ifs), handed := l.handed ++ [t] }

/-- The loop goes on in another closure, or in the same one. -/
def Loop.enter (l : Loop N) (name : String) : Loop N :=
  { l with
    names := if name ∈ l.names then l.names else l.names ++ [name]
    merged := l.merged + 1 }

/-- What the loop makes of what a body has given. -/
def turn (goOn : Loop N → Node → List Node → ℕ → Evaluation (σ × Tally) (Node × Loop N))
    (l : Loop N) : Given N → Evaluation (σ × Tally) (Node × Loop N)
  | .value v => pure (v, l)
  | .pending t =>
      match H.closure t.fn with
      | none => do
          let v ← H.callOther t.fn t.args t.line
          let v ← making (wrapIfs H.ifLine t.ifs v)
          pure (v, l)
      | some (name, params) =>
          let l := l.merge t
          if t.args.length ≠ params then do
            let v ← making (refuse F .arity t.fn name (toString params) 0 t.args t.line)
            pure (v, l)
          else if H.maxIter.any (· ≤ l.merged) then do
            let v ← making
              (refuse F (.tailTooLong l.merged) t.fn name (toString params) 0 t.args t.line)
            pure (v, l)
          else goOn (l.enter name) t.fn t.args t.line

/-- The loop of `_call_direct` and of `_call_gen`. -/
def tailLoop : ℕ → Loop N → Node → List Node → ℕ → Evaluation (σ × Tally) (Node × Loop N)
  | 0, _, _, _, _ => Exec.fail .outOfFuel
  | k + 1, l, fn, args, line => do
      let env ← H.bind fn args line
      let r ← H.body fn env
      turn F H (tailLoop k) l r

/-- The node of a call whose loop has ended. -/
def callNode (l : Loop N) (name : String) (result : Node) (line : ℕ) : Making Node :=
  match l.runs with
  | none => derived "call" name line [result] result.value
  | some runs => finishCall l.names result (runs.map (Run.toIfRun H.ifLine)) l.merged line

/-- The call of a closure that its arguments fit: its node, and the tail calls that closures were
asked for on the way. -/
def callClosure (k : ℕ) (fn : Node) (name : String) (args : List Node) (line : ℕ) :
    Evaluation (σ × Tally) (Node × List (Pending N)) := do
  let (result, l) ← tailLoop F H k { names := [name] } fn args line
  let result ← H.contracts fn (l.handed.map fun t ↦ (t.fn, t.line)) result
  let v ← making (callNode H l name result line)
  pure (v, l.handed)

/-! ## The evaluators of an `if` -/

/-- What the evaluators look at in a node of the program; `single` is a block of one statement,
with the expression of the statement if it has one. -/
inductive Shape (N : Type) where
  | ifExpr (cond thenBlock otherwise : N)
  | call (line : ℕ) (fn : N) (args : List N) (tail : Bool)
  | single (e : Option N)
  | other

/-- The evaluators that an `if` calls: which nodes are compiled without calls is the decision of
caches, and the driver evaluates the others. -/
structure Evaluators (N E σ : Type) where
  shape : N → Shape N
  ifLine : N → ℕ
  isFast : N → Evaluation (σ × Tally) Bool
  compiled : N → E → Evaluation (σ × Tally) Node
  drive : N → E → Evaluation (σ × Tally) (Given N)

variable (P : Evaluators N E σ)

/-- `_if_bad`, or the decision. -/
def decideIf (node : N) (cond : Node) : Making Node ⊕ Decision N :=
  match h : cond.value with
  | .bool b => .inr ⟨node, b, cond, h⟩
  | _ => .inl ((ifBad F cond (P.ifLine node)).getD (pure cond))

def branchOf (thenBlock otherwise : N) (branch : Bool) : N :=
  if branch then thenBlock else otherwise

/-- The decisions on the way to what a branch has given, outermost first. -/
def complete (pending : List (Decision N)) : Given N → Evaluation (σ × Tally) (Given N)
  | .pending t => pure (.pending { t with ifs := t.ifs ++ pending.reverse })
  | .value v => do
      let v ← making (wrapIfs P.ifLine pending.reverse v)
      pure (.value v)

/-- `eval_If` with its condition. -/
def evalIf (ask : N → E → Evaluation (σ × Tally) (Given N)) (node thenBlock otherwise : N) (env : E)
    (cond : Node) : Evaluation (σ × Tally) (Given N) :=
  match decideIf F P node cond with
  | .inl bad => do
      let v ← making bad
      pure (.value v)
  | .inr t => do
      let r ← ask (branchOf thenBlock otherwise t.branch) env
      complete P [t] r

def allFast : List N → Evaluation (σ × Tally) Bool
  | [] => pure true
  | e :: es => do
      let fast ← P.isFast e
      let rest ← allFast es
      pure (fast && rest)

def compiledArgs : List N → E → Evaluation (σ × Tally) (List Node)
  | [], _ => pure []
  | e :: es, env => do
      let v ← P.compiled e env
      let vs ← compiledArgs es env
      pure (v :: vs)

/-- `_tail_inline`. -/
def tailInline (line : ℕ) (fn : N) (args : List N) (env : E) :
    Evaluation (σ × Tally) (Pending N) := do
  let v ← P.compiled fn env
  let vs ← compiledArgs P args env
  pure ⟨v, vs, line, []⟩

/-- The expression of a block of one statement; anything else itself. -/
def unwrap (e : N) : Evaluation (σ × Tally) N :=
  match P.shape e with
  | .single (some e) => pure e
  | .single none => Exec.fail .raised
  | _ => pure e

/-- `_if_chain` with `_if_chain_gen`. -/
def ifChain : ℕ → List (Decision N) → N → N → N → E → Node → Evaluation (σ × Tally) (Given N)
  | 0, _, _, _, _, _, _ => Exec.fail .outOfFuel
  | k + 1, pending, node, thenBlock, otherwise, env, cond =>
      match decideIf F P node cond with
      | .inl bad => do
          let v ← making bad
          let v ← making (wrapIfs P.ifLine pending.reverse v)
          pure (.value v)
      | .inr t => do
          let branch ← unwrap P (branchOf thenBlock otherwise t.branch)
          let fast ← P.isFast branch
          if fast then do
            let v ← P.compiled branch env
            let v ← making (ifNode ⟨P.ifLine node, t.branch, t.cond⟩ v)
            let v ← making (wrapIfs P.ifLine pending.reverse v)
            pure (.value v)
          else
            let generator := do
              let r ← P.drive branch env
              complete P (pending ++ [t]) r
            match P.shape branch with
            | .call line fn args true => do
                let parts ← allFast P (fn :: args)
                if parts then do
                  let tc ← tailInline P line fn args env
                  pure (.pending { tc with ifs := tc.ifs ++ [t] ++ pending.reverse })
                else generator
            | .ifExpr cond thenBlock otherwise => do
                let fast ← P.isFast cond
                if fast then do
                  let c ← P.compiled cond env
                  ifChain k (pending ++ [t]) branch thenBlock otherwise env c
                else generator
            | _ => generator

/-- `_if_inline`: nothing where the generator of the `if` has to go on. -/
def ifInline (k : ℕ) (node thenBlock otherwise : N) (env : E) (cond : Node) :
    Evaluation (σ × Tally) (Option (Given N)) :=
  match decideIf F P node cond with
  | .inl bad => do
      let v ← making bad
      pure (some (.value v))
  | .inr t => do
      let branch ← unwrap P (branchOf thenBlock otherwise t.branch)
      let fast ← P.isFast branch
      if fast then do
        let v ← P.compiled branch env
        let v ← making (ifNode ⟨P.ifLine node, t.branch, t.cond⟩ v)
        pure (some (.value v))
      else match P.shape branch with
        | .call line fn args true => do
            let parts ← allFast P (fn :: args)
            if parts then do
              let tc ← tailInline P line fn args env
              pure (some (.pending { tc with ifs := tc.ifs ++ [t] }))
            else pure none
        | .ifExpr cond thenBlock otherwise => do
            let fast ← P.isFast cond
            if fast then do
              let c ← P.compiled cond env
              let r ← ifChain F P k [t] branch thenBlock otherwise env c
              pure (some r)
            else pure none
        | _ => pure none

/-- The driver's answer to an `if` whose condition is compiled. -/
def driveIf (k : ℕ) (node thenBlock otherwise : N) (env : E) (cond : Node) :
    Evaluation (σ × Tally) (Given N) := do
  let r ← ifInline F P k node thenBlock otherwise env cond
  match r with
  | some r => pure r
  | none => evalIf F P P.drive node thenBlock otherwise env cond

/-! ## The plain evaluator -/

/-- A branch as the driver evaluates it, with each `if` on the way in an evaluation of its own. -/
def plainBranch (nested : N → N → N → E → Node → Evaluation (σ × Tally) (Given N))
    (rest : N → E → Evaluation (σ × Tally) (Given N)) (branch : N) (env : E) :
    Evaluation (σ × Tally) (Given N) := do
  let fast ← P.isFast branch
  if fast then do
    let v ← P.compiled branch env
    pure (.value v)
  else match P.shape branch with
    | .call line fn args true => do
        let parts ← allFast P (fn :: args)
        if parts then do
          let tc ← tailInline P line fn args env
          pure (.pending tc)
        else rest branch env
    | .ifExpr cond thenBlock otherwise => do
        let fast ← P.isFast cond
        if fast then do
          let c ← P.compiled cond env
          nested branch thenBlock otherwise env c
        else rest branch env
    | _ => rest branch env

/-- `eval_If`, with `eval_If` again for the `if`s in its branches. -/
def plainIf : ℕ → N → N → N → E → Node → Evaluation (σ × Tally) (Given N)
  | 0, _, _, _, _, _ => Exec.fail .outOfFuel
  | k + 1, node, thenBlock, otherwise, env, cond =>
      evalIf F P (fun e env ↦ do
        let branch ← unwrap P e
        plainBranch P (plainIf k) P.drive branch env) node thenBlock otherwise env cond

end NucLlm.Whence.Branches
