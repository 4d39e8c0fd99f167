import NucLlm.Whence.Builtins

/-!
# Operations

The operations that the evaluators make nodes by.  A run applies them to values
that it has made before, in any order; every run of a program is one.
-/

namespace NucLlm.Whence

/-! ## Nodes of expressions -/

/-- `_unbound_text`. -/
def unboundText (name clause : String) : String := s!"unbound name '{name}'{clause}"

/-- `name_hint`. -/
def nameHint (name : String) : String :=
  match Parser.foreignNames.find? (·.1 = name) with
  | some (_, sentence) => s!" ({sentence})"
  | none => ""

/-- `_unbound`. -/
def unbound (name : String) (line : ℕ) : Making Node :=
  makeMissIn (unboundText name (nameHint name)) line "name" name []

/-- `MISS_REASON_HINT`. -/
def missReasonHint (name : String) : String :=
  "a miss reason is a string: write `miss \"" ++ name ++ "\"`"

/-- `_const`: a literal has one node. -/
def constant (term line : ℕ) (p : Payload) : Node := .mk (.literal term) "literal" "" line [] 1 p

/-- The node that a builtin's name is bound to. -/
def builtinNode (b : BuiltinName) : Node :=
  .mk (.builtin b.text) "builtin" b.text 0 [] 1 (.builtin b.text)

section

variable (F : FloatOps)

/-- `_miss_lit`. -/
def missLit (reason : Node) (line : ℕ) : Making Node :=
  match reason.value with
  | .miss _ =>
      if reason.op = "name" && isOriginMiss reason then
        let clause := missReasonHint reason.detail
        makeMiss (unboundText reason.detail s!" ({clause})") line "miss" [reason]
      else mergeMiss "miss" "" line [reason]
  | .str s => derived "miss" s line [reason] (mkMiss [s!"{s} (line {line})"])
  | p => makeMiss s!"miss reason must be a string, got {p.show F}" line "miss" []

/-- `_logic_left`: nothing where the right operand is needed. -/
def logicLeft (isAnd : Bool) (left : Node) (line : ℕ) : Option (Making Node) :=
  let op := if isAnd then "and" else "or"
  match left.value with
  | .miss _ => some (mergeMiss op "" line [left])
  | .bool b =>
      if b = isAnd then none else some (derived op "short-circuit" line [left] (.bool b))
  | p => some (makeMiss s!"'{op}' needs true/false, got {p.show F}" line op [left])

/-- `_logic_right`. -/
def logicRight (isAnd : Bool) (left right : Node) (line : ℕ) : Making Node :=
  let op := if isAnd then "and" else "or"
  match right.value with
  | .miss _ => mergeMiss op "" line [right, left]
  | .bool b => derived op "" line [left, right] (.bool b)
  | p => makeMiss s!"'{op}' needs true/false, got {p.show F}" line op [right, left]

/-- `_if_bad`: nothing where the condition decides. -/
def ifBad (cond : Node) (line : ℕ) : Option (Making Node) :=
  match cond.value with
  | .miss _ => some (mergeMiss "if" "condition was miss" line [cond])
  | .bool _ => none
  | p => some (makeMiss s!"if condition must be true/false, got {p.show F}" line "if" [cond])

def branchText (branch : Bool) : String := if branch then "took then-branch" else "took else-branch"

/-- The node of an `if` whose branch gave a value. -/
def ifNode (taken : IfTaken Node) (v : Node) : Making Node :=
  derived "if" (branchText taken.branch) taken.line [v, taken.cond] v.value

def whyNode (v : Node) (line : ℕ) : Making Node := leaf "why" "" line (.explanation v)

def snip (v : Node) (line : ℕ) : Making Node := derived "snipped" "history snipped" line [] v.value

def rescue (left right : Node) (line : ℕ) : Making Node :=
  if left.isMiss then derived "rescue" "recovered" line [right, left] right.value else pure left

def listNode (items : List Node) (line : ℕ) : Making Node :=
  derived "list" s!"{items.length} items" line items (.list items)

/-- The fields of a record literal, in the order of the source. -/
def literalFields (pairs : List (String × Node)) : List (String × Node) :=
  pairs.foldl (fun fields p ↦ dictSet p.1 p.2 fields) []

def recordNode (pairs : List (String × Node)) (line : ℕ) : Making Node :=
  derived "record" "" line ((literalFields pairs).map Prod.snd)
    (.record (Fields.ofDict (literalFields pairs)))

/-- The element of a list or a text at an index. -/
def elementAt {α : Type} (elements : List α) (i : ℤ) : Option α :=
  if i < 0 then none else elements[i.toNat]?

/-- `_index`. -/
def index (obj idx : Node) (line : ℕ) : Making Node :=
  let operands := [obj, idx]
  let notInteger (kind : String) : Making Node :=
    makeMiss s!"{kind} index must be an integer, got {idx.value.show F}" line "index" operands
  let outOfRange (i : ℤ) (len : ℕ) : Making Node :=
    makeMiss s!"index {showInteger i} out of range (len {len})" line "index" operands
  if obj.isMiss || idx.isMiss then mergeMiss "index" "" line operands
  else match obj.value with
    | .list items =>
        match Builtin.integer? idx.value with
        | none => notInteger "list"
        | some i =>
            match elementAt items i with
            | some v => pure v
            | none => outOfRange i items.length
    | .str s =>
        match Builtin.integer? idx.value with
        | none => notInteger "string"
        | some i =>
            match elementAt s.toList i with
            | some c =>
                derived "index" s!"[{showInteger i}]" line operands (.str (String.singleton c))
            | none => outOfRange i s.length
    | p => makeMiss s!"cannot index {p.show F}" line "index" operands

/-! ## Nodes of statements and calls -/

def letNode (name : String) (v : Node) (line : ℕ) : Making Node :=
  derived "let" name line [v] v.value

def closureNode (name : String) (c : Closure) (line : ℕ) : Making Node :=
  leaf "fn" name line (.closure c)

def argNode (name : String) (arg : Node) (line : ℕ) : Making Node :=
  derived "arg" name line [arg] arg.value

def Refusal.ofMiss : Refusal → Bool
  | .missCallee => true
  | _ => false

/-- The miss of a call that is not made; `expected` is how many arguments the callee takes. -/
def refuse (r : Refusal) (fn : Node) (name expected : String) (depth : ℕ) (args : List Node)
    (line : ℕ) : Making Node :=
  match r with
  | .missCallee => mergeMiss "call" "" line (fn :: args)
  | .notCallable => makeMiss s!"{fn.value.show F} is not callable" line "call" [fn]
  | .arity =>
      makeMissIn s!"{name} expects {expected} args, got {args.length}" line "call" name args
  | .tooDeep => makeMissIn s!"recursion too deep in {name} (depth {depth})" line "call" name args
  | .tailTooLong merged =>
      makeMissIn s!"tail loop too long in {name} ({merged} iterations)" line "call" name args

/-- A run of decisions of one `if` of a tail loop, with their conditions. -/
structure IfRun where
  line : ℕ
  branch : Bool
  conds : List Node
  nonempty : conds ≠ []
  decided : ∀ c ∈ conds, c.value = .bool branch

/-- `MergedProv`: a node for so many steps. -/
def derivedTimes (op detail : String) (line : ℕ) (inputs : List Node) (count : ℕ)
    (value : Payload) : Making Node :=
  modifyGet fun t ↦
    (.mk (.made t.next) op detail line inputs count value, { t with next := t.next + 1 })

def ifRunNodes (value : Payload) : List IfRun → Making (List Node)
  | [] => pure []
  | run :: runs => do
      let v ← derivedTimes "if" (branchText run.branch) run.line run.conds run.conds.length value
      let vs ← ifRunNodes value runs
      pure (v :: vs)

/-- `_finish_call`, for the closures called and so many calls merged into one. -/
def finishCall (names : List String) (result : Node) (runs : List IfRun) (merged line : ℕ) :
    Making Node :=
  if merged = 1 then derived "call" (names.headD "") line [result] result.value
  else do
    let ifs ← ifRunNodes result.value runs
    derivedTimes "call" ("/".intercalate names) line (result :: ifs) merged result.value

end

/-! ## Operations -/

/-- Numbers, texts and truth values. -/
def Payload.isLiteral : Payload → Bool
  | .bool _ | .num _ | .str _ => true
  | _ => false

inductive Operation where
  | literal (term line : ℕ) (p : Payload) (h : p.isLiteral = true)
  | builtinName (b : BuiltinName)
  | unbound (name : String) (line : ℕ)
  | closure (name : String) (c : Closure) (line : ℕ)
  | listLit (items : List Node) (line : ℕ)
  | recordLit (pairs : List (String × Node)) (line : ℕ)
  | missLit (reason : Node) (line : ℕ)
  | unary (op : UnOp) (v : Node) (line : ℕ)
  | why (v : Node) (line : ℕ)
  | snip (v : Node) (line : ℕ)
  | binary (op : ArithOp) (left right : Node) (line : ℕ)
  | compiledBinary (op : ArithOp) (left right : Node) (line : ℕ)
  | logicLeft (isAnd : Bool) (left : Node) (line : ℕ)
  | logicRight (isAnd : Bool) (left right : Node) (line : ℕ) (h : left.isMiss = false)
  | rescue (left right : Node) (line : ℕ)
  | index (obj idx : Node) (line : ℕ)
  | field (obj : Node) (name : String) (line : ℕ)
  | ifBad (cond : Node) (line : ℕ)
  | ifTaken (taken : IfTaken Node) (v : Node)
  | letName (name : String) (v : Node) (line : ℕ)
  | arg (name : String) (v : Node) (line : ℕ)
  | contract (v : Node) (spec : Option Spec) (label : String) (line : ℕ)
  | refuse (r : Refusal) (fn : Node) (name expected : String) (depth : ℕ) (args : List Node)
      (line : ℕ) (h : fn.isMiss = r.ofMiss)
  | finishCall (names : List String) (result : Node) (runs : List IfRun) (merged line : ℕ)
  /-- A builtin, with what the calls it makes return. -/
  | builtin (b : BuiltinName) (args : List Node) (draw : Float64) (calls : List Node) (line : ℕ)

/-- The value of a builtin whose calls return these values. -/
def Script.answered : Script Node Tally → List Node → Tally → Option (Node × Tally)
  | .done v, [], t => some (v, t)
  | .call _ _ _ resume after, v :: calls, t => (resume v t).answered calls (after v t)
  | _, _, _ => none

namespace Operation

/-- The values that the operation works on. -/
def operands : Operation → List Node
  | .literal .. | .builtinName _ | .unbound .. | .closure .. => []
  | .listLit items _ => items
  | .recordLit pairs _ => pairs.map Prod.snd
  | .missLit v _ | .unary _ v _ | .why v _ | .snip v _ | .logicLeft _ v _ | .field v _ _
  | .ifBad v _ | .letName _ v _ | .arg _ v _ | .contract v _ _ _ => [v]
  | .binary _ left right _ | .compiledBinary _ left right _ | .logicRight _ left right _ _
  | .rescue left right _ => [left, right]
  | .index obj idx _ => [obj, idx]
  | .ifTaken taken v => [v, taken.cond]
  | .refuse .notCallable fn _ _ _ _ _ _ => [fn]
  | .refuse _ fn _ _ _ args _ _ => fn :: args
  | .finishCall _ result runs _ _ => result :: runs.flatMap IfRun.conds
  | .builtin _ args _ calls _ => args ++ calls

section

variable (B : Budgets) (F : FloatOps) (H : Histories)

/-- The node of the operation; nothing where it makes none. -/
def perform : Operation → Hosting Node
  | .literal term line p _ => pure (constant term line p)
  | .builtinName b => pure (builtinNode b)
  | .unbound name line => Hosting.made (Whence.unbound name line)
  | .closure name c line => Hosting.made (closureNode name c line)
  | .listLit items line => Hosting.made (listNode items line)
  | .recordLit pairs line => Hosting.made (recordNode pairs line)
  | .missLit reason line => Hosting.made (Whence.missLit F reason line)
  | .unary op v line => Hosting.made (Whence.unary F op line v)
  | .why v line => Hosting.made (whyNode v line)
  | .snip v line => Hosting.made (Whence.snip v line)
  | .binary op left right line => Hosting.made (binop B F op left right line)
  | .compiledBinary op left right line => Hosting.made (compiledBinop B F op left right line)
  | .logicLeft isAnd left line =>
      ((Whence.logicLeft F isAnd left line).map Hosting.made).getD Hosting.raise
  | .logicRight isAnd left right line _ => Hosting.made (Whence.logicRight F isAnd left right line)
  | .rescue left right line => Hosting.made (Whence.rescue left right line)
  | .index obj idx line => Hosting.made (Whence.index F obj idx line)
  | .field obj name line => Hosting.made (Whence.field F obj name line)
  | .ifBad cond line => ((Whence.ifBad F cond line).map Hosting.made).getD Hosting.raise
  | .ifTaken taken v => Hosting.made (ifNode taken v)
  | .letName name v line => Hosting.made (letNode name v line)
  | .arg name v line => Hosting.made (argNode name v line)
  | .contract v spec label line => checkContract F v spec label line
  | .refuse r fn name expected depth args line _ =>
      Hosting.made (Whence.refuse F r fn name expected depth args line)
  | .finishCall names result runs merged line =>
      Hosting.made (Whence.finishCall names result runs merged line)
  | .builtin b args draw calls line => fun t ↦
      let (script, t) := b.apply B F H draw line args t
      script.answered calls t

end

end Operation

/-! ## Runs -/

/-- The nodes that a node refers to: what it was made from and what its value is made of. -/
def Node.links (v : Node) : List Node := v.inputs ++ v.value.parts

/-- A node is the other or below it. -/
abbrev Node.Below : Node → Node → Prop := Relation.ReflTransGen fun v m ↦ m ∈ v.links

/-- An operation of a run and the value it gave. -/
structure Entry where
  operation : Operation
  result : Node

/-- A value of a run. -/
def Reachable (run : List Entry) (v : Node) : Prop := ∃ e ∈ run, e.result.Below v

inductive Runs (B : Budgets) (F : FloatOps) (H : Histories) : List Entry → Tally → Prop where
  | start (t : Tally) : Runs B F H [] t
  | step {run : List Entry} {t t' : Tally} {o : Operation} {v : Node} (h : Runs B F H run t)
      (hoperands : ∀ m ∈ o.operands, Reachable run m)
      (hperform : o.perform B F H t = some (v, t')) : Runs B F H (run ++ [⟨o, v⟩]) t'

end NucLlm.Whence
