import NucLlm.Errand.Interp
import Mathlib.Data.ENat.Lattice

/-!
# What a program may ask of its token limits

A prompt that preflight lets through is bounded by what its templates can come
to, by the limits preflight compares it with and by the context of its lane.
The body of a flow has no loops, so the attempts of its tasks and the flows it
calls add up to what one call of the flow may send.
-/

namespace NucLlm.Errand

/-- A limit, or none. -/
noncomputable def bound : Option ℕ → ℕ∞
  | none => ⊤
  | some limit => limit

theorem le_bound {n : ℕ} {limit : Option ℕ} : (n : ℕ∞) ≤ bound limit ↔ ∀ m ∈ limit, n ≤ m := by
  cases limit with
  | none => simp [bound]
  | some m => simp [bound]

namespace Program

variable (p : Program)

/-- The token limit of the budget that a task or a flow names. -/
def tokenLimit (budget : Option String) : Option ℕ := (budget.bind p.budget?).bind Budget.tokens

/-- The tokens that the lane of the task has left for a prompt. -/
def promptRoom (t : Task) : Option ℕ := ((p.lane? t.lane).bind Lane.ctx).map (· - t.reply)

/-- The largest prompt of the task that may be sent where `inner` is the limit of the innermost
flow; its templates come to `size` at most. -/
noncomputable def largest (size : Task → ℕ∞) (inner : Option ℕ) (t : Task) : ℕ∞ :=
  min (min (size t) (bound (p.tokenLimit t.budget))) (min (bound inner) (bound (p.promptRoom t)))

variable (size : Task → ℕ∞) (need : String → ℕ∞) (inner : Option ℕ)

/-- The tokens of one call: every attempt of a task, or what a flow needs. -/
noncomputable def callDemand (name : String) : ℕ∞ :=
  if (builtins.find? (·.1 = name)).isSome then 0
  else match p.task? name with
    | some t => (t.retry + 1 : ℕ) * p.largest size inner t
    | none => need name

mutual

noncomputable def exprDemand : Expr → ℕ∞
  | .str _ => 0
  | .num _ _ => 0
  | .bool _ _ => 0
  | .name _ _ => 0
  | .call name args _ => exprsDemand args + p.callDemand size need inner name
  | .rescue left right _ => exprDemand left + exprDemand right
  | .cmp _ left right _ => exprDemand left + exprDemand right

noncomputable def exprsDemand : List Expr → ℕ∞
  | [] => 0
  | e :: es => exprDemand e + exprsDemand es

end

mutual

noncomputable def stmtDemand : Stmt → ℕ∞
  | .letStmt _ e _ => p.exprDemand size need inner e
  | .emitStmt e _ => p.exprDemand size need inner e
  | .ifStmt cond thenBody elseBody _ =>
      p.exprDemand size need inner cond + max (blockDemand thenBody) (blockDemand elseBody)

noncomputable def blockDemand : List Stmt → ℕ∞
  | [] => 0
  | s :: stmts => stmtDemand s + blockDemand stmts

end

end Program

/-- The tokens of a request by the estimate of the host. -/
def Host.estimate (host : Host) (request : Request) : ℕ :=
  (request.messages.map fun m ↦ host.count m.content).sum

/-- The token limits have room for all that may be sent under them: `need` is what one call of
each flow may send. -/
structure Planned (host : Host) (p : Program) (size : Task → ℕ∞) (need : String → ℕ∞) : Prop where
  sized : ∀ t ∈ p.tasks, ∀ env, (messages host t env).Returns fun r ↦ (r.2 : ℕ∞) ≤ size t
  reported : ∀ k lane request timeout r, host.send k lane request timeout = .reply r →
    ∀ n ∈ r.promptTokens, n ≤ host.estimate request
  tasks : ∀ t ∈ p.tasks, ∀ limit ∈ p.tokenLimit t.budget,
    (t.retry + 1 : ℕ) * p.largest size none t ≤ limit
  covered : ∀ name f, p.flow? name = some f →
    p.blockDemand size need (p.tokenLimit f.budget) f.body ≤ need name
  flows : ∀ name f, p.flow? name = some f → ∀ limit ∈ p.tokenLimit f.budget, need name ≤ limit

end NucLlm.Errand
