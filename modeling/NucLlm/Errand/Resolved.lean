import NucLlm.Errand.Parser

/-!
# What the link pass makes sure of

Every name in a program that passes is bound where it stands, every call has the
number of arguments that its callee takes, and every lane and budget is declared.
-/

namespace NucLlm.Errand.Source

open Exec

variable {φ : Type} {host : Python φ}

/-- An expression all of whose names are bound in a scope. -/
inductive Scoped (p : Program φ) (scope : List String) : Expr φ → Prop where
  | str {s : Str} (h : ∀ ref ∈ interpolatedNames s, ref ∈ scope) : Scoped p scope (.str s)
  | num (value : Number φ) (line : ℕ) : Scoped p scope (.num value line)
  | bool (value : Bool) (line : ℕ) : Scoped p scope (.bool value line)
  | name {name : String} (h : name ∈ scope) (line : ℕ) : Scoped p scope (.name name line)
  | call {name : String} {args : List (Expr φ)} (hargs : ∀ a ∈ args, Scoped p scope a)
      (harity : p.arity? name = some args.length) (line : ℕ) : Scoped p scope (.call name args line)
  | rescue {l r : Expr φ} (hl : Scoped p scope l) (hr : Scoped p scope r) (line : ℕ) :
      Scoped p scope (.rescue l r line)
  | cmp {l r : Expr φ} (hl : Scoped p scope l) (hr : Scoped p scope r) (op : CmpOp) (line : ℕ) :
      Scoped p scope (.cmp op l r line)

/-- A block all of whose names are bound, none of them twice. -/
inductive BlockScoped (p : Program φ) : List String → List (Stmt φ) → Prop where
  | nil (scope : List String) : BlockScoped p scope []
  | letStmt {scope : List String} {name : String} {e : Expr φ} {stmts : List (Stmt φ)}
      (he : Scoped p scope e) (hnew : name ∉ scope) (hrest : BlockScoped p (name :: scope) stmts)
      (line : ℕ) : BlockScoped p scope (.letStmt name e line :: stmts)
  | ifStmt {scope : List String} {cond : Expr φ} {thenBody elseBody stmts : List (Stmt φ)}
      (hcond : Scoped p scope cond) (hthen : BlockScoped p scope thenBody)
      (helse : BlockScoped p scope elseBody) (hrest : BlockScoped p scope stmts) (line : ℕ) :
      BlockScoped p scope (.ifStmt cond thenBody elseBody line :: stmts)
  | emitStmt {scope : List String} {e : Expr φ} {stmts : List (Stmt φ)} (he : Scoped p scope e)
      (hrest : BlockScoped p scope stmts) (line : ℕ) :
        BlockScoped p scope (.emitStmt e line :: stmts)

structure TaskLinked (p : Program φ) (t : Task φ) : Prop where
  lane : ∃ lane, p.lane? t.lane = some lane ∧ ∀ ctx, lane.ctx = some ctx → t.reply < ctx
  budget : ∀ b, t.budget = some b → (p.budget? b).isSome
  builtin : Program.isBuiltin t.name = false

structure FlowLinked (p : Program φ) (f : Flow φ) : Prop where
  budget : ∀ b, f.budget = some b → (p.budget? b).isSome
  task : p.task? f.name = none
  builtin : Program.isBuiltin f.name = false
  body : BlockScoped p f.params f.body

structure Linked (p : Program φ) : Prop where
  tasks : ∀ t ∈ p.tasks, TaskLinked p t
  flows : ∀ f ∈ p.flows, FlowLinked p f

/-! ## The checks -/

section

variable {α : Type} {Q : α → Prop}

theorem raise_returns (msg : String) (line col : ℕ) :
    (raise msg line col : Parsing φ α).Returns Q :=
  gives_fail trivial

theorem raiseIf_returns (cond : Bool) (msg : String) (line col : ℕ) :
    (raiseIf cond msg line col : Parsing φ Unit).Returns fun _ ↦ cond = false := by
  cases cond with
  | true => exact raise_returns _ _ _
  | false => exact gives_pure rfl

theorem noFrame_returns : (noFrame : Parsing φ α).Returns Q :=
  Returns.after fun _ ↦ gives_fail trivial

theorem forM_returns {γ : Type} {f : γ → Parsing φ Unit} {R : γ → Prop} (xs : List γ)
    (hf : ∀ x ∈ xs, (f x).Returns fun _ ↦ R x) : (xs.forM f).Returns fun _ ↦ ∀ x ∈ xs, R x := by
  induction xs with
  | nil => exact gives_pure (by simp)
  | cons x xs ih =>
      refine (hf x (by simp)).bind fun _ hx ↦ ?_
      refine (ih fun y hy ↦ hf y (List.mem_cons_of_mem _ hy)).mono fun _ hxs ↦ ?_
      exact List.forall_mem_cons.mpr ⟨hx, hxs⟩

end

theorem checkRefs_returns (line : ℕ) (scope refs : List String) :
    (checkRefs line scope refs : Parsing φ Unit).Returns fun _ ↦ ∀ ref ∈ refs, ref ∈ scope := by
  induction refs with
  | nil => exact gives_pure (by simp)
  | cons ref refs ih =>
      refine (raiseIf_returns _ _ _ _).bind fun _ href ↦ ih.mono fun _ hrefs ↦ ?_
      exact List.forall_mem_cons.mpr ⟨by simpa using href, hrefs⟩

theorem checkExpr_scoped (p : Program φ) (scope : List String) (left : ℕ) (e : Expr φ) :
    (checkExpr host p scope left e).Returns fun _ ↦ Scoped p scope e := by
  induction left generalizing e with
  | zero =>
      unfold checkExpr
      exact noFrame_returns
  | succ left ih =>
      unfold checkExpr
      cases e with
      | str s => exact (checkRefs_returns _ _ _).mono fun _ h ↦ .str h
      | num value line => exact gives_pure (.num value line)
      | bool value line => exact gives_pure (.bool value line)
      | name name line =>
          refine (raiseIf_returns _ _ _ _).mono fun _ h ↦ .name ?_ line
          simpa using h
      | call name args line =>
          refine (forM_returns args fun a _ ↦ ih a).bind fun _ hargs ↦ ?_
          dsimp only
          split
          · exact raise_returns _ _ _
          · rename_i want harity
            refine (raiseIf_returns _ _ _ _).mono fun _ h ↦ .call hargs ?_ line
            have hlen : args.length = want := by simpa using h
            rw [harity, hlen]
      | rescue l r line =>
          exact (ih l).bind fun _ hl ↦ (ih r).mono fun _ hr ↦ .rescue hl hr line
      | cmp op l r line =>
          exact (ih l).bind fun _ hl ↦ (ih r).mono fun _ hr ↦ .cmp hl hr op line

theorem checkBlock_scoped (p : Program φ) (left : ℕ) (scope : List String) (stmts : List (Stmt φ)) :
    (checkBlock host p left scope stmts).Returns fun _ ↦ BlockScoped p scope stmts := by
  induction left generalizing scope stmts with
  | zero =>
      unfold checkBlock
      exact noFrame_returns
  | succ left ih =>
      unfold checkBlock
      refine Gives.bind (P := fun _ ↦ BlockScoped p scope stmts) ?_ fun _ h ↦ gives_pure h
      induction stmts generalizing scope with
      | nil => exact gives_pure (.nil scope)
      | cons s stmts ihs =>
          rw [List.foldlM_cons]
          cases s with
          | letStmt name e line =>
              refine Gives.bind (P := fun scope' ↦ scope' = name :: scope ∧ Scoped p scope e ∧
                name ∉ scope) ?_ ?_
              · refine (checkExpr_scoped p scope left e).bind fun _ he ↦ ?_
                refine (raiseIf_returns _ _ _ _).bind fun _ hnew ↦ gives_pure ⟨rfl, he, ?_⟩
                simpa using hnew
              · rintro _ ⟨rfl, he, hnew⟩
                exact (ihs _).mono fun _ hrest ↦ .letStmt he hnew hrest line
          | ifStmt cond thenBody elseBody line =>
              refine Gives.bind (P := fun scope' ↦ scope' = scope ∧ Scoped p scope cond ∧
                BlockScoped p scope thenBody ∧ BlockScoped p scope elseBody) ?_ ?_
              · refine (checkExpr_scoped p scope left cond).bind fun _ hcond ↦ ?_
                refine (ih scope thenBody).bind fun _ hthen ↦ ?_
                exact (ih scope elseBody).bind fun _ helse ↦ gives_pure ⟨rfl, hcond, hthen, helse⟩
              · rintro _ ⟨rfl, hcond, hthen, helse⟩
                exact (ihs _).mono fun _ hrest ↦ .ifStmt hcond hthen helse hrest line
          | emitStmt e line =>
              refine Gives.bind (P := fun scope' ↦ scope' = scope ∧ Scoped p scope e) ?_ ?_
              · exact (checkExpr_scoped p scope left e).bind fun _ he ↦ gives_pure ⟨rfl, he⟩
              · rintro _ ⟨rfl, he⟩
                exact (ihs _).mono fun _ hrest ↦ .emitStmt he hrest line

theorem linkTask_linked (p : Program φ) (t : Task φ) :
    (linkTask host p t).Returns fun _ ↦ TaskLinked p t := by
  refine (raiseIf_returns _ _ _ _).bind fun _ hlane ↦ ?_
  refine (raiseIf_returns _ _ _ _).bind fun _ hbudget ↦ ?_
  refine (raiseIf_returns _ _ _ _).bind fun _ hbuiltin ↦ ?_
  obtain ⟨lane, hlane⟩ := Option.isSome_iff_exists.mp (by simpa using hlane)
  rw [hlane]
  refine Gives.bind (P := fun l ↦ l = lane) (gives_pure rfl) ?_
  rintro _ rfl
  refine (raiseIf_returns _ _ _ _).mono fun _ hctx ↦ ⟨⟨_, hlane, ?_⟩, ?_, hbuiltin⟩
  · intro ctx h
    rw [h] at hctx
    simpa using hctx
  · intro b h
    rw [h] at hbudget
    simpa [Option.isSome_iff_ne_none] using hbudget

theorem linkFlow_linked (p : Program φ) (f : Flow φ) :
    (linkFlow host p f).Returns fun _ ↦ FlowLinked p f := by
  refine (raiseIf_returns _ _ _ _).bind fun _ hbudget ↦ ?_
  refine (raiseIf_returns _ _ _ _).bind fun _ hname ↦ ?_
  obtain ⟨htask, hbuiltin⟩ := Bool.or_eq_false_iff.mp hname
  refine (checkBlock_scoped _ _ _ _).mono fun _ hbody ↦ ⟨?_, by simpa using htask, hbuiltin, hbody⟩
  intro b h
  rw [h] at hbudget
  simpa [Option.isSome_iff_ne_none] using hbudget

/-- The program that the link pass returns is the one it was given, and it is linked. -/
theorem link_linked (p : Program φ) : (link host p).Returns fun q ↦ q = p ∧ Linked p := by
  refine (forM_returns _ fun t _ ↦ linkTask_linked p t).bind fun _ htasks ↦ ?_
  exact (forM_returns _ fun f _ ↦ linkFlow_linked p f).bind fun _ hflows ↦
    gives_pure ⟨rfl, htasks, hflows⟩

theorem parseTokens_linked : (parseTokens host).Returns Linked := by
  refine Returns.after fun prog ↦ Returns.after fun t ↦ Returns.after fun _ ↦ ?_
  refine (link_linked prog).mono ?_
  rintro _ ⟨rfl, h⟩
  exact h

theorem parse_linked {src : String} {p : Program φ} (h : (parse host src).1 = .ok p) :
    Linked p := by
  unfold parse at h
  split at h
  · contradiction
  · contradiction
  · rename_i toks s _
    exact parseTokens_linked.of_ok h

end NucLlm.Errand.Source
