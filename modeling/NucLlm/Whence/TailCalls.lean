import NucLlm.Whence.Evaluation

/-!
# Tail calls

A pending tail call reaches nothing but the loop of a call: every evaluator
hands it on from tail positions only, and takes nothing else for a value.
-/

namespace NucLlm.Whence

theorem Accepted.tailMarked {program : List Stmt} (h : Accepted program) :
    ∀ s ∈ program, s.TailMarked false := by
  obtain ⟨fuel, toks, eofLine, eofCol, hparse⟩ := h
  exact Parser.tailMarked_of_parse hparse

theorem Function.tailMarked (f : Function) : f.body.TailMarked true := by
  have hmarked := f.accepted.tailMarked
  rw [← tailMarkedStmts_iff] at hmarked
  exact tailMarkedStmts_bodies f.program hmarked f.body f.mem

/-- A pending tail call is handed over from tail positions only. -/
def Obj.Fits {V : Type} (tail : Bool) : Obj V → Prop
  | .value _ => True
  | .tailCall _ => tail = true

theorem Obj.Fits.mono {V : Type} {tail tail' : Bool} {r : Obj V} (h : r.Fits tail)
    (htail : tail = true → tail' = true) : r.Fits tail' := by
  cases r with
  | value v => trivial
  | tailCall t => exact htail h

namespace Evaluation

variable {V E σ α β : Type}

/-- The computation leaks no tail call, and gives what satisfies `Q` if it gives anything. -/
def Safe (m : Evaluation σ α) (Q : α → Prop) : Prop :=
  m.Gives Q (· ≠ Stop.leak)

theorem Safe.mono {m : Evaluation σ α} {Q Q' : α → Prop} (h : Safe m Q) (hQ : ∀ a, Q a → Q' a) :
    Safe m Q' :=
  Exec.Gives.mono h hQ

theorem Safe.bind {m : Evaluation σ α} {f : α → Evaluation σ β} {Q : α → Prop} {Q' : β → Prop}
    (hm : Safe m Q) (hf : ∀ a, Q a → Safe (f a) Q') : Safe (m >>= f) Q' :=
  Exec.Gives.bind hm hf

/-- After what gives anything. -/
theorem Safe.andThen {m : Evaluation σ α} {f : α → Evaluation σ β} {Q : β → Prop}
    (hm : Safe m fun _ ↦ True) (hf : ∀ a, Safe (f a) Q) : Safe (m >>= f) Q :=
  hm.bind fun a _ ↦ hf a

theorem safe_pure {a : α} {Q : α → Prop} (h : Q a) : Safe (pure a : Evaluation σ α) Q :=
  Exec.gives_pure h

theorem safe_raised (Q : α → Prop) : Safe (Exec.fail .raised : Evaluation σ α) Q :=
  Exec.gives_fail nofun

theorem safe_notCompiled (Q : α → Prop) : Safe (Exec.fail .notCompiled : Evaluation σ α) Q :=
  Exec.gives_fail nofun

theorem safe_outOfFuel (Q : α → Prop) : Safe (Exec.fail .outOfFuel : Evaluation σ α) Q :=
  Exec.gives_fail nofun

theorem safe_host (f : σ → Option α × σ) : Safe (host f) fun _ ↦ True := by
  intro s
  rcases hf : f s with ⟨_ | a, s'⟩
  · simp [Exec.wp, host, hf]
  · simp [Exec.wp, host, hf]

theorem safe_decide (f : σ → α × σ) : Safe (decide f) fun _ ↦ True :=
  fun _ ↦ trivial

theorem safe_asValue {r : Obj V} (h : r.Fits false) :
    Safe (asValue r : Evaluation σ V) fun _ ↦ True := by
  cases r with
  | value v => exact safe_pure trivial
  | tailCall t => contradiction

/-- A value computed by the host. -/
theorem safe_value {tail : Bool} (m : Evaluation σ V) (hm : Safe m fun _ ↦ True) :
    Safe (do
      let v ← m
      pure (Obj.value v) : Evaluation σ (Obj V)) (Obj.Fits tail) :=
  hm.andThen fun _ ↦ safe_pure trivial

/-- Nodes are evaluated without leaks, and hand tail calls over from tail positions only; not even
from these unless `hands` is set. -/
def HandsOver (hands : Bool) (ask : Expr → E → Evaluation σ (Obj V)) : Prop :=
  ∀ tail e, e.TailMarked tail → ∀ env, Safe (ask e env) (Obj.Fits (hands && tail))

variable {hands : Bool} {ask : Expr → E → Evaluation σ (Obj V)}

theorem HandsOver.operand (hask : HandsOver hands ask) {e : Expr} (he : e.TailMarked false)
    (env : E) : Safe (operand ask e env) fun _ ↦ True := by
  apply (hask _ _ he env).bind
  intro r hr
  rw [Bool.and_false] at hr
  exact safe_asValue hr

theorem HandsOver.operands (hask : HandsOver hands ask) (es : List Expr)
    (hes : ∀ e ∈ es, e.TailMarked false) (env : E) :
    Safe (operands ask es env) fun _ ↦ True := by
  induction es with
  | nil => exact safe_pure trivial
  | cons e es ih =>
      obtain ⟨he, hes⟩ := List.forall_mem_cons.mp hes
      apply (hask.operand he env).andThen
      intro v
      apply (ih hes).andThen
      intro vs
      exact safe_pure trivial

end Evaluation

namespace Host

open Evaluation

variable {V E σ : Type} (H : Host V E σ) {hands tail : Bool}
  {ask : Expr → E → Evaluation σ (Obj V)}

/-! ## Nodes -/

theorem strict_safe (hask : HandsOver hands ask) (by_ : Evaluator) (e : Expr) (es : List Expr)
    (hes : ∀ e ∈ es, e.TailMarked false) (env : E) :
    Safe (H.strict by_ ask e es env) (Obj.Fits tail) := by
  apply (hask.operands es hes env).andThen
  intro vs
  exact safe_value _ (safe_host _)

/-- A node that only computes has a value. -/
theorem logic_safe (hask : HandsOver hands ask) (by_ : Evaluator) (e : Expr) {left right : Expr}
    (hleft : left.TailMarked false) (hright : right.TailMarked false) (env : E) :
    Safe (do
      let l ← operand ask left env
      let decided ← host (H.logicLeft e l)
      match decided with
      | some v => pure (.value v)
      | none => do
          let r ← operand ask right env
          let v ← host (H.operate by_ e [l, r])
          pure (.value v)) (Obj.Fits tail) := by
  apply (hask.operand hleft env).andThen
  intro l
  apply (safe_host _).andThen
  intro decided
  cases decided with
  | some v => exact safe_pure trivial
  | none =>
      apply (hask.operand hright env).andThen
      intro r
      exact safe_value _ (safe_host _)

theorem operator_safe (hask : HandsOver hands ask) (by_ : Evaluator) {e : Expr} {t : Bool}
    (he : e.TailMarked t) (env : E) : Safe (H.operator by_ ask e env) (Obj.Fits tail) := by
  unfold operator
  split
  all_goals try simp only [Expr.TailMarked] at he
  · exact H.strict_safe hask by_ _ _ ((tailMarkedItems_iff _).mp he) env
  · apply H.strict_safe hask
    intro e hmem
    obtain ⟨p, hp, rfl⟩ := List.mem_map.mp hmem
    exact (tailMarkedPairs_iff _).mp he p hp
  · exact H.strict_safe hask by_ _ _ (by simpa using he) env
  · exact H.strict_safe hask by_ _ _ (by simpa using he) env
  · exact H.strict_safe hask by_ _ _ (by simpa using he) env
  · exact H.strict_safe hask by_ _ _ (by simpa using he) env
  · exact H.strict_safe hask by_ _ _ (by simpa using he) env
  · exact H.strict_safe hask by_ _ _ (by simpa using he) env
  · exact H.logic_safe hask by_ _ he.1 he.2 env
  · exact H.logic_safe hask by_ _ he.1 he.2 env
  · exact H.strict_safe hask by_ _ _ (by simpa using he) env
  · apply (hask.operand he.1 env).andThen
    intro l
    split
    · apply (hask.operand he.2 env).andThen
      intro r
      exact safe_value _ (safe_host _)
    · exact safe_pure trivial
  · exact safe_value _ (safe_host _)

theorem handOver_safe (taken : IfTaken V) {r : Obj V} (hr : r.Fits tail) :
    Safe (H.handOver taken r) (Obj.Fits tail) := by
  cases r with
  | value v => exact safe_value _ (safe_host _)
  | tailCall t => exact safe_pure hr

theorem tailMarked_branchOf {thenBlock : Block} {otherwise : Expr}
    (hthen : thenBlock.TailMarked tail) (helse : otherwise.TailMarked tail) (c : Bool) :
    (branchOf c thenBlock otherwise).TailMarked tail := by
  cases c with
  | true =>
      change (Expr.block thenBlock).TailMarked tail
      simpa only [Expr.TailMarked] using hthen
  | false => exact helse

/-- The branches of an `if` are in tail position where it is. -/
theorem evalIf_safe (hask : HandsOver hands ask) (line : ℕ) {thenBlock : Block} {otherwise : Expr}
    (hthen : thenBlock.TailMarked tail) (helse : otherwise.TailMarked tail) (env : E) (cond : V) :
    Safe (H.evalIf ask line thenBlock otherwise env cond) (Obj.Fits (hands && tail)) := by
  apply (safe_host _).andThen
  intro tested
  cases tested with
  | inl bad => exact safe_pure trivial
  | inr c =>
      apply (hask _ _ (tailMarked_branchOf hthen helse c) env).bind
      intro r hr
      exact H.handOver_safe _ hr

theorem statement_safe (hask : HandsOver hands ask) (last t : Bool) {s : Stmt}
    (hs : s.TailMarked (last && t)) (env : E) :
    Safe (H.statement ask last env s) fun r ↦ ∀ o ∈ r, o.Fits (hands && t) := by
  cases s with
  | exprStmt line e =>
      simp only [Stmt.TailMarked] at hs
      apply (hask _ _ hs env).bind
      intro r hr
      cases last with
      | true =>
          apply safe_pure
          rintro o ⟨⟩
          exact hr
      | false =>
          rw [Bool.false_and, Bool.and_false] at hr
          apply (safe_asValue hr).andThen
          intro v
          apply (safe_host _).andThen
          intro _
          exact safe_pure nofun
  | letStmt line name e =>
      simp only [Stmt.TailMarked] at hs
      apply (hask.operand hs env).andThen
      intro v
      apply (safe_host _).andThen
      intro bound
      apply safe_pure
      rintro o ⟨⟩
      trivial
  | fnDef line name params body retType paramTypes =>
      apply (safe_host _).andThen
      intro _
      exact safe_pure nofun
  | check line label e =>
      simp only [Stmt.TailMarked] at hs
      apply (hask.operand hs env).andThen
      intro v
      apply (safe_host _).andThen
      intro _
      exact safe_pure nofun

/-- The last expression of a block is in tail position where the block is. -/
theorem statements_safe (hask : HandsOver hands ask) (env : E) :
    (ss : List Stmt) → TailMarkedStmts tail ss →
      Safe (H.statements ask env ss) (Obj.Fits (hands && tail))
  | [], _ => safe_raised _
  | [s], hs => by
      simp only [TailMarkedStmts] at hs
      apply (H.statement_safe hask true tail hs env).bind
      intro r hr
      cases r with
      | none => exact safe_raised _
      | some r => exact safe_pure (hr r rfl)
  | s :: s' :: ss, hs => by
      simp only [TailMarkedStmts] at hs
      apply (H.statement_safe hask false tail hs.1 env).bind
      intro _ _
      exact statements_safe hask env (s' :: ss) hs.2

theorem block_safe (hask : HandsOver hands ask) {b : Block} (hb : b.TailMarked tail) (env : E) :
    Safe (H.block ask b env) (Obj.Fits (hands && tail)) := by
  obtain ⟨line, stmts, tag, param⟩ := b
  simp only [Block.TailMarked] at hb
  apply (safe_host _).andThen
  intro inner
  exact H.statements_safe hask inner stmts hb

/-- What stands for a block of one statement is in tail position only where the block is. -/
theorem tailMarked_single {e e' : Expr} (he : e.TailMarked tail) (h : single e = some e') :
    ∃ tail', e'.TailMarked tail' ∧ (tail' = true → tail = true) := by
  unfold single at h
  split at h
  · simp only [Expr.TailMarked, Block.TailMarked, TailMarkedStmts] at he
    split at h
    all_goals cases h
    all_goals simp only [Stmt.TailMarked] at he
    · exact ⟨tail, he, id⟩
    · exact ⟨false, he, nofun⟩
    · exact ⟨false, he, nofun⟩
  · obtain rfl := Option.some.inj h
    exact ⟨tail, he, id⟩

/-! ## Calls -/

/-- The evaluators leak no tail call. -/
structure EvaluatorsSafe (P : Evaluators V E σ) : Prop where
  drive : HandsOver true P.drive
  compiled : ∀ direct, HandsOver direct (P.compiled direct)
  call : ∀ fn args line, Safe (P.call fn args line) fun _ ↦ True
  callDirect : ∀ fn args line, Safe (P.callDirect fn args line) fun _ ↦ True
  callGen : ∀ fn args line, Safe (P.callGen fn args line) fun _ ↦ True

section

variable {P : Evaluators V E σ} (hP : EvaluatorsSafe P)

include hP

theorem runScript_safe (script : Script V σ) : Safe (runScript P script) fun _ ↦ True := by
  induction script with
  | done v => exact safe_pure trivial
  | raised => exact safe_raised _
  | call fn args line resume after ih =>
      intro s
      have hcall := hP.call fn args line s
      unfold Exec.wp at hcall ⊢
      rw [runScript]
      dsimp only
      rcases hresult : P.call fn args line s with ⟨e | v, s'⟩
      · simpa [hresult] using hcall
      · exact ih v s' (after v s')

theorem callBuiltin_safe (name : String) (fn : V) (args : List V) (line : ℕ) :
    Safe (H.callBuiltin P name fn args line) fun _ ↦ True := by
  unfold callBuiltin
  split
  · apply (safe_decide _).andThen
    intro script
    exact runScript_safe hP script
  · exact safe_host _

omit hP in
theorem wrapIfs_safe (ifs : List (IfTaken V)) (v : V) : Safe (H.wrapIfs ifs v) fun _ ↦ True := by
  induction ifs generalizing v with
  | nil => exact safe_pure trivial
  | cons taken ifs ih =>
      apply (safe_host _).andThen
      exact ih

omit hP in
/-- The loop takes what a body hands over, and ends with a value. -/
theorem tailLoop_safe {run : Block → E → Evaluation σ (Obj V)}
    {callOther : V → List V → ℕ → Evaluation σ V}
    (hrun : ∀ body : Block, body.TailMarked true → ∀ env, Safe (run body env) fun _ ↦ True)
    (hother : ∀ fn args line, Safe (callOther fn args line) fun _ ↦ True) (k : ℕ) :
    ∀ chain fn f args line,
      Safe (H.tailLoop run callOther k chain fn f args line) fun _ ↦ True := by
  induction k with
  | zero => exact fun _ _ _ _ _ ↦ safe_outOfFuel _
  | succ k ih =>
      intro chain fn f args line
      apply (safe_host _).andThen
      intro env
      apply (hrun f.body f.tailMarked env).andThen
      intro r
      cases r with
      | value v => exact safe_pure trivial
      | tailCall t =>
          dsimp only
          cases H.function t.fn with
          | none =>
              apply (hother _ _ _).andThen
              intro v
              apply (H.wrapIfs_safe t.ifs v).andThen
              intro v
              exact safe_pure trivial
          | some f' =>
              apply Safe.andThen Exec.gives_get
              intro s
              split
              · apply (safe_host _).andThen
                intro v
                exact safe_pure trivial
              · split
                · exact ih _ _ _ _ _
                · apply (safe_host _).andThen
                  intro v
                  exact safe_pure trivial

omit hP in
theorem guarded_safe (fn : V) (f : Function) (args : List V) (line : ℕ) {go : Evaluation σ V}
    (hgo : Safe go fun _ ↦ True) : Safe (H.guarded fn f args line go) fun _ ↦ True := by
  unfold guarded
  split
  · exact safe_host _
  · apply Safe.andThen Exec.gives_get
    intro s
    split
    · exact hgo
    · exact safe_host _

omit hP in
theorem runClosure_safe {run : Block → E → Evaluation σ (Obj V)}
    {callOther : V → List V → ℕ → Evaluation σ V}
    (hrun : ∀ body : Block, body.TailMarked true → ∀ env, Safe (run body env) fun _ ↦ True)
    (hother : ∀ fn args line, Safe (callOther fn args line) fun _ ↦ True) (fn : V) (f : Function)
    (args : List V) (line : ℕ) :
    Safe (H.runClosure P run callOther fn f args line) fun _ ↦ True := by
  apply Safe.andThen (Exec.gives_modify _)
  intro _
  apply Safe.andThen (Exec.Gives.tryFinally (H.tailLoop_safe hrun hother _ _ _ _ _ _))
  intro _
  exact safe_host _

omit hP in
theorem HandsOver.body {ask : Expr → E → Evaluation σ (Obj V)} (hask : HandsOver hands ask)
    {body : Block} (hbody : body.TailMarked true) (env : E) :
    Safe (ask (.block body) env) fun _ ↦ True := by
  have hblock : (Expr.block body).TailMarked true := by simpa only [Expr.TailMarked] using hbody
  exact (hask _ _ hblock env).mono fun _ _ ↦ trivial

theorem callGen_safe (fn : V) (args : List V) (line : ℕ) :
    Safe (H.callGen P fn args line) fun _ ↦ True := by
  unfold callGen
  cases H.callee fn with
  | miss => exact safe_host _
  | builtin name => exact H.callBuiltin_safe hP name fn args line
  | other => exact safe_host _
  | closure f =>
      apply H.guarded_safe
      apply H.runClosure_safe _ hP.call
      intro body hbody env
      exact HandsOver.body hP.drive hbody env

theorem closureInline_safe (fn : V) (f : Function) (args : List V) (line : ℕ) :
    Safe (H.closureInline P fn f args line) fun _ ↦ True := by
  apply (safe_decide _).andThen
  intro fast
  cases fast with
  | false => exact safe_pure trivial
  | true =>
      have hbody : (Expr.block f.body).TailMarked true := by
        simpa only [Expr.TailMarked] using f.tailMarked
      have hgo : Safe (do
          let env ← host (H.bindParams fn args line)
          operand (P.compiled false) (.block f.body) env) fun _ ↦ True := by
        apply (safe_host _).andThen
        intro env
        apply (hP.compiled false _ _ hbody env).bind
        intro r hr
        exact safe_asValue hr
      apply Safe.andThen (H.guarded_safe fn f args line _)
      · intro v
        exact safe_pure trivial
      · apply Safe.andThen (Exec.gives_modify _)
        intro _
        apply Safe.andThen (Exec.Gives.tryFinally hgo)
        intro v
        exact safe_host _

theorem callInlined_safe (fn : V) (args : List V) (line : ℕ) :
    Safe (H.callInlined P fn args line) fun _ ↦ True := by
  unfold callInlined
  cases H.callee fn with
  | builtin name => exact H.callBuiltin_safe hP name fn args line
  | closure f =>
      apply (H.closureInline_safe hP fn f args line).andThen
      intro inlined
      cases inlined with
      | some v => exact safe_pure trivial
      | none => exact hP.callGen fn args line
  | miss => exact hP.callGen fn args line
  | other => exact hP.callGen fn args line

theorem call_safe (fn : V) (args : List V) (line : ℕ) :
    Safe (H.call P fn args line) fun _ ↦ True := by
  apply (safe_decide _).andThen
  intro directly
  split
  · exact hP.callDirect fn args line
  · exact H.callInlined_safe hP fn args line

/-! ## Generators -/

omit hP in
theorem HandsOver.mono {hands' : Bool} (hask : HandsOver hands ask)
    (h : hands = true → hands' = true) : HandsOver hands' ask := by
  intro tail e he env
  apply (hask _ _ he env).mono
  intro r hr
  apply hr.mono
  simp only [Bool.and_eq_true]
  exact fun hboth ↦ ⟨h hboth.1, hboth.2⟩

theorem fast_handsOver : HandsOver true (P.compiled false) :=
  HandsOver.mono (hP.compiled false) nofun

theorem part_handsOver : HandsOver true (H.part P) := by
  intro tail e he env
  apply (safe_decide _).andThen
  intro fast
  split
  · exact fast_handsOver hP _ _ he env
  · exact hP.drive _ _ he env

omit hP in
/-- A call makes a tail call where it is marked, and has a value elsewhere. -/
theorem pending_safe {ask : Expr → E → Evaluation σ (Obj V)} (hask : HandsOver hands ask)
    {fn : Expr} {args : List Expr} (hfn : fn.TailMarked false)
    (hargs : ∀ e ∈ args, e.TailMarked false) (env : E) {next : V → List V → Evaluation σ (Obj V)}
    (hnext : ∀ v vs, Safe (next v vs) (Obj.Fits tail)) :
    Safe (do
      let v ← operand ask fn env
      let vs ← operands ask args env
      next v vs) (Obj.Fits tail) := by
  apply (hask.operand hfn env).andThen
  intro v
  apply (hask.operands args hargs env).andThen
  intro vs
  exact hnext v vs

theorem generate_handsOver : HandsOver true (H.generate P) := by
  intro tail e he env
  unfold generate
  split
  · simp only [Expr.TailMarked, tailMarkedItems_iff] at he
    obtain ⟨rfl, hfn, hargs⟩ := he
    apply pending_safe (H.part_handsOver hP) hfn hargs env
    intro v vs
    split
    · rename_i hmark
      exact safe_pure hmark
    · exact safe_value _ (hP.call _ _ _)
  · simp only [Expr.TailMarked] at he
    apply (hP.drive.operand he.1 env).andThen
    intro c
    exact H.evalIf_safe hP.drive _ he.2.1 he.2.2 env c
  · simp only [Expr.TailMarked] at he
    exact H.block_safe hP.drive he env
  · exact H.operator_safe hP.drive _ he env

theorem eval_handsOver : HandsOver true (H.eval P) := by
  intro tail e he env
  apply (safe_decide _).andThen
  intro fast
  split
  · exact fast_handsOver hP _ _ he env
  · exact H.generate_handsOver hP _ _ he env

omit hP in
theorem allFast_safe (es : List Expr) : Safe (H.allFast es) fun _ ↦ True := by
  induction es with
  | nil => exact safe_pure trivial
  | cons e es ih =>
      apply (safe_decide _).andThen
      intro fast
      apply ih.andThen
      intro rest
      exact safe_pure trivial

/-- Compiled code that calls no closure has a value, even in tail position. -/
theorem fast_operand {e : Expr} {t : Bool} (he : e.TailMarked t) (env : E) :
    Safe (operand (P.compiled false) e env) fun _ ↦ True := by
  apply (hP.compiled false _ _ he env).bind
  intro r hr
  exact safe_asValue hr

theorem fastBranch_safe (ifs : List (IfTaken V)) {branch : Expr} {t : Bool}
    (hbranch : branch.TailMarked t) (env : E) :
    Safe (H.fastBranch P ifs branch env) (Obj.Fits tail) := by
  apply (fast_operand hP hbranch env).andThen
  intro v
  exact safe_value _ (H.wrapIfs_safe ifs v)

theorem tailInline_safe (ifs : List (IfTaken V)) (line : ℕ) {fn : Expr} {args : List Expr}
    (hcall : (Expr.call line fn args true).TailMarked tail) (env : E) :
    Safe (tailInline P ifs line fn args env) (Obj.Fits tail) := by
  simp only [Expr.TailMarked, tailMarkedItems_iff] at hcall
  apply pending_safe (hP.compiled false) hcall.2.1 hcall.2.2 env
  intro v vs
  exact safe_pure hcall.1.symm

theorem chainGen_safe (pending : List (IfTaken V)) {branch : Expr}
    (hbranch : branch.TailMarked tail) (env : E) :
    Safe (H.chainGen P pending branch env) (Obj.Fits tail) := by
  apply (hP.drive _ _ hbranch env).bind
  intro r hr
  cases r with
  | value v => exact safe_value _ (H.wrapIfs_safe _ v)
  | tailCall t => exact safe_pure hr

/-- A chain of `if`s hands over what its last branch does. -/
theorem ifChain_safe (k : ℕ) : ∀ pending line thenBlock otherwise env cond {tail : Bool},
    thenBlock.TailMarked tail → otherwise.TailMarked tail →
      Safe (H.ifChain P k pending line thenBlock otherwise env cond) (Obj.Fits tail) := by
  induction k with
  | zero => exact fun _ _ _ _ _ _ _ _ _ ↦ safe_outOfFuel _
  | succ k ih =>
      intro pending line thenBlock otherwise env cond tail hthen helse
      apply (safe_host _).andThen
      intro tested
      cases tested with
      | inl bad => exact safe_value _ (H.wrapIfs_safe _ bad)
      | inr c =>
          dsimp only
          cases hsingle : single (branchOf c thenBlock otherwise) with
          | none => exact safe_raised _
          | some branch =>
              obtain ⟨t, hbranch, ht⟩ :=
                tailMarked_single (tailMarked_branchOf hthen helse c) hsingle
              have hfits : ∀ {m : Evaluation σ (Obj V)}, Safe m (Obj.Fits t) →
                  Safe m (Obj.Fits tail) := fun hm ↦ hm.mono fun r hr ↦ hr.mono ht
              apply (safe_decide _).andThen
              intro fast
              apply hfits
              split
              · exact H.fastBranch_safe hP _ hbranch env
              · split
                · apply (H.allFast_safe _).andThen
                  intro parts
                  split
                  · exact tailInline_safe hP _ _ hbranch env
                  · exact H.chainGen_safe hP _ hbranch env
                · apply (safe_decide _).andThen
                  intro fast
                  split
                  · simp only [Expr.TailMarked] at hbranch
                    apply (fast_operand hP hbranch.1 env).andThen
                    intro v
                    exact ih _ _ _ _ _ _ hbranch.2.1 hbranch.2.2
                  · exact H.chainGen_safe hP _ hbranch env
                · exact H.chainGen_safe hP _ hbranch env

theorem ifInline_safe (line : ℕ) {thenBlock : Block} {otherwise : Expr}
    (hthen : thenBlock.TailMarked tail) (helse : otherwise.TailMarked tail) (env : E) (cond : V) :
    Safe (H.ifInline P line thenBlock otherwise env cond) fun r ↦ ∀ o ∈ r, o.Fits tail := by
  have hsome : ∀ {m : Evaluation σ (Obj V)} {t : Bool}, Safe m (Obj.Fits t) →
      (t = true → tail = true) →
      Safe (do
        let r ← m
        pure (some r) : Evaluation σ (Option (Obj V))) fun r ↦ ∀ o ∈ r, o.Fits tail := by
    intro m t hm ht
    apply hm.bind
    intro r hr
    apply safe_pure
    rintro o ⟨⟩
    exact hr.mono ht
  apply (safe_host _).andThen
  intro tested
  cases tested with
  | inl bad =>
      apply safe_pure
      rintro o ⟨⟩
      trivial
  | inr c =>
      dsimp only
      cases hsingle : single (branchOf c thenBlock otherwise) with
      | none => exact safe_raised _
      | some branch =>
          obtain ⟨t, hbranch, ht⟩ :=
            tailMarked_single (tailMarked_branchOf hthen helse c) hsingle
          apply (safe_decide _).andThen
          intro fast
          split
          · exact hsome (H.fastBranch_safe hP _ hbranch env) ht
          · split
            · apply (H.allFast_safe _).andThen
              intro parts
              split
              · exact hsome (tailInline_safe hP _ _ hbranch env) ht
              · exact safe_pure nofun
            · apply (safe_decide _).andThen
              intro fast
              split
              · simp only [Expr.TailMarked] at hbranch
                apply (fast_operand hP hbranch.1 env).andThen
                intro v
                exact hsome (H.ifChain_safe hP _ _ _ _ _ _ _ hbranch.2.1 hbranch.2.2) ht
              · exact safe_pure nofun
            · exact safe_pure nofun

theorem drive_handsOver : HandsOver true (H.drive P) := by
  intro tail e he env
  unfold drive
  cases hsingle : single e with
  | none => exact safe_raised _
  | some e' =>
      obtain ⟨t, he', ht⟩ := tailMarked_single he hsingle
      apply Safe.mono (Q := Obj.Fits t)
      · apply (safe_decide _).andThen
        intro fast
        split
        · exact fast_handsOver hP _ _ he' env
        · apply (safe_decide _).andThen
          intro direct
          split
          · exact hP.compiled true _ _ he' env
          · split
            · apply (H.allFast_safe _).andThen
              intro parts
              split
              · simp only [Expr.TailMarked, tailMarkedItems_iff] at he'
                obtain ⟨rfl, hfn, hargs⟩ := he'
                apply pending_safe (hP.compiled false) hfn hargs env
                intro v vs
                split
                · rename_i hmark
                  exact safe_pure hmark
                · exact safe_value _ (H.callInlined_safe hP _ _ _)
              · exact H.generate_handsOver hP _ _ he' env
            · apply (safe_decide _).andThen
              intro fast
              split
              · simp only [Expr.TailMarked] at he'
                apply (fast_operand hP he'.1 env).andThen
                intro c
                apply (H.ifInline_safe hP _ he'.2.1 he'.2.2 env c).bind
                intro r hr
                cases r with
                | some r => exact safe_pure (hr r rfl)
                | none => exact H.evalIf_safe hP.drive _ he'.2.1 he'.2.2 env c
              · exact H.generate_handsOver hP _ _ he' env
            · exact H.generate_handsOver hP _ _ he' env
      · intro r hr
        exact hr.mono ht

/-! ## Compiled nodes -/

theorem sub_handsOver (direct : Bool) : HandsOver direct (H.sub P direct) := by
  intro tail e he env
  apply (safe_decide _).andThen
  intro fast
  apply (hP.compiled _ _ _ he env).mono
  intro r hr
  apply hr.mono
  cases direct <;> cases fast <;> simp

theorem compiledBranch_handsOver (direct : Bool) :
    HandsOver direct (H.compiledBranch P direct) := by
  intro tail e he env
  unfold compiledBranch
  split
  · rename_i hdirect
    rw [hdirect]
    exact H.sub_handsOver hP true _ _ he env
  · have hvalue : Safe (operand (H.sub P false) e env) fun _ ↦ True := by
      apply (H.sub_handsOver hP false _ _ he env).bind
      intro r hr
      exact safe_asValue hr
    exact safe_value _ hvalue

theorem builtinCall_safe (direct : Bool) (b : String) (fn : Expr) {args : List Expr}
    (hargs : ∀ e ∈ args, e.TailMarked false) (line : ℕ) (env : E) :
    Safe (H.builtinCall P direct b fn args line env) (Obj.Fits tail) := by
  apply (safe_host _).andThen
  intro v
  apply (HandsOver.operands (H.sub_handsOver hP direct) args hargs env).andThen
  intro vs
  split
  · exact safe_value _ (H.callBuiltin_safe hP b v vs line)
  · apply (safe_decide _).andThen
    intro directly
    split
    · exact safe_value _ (hP.callDirect v vs line)
    · exact safe_value _ (hP.callGen v vs line)

theorem compiled_handsOver (direct : Bool) : HandsOver direct (H.compiled P direct) := by
  intro tail e he env
  unfold compiled
  split
  · simp only [Expr.TailMarked, tailMarkedItems_iff] at he
    obtain ⟨rfl, hfn, hargs⟩ := he
    apply (safe_decide _).andThen
    intro inlined
    split
    · exact H.builtinCall_safe hP direct _ _ hargs _ env
    · split
      · rename_i hdirect
        apply pending_safe (H.sub_handsOver hP true) hfn hargs env
        intro v vs
        split
        · rename_i hmark
          rw [hdirect, hmark]
          exact safe_pure rfl
        · exact safe_value _ (hP.callDirect v vs _)
      · exact safe_notCompiled _
  · simp only [Expr.TailMarked] at he
    apply (HandsOver.operand (H.sub_handsOver hP direct) he.1 env).andThen
    intro c
    exact H.evalIf_safe (H.compiledBranch_handsOver hP direct) _ he.2.1 he.2.2 env c
  · rename_i line s tag param
    cases hsingle : single (.block (.mk line [s] tag param)) with
    | none => exact safe_notCompiled _
    | some e' =>
        obtain ⟨t, he', ht⟩ := tailMarked_single he hsingle
        apply (H.sub_handsOver hP direct _ _ he' env).mono
        intro r hr
        apply hr.mono
        simp only [Bool.and_eq_true]
        exact fun h ↦ ⟨h.1, ht h.2⟩
  · simp only [Expr.TailMarked] at he
    exact H.block_safe (H.sub_handsOver hP direct) he env
  · exact H.operator_safe (H.sub_handsOver hP direct) _ he env

theorem runBody_safe {body : Block} (hbody : body.TailMarked true) (env : E) :
    Safe (H.runBody P body env) fun _ ↦ True := by
  apply (safe_decide _).andThen
  intro fast
  split
  · exact HandsOver.body (hP.compiled false) hbody env
  · apply (safe_decide _).andThen
    intro direct
    split
    · exact HandsOver.body (hP.compiled true) hbody env
    · exact HandsOver.body (H.eval_handsOver hP) hbody env

theorem callDirect_safe (fn : V) (args : List V) (line : ℕ) :
    Safe (H.callDirect P fn args line) fun _ ↦ True := by
  unfold callDirect
  cases H.callee fn with
  | miss => exact safe_host _
  | builtin name => exact H.callBuiltin_safe hP name fn args line
  | other => exact safe_host _
  | closure f =>
      apply H.guarded_safe
      apply (safe_decide _).andThen
      intro fits
      split
      · apply H.runClosure_safe _ hP.callDirect
        intro body hbody env
        exact H.runBody_safe hP hbody env
      · exact hP.callGen fn args line

end

/-! ## Runs -/

theorem evaluators_safe (n : ℕ) : EvaluatorsSafe (H.evaluators n) := by
  induction n with
  | zero =>
      constructor
      · exact fun _ _ _ _ ↦ safe_outOfFuel _
      · exact fun _ _ _ _ _ ↦ safe_outOfFuel _
      · exact fun _ _ _ ↦ safe_outOfFuel _
      · exact fun _ _ _ ↦ safe_outOfFuel _
      · exact fun _ _ _ ↦ safe_outOfFuel _
  | succ n ih =>
      exact ⟨H.drive_handsOver ih, H.compiled_handsOver ih, H.call_safe ih, H.callDirect_safe ih,
        H.callGen_safe ih⟩

theorem run_safe (n : ℕ) (env : E) (ss : List Stmt) (hss : ∀ s ∈ ss, s.TailMarked false) :
    Safe (H.run n env ss) fun _ ↦ True := by
  induction ss with
  | nil => exact safe_pure trivial
  | cons s ss ih =>
      obtain ⟨hs, hss⟩ := List.forall_mem_cons.mp hss
      apply (H.statement_safe (H.evaluators_safe n).drive false false hs env).bind
      intro _ _
      exact ih hss

end Host

/-- A pending tail call never becomes a value.  In an accepted program exactly the calls in tail
position of their innermost function are marked; and whatever the host computes and whichever
evaluators it lets run the nodes, no run takes a tail call for a value, and a node hands one over
only from tail position. -/
theorem tailCalls_handedOver {V E σ : Type} (H : Host V E σ) (n : ℕ) :
    (∀ program, Accepted program →
      (∀ s ∈ program, s.TailMarked false) ∧
      (∀ env st, (H.run n env program st).1 ≠ .error .leak) ∧
      ∀ s ∈ program, ∀ env st,
        (H.execStmt n env s st).1 ≠ .error .leak ∧
        ∀ o, (H.execStmt n env s st).1 = .ok (some o) → ∃ v, o = .value v) ∧
    ∀ tail e, e.TailMarked tail → ∀ env st,
      (((H.evaluators n).drive e env st).1 ≠ .error .leak ∧
        ∀ t, ((H.evaluators n).drive e env st).1 = .ok (.tailCall t) → tail = true) ∧
      ∀ direct,
        ((H.evaluators n).compiled direct e env st).1 ≠ .error .leak ∧
        ∀ t, ((H.evaluators n).compiled direct e env st).1 = .ok (.tailCall t) → tail = true := by
  have hsafe := H.evaluators_safe n
  constructor
  · intro program haccepted
    have hmarked := haccepted.tailMarked
    refine ⟨hmarked, ?_, ?_⟩
    · intro env st hleak
      exact (H.run_safe n env program hmarked).of_error hleak rfl
    · intro s hs env st
      have hstmt := H.statement_safe hsafe.drive true false (hmarked s hs) env
      constructor
      · exact fun hleak ↦ hstmt.of_error hleak rfl
      · intro o ho
        have hfits := hstmt.of_ok ho o rfl
        cases o with
        | value v => exact ⟨v, rfl⟩
        | tailCall t => contradiction
  · intro tail e he env st
    refine ⟨⟨?_, ?_⟩, ?_⟩
    · exact fun hleak ↦ (hsafe.drive tail e he env).of_error hleak rfl
    · intro t ht
      exact (hsafe.drive tail e he env).of_ok ht
    · intro direct
      have hcompiled := hsafe.compiled direct tail e he env
      constructor
      · exact fun hleak ↦ hcompiled.of_error hleak rfl
      · intro t ht
        have hfits : (direct && tail) = true := hcompiled.of_ok ht
        exact (Bool.and_eq_true_iff.mp hfits).2

end NucLlm.Whence
