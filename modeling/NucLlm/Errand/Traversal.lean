import NucLlm.Errand.Interp

/-!
# Conditions that hold throughout a session

A condition on the state that no clock reading bears on is kept by everything
but the tasks and the ledgers of the flows; `Carried` asks for these, and the
recursion over expressions, blocks and flows is one induction on its depth.
-/

namespace NucLlm.Errand

open Exec

/-- A condition that no reading of the clock and no counter of the host bears on. -/
def Unobserved (I : St → Prop) : Prop :=
  ∀ s s', I s → s'.log = s.log → s'.taskCalls = s.taskCalls → s'.ledgers = s.ledgers → I s'

variable (host : Host) (prog : Program)

section Parts

variable {I : St → Prop}

theorem readClock_preserves (hI : Unobserved I) : (readClock host).Preserves I :=
  fun s h ↦ hI s _ h rfl rfl rfl

theorem readRng_preserves (hI : Unobserved I) : (readRng host).Preserves I :=
  fun s h ↦ hI s _ h rfl rfl rfl

theorem toFloat_preserves (n : ℕ) : (toFloat n).Preserves I := by
  unfold toFloat
  split
  · exact preserves_pure _ I
  · exact preserves_fail _ I

theorem lookupEnv_preserves (env : Env) (name : String) : (lookupEnv env name).Preserves I :=
  preserves_ofOption _ _ I

theorem interpolateFrom_preserves (line : ℕ) (env : Env) (parts : List Part) :
    ∀ out inputs, (interpolateFrom host line env out inputs parts).Preserves I := by
  induction parts with
  | nil =>
      intro out inputs
      exact preserves_pure _ I
  | cons part parts ih =>
      intro out inputs
      cases part with
      | text s => exact ih (out ++ s) inputs
      | ref name =>
          refine (lookupEnv_preserves env name).bind fun v ↦ ?_
          cases v with
          | ok value prov => exact ih _ _
          | miss reasons prov => exact preserves_pure _ I

theorem interpolateText_preserves (s : Str) (env : Env) :
    (interpolateText host s env).Preserves I := by
  refine (interpolateFrom_preserves host s.line env s.parts "" []).bind fun v ↦ ?_
  split
  · exact preserves_pure _ I
  · exact preserves_fail _ I

theorem messages_preserves (t : Task) (env : Env) : (messages host t env).Preserves I := by
  refine Preserves.bind ?_ fun system ↦ (interpolateText_preserves host t.user env).bind
    fun user ↦ preserves_pure _ I
  unfold systemMessage
  split
  · exact preserves_pure _ I
  · exact (interpolateText_preserves host _ env).bind fun _ ↦ preserves_pure _ I

theorem builtin_preserves (name : String) (args : List Val) (line : ℕ) :
    (builtin host name args line).Preserves I := by
  unfold builtin
  split
  · dsimp only
    repeat' split
    all_goals first | exact preserves_pure _ I | exact preserves_fail _ I
  · exact preserves_fail _ I

/-- Only `json.loads` may raise in the check of a reply. -/
theorem checkExpect_raised {tx : Texts} {o : Option Expect} {text msg : String}
    (h : checkExpect tx o text = .error (.raised msg)) : tx.loads text = .raised msg := by
  unfold checkExpect at h
  cases o with
  | none => contradiction
  | some clause =>
      cases clause with
      | oneOf first rest =>
          dsimp only at h
          split at h
          · contradiction
          · cases h
      | contains needle =>
          dsimp only at h
          split at h
          · contradiction
          · cases h
      | nonempty =>
          dsimp only at h
          split at h
          · cases h
          · contradiction
      | json =>
          dsimp only at h
          split at h
          · contradiction
          · cases h
          · rename_i msg' hloads
            obtain rfl : msg' = msg := by injections
            exact hloads

theorem judge_preserves (c : Call) (result : SendResult) : (judge host c result).Preserves I := by
  unfold judge
  dsimp only
  repeat' split
  all_goals first | exact preserves_pure _ I | exact preserves_fail _ I

theorem sleepFor_preserves (delay : ℚ) : (sleepFor host delay).Preserves I := by
  unfold sleepFor
  repeat' split
  all_goals first | exact preserves_pure _ I | exact preserves_fail _ I

theorem taskBudget_preserves (t : Task) : (taskBudget prog t).Preserves I := by
  unfold taskBudget
  cases t.budget with
  | none => exact preserves_pure none I
  | some name => exact (preserves_ofOption _ _ I).bind fun b ↦ preserves_pure (some b) I

theorem flowSeconds_preserves (hclock : (readClock host).Preserves I) (t₀ : ℚ) (l : Ledger) :
    (flowSeconds host t₀ l).Preserves I := by
  unfold flowSeconds
  split
  · exact preserves_pure _ I
  · exact hclock.bind fun t₁ ↦ preserves_pure _ I

end Parts

/-- What a condition has to satisfy to hold throughout a session. -/
structure Carried (I : St → Prop) : Prop where
  unobserved : Unobserved I
  init : I St.init
  task : ∀ t args line, (task host prog t args line).Preserves I
  opened : ∀ name s, I s → (ledgerFor prog name).wp
    (fun l s' ↦ I (pushLedger l s').2) (fun _ ↦ I) s
  closed : popLedger.Preserves I
  called : ∀ s flow, I s → I (s.enter flow)

/-- What holds at the start and after every flow that a session enters holds of the session. -/
theorem session_of_runFlow {I : St → Prop} (hinit : I St.init)
    (hflow : ∀ fuel name args s, I s → (runFlow host prog fuel name args).Ensures I (s.enter name))
    (runs : List (ℕ × String × List (String × Arg))) : I (session host prog runs) :=
  List.foldlRecOn runs _ hinit fun s h r _ ↦ (hflow r.1 r.2.1 r.2.2 s h).state

namespace Carried

variable {host prog} {I : St → Prop}

/-- One step deeper into the recursion, each of the four functions keeps the
invariant if all of them do below. -/
theorem eval (hI : Carried host prog I) (fuel : ℕ) :
    (∀ e env, (expr host prog fuel e env).Preserves I) ∧
    (∀ es env, (exprs host prog fuel es env).Preserves I) ∧
    (∀ stmts env emitted, (block host prog fuel stmts env emitted).Preserves I) ∧
    ∀ name args, (runFlow host prog fuel name args).Preserves I := by
  have hclock := readClock_preserves host hI.unobserved
  induction fuel with
  | zero => exact ⟨fun _ _ ↦ preserves_fail _ _, fun _ _ ↦ preserves_fail _ _,
      fun _ _ _ ↦ preserves_fail _ _, fun _ _ ↦ preserves_fail _ _⟩
  | succ fuel ih =>
      obtain ⟨hexpr, hexprs, hblock, hflow⟩ := ih
      refine ⟨?_, ?_, ?_, ?_⟩
      · intro e env
        cases e with
        | str s => exact interpolateFrom_preserves host _ _ _ _ _
        | num value line => exact preserves_pure _ _
        | bool value line => exact preserves_pure _ _
        | name name line => exact lookupEnv_preserves _ _
        | rescue left right line =>
            refine (hexpr left env).bind fun l ↦ ?_
            cases l with
            | ok value prov => exact preserves_pure _ _
            | miss reasons prov =>
                refine (hexpr right env).bind fun r ↦ ?_
                cases r <;> exact preserves_pure _ _
        | cmp op left right line =>
            exact (hexpr left env).bind fun l ↦ (hexpr right env).bind fun r ↦ preserves_pure _ _
        | call name args line =>
            refine (hexprs args env).bind fun vals ↦ ?_
            split
            · exact builtin_preserves host name vals line
            · split
              · exact hI.task _ vals line
              · refine (preserves_ofOption _ _ _).bind fun flow ↦ ?_
                split
                · exact preserves_pure _ _
                · exact (hflow name _).bind fun res ↦ preserves_pure _ _
      · intro es env
        cases es with
        | nil => exact preserves_pure _ _
        | cons e es =>
            exact (hexpr e env).bind fun v ↦ (hexprs es env).bind fun vs ↦ preserves_pure _ _
      · intro stmts env emitted
        cases stmts with
        | nil => exact preserves_pure _ _
        | cons stmt stmts =>
            cases stmt with
            | letStmt name e line => exact (hexpr e env).bind fun v ↦ hblock stmts _ emitted
            | emitStmt e line => exact (hexpr e env).bind fun v ↦ hblock stmts env _
            | ifStmt cond thenBody elseBody line =>
                refine (hexpr cond env).bind fun c ↦ ?_
                split
                · exact preserves_pure _ _
                · refine (hblock _ env emitted).bind ?_
                  rintro ⟨miss, emitted⟩
                  cases miss with
                  | none => exact hblock stmts env emitted
                  | some miss => exact preserves_pure _ _
                · exact preserves_pure _ _
      · intro name args
        refine (preserves_ofOption _ _ _).bind fun flow ↦ ?_
        split
        · exact preserves_fail _ _
        · intro s h
          refine wp_bind_of (hI.opened flow.budget s h) fun ledger s h ↦ ?_
          refine wp_bind_of (m := pushLedger ledger) (P := fun _ ↦ I) h fun _ s h ↦ ?_
          refine Preserves.bind hclock (fun t₀ ↦ ?_) s h
          refine (hblock flow.body _ []).bind ?_
          rintro ⟨miss, emitted⟩
          refine hI.closed.bind ?_
          rintro ⟨own, up⟩
          exact (flowSeconds_preserves host hclock t₀ _).bind fun seconds ↦
            preserves_pure _ _

theorem session (hI : Carried host prog I) (runs : List (ℕ × String × List (String × Arg))) :
    I (Errand.session host prog runs) :=
  session_of_runFlow host prog hI.init
    (fun fuel name args s h ↦ (hI.eval fuel).2.2.2 name args _ (hI.called s name h)) runs

end Carried

end NucLlm.Errand
