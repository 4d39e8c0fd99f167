import NucLlm.Errand.Tokens
import NucLlm.Errand.Transport
import Mathlib.Data.Fintype.Card
import Mathlib.Data.Fintype.EquivFin
import Mathlib.Data.Fintype.Sets
import Mathlib.Logic.Relation
import Mathlib.Order.Filter.AtTopBot.Basic
import Mathlib.Order.WellFounded
import Mathlib.Tactic.NormNum

/-!
# What linking guarantees

Every lookup of a linked program succeeds while it runs, and what it may still
not do is end: a flow may call itself.  Without a cycle of calls the depth of
the recursion is bounded by the text of the program.
-/

namespace NucLlm.Errand

open Exec Filter

/-! ## Which flows a flow calls -/

mutual

/-- The names called in an expression. -/
def Expr.callees : Expr → List String
  | .str _ => []
  | .num _ _ => []
  | .bool _ _ => []
  | .name _ _ => []
  | .call callee args _ => callee :: Expr.calleesAll args
  | .rescue left right _ => left.callees ++ right.callees
  | .cmp _ left right _ => left.callees ++ right.callees

def Expr.calleesAll : List Expr → List String
  | [] => []
  | e :: es => e.callees ++ Expr.calleesAll es

end

mutual

def Stmt.callees : Stmt → List String
  | .letStmt _ e _ => e.callees
  | .emitStmt e _ => e.callees
  | .ifStmt cond thenBody elseBody _ =>
      cond.callees ++ (Stmt.calleesAll thenBody ++ Stmt.calleesAll elseBody)

def Stmt.calleesAll : List Stmt → List String
  | [] => []
  | s :: stmts => s.callees ++ Stmt.calleesAll stmts

end

namespace Program

variable (p : Program)

/-- The body of the flow `f` calls the flow `g`. -/
def Calls (f g : String) : Prop :=
  ∃ flow, p.flow? f = some flow ∧ g ∈ Stmt.calleesAll flow.body ∧ (p.flow? g).isSome

/-- No flow that is reached from `f` comes back to itself through the calls of flows. -/
def Acyclic (f : String) : Prop :=
  ∀ g, Relation.ReflTransGen p.Calls f g → ¬ Relation.TransGen p.Calls g g

theorem flow?_mem_names {name : String} (h : (p.flow? name).isSome) :
    name ∈ p.flows.map Flow.name := by
  obtain ⟨flow, hflow⟩ := Option.isSome_iff_exists.mp h
  have hname := List.find?_some hflow
  exact List.mem_map.mpr ⟨flow, List.mem_of_find?_eq_some hflow, by simpa using hname⟩

/-- Without a cycle the calls of the finitely many flows that are reached go down. -/
theorem Acyclic.acc {p : Program} {name : String} (h : p.Acyclic name) :
    Acc (fun g f ↦ p.Calls f g) name := by
  let Reached := {g // g ∈ p.flows.map Flow.name ∧ Relation.ReflTransGen p.Calls name g}
  let below : Reached → Reached → Prop := fun g f ↦ Relation.TransGen p.Calls f.1 g.1
  have hbelow : WellFounded below := by
    have : IsTrans Reached below := ⟨fun _ _ _ hab hbc ↦ hbc.trans hab⟩
    have : Std.Irrefl below := ⟨fun a ha ↦ h a.1 a.2.2 ha⟩
    have : Finite Reached := Finite.of_injective
      (fun g ↦ (⟨g.1, g.2.1⟩ : {name // name ∈ p.flows.map Flow.name}))
      fun g g' hgg' ↦ Subtype.ext (congrArg (·.1) hgg')
    exact Finite.wellFounded_of_trans_of_irrefl below
  have hacc : ∀ f : Reached, Acc (fun g f ↦ p.Calls f g) f.1 := by
    intro f
    induction f using hbelow.induction with
    | _ f ih =>
        refine ⟨_, fun g hg ↦ ?_⟩
        obtain ⟨flow, hflow, hmem, hsome⟩ := hg
        have hcall : p.Calls f.1 g := ⟨flow, hflow, hmem, hsome⟩
        exact ih ⟨g, p.flow?_mem_names hsome, f.2.2.tail hcall⟩ (.single hcall)
  refine ⟨_, fun g hg ↦ ?_⟩
  obtain ⟨flow, hflow, hmem, hsome⟩ := hg
  exact hacc ⟨g, p.flow?_mem_names hsome, .single ⟨flow, hflow, hmem, hsome⟩⟩

/-! ## What the checks let through -/

theorem ok_bind {α β : Type} {m : Except ParseError α} {f : α → Except ParseError β} {b : β}
    (h : m >>= f = .ok b) : ∃ a, m = .ok a ∧ f a = .ok b := by
  cases m with
  | error e => contradiction
  | ok a => exact ⟨a, rfl, h⟩

theorem ok_raiseIf {cond : Bool} {msg : String} {line : ℕ} {r : Unit}
    (h : raiseIf cond msg line = .ok r) : cond = false := by
  unfold raiseIf at h
  split at h
  · contradiction
  · simp_all

variable {p}

theorem ok_checkRefs {line : ℕ} {scope refs : List String} {r : Unit}
    (h : checkRefs line scope refs = .ok r) : ∀ ref ∈ refs, ref ∈ scope := by
  induction refs with
  | nil => simp
  | cons ref refs ih =>
      obtain ⟨_, hraise, hrest⟩ := ok_bind h
      have hmem := ok_raiseIf hraise
      simp only [Bool.not_eq_false', List.contains_iff_mem] at hmem
      intro ref' hr
      rcases List.mem_cons.mp hr with rfl | hr
      · exact hmem
      · exact ih hrest ref' hr

theorem ok_checkCall {name : String} {given line : ℕ} {r : Unit}
    (h : p.checkCall name given line = .ok r) : p.arity? name = some given := by
  unfold checkCall at h
  dsimp only at h
  split at h
  · contradiction
  · rename_i want hwant
    have hgiven := ok_raiseIf h
    rw [decide_eq_false_iff_not, not_not] at hgiven
    rw [hwant, hgiven]

/-- What link has checked of a task. -/
structure TaskLinked (p : Program) (t : Task) : Prop where
  lane : (p.lane? t.lane).isSome
  budget : ∀ b, t.budget = some b → (p.budget? b).isSome
  not_builtin : isBuiltin t.name = false

/-- What link has checked of a flow. -/
structure FlowLinked (p : Program) (f : Flow) : Prop where
  budget : ∀ b, f.budget = some b → (p.budget? b).isSome
  not_task : p.task? f.name = none
  not_builtin : isBuiltin f.name = false
  body : p.checkBlock f.params f.body = .ok ()

theorem known_budget {o : Option String}
    (h : (o.any fun b ↦ (p.budget? b).isNone) = false) :
    ∀ b, o = some b → (p.budget? b).isSome := by
  rintro b rfl
  simpa [Option.isSome_iff_ne_none] using h

theorem taskLinked_of_ok {t : Task} {r : Unit} (h : p.linkTask t = .ok r) : TaskLinked p t := by
  unfold linkTask at h
  dsimp only at h
  split at h
  · contradiction
  · rename_i lane hlane
    obtain ⟨_, hbudget, h⟩ := ok_bind h
    obtain ⟨_, hbuiltin, _⟩ := ok_bind h
    exact ⟨by rw [hlane]; rfl, known_budget (ok_raiseIf hbudget), ok_raiseIf hbuiltin⟩

theorem flowLinked_of_ok {f : Flow} {r : Unit} (h : p.linkFlow f = .ok r) : FlowLinked p f := by
  obtain ⟨_, hbudget, h⟩ := ok_bind h
  obtain ⟨_, hname, hbody⟩ := ok_bind h
  have hname := ok_raiseIf hname
  rw [Bool.or_eq_false_iff] at hname
  exact ⟨known_budget (ok_raiseIf hbudget), by simpa using hname.1, hname.2, hbody⟩

theorem ok_linkTasks {ts : List Task} {r : Unit} (h : p.linkTasks ts = .ok r) :
    ∀ t ∈ ts, TaskLinked p t := by
  induction ts with
  | nil => simp
  | cons t ts ih =>
      obtain ⟨_, ht, hts⟩ := ok_bind h
      exact List.forall_mem_cons.mpr ⟨taskLinked_of_ok ht, ih hts⟩

theorem ok_linkFlows {fs : List Flow} {r : Unit} (h : p.linkFlows fs = .ok r) :
    ∀ f ∈ fs, FlowLinked p f := by
  induction fs with
  | nil => simp
  | cons f fs ih =>
      obtain ⟨_, hf, hfs⟩ := ok_bind h
      exact List.forall_mem_cons.mpr ⟨flowLinked_of_ok hf, ih hfs⟩

theorem Linked.task (h : p.Linked) {name : String} {t : Task} (ht : p.task? name = some t) :
    TaskLinked p t := by
  obtain ⟨_, htasks, _⟩ := ok_bind h
  exact ok_linkTasks htasks t (List.mem_of_find?_eq_some ht)

theorem Linked.flow (h : p.Linked) {name : String} {f : Flow} (hf : p.flow? name = some f) :
    FlowLinked p f ∧ f.name = name := by
  obtain ⟨_, _, hflows⟩ := ok_bind h
  have hname := List.find?_some hf
  exact ⟨ok_linkFlows hflows f (List.mem_of_find?_eq_some hf), by simpa using hname⟩

end Program

/-! ## Lookups succeed -/

/-- Every name of the scope has a value. -/
def Covers (env : Env) (scope : List String) : Prop :=
  ∀ name ∈ scope, ∃ v, env.find? (·.1 = name) = some v

theorem Covers.cons {env : Env} {scope : List String} (h : Covers env scope) (name : String)
    (v : Val) : Covers ((name, v) :: env) (name :: scope) := by
  intro name' hname'
  by_cases heq : name = name'
  · exact ⟨(name, v), by simp [heq]⟩
  · have hmem : name' ∈ scope := (List.mem_cons.mp hname').resolve_left (Ne.symm heq)
    obtain ⟨w, hw⟩ := h name' hmem
    exact ⟨w, by simp [heq, hw]⟩

theorem lookupEnv_yields {env : Env} {scope : List String} (h : Covers env scope) {name : String}
    (hname : name ∈ scope) : (lookupEnv env name).Yields fun v ↦ ∃ name, (name, v) ∈ env := by
  obtain ⟨⟨name', v⟩, hv⟩ := h name hname
  have hfound : (env.find? (·.1 = name)).map Prod.snd = some v := by rw [hv]; rfl
  exact yields_ofOption _ hfound ⟨name', List.mem_of_find?_eq_some hv⟩

/-- The values of an environment that none has missed. -/
def Sound (env : Env) : Prop := ∀ name v, (name, v) ∈ env → v.isMiss = false

section Yields

variable (host : Host) {prog : Program}

theorem interpolateFrom_yields {env : Env} {scope : List String} (h : Covers env scope)
    (line : ℕ) (parts : List Part) (hparts : ∀ ref ∈ parts.filterMap Part.ref?, ref ∈ scope) :
    ∀ out inputs, (interpolateFrom host line env out inputs parts).Yields
      fun v ↦ Sound env → ∃ text prov, v = .ok (.str text) prov := by
  induction parts with
  | nil => exact fun out inputs ↦ yields_pure fun _ ↦ ⟨_, _, rfl⟩
  | cons part parts ih =>
      intro out inputs
      cases part with
      | text s => exact ih hparts (out ++ s) inputs
      | ref name =>
          have hname : name ∈ scope := hparts name List.mem_cons_self
          refine (lookupEnv_yields h hname).bind fun v hv ↦ ?_
          cases v with
          | ok value prov => exact ih (fun ref hr ↦ hparts ref (List.mem_cons_of_mem _ hr)) _ _
          | miss reasons prov =>
              refine yields_pure fun hsound ↦ ?_
              obtain ⟨name', hmem⟩ := hv
              have := hsound name' _ hmem
              contradiction

theorem interpolateText_yields {env : Env} {scope : List String} (h : Covers env scope)
    (hsound : Sound env) (s : Str) (hs : ∀ ref ∈ interpolatedNames s, ref ∈ scope) :
    (interpolateText host s env).Yields fun _ ↦ True := by
  refine (interpolateFrom_yields host h s.line s.parts hs "" []).bind fun v hv ↦ ?_
  obtain ⟨text, prov, rfl⟩ := hv hsound
  exact yields_pure trivial

theorem messages_yields {t : Task} {env : Env} (h : Covers env t.params) (hsound : Sound env) :
    (messages host t env).Yields fun _ ↦ True := by
  have hsystem : (systemMessage host t env).Yields fun _ ↦ True := by
    unfold systemMessage
    split
    · exact yields_pure trivial
    · rename_i s hs
      exact (interpolateText_yields host h hsound s (t.system_params s hs)).bind fun _ _ ↦
        yields_pure trivial
  refine hsystem.bind fun system _ ↦ ?_
  exact (interpolateText_yields host h hsound t.user t.user_params).bind fun user _ ↦
    yields_pure trivial

theorem readClock_yields : (readClock host).Yields fun _ ↦ True := fun _ ↦ trivial

theorem note_yields (ev : Event) : (note ev).Yields fun _ ↦ True := fun _ ↦ trivial

theorem popLedger_yields : popLedger.Yields fun _ ↦ True := by
  intro s
  unfold popLedger
  rw [wp_bind, wp_get]
  cases s.ledgers <;> trivial

theorem flowSeconds_yields (t₀ : ℚ) (l : Ledger) :
    (flowSeconds host t₀ l).Yields fun _ ↦ True := by
  unfold flowSeconds
  split
  · exact yields_pure trivial
  · exact (readClock_yields host).bind fun _ _ ↦ yields_pure trivial

theorem spend_yields (call : ℕ) (seconds : ℚ) (lane : Option String) (i o : ℤ) :
    (spend call seconds lane i o).Yields fun _ ↦ True := fun _ ↦ trivial

theorem attemptSeconds_yields (c : Call) (t₀ : ℚ) :
    (attemptSeconds host c t₀).Yields fun _ ↦ True := by
  unfold attemptSeconds
  split
  · exact yields_pure trivial
  · exact (readClock_yields host).bind fun _ _ ↦ yields_pure trivial

end Yields

/-! ## What the host may raise -/

/-- The numbers of a task that the interpreter turns into floats convert. -/
structure Task.Moderate (t : Task) : Prop where
  reply : t.reply < floatLimit
  retry : t.retry ≤ 1024

/-- The failures of the transport, of `json.dumps` and of `json.loads` satisfy `R`. -/
structure Host.Excused (host : Host) (R : Err → Prop) : Prop where
  send : ∀ k lane request timeout msg,
    host.send k lane request timeout = .crash msg → R (.raised msg)
  dumps : ∀ j msg, host.texts.dumps j = .error msg → R (.raised msg)
  loads : ∀ text msg, host.texts.loads text = .raised msg → R (.raised msg)

/-- So do those that a task leads to: numbers that no float holds, and delays that cannot be
slept. -/
structure Task.Excused (host : Host) (R : Err → Prop) (t : Task) : Prop where
  overflow : ¬ t.Moderate → R (.raised "OverflowError")
  sleep : host.dryRun = false → ∀ n < t.retry, ∀ k msg,
    host.sleep (t.backoffS * (2 ^ n : ℕ) * (1 / 2 + host.rng k)) = some msg → R (.raised msg)

section Gives

variable {host : Host} {prog : Program} {R : Err → Prop}

theorem toFloat_gives {n : ℕ} (h : ¬ n < floatLimit → R (.raised "OverflowError")) :
    (toFloat n).Gives (fun q ↦ q = n) R := by
  unfold toFloat
  split
  · exact gives_pure rfl
  · rename_i hbig
    exact gives_fail (h hbig)

theorem readRng_gives : (readRng host).Gives (fun r ↦ ∃ k, host.rng k = r) R :=
  fun s ↦ ⟨s.rngReads, rfl⟩

theorem builtin_gives (he : host.Excused R) (name : String) (a : Val) (line : ℕ) :
    (builtin host name [a] line).Gives (fun _ ↦ True) R := by
  unfold builtin
  dsimp only
  split
  · split
    · exact gives_pure trivial
    · rename_i msg hmsg
      exact gives_fail (he.dumps _ msg hmsg)
  · repeat' split
    all_goals exact gives_pure trivial

theorem sendRequest_gives (he : host.Excused R) (c : Call) (spentHere : ℚ) :
    (sendRequest host c spentHere).Gives (fun result ↦ ∀ msg, result ≠ .crash msg) R := by
  intro s
  simp only [sendRequest, wp_bind, wp_get, note, wp_modify]
  split
  · rename_i msg hcrash
    exact he.send _ _ _ _ msg hcrash
  · rename_i hresult
    exact fun msg hmsg ↦ hresult msg hmsg

theorem judge_gives (he : host.Excused R) (c : Call) {result : SendResult}
    (hresult : ∀ msg, result ≠ .crash msg) : (judge host c result).Gives (fun _ ↦ True) R := by
  cases result with
  | transportError msg status retryable => exact gives_pure trivial
  | crash msg => exact absurd rfl (hresult msg)
  | reply r =>
      unfold judge
      dsimp only
      split
      · exact gives_pure trivial
      · split
        · exact gives_pure trivial
        · exact gives_pure trivial
        · rename_i msg hmsg
          exact gives_fail (he.loads r.text msg (checkExpect_raised hmsg))

theorem sleepFor_gives {delay : ℚ}
    (h : host.dryRun = false → ∀ msg, host.sleep delay = some msg → R (.raised msg)) :
    (sleepFor host delay).Gives (fun _ ↦ True) R := by
  unfold sleepFor
  split
  · exact gives_pure trivial
  · rename_i hdry
    split
    · exact gives_pure trivial
    · rename_i msg hmsg
      exact gives_fail (h (by simpa using hdry) msg hmsg)

theorem two_pow_lt_sub {m a b c : ℕ} (hm : m < c) (hc : c = a + 1) (hb : b < a) :
    2 ^ m < 2 ^ c - 2 ^ b := by
  have hle : 2 ^ m ≤ 2 ^ a := Nat.pow_le_pow_right (by norm_num) (by omega)
  have hlt : 2 ^ b < 2 ^ a := Nat.pow_lt_pow_right (by norm_num) hb
  rw [hc, pow_succ]
  omega

theorem two_pow_lt_floatLimit {m : ℕ} (h : m < 1024) : 2 ^ m < floatLimit := by
  unfold floatLimit
  exact two_pow_lt_sub (a := 1023) h rfl (by norm_num)

/-- The loop over the attempts ends with the last one. -/
theorem attempts_gives (he : host.Excused R) {c : Call} (hc : c.task.Excused host R) :
    ∀ (rem n : ℕ) (spentBefore : ℚ) (recs : List Json), n + 1 + rem = c.task.retry + 1 →
      (attempts host c (rem + 1) (n + 1) spentBefore recs).Gives (fun _ ↦ True) R := by
  intro rem
  induction rem with
  | zero =>
      intro n spentBefore recs _
      unfold attempts
      refine (readClock_yields host).gives.bind fun t₀ _ ↦ ?_
      refine (sendRequest_gives he c spentBefore).bind fun result hresult ↦ ?_
      refine (attemptSeconds_yields host c t₀).gives.bind fun seconds _ ↦ ?_
      refine (judge_gives he c hresult).bind fun a _ ↦ ?_
      refine (note_yields _).gives.bind fun _ _ ↦ (spend_yields _ _ _ _ _).gives.bind fun _ _ ↦ ?_
      split
      · exact gives_pure trivial
      · refine (note_yields _).gives.bind fun _ _ ↦ ?_
        rw [if_pos (by simp)]
        exact gives_pure trivial
  | succ rem ih =>
      intro n spentBefore recs hn
      unfold attempts
      refine (readClock_yields host).gives.bind fun t₀ _ ↦ ?_
      refine (sendRequest_gives he c spentBefore).bind fun result hresult ↦ ?_
      refine (attemptSeconds_yields host c t₀).gives.bind fun seconds _ ↦ ?_
      refine (judge_gives he c hresult).bind fun a _ ↦ ?_
      refine (note_yields _).gives.bind fun _ _ ↦ (spend_yields _ _ _ _ _).gives.bind fun _ _ ↦ ?_
      split
      · exact gives_pure trivial
      · refine (note_yields _).gives.bind fun _ _ ↦ ?_
        split
        · exact gives_pure trivial
        · refine (toFloat_gives fun hbig ↦ hc.overflow fun hmoderate ↦ ?_).bind ?_
          · have hretry := hmoderate.retry
            exact hbig (two_pow_lt_floatLimit (by omega))
          · rintro factor rfl
            refine readRng_gives.bind ?_
            rintro r ⟨k, rfl⟩
            dsimp only
            split
            · exact (note_yields _).gives.bind fun _ _ ↦ gives_pure trivial
            · have hsleep : (sleepFor host (c.task.backoffS * (2 ^ n : ℕ) *
                  (1 / 2 + host.rng k))).Gives (fun _ ↦ True) R :=
                sleepFor_gives fun hdry msg hmsg ↦ hc.sleep hdry n (by omega) k msg hmsg
              refine hsleep.bind fun _ _ ↦ (note_yields _).gives.bind fun _ _ ↦ ?_
              exact (spend_yields _ _ _ _ _).gives.bind fun _ _ ↦ ih _ _ _ (by omega)

theorem firstMiss_none {args : List Val} (h : firstMiss args = none) :
    ∀ v ∈ args, v.isMiss = false := by
  intro v hv
  obtain ⟨i, hi, rfl⟩ := List.mem_iff_getElem.mp hv
  rw [firstMiss, Option.map_eq_none_iff, List.find?_eq_none] at h
  have := h (args[i], i) (List.mk_mem_zipIdx_iff_getElem?.mpr (List.getElem?_eq_getElem hi))
  simpa using this

theorem firstMiss_lt {args : List Val} {i : ℕ} {a : Val} (h : firstMiss args = some (i, a)) :
    i < args.length := by
  obtain ⟨⟨v, k⟩, hfind, heq⟩ := Option.map_eq_some_iff.mp h
  obtain ⟨rfl, rfl⟩ := Prod.mk.inj heq
  have hget := List.mk_mem_zipIdx_iff_getElem?.mp (List.mem_of_find?_eq_some hfind)
  exact (List.getElem?_eq_some_iff.mp hget).1

/-- Parameters and as many values cover the parameters. -/
theorem covers_zip {params : List String} {vals : List Val} (h : vals.length = params.length) :
    Covers (params.zip vals) params := by
  induction params generalizing vals with
  | nil => simp [Covers]
  | cons name params ih =>
      cases vals with
      | nil => contradiction
      | cons v vals => exact (ih (Nat.succ.inj h)).cons name v

theorem sound_zip {params : List String} {vals : List Val} (h : ∀ v ∈ vals, v.isMiss = false) :
    Sound (params.zip vals) :=
  fun _ v hmem ↦ h v (List.of_mem_zip hmem).2

theorem taskBudget_yields {t : Task} (h : prog.TaskLinked t) :
    (taskBudget prog t).Yields fun _ ↦ True := by
  unfold taskBudget
  split
  · exact yields_pure trivial
  · rename_i name hname
    obtain ⟨b, hb⟩ := Option.isSome_iff_exists.mp (h.budget name hname)
    exact (yields_ofOption (P := fun _ ↦ True) _ hb trivial).bind fun _ _ ↦ yields_pure trivial

theorem task_gives (he : host.Excused R) {t : Task} (h : prog.TaskLinked t)
    (ht : t.Excused host R) {args : List Val} (hargs : args.length = t.params.length)
    (line : ℕ) : (task host prog t args line).Gives (fun _ ↦ True) R := by
  obtain ⟨lane, hlane⟩ := Option.isSome_iff_exists.mp h.lane
  refine (yields_ofOption (P := fun _ ↦ True) _ hlane trivial).gives.bind fun lane _ ↦ ?_
  dsimp only
  split
  · rename_i i a hmiss
    have hi : i < t.params.length := hargs ▸ firstMiss_lt hmiss
    exact (yields_ofOption (P := fun _ ↦ True) _ (List.getElem?_eq_getElem hi) trivial).gives.bind
      fun _ _ ↦ gives_pure trivial
  · rename_i hnone
    refine (messages_yields host (covers_zip hargs)
      (sound_zip (firstMiss_none hnone))).gives.bind ?_
    rintro ⟨msgs, promptTokens⟩ _
    refine (readClock_yields host).gives.bind fun now _ ↦ gives_get.bind fun s₀ _ ↦ ?_
    refine (toFloat_gives fun hbig ↦ ht.overflow fun hmoderate ↦ ?_).bind fun _ _ ↦ ?_
    · exact hbig hmoderate.reply
    · have hopen : (openCall t).Yields fun _ ↦ True := fun _ ↦ trivial
      refine hopen.gives.bind fun id _ ↦ (taskBudget_yields h).gives.bind fun budget _ ↦ ?_
      refine gives_get.bind fun s _ ↦ ?_
      split
      · exact (note_yields _).gives.bind fun _ _ ↦ gives_pure trivial
      · exact (gives_modify _).bind fun _ _ ↦
          attempts_gives he ht t.retry 0 0 [] (by simp [Nat.add_comm])

end Gives

/-! ## The recursion is bounded by the text -/

theorem eventually_succ {Q : ℕ → Prop} (h : ∀ᶠ n in atTop, Q (n + 1)) : ∀ᶠ n in atTop, Q n := by
  obtain ⟨N, hN⟩ := eventually_atTop.mp h
  refine eventually_atTop.mpr ⟨N + 1, fun n hn ↦ ?_⟩
  obtain ⟨m, rfl⟩ := Nat.exists_eq_add_of_le' (Nat.one_le_of_lt hn)
  exact hN m (by omega)

/-- Exactly the declared arguments. -/
structure Exact (f : Flow) (args : List (String × Arg)) : Prop where
  given : ∀ name ∈ f.params, (args.find? (·.1 = name)).isSome
  declared : ∀ a ∈ args, a.1 ∈ f.params

section Run

variable (host : Host) (prog : Program) (R : Err → Prop)

/-- Any call of the flow returns or fails with what satisfies `R`, once the depth it needs is
granted. -/
def Ready (name : String) : Prop :=
  ∀ f, prog.flow? name = some f → ∀ᶠ fuel in atTop, ∀ args, Exact f args →
    (runFlow host prog fuel name args).Gives (fun _ ↦ True) R

/-- What is called is a flow that is ready or a task whose failures satisfy `R`. -/
structure Callable (name : String) : Prop where
  flow : Ready host prog R name
  task : ∀ t, prog.task? name = some t → t.Excused host R

/-- The flow `name` comes to a call of the task. -/
def Uses (name : String) (t : Task) : Prop :=
  ∃ g flow callee, Relation.ReflTransGen prog.Calls name g ∧ prog.flow? g = some flow ∧
    callee ∈ Stmt.calleesAll flow.body ∧ prog.task? callee = some t

variable {host prog R}

theorem Uses.callee {name g : String} {t : Task} (hcall : prog.Calls name g) (h : Uses prog g t) :
    Uses prog name t := by
  obtain ⟨g', flow, callee, hreached, hflow, hmem, ht⟩ := h
  exact ⟨g', flow, callee, .head hcall hreached, hflow, hmem, ht⟩

theorem exact_zip {f : Flow} {vals : List Val} (h : vals.length = f.params.length) :
    Exact f (f.params.zip (vals.map .val)) := by
  constructor
  · intro name hname
    obtain ⟨i, hi, rfl⟩ := List.mem_iff_getElem.mp hname
    rw [List.find?_isSome]
    have hi' : i < (f.params.zip (vals.map Arg.val)).length := by
      rw [List.length_zip, List.length_map]
      omega
    exact ⟨_, List.getElem_mem hi', by simp⟩
  · rintro ⟨name, a⟩ hmem
    exact (List.of_mem_zip hmem).1

/-- A builtin takes one argument. -/
theorem builtin_arity (hlinked : prog.Linked) {name : String} {n : ℕ}
    (hb : Program.isBuiltin name = true) (harity : prog.arity? name = some n) : n = 1 := by
  have htask : prog.task? name = none := by
    by_contra hne
    obtain ⟨t, ht⟩ := Option.ne_none_iff_exists'.mp hne
    have hname : t.name = name := by simpa using List.find?_some ht
    have := (hlinked.task ht).not_builtin
    rw [hname, hb] at this
    contradiction
  have hflow : prog.flow? name = none := by
    by_contra hne
    obtain ⟨f, hf⟩ := Option.ne_none_iff_exists'.mp hne
    obtain ⟨hok, rfl⟩ := hlinked.flow hf
    rw [hok.not_builtin] at hb
    contradiction
  rw [Program.arity?, htask, hflow] at harity
  obtain ⟨⟨b, k⟩, hfind, rfl⟩ := Option.map_eq_some_iff.mp harity
  have hmem := List.mem_of_find?_eq_some hfind
  have hall : ∀ q ∈ builtins, q.2 = 1 := by decide
  exact hall _ hmem

/-- The call of a name that link has found, on as many values. -/
theorem call_gives (hlinked : prog.Linked) (hhost : host.Excused R) {name : String} {line n : ℕ}
    (hname : Callable host prog R name) (harity : prog.arity? name = some n) {args : List Expr}
    {scope : List String}
    (hargs : ∀ᶠ fuel in atTop, ∀ env, Covers env scope →
      (exprs host prog fuel args env).Gives (fun vals ↦ vals.length = n) R) :
    ∀ᶠ fuel in atTop, ∀ env, Covers env scope →
      (expr host prog fuel (.call name args line) env).Gives (fun _ ↦ True) R := by
  apply eventually_succ
  by_cases hb : (builtins.find? (·.1 = name)).isSome = true
  · obtain rfl := builtin_arity hlinked hb harity
    filter_upwards [hargs] with fuel hargs env henv
    refine (hargs env henv).bind fun vals hvals ↦ ?_
    obtain ⟨a, rfl⟩ := List.length_eq_one_iff.mp hvals
    rw [if_pos hb]
    exact builtin_gives hhost name a line
  · cases htask : prog.task? name with
    | some t =>
        rw [Program.arity?, htask] at harity
        have ht := hname.task t htask
        filter_upwards [hargs] with fuel hargs env henv
        refine (hargs env henv).bind fun vals hvals ↦ ?_
        rw [if_neg hb, htask]
        refine task_gives hhost (hlinked.task htask) ht ?_ line
        rw [hvals]
        exact (Option.some.inj harity).symm
    | none =>
        cases hflow : prog.flow? name with
        | none =>
            rw [Program.arity?, htask, hflow] at harity
            obtain ⟨b, hfind, _⟩ := Option.map_eq_some_iff.mp harity
            rw [hfind] at hb
            exact absurd rfl hb
        | some f =>
            rw [Program.arity?, htask, hflow] at harity
            filter_upwards [hargs, hname.flow f hflow] with fuel hargs hrun env henv
            refine (hargs env henv).bind fun vals hvals ↦ ?_
            rw [if_neg hb, htask]
            dsimp only
            refine (yields_ofOption (P := fun g ↦ g = f) _ hflow rfl).gives.bind ?_
            rintro f rfl
            split
            · exact gives_pure trivial
            · refine (hrun _ (exact_zip ?_)).bind fun _ _ ↦ gives_pure trivial
              rw [hvals]
              exact (Option.some.inj harity).symm

mutual

theorem expr_gives (hlinked : prog.Linked) (hhost : host.Excused R) :
    ∀ (e : Expr) (scope : List String) (r : Unit),
    (∀ g ∈ e.callees, Callable host prog R g) → prog.checkExpr scope e = .ok r →
      ∀ᶠ fuel in atTop, ∀ env, Covers env scope →
        (expr host prog fuel e env).Gives (fun _ ↦ True) R
  | .num _ _, _, _, _, _ =>
      eventually_succ (.of_forall fun _ _ _ ↦ gives_pure trivial)
  | .bool _ _, _, _, _, _ =>
      eventually_succ (.of_forall fun _ _ _ ↦ gives_pure trivial)
  | .str s, scope, r, _, h =>
      eventually_succ (.of_forall fun _ _ henv ↦
        (interpolateFrom_yields host henv s.line s.parts (Program.ok_checkRefs h) "" []).gives.mono
          fun _ _ ↦ trivial)
  | .name name line, scope, r, _, h => by
      have hname := Program.ok_raiseIf h
      simp only [Bool.not_eq_false', List.contains_iff_mem] at hname
      exact eventually_succ (.of_forall fun _ _ henv ↦
        (lookupEnv_yields henv hname).gives.mono fun _ _ ↦ trivial)
  | .rescue left right line, scope, r, hready, h => by
      obtain ⟨_, hleft, hright⟩ := Program.ok_bind h
      have hl := expr_gives hlinked hhost left scope _ (fun g hg ↦
        hready g (List.mem_append_left _ hg)) hleft
      have hr := expr_gives hlinked hhost right scope _ (fun g hg ↦
        hready g (List.mem_append_right _ hg)) hright
      apply eventually_succ
      filter_upwards [hl, hr] with fuel hl hr env henv
      refine (hl env henv).bind fun l _ ↦ ?_
      cases l with
      | ok value prov => exact gives_pure trivial
      | miss reasons prov =>
          refine (hr env henv).bind fun r _ ↦ ?_
          cases r <;> exact gives_pure trivial
  | .cmp op left right line, scope, r, hready, h => by
      obtain ⟨_, hleft, hright⟩ := Program.ok_bind h
      have hl := expr_gives hlinked hhost left scope _ (fun g hg ↦
        hready g (List.mem_append_left _ hg)) hleft
      have hr := expr_gives hlinked hhost right scope _ (fun g hg ↦
        hready g (List.mem_append_right _ hg)) hright
      apply eventually_succ
      filter_upwards [hl, hr] with fuel hl hr env henv
      exact (hl env henv).bind fun l _ ↦ (hr env henv).bind fun r _ ↦ gives_pure trivial
  | .call name args line, scope, r, hready, h => by
      obtain ⟨_, hargs, hcall⟩ := Program.ok_bind h
      refine call_gives hlinked hhost (hready name List.mem_cons_self)
        (Program.ok_checkCall hcall) ?_
      exact exprs_gives hlinked hhost args scope _ (fun g hg ↦
        hready g (List.mem_cons_of_mem _ hg)) hargs

theorem exprs_gives (hlinked : prog.Linked) (hhost : host.Excused R) :
    ∀ (es : List Expr) (scope : List String) (r : Unit),
    (∀ g ∈ Expr.calleesAll es, Callable host prog R g) → prog.checkExprs scope es = .ok r →
      ∀ᶠ fuel in atTop, ∀ env, Covers env scope →
        (exprs host prog fuel es env).Gives (fun vals ↦ vals.length = es.length) R
  | [], _, _, _, _ => eventually_succ (.of_forall fun _ _ _ ↦ gives_pure rfl)
  | e :: es, scope, r, hready, h => by
      obtain ⟨_, he, hes⟩ := Program.ok_bind h
      have hv := expr_gives hlinked hhost e scope _ (fun g hg ↦
        hready g (List.mem_append_left _ hg)) he
      have hvs := exprs_gives hlinked hhost es scope _ (fun g hg ↦
        hready g (List.mem_append_right _ hg)) hes
      apply eventually_succ
      filter_upwards [hv, hvs] with fuel hv hvs env henv
      refine (hv env henv).bind fun v _ ↦ (hvs env henv).bind fun vs hlen ↦ ?_
      exact gives_pure (congrArg Nat.succ hlen)

end

/-- What link has found of an `if`, and of the statements after a statement. -/
theorem ok_checkStmts {s : Stmt} {stmts : List Stmt} {scope : List String} {r : Unit}
    (h : prog.checkBlock scope (s :: stmts) = .ok r) :
    ∃ scope', prog.checkStmt scope s = .ok scope' ∧ prog.checkBlock scope' stmts = .ok r :=
  Program.ok_bind h

theorem block_gives (hlinked : prog.Linked) (hhost : host.Excused R) :
    ∀ (stmts : List Stmt) (scope : List String)
    (r : Unit), (∀ g ∈ Stmt.calleesAll stmts, Callable host prog R g) →
      prog.checkBlock scope stmts = .ok r → ∀ᶠ fuel in atTop, ∀ env emitted, Covers env scope →
        (block host prog fuel stmts env emitted).Gives (fun _ ↦ True) R
  | [], _, _, _, _ => eventually_succ (.of_forall fun _ _ _ _ ↦ gives_pure trivial)
  | .letStmt name e line :: stmts, scope, r, hready, h => by
      obtain ⟨scope', hstmt, hrest⟩ := ok_checkStmts h
      obtain ⟨_, he, hstmt⟩ := Program.ok_bind hstmt
      obtain ⟨_, _, hscope⟩ := Program.ok_bind hstmt
      obtain rfl := Except.ok.inj hscope
      have hv := expr_gives hlinked hhost e scope _ (fun g hg ↦
        hready g (List.mem_append_left _ hg)) he
      have hs := block_gives hlinked hhost stmts _ _ (fun g hg ↦
        hready g (List.mem_append_right _ hg)) hrest
      apply eventually_succ
      filter_upwards [hv, hs] with fuel hv hs env emitted henv
      exact (hv env henv).bind fun v _ ↦ hs _ emitted (henv.cons name v)
  | .emitStmt e line :: stmts, scope, r, hready, h => by
      obtain ⟨scope', hstmt, hrest⟩ := ok_checkStmts h
      obtain ⟨_, he, hscope⟩ := Program.ok_bind hstmt
      obtain rfl := Except.ok.inj hscope
      have hv := expr_gives hlinked hhost e scope _ (fun g hg ↦
        hready g (List.mem_append_left _ hg)) he
      have hs := block_gives hlinked hhost stmts _ _ (fun g hg ↦
        hready g (List.mem_append_right _ hg)) hrest
      apply eventually_succ
      filter_upwards [hv, hs] with fuel hv hs env emitted henv
      exact (hv env henv).bind fun v _ ↦ hs env _ henv
  | .ifStmt cond thenBody elseBody line :: stmts, scope, r, hready, h => by
      obtain ⟨scope', hstmt, hrest⟩ := ok_checkStmts h
      obtain ⟨_, hcond, hstmt⟩ := Program.ok_bind hstmt
      obtain ⟨_, hthen, hstmt⟩ := Program.ok_bind hstmt
      obtain ⟨_, helse, hscope⟩ := Program.ok_bind hstmt
      obtain rfl := Except.ok.inj hscope
      have hsub : ∀ g ∈ cond.callees ++ (Stmt.calleesAll thenBody ++ Stmt.calleesAll elseBody),
          Callable host prog R g := fun g hg ↦ hready g (List.mem_append_left _ hg)
      have hc := expr_gives hlinked hhost cond scope _ (fun g hg ↦
        hsub g (List.mem_append_left _ hg)) hcond
      have ht := block_gives hlinked hhost thenBody scope _
        (fun g hg ↦ hsub g (List.mem_append_right _ (List.mem_append_left _ hg))) hthen
      have he := block_gives hlinked hhost elseBody scope _
        (fun g hg ↦ hsub g (List.mem_append_right _ (List.mem_append_right _ hg))) helse
      have hs := block_gives hlinked hhost stmts _ _ (fun g hg ↦
        hready g (List.mem_append_right _ hg)) hrest
      apply eventually_succ
      filter_upwards [hc, ht, he, hs] with fuel hc ht he hs env emitted henv
      refine (hc env henv).bind fun c _ ↦ ?_
      split
      · exact gives_pure trivial
      · rename_i b prov
        have hbranch : (block host prog fuel (if b then thenBody else elseBody) env
            emitted).Gives (fun _ ↦ True) R := by
          cases b with
          | true => exact ht env emitted henv
          | false => exact he env emitted henv
        refine hbranch.bind ?_
        rintro ⟨miss, emitted⟩ _
        cases miss with
        | none => exact hs env emitted henv
        | some miss => exact gives_pure trivial
      · exact gives_pure trivial

theorem ledgerFor_yields {f : Flow} (h : prog.FlowLinked f) :
    (ledgerFor prog f.budget).Yields fun _ ↦ True := by
  unfold ledgerFor
  split
  · exact yields_pure trivial
  · rename_i name hname
    obtain ⟨b, hb⟩ := Option.isSome_iff_exists.mp (h.budget name hname)
    exact (yields_ofOption (P := fun _ ↦ True) _ hb trivial).bind fun _ _ ↦ yields_pure trivial

/-- The values given to a flow cover its parameters. -/
theorem covers_args {f : Flow} {args : List (String × Arg)} (h : Exact f args) :
    Covers (f.params.filterMap fun p ↦ (args.find? (·.1 = p)).map fun a ↦ (p, a.2.toVal p))
      f.params := by
  intro name hname
  obtain ⟨a, ha⟩ := Option.isSome_iff_exists.mp (h.given name hname)
  have hsome : ((f.params.filterMap fun p ↦ (args.find? (·.1 = p)).map
      fun a ↦ (p, a.2.toVal p)).find? (·.1 = name)).isSome := by
    rw [List.find?_isSome]
    exact ⟨(name, a.2.toVal name), List.mem_filterMap.mpr ⟨name, hname, by rw [ha]; rfl⟩, by simp⟩
  exact Option.isSome_iff_exists.mp hsome

/-- A flow whose callees are ready is ready. -/
theorem ready_of_callees (hlinked : prog.Linked) (hhost : host.Excused R) {name : String}
    (hcallees : ∀ g, prog.Calls name g → Ready host prog R g)
    (htasks : ∀ t, Uses prog name t → t.Excused host R) : Ready host prog R name := by
  intro f hf
  obtain ⟨hflow, _⟩ := hlinked.flow hf
  have hcallable : ∀ g ∈ Stmt.calleesAll f.body, Callable host prog R g := by
    intro g hg
    constructor
    · intro f' hf'
      exact hcallees g ⟨f, hf, hg, by rw [hf']; rfl⟩ f' hf'
    · intro t ht
      exact htasks t ⟨name, f, g, .refl, hf, hg, ht⟩
  have hbody := block_gives hlinked hhost f.body f.params _ hcallable hflow.body
  apply eventually_succ
  filter_upwards [hbody] with fuel hbody args hargs
  refine (yields_ofOption (P := fun g ↦ g = f) _ hf rfl).gives.bind ?_
  rintro f rfl
  have hgiven : (f.params.any (fun p ↦ (args.find? (·.1 = p)).isNone) ||
      args.any (fun a ↦ !f.params.contains a.1)) = false := by
    rw [Bool.or_eq_false_iff, List.any_eq_false, List.any_eq_false]
    exact ⟨fun p hmem ↦ by simpa [Option.isSome_iff_ne_none] using hargs.given p hmem,
      fun a hmem ↦ by simpa using hargs.declared a hmem⟩
  rw [if_neg (by rw [hgiven]; exact Bool.false_ne_true)]
  have hpush : ∀ l, (pushLedger l).Yields fun _ ↦ True := fun l _ ↦ trivial
  refine (ledgerFor_yields hflow).gives.bind fun ledger _ ↦ (hpush ledger).gives.bind fun _ _ ↦ ?_
  refine (readClock_yields host).gives.bind fun t₀ _ ↦ ?_
  refine (hbody _ [] (covers_args hargs)).bind ?_
  rintro ⟨miss, emitted⟩ _
  refine popLedger_yields.gives.bind ?_
  rintro ⟨own, up⟩ _
  exact (flowSeconds_yields host t₀ _).gives.bind fun _ _ ↦ gives_pure trivial

theorem ready (hlinked : prog.Linked) (hhost : host.Excused R) {name : String}
    (hacc : Acc (fun g f ↦ prog.Calls f g) name)
    (htasks : ∀ t, Uses prog name t → t.Excused host R) :
    Ready host prog R name := by
  induction hacc with
  | intro name _ ih =>
      refine ready_of_callees hlinked hhost (fun g hg ↦ ?_) htasks
      exact ih g hg fun t ht ↦ htasks t (ht.callee hg)

end Run

/-- The transport keeps to its interface, the library functions take what they are given, and so
do floats and `sleep` with what the tasks that the flow comes to ask of them. -/
structure Obliging (host : Host) (prog : Program) (name : String) : Prop where
  answers : ∀ k lane request timeout msg, host.send k lane request timeout ≠ .crash msg
  dumps : ∀ j, ∃ text, host.texts.dumps j = .ok text
  loads : ∀ text msg, host.texts.loads text ≠ .raised msg
  moderate : ∀ t, Uses prog name t → t.Moderate
  sleeps : host.dryRun = false → ∀ t, Uses prog name t → ∀ n < t.retry, ∀ k,
    host.sleep (t.backoffS * (2 ^ n : ℕ) * (1 / 2 + host.rng k)) = none

theorem Obliging.excused {host : Host} {prog : Program} {name : String}
    (h : Obliging host prog name) :
    host.Excused (fun _ ↦ False) ∧ ∀ t, Uses prog name t → t.Excused host fun _ ↦ False := by
  refine ⟨⟨h.answers, ?_, h.loads⟩, ?_⟩
  · intro j msg hmsg
    obtain ⟨text, htext⟩ := h.dumps j
    rw [htext] at hmsg
    contradiction
  · intro t ht
    refine ⟨fun hbig ↦ hbig (h.moderate t ht), fun hdry n hn k msg hmsg ↦ ?_⟩
    rw [h.sleeps hdry t ht n hn k] at hmsg
    contradiction

theorem nestedFlows_calls {f g : String} (h : nestedFlows.Calls f g) :
    f = "outer" ∧ g = "inner" := by
  obtain ⟨flow, hflow, hmem, hsome⟩ := h
  have hin := List.mem_of_find?_eq_some hflow
  have hname : flow.name = f := by simpa using List.find?_some hflow
  simp only [nestedFlows, List.mem_cons, List.not_mem_nil, or_false] at hin
  rcases hin with rfl | rfl
  · refine ⟨hname.symm, ?_⟩
    simpa [Stmt.calleesAll, Stmt.callees, Expr.callees, Expr.calleesAll] using hmem
  · have hg : g = "ask" := by
      simpa [Stmt.calleesAll, Stmt.callees, Expr.callees, Expr.calleesAll] using hmem
    subst hg
    exact absurd hsome (by decide)

theorem nestedFlows_acyclic : nestedFlows.Acyclic "outer" := by
  intro g _ hcycle
  have hends : ∀ f, Relation.TransGen nestedFlows.Calls g f → g = "outer" ∧ f = "inner" := by
    intro f hf
    induction hf with
    | single h => exact nestedFlows_calls h
    | tail _ h ih => exact ⟨ih.1, (nestedFlows_calls h).2⟩
  obtain ⟨houter, hinner⟩ := hends g hcycle
  exact absurd (houter.symm.trans hinner) (by decide)

theorem nestedFlows_obliging : Obliging dryHost nestedFlows "outer" where
  answers := fun _ _ _ _ _ h ↦ by contradiction
  dumps := fun _ ↦ ⟨"", rfl⟩
  loads := fun _ _ h ↦ by contradiction
  moderate := by
    rintro t ⟨g, flow, callee, _, _, _, ht⟩
    obtain rfl := List.mem_singleton.mp (List.mem_of_find?_eq_some ht)
    exact ⟨two_pow_lt_floatLimit (m := 0) (by norm_num), Nat.zero_le _⟩
  sleeps := fun _ _ _ _ _ _ ↦ rfl

/-- `flow loop() { emit loop() }`. -/
def loopFlow : Flow := ⟨"loop", [], none, [.emitStmt (.call "loop" [] 2) 2], 1⟩

def selfCall : Program where
  lanes := []
  budgets := []
  tasks := []
  flows := [loopFlow]

/-- Whatever the depth granted, the flow that calls itself exhausts it. -/
theorem selfCall_outOfFuel (host : Host) (fuel : ℕ) :
    ∀ s, (runFlow host selfCall fuel "loop" []).wp (fun _ _ ↦ False)
      (fun e _ ↦ e = .outOfFuel) s := by
  induction fuel using Nat.strong_induction_on with
  | _ fuel ih =>
      intro s
      match fuel with
      | 0 => exact rfl
      | 1 => exact rfl
      | 2 => exact rfl
      | 3 => exact rfl
      | n + 4 =>
          -- flow, block, expression and arguments take one unit of depth each
          have hloop := ih (n + 1) (by omega)
          have hexpr : ∀ env s, (expr host selfCall (n + 2) (.call "loop" [] 2) env).wp
              (fun _ _ ↦ False) (fun e _ ↦ e = .outOfFuel) s := by
            intro env s
            refine wp_bind_of (P := fun vals _ ↦ vals = []) rfl ?_
            rintro vals s rfl
            refine wp_bind_of (P := fun f _ ↦ f = loopFlow) rfl ?_
            rintro f s rfl
            exact wp_bind_of (hloop s) fun _ _ h ↦ False.elim h
          refine wp_bind_of (P := fun f _ ↦ f = loopFlow) rfl ?_
          rintro f s rfl
          refine wp_bind_of (m := ledgerFor selfCall none) (P := fun _ _ ↦ True) trivial
            fun ledger s _ ↦ ?_
          refine wp_bind_of (P := fun _ _ ↦ True) trivial fun _ s _ ↦ ?_
          refine wp_bind_of (P := fun _ _ ↦ True) trivial fun t₀ s _ ↦ ?_
          refine wp_bind_of (P := fun _ _ ↦ False) ?_ fun _ _ h ↦ False.elim h
          exact wp_bind_of (hexpr _ _) fun _ _ h ↦ False.elim h

/-! ## A message that is no object -/

/-- Every body is an object whose first choice has a string for its message. -/
def textMessages : HTTPTransport where
  port := fun _ ↦ .ok 8080
  opener := fun _ _ _ _ ↦ .response "" 200
  loads := fun _ ↦ .parsed (.obj [("choices", .arr [.obj [("message", .str "hi")]])])

def httpHost (http : HTTPTransport) : Host := { dryHost with send := http.send, dryRun := false }

theorem attempts_crash (c : Call) (s : St) :
    (attempts (httpHost textMessages) c 1 1 0 []).wp (fun _ _ ↦ False)
      (fun e _ ↦ e = .raised "AttributeError") s := by
  have hsend : ∀ k, (httpHost textMessages).send k c.lane c.request
      (c.timeout (httpHost textMessages) 0) = .crash "AttributeError" := fun _ ↦ rfl
  simp only [attempts, readClock, sendRequest, wp_bind, wp_get, note, wp_modify, wp_pure, hsend,
    wp_fail]

/-- The ledger of a flow without a budget. -/
def openLedger : Ledger where
  name := none
  limitS := none
  limitTokens := none

theorem ask_crashes (s : St) (hs : s.ledgers = [openLedger]) :
    (task (httpHost textMessages) nestedFlows askTask [] 9).wp (fun _ _ ↦ False)
      (fun e _ ↦ e = .raised "AttributeError") s := by
  have hfloat : toFloat askTask.reply = pure ((1 : ℕ) : ℚ) :=
    if_pos (two_pow_lt_floatLimit (m := 0) (by norm_num))
  have hlane : nestedFlows.lane? askTask.lane = some slowLane := rfl
  unfold task
  rw [hfloat, hlane]
  refine wp_bind_of (P := fun lane s' ↦ lane = slowLane ∧ s' = s) ⟨rfl, rfl⟩ ?_
  rintro lane s' ⟨rfl, rfl⟩
  refine wp_bind_of (P := fun _ (s : St) ↦ s.ledgers = s'.ledgers) (Eq.refl s'.ledgers) ?_
  rintro ⟨msgs, n⟩ s hs'
  rw [hs] at hs'
  simp only [wp_bind, wp_get, wp_pure, readClock, wp_modify, openCall, note, taskBudget, askTask,
    hs']
  split
  · rename_i reason hreason
    have hnone : none = some reason := hreason
    contradiction
  · exact wp_bind_of (P := fun _ _ ↦ True) trivial fun _ s _ ↦ attempts_crash _ s

theorem inner_crashes (n : ℕ) :
    (runFlow (httpHost textMessages) nestedFlows (n + 5) "inner" []).wp (fun _ _ ↦ False)
      (fun e _ ↦ e = .raised "AttributeError") St.init := by
  have hask : ∀ env s, s.ledgers = [openLedger] →
      (expr (httpHost textMessages) nestedFlows (n + 3) (.call "ask" [] 9) env).wp
        (fun _ _ ↦ False) (fun e _ ↦ e = .raised "AttributeError") s := by
    intro env s hs
    refine wp_bind_of (P := fun vals s' ↦ vals = [] ∧ s' = s) ⟨rfl, rfl⟩ ?_
    rintro vals s' ⟨rfl, rfl⟩
    exact ask_crashes s' hs
  refine wp_bind_of (P := fun f s ↦ f = ⟨"inner", [], none, [.emitStmt (.call "ask" [] 9) 9], 8⟩ ∧
    s = St.init) ⟨rfl, rfl⟩ ?_
  rintro f s ⟨rfl, rfl⟩
  refine wp_bind_of (m := ledgerFor nestedFlows none)
    (P := fun l s ↦ l = openLedger ∧ s = St.init) ⟨rfl, rfl⟩ ?_
  rintro ledger s ⟨rfl, rfl⟩
  refine wp_bind_of (P := fun _ (s : St) ↦ s.ledgers = [openLedger]) (Eq.refl [openLedger])
    fun _ s hs ↦ ?_
  refine wp_bind_of (P := fun _ (s : St) ↦ s.ledgers = [openLedger]) hs fun t₀ s hs ↦ ?_
  refine wp_bind_of (P := fun _ _ ↦ False) ?_ fun _ _ h ↦ False.elim h
  exact wp_bind_of (hask _ s hs) fun _ _ h ↦ False.elim h

end NucLlm.Errand
