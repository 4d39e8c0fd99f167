import NucLlm.Whence.Branches
import NucLlm.Whence.FullShow
import Mathlib.Data.List.Chain

/-!
# What the node of a tail loop records

The runs give back the decisions in the order in which they were made, and two
runs in a row are of different decisions.  The node of the call shows all of
them, unless the first closure that is asked for refuses the call.
-/

namespace NucLlm.Whence.Branches

open Exec

variable {N : Type}

/-! ## Runs -/

theorem decisions_single (t : Decision N) : (Run.single t).decisions = [t] := rfl

theorem decisions_push (r : Run N) (t : Decision N) (h : r.Same t) :
    (r.push t h).decisions = r.decisions ++ [t] := by
  obtain ⟨node, branch, conds, hnonempty, hconds⟩ := r
  obtain ⟨node', branch', cond, hcond⟩ := t
  have hnode : node = node' := h.1
  have hbranch : branch = branch' := h.2
  subst hnode hbranch
  simp [Run.decisions, Run.push]

/-- The runs are those of the decisions. -/
structure Records (runs : List (Run N)) (ds : List (Decision N)) : Prop where
  flatten : runs.flatMap Run.decisions = ds
  distinct : runs.IsChain fun r r' ↦ ¬(r.node = r'.node ∧ r.branch = r'.branch)

theorem records_nil : Records ([] : List (Run N)) [] := ⟨rfl, .nil⟩

variable [DecidableEq N]

theorem Records.mergeIf {runs : List (Run N)} {ds : List (Decision N)} (h : Records runs ds)
    (t : Decision N) : Records (mergeIf runs t) (ds ++ [t]) := by
  obtain ⟨rfl, hdistinct⟩ := h
  rcases runs.eq_nil_or_concat' with rfl | ⟨runs, last, rfl⟩
  · exact ⟨rfl, List.isChain_singleton _⟩
  · unfold Branches.mergeIf
    rw [List.getLast?_concat]
    dsimp only
    obtain ⟨hruns, hlast, hbetween⟩ := List.isChain_append.mp hdistinct
    split
    · rename_i hsame
      rw [List.dropLast_concat]
      constructor
      · simp [decisions_push]
      · refine List.isChain_append.mpr ⟨hruns, List.isChain_singleton _, ?_⟩
        intro r hr r' hr'
        obtain rfl : last.push t hsame = r' := by simpa using hr'
        exact hbetween r hr last rfl
    · rename_i hother
      constructor
      · simp [decisions_single]
      · refine List.isChain_append.mpr ⟨hdistinct, List.isChain_singleton _, ?_⟩
        intro r hr r' hr'
        obtain rfl : last = r := by simpa using hr
        obtain rfl : Run.single t = r' := by simpa using hr'
        exact hother

theorem Records.mergeIfs {runs : List (Run N)} {ds : List (Decision N)} (h : Records runs ds)
    (ifs : List (Decision N)) : Records (mergeIfs runs ifs) (ds ++ ifs.reverse) := by
  unfold Branches.mergeIfs
  generalize ifs.reverse = ts
  induction ts generalizing runs ds with
  | nil => simpa using h
  | cons t ts ih =>
      rw [List.foldl_cons, List.append_cons]
      exact ih (h.mergeIf t)

/-! ## The node of a call -/

/-- The node is made from the run, and its count is the length of the run. -/
structure Shows (v : Node) (run : IfRun) : Prop where
  op : v.op = "if"
  detail : v.detail = branchText run.branch
  line : v.line = run.line
  inputs : v.inputs = run.conds
  count : v.count = run.conds.length

/-- The records of a call, after its result, are the decisions as runs. -/
def Lossless (ifLine : N → ℕ) (v : Node) (ds : List (Decision N)) : Prop :=
  ∃ runs : List (Run N), Records runs ds ∧
    List.Forall₂ (fun v r ↦ Shows v (Run.toIfRun ifLine r)) v.inputs.tail runs

omit [DecidableEq N] in
theorem ifRunNodes_shows (value : Payload) (runs : List IfRun) :
    ∀ t, List.Forall₂ Shows (ifRunNodes value runs t).1 runs := by
  induction runs with
  | nil => exact fun _ ↦ .nil
  | cons run runs ih => exact fun t ↦ .cons ⟨rfl, rfl, rfl, rfl, rfl⟩ (ih _)

omit [DecidableEq N] in
theorem lossless_plain {ifLine : N → ℕ} {v : Node} (hv : v.inputs.tail = [])
    (ds : List (Decision N)) :
    Lossless ifLine v ds ↔ ds = [] := by
  constructor
  · rintro ⟨runs, hrecords, hshows⟩
    rw [hv] at hshows
    obtain rfl := List.forall₂_nil_left_iff.mp hshows
    exact hrecords.flatten.symm
  · rintro rfl
    refine ⟨[], records_nil, ?_⟩
    rw [hv]
    exact .nil

variable {E σ : Type} (F : FloatOps) (H : Host N E σ)

/-- The decisions that the tail calls carry, in the order in which they were made. -/
def decisions (handed : List (Pending N)) : List (Decision N) :=
  handed.flatMap fun t ↦ t.ifs.reverse

/-- The variables hold the decisions of the tail calls so far. -/
structure Loop.Kept (l : Loop N) : Prop where
  records : Records (l.runs.getD []) (decisions l.handed)
  none_handed : l.runs = none → l.handed = []

omit [DecidableEq N] in
theorem kept_init (name : String) : Loop.Kept ({ names := [name] } : Loop N) :=
  ⟨records_nil, fun _ ↦ rfl⟩

theorem Loop.Kept.merge {l : Loop N} (h : l.Kept) (t : Pending N) : (l.merge t).Kept := by
  constructor
  · have hdecisions : decisions (l.handed ++ [t]) = decisions l.handed ++ t.ifs.reverse := by
      simp [decisions]
    change Records (mergeIfs (l.runs.getD []) t.ifs) (decisions (l.handed ++ [t]))
    rw [hdecisions]
    exact h.records.mergeIfs t.ifs
  · intro hnone
    contradiction

omit [DecidableEq N] in
/-- The node shows all decisions, but for those of a call that was not merged into another. -/
theorem Loop.Kept.lossless_iff {l : Loop N} (h : l.Kept) (name : String) (result : Node) (line : ℕ)
    (t : Tally) : Lossless H.ifLine (callNode H l name result line t).1 (decisions l.handed) ↔
      (l.merged = 1 → decisions l.handed = []) := by
  unfold callNode
  cases hruns : l.runs with
  | none =>
      have hnil : decisions l.handed = [] := by
        rw [h.none_handed hruns]
        rfl
      rw [lossless_plain rfl]
      exact iff_of_true hnil fun _ ↦ hnil
  | some runs =>
      have hrecords := h.records
      rw [hruns] at hrecords
      dsimp only
      unfold finishCall
      split
      · rename_i hmerged
        rw [lossless_plain rfl]
        exact ⟨fun hnil _ ↦ hnil, fun hnil ↦ hnil hmerged⟩
      · rename_i hmerged
        refine iff_of_true ⟨runs, hrecords, ?_⟩ fun hone ↦ absurd hone hmerged
        exact List.forall₂_map_right_iff.mp
          (ifRunNodes_shows result.value (runs.map (Run.toIfRun H.ifLine)) t)

/-! ## The loop -/

omit [DecidableEq N] in
theorem Loop.Kept.enter {l : Loop N} (h : l.Kept) (name : String) : (l.enter name).Kept :=
  ⟨h.records, h.none_handed⟩

theorem tailLoop_kept (k : ℕ) :
    ∀ (l : Loop N) (fn : Node) (args : List Node) (line : ℕ), l.Kept →
      (tailLoop F H k l fn args line).Returns fun r ↦ r.2.Kept ∧ l.merged ≤ r.2.merged := by
  induction k with
  | zero => exact fun l fn args line h ↦ gives_fail trivial
  | succ k ih =>
      intro l fn args line h
      unfold tailLoop
      refine Returns.after fun env ↦ Returns.after fun r ↦ ?_
      unfold turn
      cases r with
      | value v => exact gives_pure ⟨h, le_rfl⟩
      | pending t =>
          dsimp only
          split
          · exact Returns.after fun v ↦ Returns.after fun v ↦ gives_pure ⟨h, le_rfl⟩
          · split
            · exact Returns.after fun v ↦ gives_pure ⟨h.merge t, le_rfl⟩
            · split
              · exact Returns.after fun v ↦ gives_pure ⟨h.merge t, le_rfl⟩
              · refine (ih _ t.fn t.args t.line ((h.merge t).enter _)).mono fun r hr ↦ ⟨hr.1, ?_⟩
                exact (Nat.le_succ _).trans hr.2

/-- A closure refuses the tail call, because of its arguments or of a loop of one call. -/
def Refused (t : Pending N) : Prop :=
  ∃ name params, H.closure t.fn = some (name, params) ∧
    (t.args.length ≠ params ∨ H.maxIter.any (· ≤ 1) = true)

/-- The body of the closure that is called ends in a tail call that has passed through an `if`, and
that is refused. -/
def FirstRefused (fn : Node) (args : List Node) (line : ℕ) (s : σ × Tally) : Prop :=
  ∃ env s₁ t s₂, H.bind fn args line s = (.ok env, s₁) ∧ H.body fn env s₁ = (.ok (.pending t), s₂) ∧
    Refused H t ∧ t.ifs ≠ []

variable {H}

omit [DecidableEq N] in
theorem firstRefused_iff {fn : Node} {args : List Node} {line : ℕ} {s s₁ s₂ : σ × Tally} {env : E}
    {r : Given N} (hbind : H.bind fn args line s = (.ok env, s₁))
    (hbody : H.body fn env s₁ = (.ok r, s₂)) :
    FirstRefused H fn args line s ↔ ∃ t, r = .pending t ∧ Refused H t ∧ t.ifs ≠ [] := by
  constructor
  · rintro ⟨env', s₁', t, s₂', hbind', hbody', h⟩
    rw [hbind] at hbind'
    cases hbind'
    rw [hbody] at hbody'
    cases hbody'
    exact ⟨t, rfl, h⟩
  · rintro ⟨t, rfl, h⟩
    exact ⟨env, s₁, t, s₂, hbind, hbody, h⟩

omit [DecidableEq N] in
theorem decisions_singleton (t : Pending N) : decisions [t] = [] ↔ t.ifs = [] := by
  simp [decisions]

/-- What the loop makes of what the first body has given. -/
theorem turn_merged {k : ℕ} {name : String} {s s' : σ × Tally} {r : Given N} {v : Node} {l : Loop N}
    (hrun : turn F H (tailLoop F H k) { names := [name] } r s = (.ok (v, l), s')) :
    (l.merged = 1 → decisions l.handed = []) ↔ ¬∃ t, r = .pending t ∧ Refused H t ∧ t.ifs ≠ [] := by
  have hfst := congrArg Prod.fst hrun
  cases r with
  | value v' =>
      cases hrun
      exact iff_of_true (fun _ ↦ rfl) (by simp)
  | pending t =>
      have hsome : (∃ t', Given.pending t = .pending t' ∧ Refused H t' ∧ t'.ifs ≠ []) ↔
          Refused H t ∧ t.ifs ≠ [] := by simp
      rw [hsome]
      cases hclosure : H.closure t.fn with
      | none =>
          have hother : (turn F H (tailLoop F H k) { names := [name] } (.pending t)).Returns
              fun r ↦ r.2 = { names := [name] } := by
            unfold turn
            dsimp only
            rw [hclosure]
            exact Returns.after fun v ↦ Returns.after fun v ↦ gives_pure rfl
          obtain rfl := hother.of_ok hfst
          refine iff_of_true (fun _ ↦ rfl) ?_
          rintro ⟨⟨name', params, hsome, -⟩, -⟩
          rw [hclosure] at hsome
          contradiction
      | some c =>
          obtain ⟨name', params⟩ := c
          have hrefused : Refused H t ↔
              t.args.length ≠ params ∨ H.maxIter.any (· ≤ 1) = true := by
            simp [Refused, hclosure]
          have hone : (Loop.merge { names := [name] } t : Loop N).merged = 1 := rfl
          by_cases hfits : t.args.length ≠ params ∨ H.maxIter.any (· ≤ 1) = true
          · have hmerge : (turn F H (tailLoop F H k) { names := [name] } (.pending t)).Returns
                fun r ↦ r.2 = Loop.merge { names := [name] } t := by
              unfold turn
              dsimp only
              rw [hclosure]
              dsimp only
              split
              · exact Returns.after fun v ↦ gives_pure rfl
              · rename_i hargs
                rw [hone, if_pos (hfits.resolve_left hargs)]
                exact Returns.after fun v ↦ gives_pure rfl
            obtain rfl := hmerge.of_ok hfst
            have hdecisions : decisions (Loop.merge { names := [name] } t).handed = [] ↔
                t.ifs = [] := decisions_singleton t
            rw [hdecisions, hrefused]
            constructor
            · exact fun h hrefused ↦ hrefused.2 (h rfl)
            · exact fun h _ ↦ by_contra fun hne ↦ h ⟨hfits, hne⟩
          · have hgo : (turn F H (tailLoop F H k) { names := [name] } (.pending t)).Returns
                fun r ↦ 2 ≤ r.2.merged := by
              obtain ⟨hargs, hmax⟩ := not_or.mp hfits
              unfold turn
              dsimp only
              rw [hclosure]
              dsimp only
              rw [if_neg hargs, hone, if_neg hmax]
              exact (tailLoop_kept F H k _ t.fn t.args t.line
                (((kept_init name).merge t).enter name')).mono fun r hr ↦ hr.2
            have htwo : 2 ≤ l.merged := hgo.of_ok hfst
            refine iff_of_true (fun hone ↦ by omega) ?_
            exact fun h ↦ hfits (hrefused.mp h.1)

/-- Only a loop that ends where the first tail call is refused keeps decisions that are not
shown. -/
theorem tailLoop_merged {k : ℕ} {fn : Node} {name : String} {args : List Node} {line : ℕ}
    {s s' : σ × Tally} {v : Node} {l : Loop N}
    (hrun : tailLoop F H k { names := [name] } fn args line s = (.ok (v, l), s')) :
    (l.merged = 1 → decisions l.handed = []) ↔ ¬FirstRefused H fn args line s := by
  cases k with
  | zero => cases hrun
  | succ k =>
      unfold tailLoop at hrun
      rcases hbind : H.bind fn args line s with ⟨env, s₁⟩
      cases env with
      | error e =>
          rw [bind_error hbind] at hrun
          cases hrun
      | ok env =>
          rw [bind_ok hbind] at hrun
          rcases hbody : H.body fn env s₁ with ⟨r, s₂⟩
          cases r with
          | error e =>
              rw [bind_error hbody] at hrun
              cases hrun
          | ok r =>
              rw [bind_ok hbody] at hrun
              rw [firstRefused_iff hbind hbody]
              exact turn_merged F hrun

/-- The node of a call shows the decisions of all tail calls, unless the first is refused. -/
theorem callClosure_lossless {k : ℕ} {fn : Node} {name : String} {args : List Node} {line : ℕ}
    {s s' : σ × Tally} {v : Node} {handed : List (Pending N)}
    (hrun : callClosure F H k fn name args line s = (.ok (v, handed), s')) :
    Lossless H.ifLine v (decisions handed) ↔ ¬FirstRefused H fn args line s := by
  unfold callClosure at hrun
  rcases hloop : tailLoop F H k { names := [name] } fn args line s with ⟨r, s₁⟩
  cases r with
  | error e =>
      rw [bind_error hloop] at hrun
      cases hrun
  | ok r =>
      obtain ⟨result, l⟩ := r
      rw [bind_ok hloop] at hrun
      dsimp only at hrun
      rcases hchecked : H.contracts fn (l.handed.map fun t ↦ (t.fn, t.line)) result s₁ with ⟨r, s₂⟩
      cases r with
      | error e =>
          rw [bind_error hchecked] at hrun
          cases hrun
      | ok result' =>
          rw [bind_ok hchecked] at hrun
          cases hrun
          have hkept : l.Kept :=
            ((tailLoop_kept F H k _ fn args line (kept_init name)).of_ok
              (congrArg Prod.fst hloop)).1
          exact (hkept.lossless_iff H name result' line s₂.2).trans (tailLoop_merged F hloop)

/-! ## Decisions around a result -/

/-- Around a value there are the nodes of decisions, the outermost first. -/
def Wraps (ifLine : N → ℕ) : List (Decision N) → Node → Node → Prop
  | [], v, w => w = v
  | t :: ds, v, w => ∃ w', w.op = "if" ∧ w.detail = branchText t.branch ∧ w.line = ifLine t.node ∧
      w.inputs = [w', t.cond] ∧ w.count = 1 ∧ Wraps ifLine ds v w'

omit [DecidableEq N] in
theorem wraps_concat {ifLine : N → ℕ} {ds : List (Decision N)} {t : Decision N} {v v' w : Node}
    (hv : Wraps ifLine [t] v v') (h : Wraps ifLine ds v' w) : Wraps ifLine (ds ++ [t]) v w := by
  induction ds generalizing w with
  | nil =>
      obtain rfl : w = v' := h
      exact hv
  | cons d ds ih =>
      obtain ⟨w', hop, hdetail, hline, hinputs, hcount, hw'⟩ := h
      exact ⟨w', hop, hdetail, hline, hinputs, hcount, ih hw'⟩

omit [DecidableEq N] in
theorem wrapIfs_wraps (ifLine : N → ℕ) (ifs : List (Decision N)) :
    ∀ v t, Wraps ifLine ifs.reverse v (wrapIfs ifLine ifs v t).1 := by
  induction ifs with
  | nil => exact fun _ _ ↦ rfl
  | cons d ifs ih =>
      intro v t
      rw [List.reverse_cons]
      exact wraps_concat ⟨v, rfl, rfl, rfl, rfl, rfl, rfl⟩ (ih _ _)

/-! ## Chains of `if`s -/

section

omit [DecidableEq N]

variable (P : Evaluators N E σ)

theorem making_bind {α β : Type} (m : Making α) (f : α → Making β) :
    (making (m >>= f) : Evaluation (σ × Tally) β) = making m >>= fun a ↦ making (f a) := rfl

/-- The last decision comes first. -/
theorem complete_concat (ds : List (Decision N)) (t : Decision N) (r : Given N) :
    complete P (ds ++ [t]) r = complete P [t] r >>= complete P ds := by
  cases r with
  | value v =>
      unfold complete
      rw [List.reverse_concat]
      rfl
  | pending tc =>
      unfold complete
      rw [List.reverse_concat, pure_bind]
      simp

theorem complete_value (ds : List (Decision N)) (t : Decision N) (v : Node) :
    complete P (ds ++ [t]) (.value v) =
      making (ifNode ⟨P.ifLine t.node, t.branch, t.cond⟩ v) >>= fun v ↦
        making (wrapIfs P.ifLine ds.reverse v) >>= fun v ↦ pure (.value v) := by
  unfold complete
  rw [List.reverse_concat, ← Exec.bind_assoc, ← making_bind]
  rfl

theorem decideIf_node {node : N} {cond : Node} {t : Decision N}
    (h : decideIf F P node cond = .inr t) : t.node = node := by
  unfold decideIf at h
  split at h
  · exact congrArg Decision.node (Sum.inr.inj h).symm
  · contradiction

/-- The chain gives what the `if`s in the branches give one by one. -/
theorem ifChain_eq (k : ℕ) :
    ∀ (pending : List (Decision N)) (node thenBlock otherwise : N) (env : E)
    (cond : Node), ifChain F P k pending node thenBlock otherwise env cond =
      plainIf F P k node thenBlock otherwise env cond >>= complete P pending := by
  induction k with
  | zero => exact fun _ _ _ _ _ _ ↦ rfl
  | succ k ih =>
      intro pending node thenBlock otherwise env cond
      unfold ifChain plainIf evalIf
      cases hdecided : decideIf F P node cond with
      | inl bad =>
          dsimp only
          rw [Exec.bind_assoc]
          rfl
      | inr t =>
          dsimp only
          rw [Exec.bind_assoc, Exec.bind_assoc]
          refine congrArg _ (funext fun branch ↦ ?_)
          unfold plainBranch
          simp only [Exec.bind_assoc]
          refine congrArg _ (funext fun fast ↦ ?_)
          cases fast with
          | true =>
              simp only [if_true, Exec.bind_assoc, Exec.pure_bind, ← complete_concat]
              refine congrArg _ (funext fun v ↦ ?_)
              rw [complete_value, decideIf_node F P hdecided]
          | false =>
              simp only [Bool.false_eq_true, if_false]
              split
              · rename_i line fn args _
                simp only [Exec.bind_assoc]
                refine congrArg _ (funext fun parts ↦ ?_)
                cases parts with
                | true =>
                    simp only [if_true, Exec.bind_assoc, Exec.pure_bind, ← complete_concat]
                    refine congrArg _ (funext fun tc ↦ ?_)
                    unfold complete
                    rw [List.reverse_concat, List.append_assoc]
                    rfl
                | false =>
                    simp only [Bool.false_eq_true, if_false, ← complete_concat]
              · rename_i c thenBlock otherwise _
                simp only [Exec.bind_assoc]
                refine congrArg _ (funext fun fast ↦ ?_)
                cases fast with
                | true => simp only [if_true, Exec.bind_assoc, ih, ← complete_concat]
                | false =>
                    simp only [Bool.false_eq_true, if_false, ← complete_concat]
              · simp only [← complete_concat]

/-- The driver's way with an `if` gives what its generator gives, with a generator for each `if`
in its branches. -/
theorem driveIf_eq (k : ℕ) (node thenBlock otherwise : N) (env : E) (cond : Node) :
    driveIf F P k node thenBlock otherwise env cond =
      evalIf F P (fun e env ↦ do
        let branch ← unwrap P e
        plainBranch P (plainIf F P k) (fun _ env ↦ P.drive e env) branch env)
        node thenBlock otherwise env cond := by
  unfold driveIf ifInline evalIf
  cases hdecided : decideIf F P node cond with
  | inl bad =>
      dsimp only
      rw [Exec.bind_assoc]
      rfl
  | inr t =>
      dsimp only
      rw [Exec.bind_assoc, Exec.bind_assoc]
      refine congrArg _ (funext fun branch ↦ ?_)
      unfold plainBranch
      rw [Exec.bind_assoc, Exec.bind_assoc]
      refine congrArg _ (funext fun fast ↦ ?_)
      cases fast with
      | true =>
          simp only [if_true, Exec.bind_assoc, Exec.pure_bind]
          refine congrArg _ (funext fun v ↦ ?_)
          rw [← List.nil_append [t], complete_value, decideIf_node F P hdecided]
          rfl
      | false =>
          simp only [Bool.false_eq_true, if_false]
          split
          · simp only [Exec.bind_assoc]
            refine congrArg _ (funext fun parts ↦ ?_)
            cases parts with
            | true =>
                simp only [if_true, Exec.bind_assoc, Exec.pure_bind]
                rfl
            | false => simp only [Bool.false_eq_true, if_false, Exec.pure_bind]
          · simp only [Exec.bind_assoc]
            refine congrArg _ (funext fun fast ↦ ?_)
            cases fast with
            | true =>
                simp only [if_true, Exec.bind_assoc, Exec.pure_bind, ifChain_eq, Exec.bind_pure]
            | false => simp only [Bool.false_eq_true, if_false, Exec.pure_bind]
          · simp only [Exec.pure_bind]

/-- The decision of an `if` is made before those of its branch, and recorded before them. -/
theorem evalIf_pending {ask : N → E → Evaluation (σ × Tally) (Given N)}
    {node thenBlock otherwise : N} {env : E} {cond : Node} {s s' : σ × Tally} {tc : Pending N}
    (h : evalIf F P ask node thenBlock otherwise env cond s = (.ok (.pending tc), s')) :
    ∃ t tc', decideIf F P node cond = .inr t ∧
      ask (branchOf thenBlock otherwise t.branch) env s = (.ok (.pending tc'), s') ∧
      tc.ifs.reverse = t :: tc'.ifs.reverse := by
  unfold evalIf at h
  cases hdecided : decideIf F P node cond with
  | inl bad =>
      rw [hdecided] at h
      cases h
  | inr t =>
      rw [hdecided] at h
      dsimp only at h
      rcases hask : ask (branchOf thenBlock otherwise t.branch) env s with ⟨r, s₁⟩
      cases r with
      | error e =>
          rw [bind_error hask] at h
          cases h
      | ok r =>
          rw [bind_ok hask] at h
          cases r with
          | value v => cases h
          | pending tc' =>
              cases h
              exact ⟨t, tc', rfl, hask, by simp⟩

end

/-! ## All records -/

/-- The node of a call shows the decisions of its tail calls in runs if and only if the first of
them is not refused on the way out of an `if`; the last decisions wrap the result, and all
evaluators of an `if` record what its generator records, which is the order of evaluation. -/
theorem branches_recorded_iff (P : Evaluators N E σ) :
    (∀ k fn name args line s v handed s',
      callClosure F H k fn name args line s = (.ok (v, handed), s') →
        (Lossless H.ifLine v (decisions handed) ↔ ¬FirstRefused H fn args line s)) ∧
    (∀ ifs v t, Wraps H.ifLine ifs.reverse v (wrapIfs H.ifLine ifs v t).1) ∧
    (∀ k node thenBlock otherwise env cond,
      driveIf F P k node thenBlock otherwise env cond =
        evalIf F P (fun e env ↦ do
          let branch ← unwrap P e
          plainBranch P (plainIf F P k) (fun _ env ↦ P.drive e env) branch env)
          node thenBlock otherwise env cond) ∧
    ∀ ask node thenBlock otherwise env cond s tc s',
      evalIf F P ask node thenBlock otherwise env cond s = (.ok (.pending tc), s') →
        ∃ t tc', decideIf F P node cond = .inr t ∧
          ask (branchOf thenBlock otherwise t.branch) env s = (.ok (.pending tc'), s') ∧
          tc.ifs.reverse = t :: tc'.ifs.reverse :=
  ⟨fun _ _ _ _ _ _ _ _ _ hrun ↦ callClosure_lossless F hrun,
    fun ifs v t ↦ wrapIfs_wraps H.ifLine ifs v t,
    fun k node thenBlock otherwise env cond ↦ driveIf_eq F P k node thenBlock otherwise env cond,
    fun _ _ _ _ _ _ _ _ _ h ↦ evalIf_pending F P h⟩

/-! ## A refused call -/

/-- `fn f(n) { if n > 0 { f(n, 1) } else { 0 } }`, called with one argument. -/
def twoArguments : Host Unit Unit Unit where
  ifLine := fun _ ↦ 1
  closure := fun _ ↦ some ("f", 1)
  bind := fun _ _ _ ↦ pure ()
  body := fun fn _ ↦ pure (.pending ⟨fn, [fn, fn], 1,
    [⟨(), true, .mk (.made 1) ">" "" 1 [] 1 (.bool true), rfl⟩]⟩)
  callOther := fun _ _ _ ↦ Exec.fail .raised
  contracts := fun _ _ v ↦ pure v
  maxIter := some 1000000

/-- The call of `f` with two arguments is refused, and its node does not show the `if`. -/
theorem refused_decision_lost : ¬∀ (F : FloatOps) (H : Host Unit Unit Unit) (k : ℕ) (fn : Node)
    (name : String) (args : List Node) (line : ℕ) (s : Unit × Tally) (v : Node)
    (handed : List (Pending Unit)) (s' : Unit × Tally),
    callClosure F H k fn name args line s = (.ok (v, handed), s') →
      Lossless H.ifLine v (decisions handed) := by
  intro h
  have hlost := h oneTextFloats twoArguments 1 default "f" [default] 2 ((), {}) _ _ _ rfl
  rw [lossless_plain rfl] at hlost
  cases hlost

end NucLlm.Whence.Branches
