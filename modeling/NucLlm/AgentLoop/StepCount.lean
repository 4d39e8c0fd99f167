import NucLlm.AgentLoop.Traversal

/-!
# What the step count counts

A step begins before its completion, so a step that ends in an LLM error is counted, and the
wrap-up is none.  A launch goes on from the saved checkpoint: the completions behind it that were
not saved are made again, and not counted.
-/

namespace NucLlm.AgentLoop

open Exec

/-- What a step count stands for: the completions, those of wrap-ups among them, and the steps
that have ended in an LLM error. -/
structure Tally where
  completions : ℕ := 0
  wrapUps : ℕ := 0
  failed : ℕ := 0
deriving DecidableEq

def Tally.steps (t : Tally) : ℕ := t.completions + t.failed - t.wrapUps

/-- The count is that of the tally. -/
def Tally.Counts (t : Tally) (n : ℕ) : Prop := n + t.wrapUps = t.completions + t.failed

theorem Tally.Counts.steps_eq {t : Tally} {n : ℕ} (h : t.Counts n) : t.steps = n := by
  unfold Tally.Counts at h
  unfold Tally.steps
  omega

/-- The tally of a run, and that of the checkpoint in the file. -/
structure Ledger where
  now : Tally := {}
  kept : Tally := {}

section Ledger

variable (w : World) (l : Launch)

/-- The request that ends the history is replied to, and the process lives to see it. -/
def replied (h : History) : Bool :=
  match w.complete h with
  | .turn _ => !w.dies h
  | _ => false

/-- The tally after a completion: it is that of the wrap-up if there is no step left. -/
def Tally.complete (t : Tally) : Tally :=
  { t with
    completions := t.completions + 1
    wrapUps := t.wrapUps + if l.config.maxSteps ≤ t.steps then 1 else 0 }

def Tally.fail (t : Tally) (reason : Option StopReason) : Tally :=
  { t with failed := t.failed + if reason = some .llmError then 1 else 0 }

/-- A launch goes on with the tally of the checkpoint. -/
def Ledger.next (h : History) (led : Ledger) (ev : Event) : Ledger :=
  match ev with
  | .launched _ => { led with now := if l.checkpointed then led.kept else {} }
  | .request _ _ =>
      if replied w (h ++ [ev]) then { led with now := led.now.complete l } else led
  | .saved c => ⟨led.now.fail c.lastStopReason, led.now.fail c.lastStopReason⟩
  | _ => led

/-- The ledger after more events of a run. -/
def ledger (h : History) (led : Ledger) : List Event → Ledger
  | [] => led
  | ev :: evs => ledger (h ++ [ev]) (led.next w l h ev) evs

theorem ledger_concat (evs : List Event) (ev : Event) :
    ∀ h led, ledger w l h led (evs ++ [ev]) = (ledger w l h led evs).next w l (h ++ evs) ev := by
  induction evs with
  | nil =>
      intro h led
      rw [List.nil_append, List.append_nil]
      rfl
  | cons e evs ih =>
      intro h led
      have hrest := ih (h ++ [e]) (led.next w l h e)
      rw [List.append_assoc] at hrest
      exact hrest

/-- What the launches leave, and the ledger of it. -/
def booked (launches : List Launch) : St × Ledger :=
  launches.foldl (fun (s, led) l ↦
    let s' := (run w l s).2
    (s', ledger w l s.history led (s'.history.drop s.history.length))) (St.init, {})

/-- Every checkpoint that a run saves has the count of its tally, and so has the result; an LLM
error that ends a run without a checkpoint is in the result alone. -/
structure StepsCounted (s : St) (led : Ledger) : Prop where
  saved : ∀ pre c post, (run w l s).2.history = s.history ++ (pre ++ .saved c :: post) →
    (ledger w l s.history led (pre ++ [.saved c])).now.Counts c.steps
  result : ∀ r, (run w l s).1 = .ok r → ∃ evs, (run w l s).2.history = s.history ++ evs ∧
    ((ledger w l s.history led evs).now.fail
      (if l.checkpointed then none else some r.stopReason)).Counts r.steps

end Ledger

/-! ## What every moment of a run satisfies -/

section Run

variable (w : World) (l : Launch) (h₀ : History) (led₀ : Ledger)

/-- The count of the checkpoint in the file. -/
def FileCounts (file : Option Checkpoint) (kept : Tally) : Prop :=
  match file with
  | some c => kept.Counts c.steps
  | none => kept = {}

/-- The ledger stands at `led`, and what has been saved has the count of its tally. -/
structure Books (led : Ledger) (evs : List Event) (s : St) : Prop where
  history : s.history = h₀ ++ evs
  ledger_eq : ledger w l h₀ led₀ evs = led
  saved : ∀ pre c post, evs = pre ++ .saved c :: post →
    (ledger w l h₀ led₀ (pre ++ [.saved c])).now.Counts c.steps
  file : FileCounts s.file led.kept

/-- However the run ends. -/
def Filed (s : St) : Prop := ∃ led evs, Books w l h₀ led₀ led evs s

/-- The tally counts `n` steps. -/
def Standing (n : ℕ) (s : St) : Prop :=
  ∃ led evs, Books w l h₀ led₀ led evs s ∧ led.now.Counts n

/-- The result has the count of the tally. -/
def Resulting (r : AgentResult) (s : St) : Prop :=
  ∃ led evs, Books w l h₀ led₀ led evs s ∧
    (led.now.fail (if l.checkpointed then none else some r.stopReason)).Counts r.steps

variable {w l h₀ led₀}

theorem Standing.filed {n : ℕ} {s : St} (h : Standing w l h₀ led₀ n s) : Filed w l h₀ led₀ s := by
  obtain ⟨led, evs, hbooks, -⟩ := h
  exact ⟨led, evs, hbooks⟩

theorem Resulting.filed {r : AgentResult} {s : St} (h : Resulting w l h₀ led₀ r s) :
    Filed w l h₀ led₀ s := by
  obtain ⟨led, evs, hbooks, -⟩ := h
  exact ⟨led, evs, hbooks⟩

theorem Tally.Counts.fail {t : Tally} {n : ℕ} {reason : Option StopReason} (h : t.Counts n)
    (hreason : reason ≠ some .llmError) : (t.fail reason).Counts n := by
  unfold Tally.Counts Tally.fail at *
  rw [if_neg hreason]
  exact h

/-- Another event, which is no save. -/
theorem Books.concat {led : Ledger} {evs : List Event} {s : St}
    (h : Books w l h₀ led₀ led evs s) (ev : Event) (hev : ∀ c, ev ≠ .saved c)
    (hkept : (led.next w l s.history ev).kept = led.kept) :
    Books w l h₀ led₀ (led.next w l s.history ev) (evs ++ [ev])
      { s with history := s.history ++ [ev] } := by
  constructor
  · change s.history ++ [ev] = h₀ ++ (evs ++ [ev])
    rw [h.history, List.append_assoc]
  · rw [ledger_concat, h.ledger_eq, h.history]
  · intro pre c post hevs
    rcases Lists.concat_eq_split hevs with ⟨-, heq⟩ | ⟨post', hevs⟩
    · exact absurd heq.symm (hev c)
    · exact h.saved pre c post' hevs
  · rw [hkept]
    exact h.file

/-- An event that the ledger does not note. -/
def Event.Unnoted : Event → Prop
  | .launched _ | .request _ _ | .saved _ => False
  | _ => True

theorem Event.Unnoted.next {ev : Event} (h : ev.Unnoted) (hist : History) (led : Ledger) :
    led.next w l hist ev = led := by
  cases ev with
  | launched | request | saved => exact h.elim
  | restored | countTokens | dispatched | ran => rfl

theorem emit_unnoted (ev : Event) (hev : ev.Unnoted) (n : ℕ) :
    (emit w ev).Preserves (Standing w l h₀ led₀ n) := by
  rintro s ⟨led, evs, hbooks, hn⟩
  refine emit_wp ⟨led, evs ++ [ev], ?_, hn⟩
  have hnext := hev.next (w := w) (l := l) s.history led
  have hconcat := hbooks.concat ev (fun c heq ↦ by rw [heq] at hev; exact hev)
    (by rw [hnext])
  rwa [hnext] at hconcat

/-- A checkpoint that is saved with the count of the tally. -/
theorem Books.save {led : Ledger} {evs : List Event} {s : St} (h : Books w l h₀ led₀ led evs s)
    {c : Checkpoint} (hc : (led.now.fail c.lastStopReason).Counts c.steps) :
    Books w l h₀ led₀ ⟨led.now.fail c.lastStopReason, led.now.fail c.lastStopReason⟩
      (evs ++ [.saved c]) { file := some c.dumped, history := s.history ++ [.saved c] } := by
  have hledger : ledger w l h₀ led₀ (evs ++ [.saved c]) =
      ⟨led.now.fail c.lastStopReason, led.now.fail c.lastStopReason⟩ := by
    rw [ledger_concat, h.ledger_eq]
    rfl
  constructor
  · change s.history ++ [.saved c] = h₀ ++ (evs ++ [.saved c])
    rw [h.history, List.append_assoc]
  · exact hledger
  · intro pre c' post hevs
    rcases Lists.concat_eq_split hevs with ⟨rfl, heq⟩ | ⟨post', hevs⟩
    · obtain rfl := Event.saved.inj heq
      rw [hledger]
      exact hc
    · exact h.saved pre c' post' hevs
  · exact hc

end Run

/-! ## Effects -/

section Effects

variable (w : World) (l : Launch) {h₀ : History} {led₀ : Ledger}

theorem save_wp {led : Ledger} {evs : List Event} {s : St} (h : Books w l h₀ led₀ led evs s)
    (L : Loop) (messages : List Entry) (result : Option (StopReason × String × Option String))
    (last : Option StopReason) (error : Option String) (hL : (led.now.fail last).Counts L.steps) :
    (save w l L messages result last error).Ensures
      (fun s ↦ ∃ led' evs, Books w l h₀ led₀ led' evs s ∧
        led'.now = if l.checkpointed then led.now.fail last else led.now) s := by
  unfold save
  split
  · refine wp_bind_of (P := fun s' s'' ↦ s' = s ∧ s'' = s) ⟨rfl, rfl⟩ ?_
    rintro s' s'' ⟨rfl, rfl⟩
    dsimp only
    rw [wp_bind, wp_modify]
    exact emit_wp ⟨_, _, h.save hL, rfl⟩
  · exact ⟨led, evs, h, rfl⟩

theorem save_standing (n : ℕ) (L : Loop) (hL : L.steps = n) (messages : List Entry)
    (result : Option (StopReason × String × Option String)) (last : Option StopReason)
    (hlast : last ≠ some .llmError) (error : Option String) :
    (save w l L messages result last error).Preserves (Standing w l h₀ led₀ n) := by
  rintro s ⟨led, evs, hbooks, hn⟩
  have hsaved := save_wp w l hbooks L messages result last error (hL ▸ hn.fail hlast)
  refine wp_mono hsaved (fun _ s h ↦ ?_) fun _ s h ↦ ?_
  all_goals
    obtain ⟨led', evs', hbooks', hnow⟩ := h
    refine ⟨led', evs', hbooks', ?_⟩
    rw [hnow]
    split
    · exact hn.fail hlast
    · exact hn

theorem finish_resulting {n : ℕ} {L : Loop} (hL : L.steps = n) {reason : StopReason}
    (hreason : reason ≠ .llmError) (text : String) (error : Option String) (persist : List Entry)
    {s : St} (h : Standing w l h₀ led₀ n s) :
    (finish w l L reason text error persist).wp (Resulting w l h₀ led₀)
      (fun _ ↦ Filed w l h₀ led₀) s := by
  have hsave : (saveEnd w l L reason text error persist).Preserves (Standing w l h₀ led₀ n) := by
    unfold saveEnd
    split
    · exact save_standing w l n L hL _ _ _ (by simp) _
    · exact save_standing w l n L hL _ _ _ (by simpa using hreason) _
  unfold finish
  refine wp_bind_of ((currentCost_preserves l _ _).wp h fun _ _ h ↦ h.filed) fun cost s h ↦ ?_
  refine wp_bind_of (hsave.wp h fun _ _ h ↦ h.filed) fun _ s h ↦ ?_
  obtain ⟨led, evs, hbooks, hn⟩ := h
  refine ⟨led, evs, hbooks, ?_⟩
  change Tally.Counts _ L.steps
  rw [hL]
  refine hn.fail ?_
  split
  · simp
  · exact fun heq ↦ hreason (Option.some.inj heq)

/-- A step that ends in an LLM error is one more than the completions. -/
theorem finish_failed {n : ℕ} {L : Loop} (hL : L.steps = n + 1) (text : String)
    (error : Option String) (persist : List Entry) {s : St} (h : Standing w l h₀ led₀ n s) :
    (finish w l L .llmError text error persist).wp (Resulting w l h₀ led₀)
      (fun _ ↦ Filed w l h₀ led₀) s := by
  unfold finish
  refine wp_bind_of ((currentCost_preserves l _ _).wp h fun _ _ h ↦ h.filed) fun cost s h ↦ ?_
  obtain ⟨led, evs, hbooks, hn⟩ := h
  have hfail : (led.now.fail (some .llmError)).Counts L.steps := by
    unfold Tally.Counts Tally.fail at *
    rw [if_pos rfl]
    dsimp only
    omega
  unfold saveEnd
  rw [if_neg (by decide)]
  refine wp_bind_of (wp_mono (save_wp w l hbooks L persist none (some .llmError) error hfail)
    (fun _ _ h ↦ h) fun _ s h ↦ ?_) fun _ s h ↦ ?_
  · obtain ⟨led', evs', hbooks', -⟩ := h
    exact ⟨led', evs', hbooks'⟩
  · obtain ⟨led', evs', hbooks', hnow⟩ := h
    refine ⟨led', evs', hbooks', ?_⟩
    change Tally.Counts _ L.steps
    rw [hnow]
    by_cases hcheckpointed : l.checkpointed = true
    · rw [if_pos hcheckpointed, if_pos hcheckpointed]
      exact hfail.fail (by simp)
    · rw [if_neg hcheckpointed, if_neg hcheckpointed]
      exact hfail

/-! ## Requests -/

/-- The steps after a completion. -/
def afterReply (n : ℕ) : ℕ := if n < l.config.maxSteps then n + 1 else n

theorem Tally.Counts.complete {t : Tally} {n : ℕ} (h : t.Counts n) :
    (t.complete l).Counts (afterReply l n) := by
  have hsteps := h.steps_eq
  unfold Tally.Counts afterReply Tally.complete at *
  dsimp only
  rw [hsteps]
  split_ifs <;> omega

theorem askOnce_standing (messages : List Entry) (tools : List Json) {n : ℕ} {s : St}
    (h : Standing w l h₀ led₀ n s) :
    (askOnce w messages tools).wp
      (fun c s ↦ match c with
        | .ok _ => Standing w l h₀ led₀ (afterReply l n) s
        | .error _ => Standing w l h₀ led₀ n s) (fun _ ↦ Filed w l h₀ led₀) s := by
  obtain ⟨led, evs, hbooks, hn⟩ := h
  have hasked := hbooks.concat (.request messages tools) (fun c heq ↦ by contradiction)
    (by
      unfold Ledger.next
      dsimp only
      split <;> rfl)
  have hnext : led.next w l s.history (.request messages tools) =
      if replied w (s.history ++ [.request messages tools]) then
        { led with now := led.now.complete l } else led := rfl
  unfold askOnce emit
  simp only [wp_bind, wp_modify, wp_get]
  split
  · exact ⟨_, _, hasked⟩
  · rename_i halive
    simp only [wp_pure]
    split
    · rename_i t hturn
      have hreplied : replied w (s.history ++ [.request messages tools]) = true := by
        unfold replied
        rw [hturn]
        simpa using halive
      refine ⟨_, _, hasked, ?_⟩
      rw [hnext, if_pos hreplied]
      exact hn.complete l
    · rename_i e herror
      have hreplied : replied w (s.history ++ [.request messages tools]) = false := by
        unfold replied
        rw [herror]
      refine ⟨_, _, hasked, ?_⟩
      rw [hnext, hreplied]
      exact hn
    · exact ⟨_, _, hasked⟩

theorem completeWithRetry_standing (est : Estimator) (messages : List Entry) (tools : List Json)
    {n : ℕ} {s : St} (h : Standing w l h₀ led₀ n s) :
    (completeWithRetry w l est messages tools).wp
      (fun c s ↦ match c with
        | .ok _ => Standing w l h₀ led₀ (afterReply l n) s
        | .error _ => Standing w l h₀ led₀ n s) (fun _ ↦ Filed w l h₀ led₀) s :=
  completeWithRetry_rule w l est (R := fun _ ↦ Standing w l h₀ led₀ (afterReply l n))
    (fun _ h ↦ h.filed) (fun _ h ↦ askOnce_standing w l messages tools h) h

/-! ## Steps -/

variable (h₀ led₀) in
/-- The rest of a step ends the run or leads to the next step. -/
abbrev GoesOn (m : M (Loop ⊕ AgentResult)) (n : ℕ) (s : St) : Prop :=
  m.wp
    (fun next s ↦ match next with
      | .inl L => L.steps = n ∧ Standing w l h₀ led₀ n s
      | .inr r => Resulting w l h₀ led₀ r s)
    (fun _ ↦ Filed w l h₀ led₀) s

theorem goesOn_finish {m : M AgentResult} {n : ℕ} {s : St}
    (h : m.wp (Resulting w l h₀ led₀) (fun _ ↦ Filed w l h₀ led₀) s) :
    GoesOn w l h₀ led₀ (m >>= fun r ↦ pure (.inr r)) n s :=
  wp_bind_of h fun _ _ h ↦ h

theorem goesOn_save {L : Loop} {n : ℕ} (hL : L.steps = n) {s : St}
    (h : Standing w l h₀ led₀ n s) :
    GoesOn w l h₀ led₀ (save w l L L.messages none none none >>= fun _ ↦ pure (.inl L)) n s := by
  have hsave : (save w l L L.messages none none none).Preserves (Standing w l h₀ led₀ n) :=
    save_standing w l n L hL L.messages none none (by simp) none
  exact wp_bind_of (hsave.wp h fun _ _ h ↦ h.filed) fun _ _ h ↦ ⟨hL, h⟩

theorem runTools_goesOn {L : Loop} {n : ℕ} (hL : L.steps = n) (before : List Entry) (t : Turn)
    {s : St} (h : Standing w l h₀ led₀ n s) :
    GoesOn w l h₀ led₀ (runTools w l L before t) n s := by
  unfold runTools
  refine wp_bind_of ((budgetExceeded_preserves w l _ _).wp h fun _ _ h ↦ h.filed)
    fun exceeded s h ↦ ?_
  cases exceeded with
  | some exceeded =>
      exact goesOn_finish w l (finish_resulting w l (by exact hL) (by decide) _ _ _ h)
  | none =>
      have hdispatched : (emit w (.dispatched t.toolCalls)).Preserves (Standing w l h₀ led₀ n) :=
        emit_unnoted _ (by trivial) n
      refine wp_bind_of (wp_mono (dispatchAll_results w l hdispatched
        (fun c r ↦ emit_unnoted (.ran c r) (by trivial) n) h) (fun _ _ h ↦ h)
        fun _ _ h ↦ h.filed) ?_
      rintro results s ⟨-, h⟩
      rw [wp_bind, wp_ofOption]
      refine ⟨fun _ ↦ h.filed, fun answers _ ↦ ?_⟩
      dsimp only
      refine wp_bind_of (P := fun _ ↦ Standing w l h₀ led₀ n) ?_ fun exceeded s h ↦ ?_
      · unfold budgetAfterTools
        split
        · exact h
        · exact (budgetExceeded_preserves w l _ _).wp h fun _ _ h ↦ h.filed
      · cases exceeded with
        | some exceeded =>
            exact goesOn_finish w l (finish_resulting w l (by exact hL) (by decide) _ _ _ h)
        | none => exact goesOn_save w l (by exact hL) h

theorem judgeText_goesOn {L : Loop} {n : ℕ} (hL : L.steps = n) (before : List Entry) (t : Turn)
    {s : St} (h : Standing w l h₀ led₀ n s) :
    GoesOn w l h₀ led₀ (judgeText w l L before t) n s := by
  unfold judgeText GoesOn
  rw [wp_bind, wp_get]
  dsimp only
  split
  · exact goesOn_finish w l (finish_resulting w l (by exact hL) (by decide) _ _ _ h)
  · split
    · exact runTools_goesOn w l (by exact hL) before _ h
    · split
      · exact goesOn_finish w l (finish_resulting w l (by exact hL) (by decide) _ _ _ h)
      · exact goesOn_save w l (by exact hL) h

theorem step_goesOn {L : Loop} {n : ℕ} (hL : L.steps = n) (hn : n < l.config.maxSteps) {s : St}
    (h : Standing w l h₀ led₀ n s) : GoesOn w l h₀ led₀ (step w l L) (n + 1) s := by
  have hfit := fitContext_wp w l (I := Standing w l h₀ led₀ n) (P := fun L' ↦ L'.steps = n + 1)
    (fun L' _ ↦ emit_unnoted (.countTokens L'.messages l.config.toolSpecs) (by trivial) n)
    (fun _ _ hL ↦ hL) (fun _ _ hL ↦ hL) (L := { L with steps := L.steps + 1 })
    (congrArg (· + 1) hL) h
  have hnext : afterReply l n = n + 1 := if_pos hn
  unfold step
  refine wp_bind_of (wp_mono hfit (fun _ _ h ↦ h) fun _ _ h ↦ h.filed) ?_
  rintro L' s ⟨hL', h⟩
  dsimp only
  refine wp_bind_of (completeWithRetry_standing w l _ _ _ h) fun turn s h ↦ ?_
  cases turn with
  | error repr => exact goesOn_finish w l (finish_failed w l (n := n) (by exact hL') _ _ _ h)
  | ok t =>
      dsimp only at h ⊢
      rw [hnext] at h
      refine wp_bind_of ((checkRatio_preserves _ _).wp h fun _ _ h ↦ h.filed) fun _ s h ↦ ?_
      split
      · exact judgeText_goesOn w l (n := n + 1) (by exact hL') _ _ h
      · exact runTools_goesOn w l (n := n + 1) (by exact hL') _ _ h

/-! ## Runs -/

/-- A run ends with a result that has the count of the tally, or without one. -/
abbrev Ends (h₀ : History) (led₀ : Ledger) (m : M AgentResult) (s : St) : Prop :=
  m.wp (Resulting w l h₀ led₀) (fun _ ↦ Filed w l h₀ led₀) s

theorem wrapUp_ends {L : Loop} {n : ℕ} (hL : L.steps = n) (hn : l.config.maxSteps ≤ n) {s : St}
    (h : Standing w l h₀ led₀ n s) : Ends w l h₀ led₀ (wrapUp w l L) s := by
  have hnext : afterReply l n = n := if_neg (not_lt.mpr hn)
  unfold wrapUp
  split
  · refine wp_bind_of (completeWithRetry_standing w l _ _ _ h) fun turn s h ↦ ?_
    cases turn with
    | error repr => exact finish_resulting w l (n := n) (by exact hL) (by decide) _ _ _ h
    | ok t =>
        dsimp only at h ⊢
        rw [hnext] at h
        refine wp_bind_of (P := fun _ ↦ Standing w l h₀ led₀ n) ?_ fun _ s h ↦ ?_
        · exact (save_standing w l n _ (by exact hL) _ _ _ (by simp) _).wp h fun _ _ h ↦ h.filed
        · exact finish_resulting w l (n := n) (by exact hL) (by decide) _ _ _ h
  · exact finish_resulting w l (by exact hL) (by decide) _ _ _ h

theorem loop_ends (rem : ℕ) : ∀ (L : Loop) (s : St), rem = l.config.maxSteps - L.steps →
    Standing w l h₀ led₀ L.steps s → Ends w l h₀ led₀ (loop w l rem L) s := by
  induction rem with
  | zero =>
      intro L s hrem h
      exact wrapUp_ends w l rfl (by omega) h
  | succ rem ih =>
      intro L s hrem h
      refine wp_bind_of (step_goesOn w l rfl (by omega) h) fun next s hnext ↦ ?_
      cases next with
      | inl L' =>
          obtain ⟨hsteps, hstanding⟩ := hnext
          exact ih L' s (by omega) (hsteps ▸ hstanding)
      | inr r => exact hnext

theorem resume_ends (hcheckpointed : l.checkpointed = true) {c : Checkpoint} {s : St}
    (h : Standing w l h₀ led₀ c.steps s) : Ends w l h₀ led₀ (resume w l c) s := by
  unfold resume
  split
  · exact h.filed
  · have hrestore : (restore w c).Preserves (Standing w l h₀ led₀ c.steps) := by
      unfold restore
      split
      · split
        · exact emit_unnoted _ (by trivial) _
        · exact preserves_pure _ _
      · exact preserves_pure _ _
    refine wp_bind_of (hrestore.wp h fun _ _ h ↦ h.filed) fun _ s h ↦ ?_
    dsimp only
    split
    · refine wp_bind_of ((currentCost_preserves l _ _).wp h fun _ _ h ↦ h.filed) fun cost s h ↦ ?_
      obtain ⟨led, evs, hbooks, hn⟩ := h
      refine ⟨led, evs, hbooks, ?_⟩
      rw [if_pos hcheckpointed]
      exact hn.fail (by simp)
    · exact loop_ends w l _ _ s rfl h

theorem start_ends {s : St} (h : Standing w l h₀ led₀ 0 s) : Ends w l h₀ led₀ (start w l) s := by
  unfold start
  refine wp_bind_of (P := fun _ ↦ Standing w l h₀ led₀ 0) h fun s₀ s h ↦ ?_
  dsimp only
  refine wp_bind_of ((save_standing w l 0 _ rfl _ _ _ (by simp) _).wp h fun _ _ h ↦ h.filed)
    fun _ s h ↦ ?_
  exact loop_ends w l _ _ s rfl h

theorem counts_zero : ({} : Tally).Counts 0 := rfl

theorem run_ends {s : St} {led : Ledger} (h : FileCounts s.file led.kept) :
    Ends w l s.history led (run w l) s := by
  have hnext : led.next w l s.history (.launched l.task) =
      { led with now := if l.checkpointed then led.kept else {} } := rfl
  have hbooks : Books w l s.history led (led.next w l s.history (.launched l.task))
      [.launched l.task] { s with history := s.history ++ [.launched l.task] } := by
    constructor
    · rfl
    · rfl
    · intro pre c post hevs
      cases pre with
      | nil => exact absurd (List.cons.inj hevs).1 (by simp)
      | cons ev pre => simp at hevs
    · exact h
  unfold run
  refine wp_bind_of (P := fun _ s' ↦ s'.file = s.file ∧ Books w l s.history led
    (led.next w l s.history (.launched l.task)) [.launched l.task] s') ?_ ?_
  · unfold emit
    simp only [wp_bind, wp_modify, wp_get]
    split
    · exact ⟨_, _, hbooks⟩
    · exact ⟨rfl, hbooks⟩
  · rintro _ s' ⟨hfile, hbooks⟩
    rw [hnext] at hbooks
    simp only [wp_bind, wp_get]
    rw [hfile]
    unfold FileCounts at h
    by_cases hcheckpointed : l.checkpointed = true
    · rw [if_pos hcheckpointed] at hbooks ⊢
      cases hfound : s.file with
      | some c =>
          rw [hfound] at h
          exact resume_ends w l hcheckpointed ⟨_, _, hbooks, h⟩
      | none =>
          rw [hfound] at h
          refine start_ends w l ⟨_, _, hbooks, ?_⟩
          dsimp only at h ⊢
          rw [h]
          exact counts_zero
    · rw [if_neg hcheckpointed] at hbooks ⊢
      exact start_ends w l ⟨_, _, hbooks, counts_zero⟩

theorem run_filed {s : St} {led : Ledger} (h : FileCounts s.file led.kept) :
    ∃ led' evs, Books w l s.history led led' evs (run w l s).2 := by
  have hends := run_ends w l h
  have hensures : (run w l).Ensures (Filed w l s.history led) s :=
    wp_mono hends (fun _ _ h ↦ h.filed) fun _ _ h ↦ h
  exact hensures.state

/-- Every count that a run saves or returns is that of its tally. -/
theorem stepsCounted_of_fits {s : St} {led : Ledger} (h : FileCounts s.file led.kept) :
    StepsCounted w l s led := by
  constructor
  · intro pre c post hhistory
    obtain ⟨led', evs, hbooks⟩ := run_filed w l h
    rw [hbooks.history] at hhistory
    exact hbooks.saved pre c post (List.append_cancel_left hhistory)
  · intro r hr
    have hends := run_ends w l h
    rcases wp_cases hends with ⟨r', s', heq, hresult⟩ | ⟨e, s', heq, -⟩
    · rw [heq] at hr ⊢
      obtain rfl := Except.ok.inj hr
      obtain ⟨led', evs, hbooks, hcounts⟩ := hresult
      refine ⟨evs, hbooks.history, ?_⟩
      rw [hbooks.ledger_eq]
      exact hcounts
    · rw [heq] at hr
      contradiction

end Effects

/-! ## Launches -/

theorem booked_concat (w : World) (launches : List Launch) (l : Launch) :
    booked w (launches ++ [l]) = ((run w l (booked w launches).1).2,
      ledger w l (booked w launches).1.history (booked w launches).2
        ((run w l (booked w launches).1).2.history.drop (booked w launches).1.history.length)) := by
  unfold booked
  rw [List.foldl_append]
  rfl

theorem booked_fst (w : World) (launches : List Launch) :
    (booked w launches).1 = campaign w launches := by
  induction launches using List.reverseRecOn with
  | nil => rfl
  | append_singleton launches l ih =>
      rw [booked_concat]
      dsimp only
      rw [ih]
      unfold campaign
      rw [List.foldl_append]
      rfl

theorem booked_fits (w : World) (launches : List Launch) :
    FileCounts (booked w launches).1.file (booked w launches).2.kept := by
  induction launches using List.reverseRecOn with
  | nil => rfl
  | append_singleton launches l ih =>
      obtain ⟨led, evs, hbooks⟩ := run_filed w l ih
      rw [booked_concat]
      dsimp only
      rw [hbooks.history, List.drop_left, hbooks.ledger_eq]
      exact hbooks.file

/-- However many launches there have been, each count that the next one saves or returns is that
of the steps begun: the completions that the run goes on from, the wrap-up's excepted, and the steps
that ended in an LLM error. -/
theorem steps_counted (w : World) (launches : List Launch) (l : Launch) :
    StepsCounted w l (campaign w launches) (booked w launches).2 := by
  rw [← booked_fst]
  exact stepsCounted_of_fits w l (booked_fits w launches)

/-! ## Counts that are not those of the completions -/

/-- The history ends in a request that is replied to. -/
def endsInReply (w : World) (h : History) : Bool :=
  match h.getLast? with
  | some (.request _ _) => replied w h
  | _ => false

/-- The replies that a history has seen. -/
def repliesIn (w : World) (h : History) : ℕ :=
  ((List.range h.length).filter fun i ↦ endsInReply w (h.take (i + 1))).length

/-- The result counts the replies. -/
def CountsReplies (w : World) (launches : List Launch) (l : Launch) : Prop :=
  ∀ r, (run w l (campaign w launches)).1 = .ok r →
    r.steps = repliesIn w (run w l (campaign w launches)).2.history

/-- A model that answers as it is told, and a process that dies when it is told to. -/
def scriptedWorld (complete : History → Completion) (dies : History → Bool) : World where
  complete := complete
  countTokens := none
  dispatch := fun _ _ _ ↦ ⟨true, "", {}⟩
  notes := fun _ ↦ none
  checkpointState := none
  restoresState := false
  dies := dies
  repr := id
  fixed4 := fun _ ↦ ""

def stepsLaunch (maxSteps : ℕ) (wrapUp : Bool) : Launch where
  config :=
    { systemPrompt := "p", maxSteps := maxSteps, maxObservationChars := 80, maxAttempts := 1
      contextBudget := none, parallelTools := false, maxParallel := 1
      maxTotalTokens := none, maxCostUsd := none, model := "", writeTtl := "5m"
      exactTokenCheck := false, exactTokenMargin := 0, wrapUpOnMaxSteps := wrapUp
      wrapUpPrompt := "", maxGuardRetries := 2, guards := [], toolSpecs := []
      parallelSafe := fun _ ↦ false }
  task := "t"
  checkpointed := true
  estimator := {}

/-- The model cannot be reached. -/
def outage : World := scriptedWorld (fun _ ↦ .llmError (.fatal "outage")) fun _ ↦ false

/-- The model answers. -/
def answering : World := scriptedWorld (fun _ ↦ .turn ⟨"done", [], {}, none⟩) fun _ ↦ false

/-- The model calls a tool first, and the process dies with it. -/
def dyingOnce : World :=
  scriptedWorld (fun h ↦ .turn ⟨"", if h.length = 3 then [⟨"read", [], "1"⟩] else [], {}, none⟩)
    fun h ↦ h.length = 4

theorem not_countsReplies {w : World} {launches : List Launch} {l : Launch} {n : ℕ}
    (hsteps : (run w l (campaign w launches)).1.toOption.map AgentResult.steps = some n)
    (hne : n ≠ repliesIn w (run w l (campaign w launches)).2.history) :
    ¬CountsReplies w launches l := by
  intro hcounts
  obtain ⟨r, hr, rfl⟩ := Option.map_eq_some_iff.mp hsteps
  cases hrun : (run w l (campaign w launches)).1 with
  | ok r' =>
      rw [hrun] at hr
      obtain rfl := Option.some.inj hr
      exact hne (hcounts _ hrun)
  | error e =>
      rw [hrun] at hr
      contradiction

/-- Launches that do not reach the model use up the steps, the answer of the wrap-up is not counted,
and neither is the reply that is lost with its process. -/
theorem counts_not_replies :
    ¬CountsReplies outage [stepsLaunch 3 false, stepsLaunch 3 false] (stepsLaunch 3 false) ∧
    ¬CountsReplies answering [] (stepsLaunch 0 true) ∧
    ¬CountsReplies dyingOnce [stepsLaunch 3 false] (stepsLaunch 3 false) := by
  refine ⟨not_countsReplies (n := 3) ?_ ?_, not_countsReplies (n := 0) ?_ ?_,
    not_countsReplies (n := 1) ?_ ?_⟩
  all_goals decide +kernel

end NucLlm.AgentLoop
