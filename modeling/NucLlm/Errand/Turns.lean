import NucLlm.Errand.Affordable

/-!
# What the log of a session is made of

An execution of a task comes in turns.  What is sent is noted as an attempt and
charged, unless the host raises; and before the next turn stands a wait, noted
and charged as well.
-/

namespace NucLlm.Errand

open Exec

/-- A request is sent to `lane` in the execution `id`. -/
def Event.SentTo (id : ℕ) (lane : String) : Event → Prop
  | send call l _ _ _ _ _ _ => call = id ∧ l.name = lane
  | _ => False

/-- The transport raises, or `json.loads` does on the reply. -/
def SendResult.Raises (tx : Texts) : SendResult → Prop
  | reply r => ∃ msg, tx.loads r.text = .raised msg
  | transportError _ _ _ => False
  | crash _ => True

/-- The host raises on what is sent here. -/
def Event.Raises (host : Host) : Event → Prop
  | send _ l request timeout _ _ _ _ => ∃ k, (host.send k l request timeout).Raises host.texts
  | _ => False

/-- A request that the host answers: the attempt is charged at once. -/
inductive Turn (id : ℕ) (lane : String) : List Event → Prop
  | charged {e : Event} (he : e.SentTo id lane) (seconds : ℚ) (tokensIn tokensOut : ℤ)
      (ledgers : List Ledger) :
      Turn id lane [e, .attempted id lane seconds tokensIn tokensOut, .spent id ledgers]

variable (host : Host)

/-- The turns of an execution.  Only the last one may go unanswered, and only where the host
raises; a turn that failed is followed by another one after a wait. -/
inductive Turns (id : ℕ) (lane : String) : List Event → Prop
  | raised {e : Event} (he : e.SentTo id lane) (hraises : e.Raises host) : Turns id lane [e]
  | done {turn : List Event} (h : Turn id lane turn) : Turns id lane turn
  | failed {turn : List Event} (h : Turn id lane turn) (retryable : Bool) :
      Turns id lane (turn ++ [.failed id retryable])
  | refused {turn : List Event} (h : Turn id lane turn) :
      Turns id lane (turn ++ [.failed id true, .refused id])
  | again {turn rest : List Event} (h : Turn id lane turn) (delay : ℚ) (ledgers : List Ledger)
      (hrest : Turns id lane rest) :
      Turns id lane (turn ++ [.failed id true, .waited id delay, .spent id ledgers] ++ rest)

/-- The log is a sequence of whole executions and of events that belong to none. -/
inductive Told : List Event → Prop
  | nil : Told []
  | other {log : List Event} (h : Told log) {e : Event} (he : e.call = none) : Told (log ++ [e])
  | unsent {log : List Event} (h : Told log) (id retry : ℕ) : Told (log ++ [.begin id retry])
  | refused {log : List Event} (h : Told log) (id retry : ℕ) :
      Told (log ++ [.begin id retry, .refused id])
  | sent {log events : List Event} (h : Told log) {id : ℕ} (retry : ℕ) {lane : String}
      (hturns : Turns host id lane events) : Told (log ++ .begin id retry :: events)

/-- The log has come to this. -/
def Wrote (log : List Event) (s : St) : Prop := s.log = log

/-- The log is `log` and then turns of the call. -/
def Took (log : List Event) (c : Call) (s : St) : Prop :=
  ∃ events, Turns host c.id c.lane.name events ∧ Wrote (log ++ events) s

theorem told_unobserved : Unobserved fun s ↦ Told host s.log := by
  intro s s' h hlog _ _
  rw [hlog]
  exact h

section Machine

variable {host} {prog : Program} {log : List Event} {s : St} {E : Err → St → Prop}

theorem readClock_wrote (h : Wrote log s) : (readClock host).wp (fun _ ↦ Wrote log) E s := h

theorem readRng_wrote (h : Wrote log s) : (readRng host).wp (fun _ ↦ Wrote log) E s := h

theorem note_wrote (h : Wrote log s) (e : Event) :
    (note e).wp (fun _ ↦ Wrote (log ++ [e])) E s :=
  congrArg (· ++ [e]) h

theorem spend_wrote (id : ℕ) (seconds : ℚ) (lane : Option String) (i o : ℤ) (h : Wrote log s) :
    (spend id seconds lane i o).wp
      (fun _ s' ↦ ∃ ledgers, Wrote (log ++ [.spent id ledgers]) s') E s :=
  ⟨s.ledgers.map (Ledger.spend seconds lane i o), congrArg (· ++ [Event.spent id _]) h⟩

theorem attemptSeconds_wrote (c : Call) (t₀ : ℚ) (h : Wrote log s) :
    (attemptSeconds host c t₀).wp (fun _ ↦ Wrote log) E s := by
  unfold attemptSeconds
  split
  · exact h
  · exact wp_bind_of (readClock_wrote h) fun _ _ h ↦ h

theorem judge_wrote (c : Call) (result : SendResult) (h : Wrote log s) :
    (judge host c result).wp (fun _ ↦ Wrote log)
      (fun _ s' ↦ Wrote log s' ∧ result.Raises host.texts) s := by
  cases result with
  | transportError msg status retryable => exact h
  | crash msg => exact ⟨h, trivial⟩
  | reply r =>
      unfold judge
      dsimp only
      split
      · exact h
      · split
        · exact h
        · exact h
        · rename_i msg hraised
          exact ⟨h, msg, checkExpect_raised hraised⟩

variable (host) in
theorem sendRequest_wrote (c : Call) (spentHere : ℚ) (h : Wrote log s) :
    ∃ e : Event, e.SentTo c.id c.lane.name ∧
      (sendRequest host c spentHere).wp
        (fun result s' ↦ Wrote (log ++ [e]) s' ∧ (result.Raises host.texts → e.Raises host))
        (fun _ s' ↦ Wrote (log ++ [e]) s' ∧ e.Raises host) s := by
  refine ⟨c.sendEvent host spentHere s.ledgers, ⟨rfl, rfl⟩, ?_⟩
  have hsent : Wrote (log ++ [c.sendEvent host spentHere s.ledgers])
      { s with log := s.log ++ [c.sendEvent host spentHere s.ledgers] } := congrArg (· ++ [_]) h
  simp only [sendRequest, wp_bind, wp_get, note, wp_modify]
  split
  · rename_i msg hcrash
    refine ⟨hsent, s.sends, ?_⟩
    rw [hcrash]
    trivial
  · exact ⟨hsent, fun hraises ↦ ⟨s.sends, hraises⟩⟩

/-- The loop logs a turn and, after a wait, the turns of the attempts left. -/
theorem attempts_turns (c : Call) : ∀ (rem n : ℕ) (spentBefore : ℚ) (recs : List Json)
    (log : List Event) (s : St), 0 < rem → Wrote log s →
      (attempts host c rem n spentBefore recs).Ensures (Took host log c) s := by
  intro rem
  induction rem with
  | zero =>
      intro n spentBefore recs log s hrem
      exact absurd hrem (lt_irrefl 0)
  | succ rem ih =>
      intro n spentBefore recs log s _ h
      unfold attempts Ensures
      refine wp_bind_of (readClock_wrote h) fun t₀ s h ↦ ?_
      obtain ⟨e, he, hsend⟩ := sendRequest_wrote host c spentBefore h
      -- from the send to the charge only the host may end the attempt
      have hraised : ∀ s, Wrote (log ++ [e]) s → e.Raises host → Took host log c s :=
        fun s h hraises ↦ ⟨[e], .raised he hraises, h⟩
      refine wp_bind_of (wp_mono hsend (fun _ _ h ↦ h) fun _ s h ↦ hraised s h.1 h.2) ?_
      rintro result s ⟨h, hraises⟩
      refine wp_bind_of (attemptSeconds_wrote c t₀ h) fun seconds s h ↦ ?_
      refine wp_bind_of (wp_mono (judge_wrote c result h) (fun _ _ h ↦ h)
        fun _ s h ↦ hraised s h.1 (hraises h.2)) fun a s h ↦ ?_
      refine wp_bind_of (note_wrote h _) fun _ s h ↦ ?_
      refine wp_bind_of (spend_wrote c.id _ _ _ _ h) ?_
      rintro _ s ⟨ledgers, h⟩
      have hturn := Turn.charged he seconds a.tokensIn a.tokensOut ledgers
      rw [List.append_assoc, List.append_assoc] at h
      cases a.outcome with
      | ok value => exact ⟨_, .done hturn, h⟩
      | error failure =>
          obtain ⟨msg, retryable⟩ := failure
          refine wp_bind_of (note_wrote h _) fun _ s h ↦ ?_
          have hfailed : ∀ s, Wrote _ s → Took host log c s := fun s h ↦
            ⟨_, .failed hturn retryable, (List.append_assoc _ _ _).symm ▸ h⟩
          split
          · exact hfailed s h
          · rename_i hnext
            simp only [Bool.or_eq_true, Bool.not_eq_true', decide_eq_true_eq, not_or,
              Bool.not_eq_false] at hnext
            obtain ⟨rfl, hrem⟩ := hnext
            refine wp_bind_of ((toFloat_preserves _).wp h fun _ s h ↦ hfailed s h)
              fun factor s h ↦ ?_
            refine wp_bind_of (readRng_wrote h) fun r s h ↦ ?_
            dsimp only
            split
            · refine wp_bind_of (note_wrote h _) fun _ s h ↦ ?_
              exact ⟨_, .refused hturn, by simpa [Wrote] using h⟩
            · refine wp_bind_of ((sleepFor_preserves host _).wp h fun _ s h ↦ hfailed s h)
                fun _ s h ↦ ?_
              refine wp_bind_of (note_wrote h _) fun _ s h ↦ ?_
              refine wp_bind_of (spend_wrote c.id _ _ _ _ h) ?_
              rintro _ s ⟨ledgers', h⟩
              refine wp_mono (ih (n + 1) _ _ _ s (Nat.pos_of_ne_zero hrem) h) ?_ ?_
              all_goals
                rintro _ s ⟨events, hturns, h⟩
                exact ⟨_, .again hturn _ ledgers' hturns, by simpa [Wrote] using h⟩

theorem openCall_wrote (t : Task) (h : Wrote log s) :
    (openCall t).wp (fun id ↦ Wrote (log ++ [.begin id t.retry])) E s :=
  congrArg (· ++ [Event.begin _ t.retry]) h

theorem task_told (t : Task) (args : List Val) (line : ℕ) :
    (task host prog t args line).Preserves fun s ↦ Told host s.log := by
  refine (preserves_ofOption _ _ _).bind fun lane ↦ ?_
  dsimp only
  split
  · exact (preserves_ofOption _ _ _).bind fun param ↦ preserves_pure _ _
  · refine (messages_preserves host t _).bind ?_
    rintro ⟨msgs, promptTokens⟩
    refine (readClock_preserves host (told_unobserved host)).bind fun now ↦ ?_
    refine (preserves_get _).bind fun s₀ ↦ (toFloat_preserves _).bind fun _ ↦ ?_
    intro s htold
    unfold Ensures
    refine wp_bind_of (openCall_wrote t (show Wrote s.log s from rfl)) fun id s' h ↦ ?_
    have hunsent : ∀ s', Wrote (s.log ++ [.begin id t.retry]) s' → Told host s'.log := by
      intro s' h
      rw [h]
      exact .unsent htold id t.retry
    refine wp_bind_of ((taskBudget_preserves prog t).wp h fun _ s' h ↦ hunsent s' h)
      fun budget s' h ↦ ?_
    simp only [wp_bind, wp_get]
    split
    · refine wp_bind_of (note_wrote h _) fun _ s' h ↦ ?_
      change Told host s'.log
      rw [h, List.append_assoc]
      exact .refused htold id t.retry
    · simp only [wp_bind, wp_modify]
      refine wp_mono (attempts_turns _ _ _ _ _ _ _ (Nat.succ_pos _) h) ?_ ?_
      all_goals
        rintro _ s' ⟨events, hturns, h⟩
        rw [h, List.append_assoc]
        exact .sent htold t.retry hturns

theorem ledgerFor_told (name : Option String) (s : St) (h : Told host s.log) :
    (ledgerFor prog name).wp (fun l s' ↦ Told host (pushLedger l s').2.log)
      (fun _ s ↦ Told host s.log) s := by
  cases name with
  | none => exact .other h rfl
  | some name =>
      simp only [ledgerFor, wp_bind, wp_ofOption, wp_pure]
      exact ⟨fun _ ↦ h, fun b _ ↦ .other h rfl⟩

theorem popLedger_told : popLedger.Preserves fun s ↦ Told host s.log := by
  intro s h
  unfold popLedger Ensures
  rw [wp_bind, wp_get]
  cases s.ledgers with
  | nil => exact h
  | cons l up => exact .other h rfl

theorem told_carried : Carried host prog fun s ↦ Told host s.log where
  unobserved := told_unobserved host
  init := .nil
  task := task_told
  opened := ledgerFor_told
  closed := popLedger_told
  called := fun _ _ h ↦ .other h rfl

end Machine

end NucLlm.Errand
