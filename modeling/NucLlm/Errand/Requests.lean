import NucLlm.Errand.Affordable

/-!
# Errand never sends a request it cannot afford

The loop over the attempts carries `Running`; everything else only has to keep
the invariant of the log, so the recursion over expressions, blocks and flows
is an induction on its depth.
-/

namespace NucLlm.Errand

open Exec

variable (host : Host) (prog : Program)

/-! ## Attempts -/

/-- What is left of the limit covers `need` seconds. -/
def Call.Fits (c : Call) (spentHere need : ℚ) : Prop :=
  ∀ left, c.left spentHere = some left → need ≤ left

/-- The figures a preflight that passed has fixed. -/
structure Call.Limited (c : Call) : Prop where
  pos : 0 < c.proj.totalS
  task : ∀ t, c.taskLimitS = some t → ∃ m, c.limitS = some m ∧ m ≤ t

/-- An open execution whose seconds left are backed by every live ledger. -/
structure Running (c : Call) (sent : ℕ) (spentHere : ℚ) (s : St) : Prop where
  opened : Open host.dryRun c.id c.task.retry sent s
  backed : ∀ l ∈ s.ledgers, ∀ limit, l.limitS = some limit →
    ∃ left, c.left spentHere = some left ∧ left ≤ limit - l.spentS

theorem running_unobserved (c : Call) (sent : ℕ) (spentHere : ℚ) :
    Unobserved (Running host c sent spentHere) := by
  intro s s' h hlog hcalls hledgers
  refine ⟨open_unobserved _ _ _ _ s s' h.opened hlog hcalls hledgers, ?_⟩
  rw [hledgers]
  exact h.backed

section Attempt

variable {host} {c : Call} {sent : ℕ} {spentHere : ℚ} {s : St}

theorem Running.inv (h : Running host c sent spentHere s) : Inv host.dryRun s := h.opened.inv

theorem timeout_eq {left : ℚ} (hleft : c.left spentHere = some left) (hnonneg : 0 ≤ left) :
    c.timeout host spentHere = left := by
  unfold Call.timeout
  rw [hleft]
  exact max_eq_right hnonneg

/-- The send of a running execution that fits is affordable. -/
theorem Running.affordable (hc : c.Limited) (h : Running host c sent spentHere s)
    (hfits : c.Fits spentHere c.proj.totalS) :
    (c.sendEvent host spentHere s.ledgers).Affordable := by
  -- a limit of the task or of a ledger is a limit of the execution
  have hlimited : ∀ left, c.left spentHere = some left →
      c.timeout host spentHere = left ∧ c.proj.totalS ≤ left := by
    intro left hleft
    have hle := hfits left hleft
    exact ⟨timeout_eq hleft (hc.pos.le.trans hle), hle⟩
  have htask : ∀ taskLeft, c.taskLimitS.map (· - spentHere) = some taskLeft →
      ∃ left, c.left spentHere = some left ∧ left ≤ taskLeft := by
    intro taskLeft htaskLeft
    obtain ⟨t, ht, rfl⟩ := Option.map_eq_some_iff.mp htaskLeft
    obtain ⟨m, hm, hmt⟩ := hc.task t ht
    refine ⟨m - spentHere, ?_, sub_le_sub_right hmt _⟩
    rw [Call.left, hm]
    rfl
  intro hlimit
  refine ⟨?_, ?_, ?_⟩
  · rcases hlimit with hsome | ⟨l, hl, hsome⟩
    · obtain ⟨taskLeft, htaskLeft⟩ := Option.isSome_iff_exists.mp hsome
      obtain ⟨left, hleft, _⟩ := htask taskLeft htaskLeft
      obtain ⟨heq, hle⟩ := hlimited left hleft
      rw [heq]
      exact hle
    · obtain ⟨limit, hlimit⟩ := Option.isSome_iff_exists.mp hsome
      obtain ⟨left, hleft, _⟩ := h.backed l hl limit hlimit
      obtain ⟨heq, hle⟩ := hlimited left hleft
      rw [heq]
      exact hle
  · intro taskLeft htaskLeft
    obtain ⟨left, hleft, hle⟩ := htask taskLeft htaskLeft
    rw [(hlimited left hleft).1]
    exact hle
  · intro l hl limit hlimit
    obtain ⟨left, hleft, hle⟩ := h.backed l hl limit hlimit
    rw [(hlimited left hleft).1]
    exact hle

theorem sendRequest_running (hc : c.Limited) (h : Running host c sent spentHere s)
    (hsent : sent ≤ c.task.retry) (hfits : c.Fits spentHere c.proj.totalS) :
    (sendRequest host c spentHere).wp (fun _ ↦ Running host c (sent + 1) spentHere)
      (fun _ ↦ Inv host.dryRun) s := by
  have hnote : Running host c (sent + 1) spentHere
      { s with log := s.log ++ [c.sendEvent host spentHere s.ledgers] } :=
    ⟨h.opened.note (e := c.sendEvent host spentHere s.ledgers) rfl rfl rfl
      (Nat.succ_le_succ hsent) (h.affordable hc hfits) (fun _ ↦ trivial), h.backed⟩
  have hrun := running_unobserved host c (sent + 1) spentHere _
    { s with log := s.log ++ [c.sendEvent host spentHere s.ledgers], sends := s.sends + 1 }
    hnote rfl rfl rfl
  simp only [sendRequest, wp_bind, wp_get, note, wp_modify]
  split
  · exact hrun.inv
  · exact hrun

/-- A spend keeps the execution backed: what is left of its limit and of every
ledger falls by the same seconds. -/
theorem spend_running (h : Running host c sent spentHere s) (seconds : ℚ) (lane : Option String)
    (i o : ℤ) (hfits : host.dryRun = true → c.Fits spentHere seconds) :
    (spend c.id seconds lane i o).wp (fun _ ↦ Running host c sent (spentHere + seconds))
      (fun _ ↦ Inv host.dryRun) s := by
  have hwithin : host.dryRun = true → ∀ l ∈ s.ledgers.map (Ledger.spend seconds lane i o),
      l.Within := by
    intro hdry l hl limit hlimit
    obtain ⟨l₀, hl₀, rfl⟩ := List.mem_map.mp hl
    obtain ⟨left, hleft, hle⟩ := h.backed l₀ hl₀ limit hlimit
    have hseconds := hfits hdry left hleft
    rw [Ledger.spend_spentS]
    linarith
  have hopen := (h.opened.setLedgers hwithin).note
    (e := .spent c.id (s.ledgers.map (Ledger.spend seconds lane i o))) rfl rfl rfl
    h.opened.sends trivial hwithin
  simp only [spend, wp_bind, wp_get, note, wp_modify]
  refine ⟨hopen, ?_⟩
  intro l hl limit hlimit
  obtain ⟨l₀, hl₀, rfl⟩ := List.mem_map.mp hl
  obtain ⟨left, hleft, hle⟩ := h.backed l₀ hl₀ limit hlimit
  obtain ⟨m, hm, rfl⟩ := Option.map_eq_some_iff.mp hleft
  refine ⟨m - (spentHere + seconds), by rw [Call.left, hm]; rfl, ?_⟩
  rw [Ledger.spend_spentS]
  linarith

theorem attemptSeconds_running (h : Running host c sent spentHere s) (t₀ : ℚ) :
    (attemptSeconds host c t₀).wp
      (fun seconds s' ↦ Running host c sent spentHere s' ∧
        (host.dryRun = true → seconds = c.proj.totalS))
      (fun _ ↦ Inv host.dryRun) s := by
  unfold attemptSeconds
  cases hdry : host.dryRun with
  | true => exact ⟨h, fun _ ↦ rfl⟩
  | false =>
      refine ⟨running_unobserved host c sent spentHere s _ h rfl rfl rfl, ?_⟩
      intro hcontra
      contradiction

theorem Running.note_inv (h : Running host c sent spentHere s) {ev : Event}
    (hcall : ev.call = some c.id) (hbegin : ev.isBegin = false) (hsend : ev.isSend = false)
    (haffordable : ev.Affordable)
    (hspent : ev.SpentWithin) : Inv host.dryRun { s with log := s.log ++ [ev] } :=
  h.opened.note_inv hcall hbegin (by simpa [hsend] using h.opened.sends) haffordable
    fun _ ↦ hspent

/-- What is neither a beginning nor a send nor final leaves the execution running. -/
theorem note_running {e : Event} (hcall : e.call = some c.id) (hbegin : e.isBegin = false)
    (hfinal : e.isFinal = false) (hsend : e.isSend = false) (haffordable : e.Affordable)
    (hspent : e.SpentWithin) : (note e).Preserves (Running host c sent spentHere) := by
  intro s h
  have hsends : sent + e.isSend.toNat = sent := by simp [hsend]
  have hopen := h.opened.note hcall hbegin hfinal (by rw [hsends]; exact h.opened.sends)
    haffordable fun _ ↦ hspent
  rw [hsends] at hopen
  exact ⟨hopen, h.backed⟩

theorem overrun_none {delay : ℚ} (h : c.overrun spentHere delay = none) :
    c.Fits spentHere (delay + c.proj.totalS) := by
  intro left hleft
  unfold Call.overrun at h
  simp only [hleft, ite_eq_right_iff, reduceCtorEq, imp_false, not_lt] at h
  exact h

theorem Call.Fits.spend {delay need : ℚ} (h : c.Fits spentHere (delay + need)) :
    c.Fits (spentHere + delay) need := by
  intro left hleft
  obtain ⟨m, hm, rfl⟩ := Option.map_eq_some_iff.mp hleft
  have := h (m - spentHere) (by rw [Call.left, hm]; rfl)
  linarith

/-- The loop: on each turn one send less is left. -/
theorem attempts_inv (hc : c.Limited) :
    ∀ (rem n sent : ℕ) (spentBefore : ℚ) (recs : List Json) (s : St),
      Running host c sent spentBefore s → sent + rem = c.task.retry + 1 →
      c.Fits spentBefore c.proj.totalS →
      (attempts host c rem n spentBefore recs).Ensures (Inv host.dryRun) s := by
  intro rem
  induction rem with
  | zero =>
      intro n sent spentBefore recs s h _ _
      exact h.inv
  | succ rem ih =>
      intro n sent spentBefore recs s h hleft hfits
      have hinv := fun (k : ℕ) (x : ℚ) (_ : Err) s (h : Running host c k x s) ↦ h.inv
      unfold attempts Ensures
      refine wp_bind_of ((readClock_preserves host
        (running_unobserved host c sent spentBefore)).wp h (hinv _ _)) fun t₀ s h ↦ ?_
      refine wp_bind_of (sendRequest_running hc h (by omega) hfits) fun result s h ↦ ?_
      refine wp_bind_of (attemptSeconds_running h t₀) ?_
      rintro seconds s ⟨h, hseconds⟩
      refine wp_bind_of ((judge_preserves host c result).wp h (hinv _ _)) fun a s h ↦ ?_
      refine wp_bind_of ((note_running (e := .attempted c.id c.lane.name seconds a.tokensIn
        a.tokensOut) rfl rfl rfl rfl trivial trivial).wp h (hinv _ _)) fun _ s h ↦ ?_
      refine wp_bind_of (spend_running h seconds _ _ _ ?_) fun _ s h ↦ ?_
      · intro hdry
        rw [hseconds hdry]
        exact hfits
      cases a.outcome with
      | ok value => exact h.inv
      | error failure =>
          obtain ⟨msg, retryable⟩ := failure
          cases retryable with
          | false =>
              -- a final failure ends the execution
              exact h.note_inv rfl rfl rfl trivial trivial
          | true =>
              refine wp_bind_of ((note_running (e := .failed c.id true) rfl rfl rfl rfl
                trivial trivial).wp h (hinv _ _)) fun _ s h ↦ ?_
              split
              · exact h.inv
              · refine wp_bind_of ((toFloat_preserves _).wp h (hinv _ _)) fun factor s h ↦ ?_
                refine wp_bind_of ((readRng_preserves host
                  (running_unobserved host c _ _)).wp h (hinv _ _)) fun r s h ↦ ?_
                dsimp only
                split
                · exact h.note_inv rfl rfl rfl trivial trivial
                · rename_i hover
                  have hnext := overrun_none hover
                  refine wp_bind_of ((sleepFor_preserves host _).wp h (hinv _ _)) fun _ s h ↦ ?_
                  refine wp_bind_of ((note_running (e := .waited c.id _) rfl rfl rfl rfl
                    trivial trivial).wp h (hinv _ _)) fun _ s h ↦ ?_
                  refine wp_bind_of (spend_running h _ none 0 0 ?_) fun _ s h ↦ ?_
                  · intro _ left hleft
                    exact (le_add_of_nonneg_right hc.pos.le).trans (hnext left hleft)
                  · exact ih _ (sent + 1) _ _ s h (by omega) hnext.spend

end Attempt

/-! ## Preflight -/

section Preflight

variable {host prog} {c : Call} {s : St}

theorem minLimit_left {t : ℚ} (r : Option ℚ) : ∃ m, minLimit (some t) r = some m ∧ m ≤ t := by
  cases r with
  | none => exact ⟨t, rfl, le_refl t⟩
  | some r => exact ⟨min t r, rfl, min_le_left t r⟩

theorem minLimit_right (t : Option ℚ) {r : ℚ} : ∃ m, minLimit t (some r) = some m ∧ m ≤ r := by
  cases t with
  | none => exact ⟨r, rfl, le_refl r⟩
  | some t => exact ⟨min t r, rfl, min_le_right t r⟩

/-- A task that is not refused fits its limit. -/
theorem refusal_none {ledger : Option Ledger} (h : refusal host c ledger = none) :
    c.Fits 0 c.proj.totalS := by
  intro left hleft
  obtain ⟨m, hm, rfl⟩ := Option.map_eq_some_iff.mp hleft
  unfold refusal at h
  dsimp only at h
  split at h <;> try contradiction
  rename_i htime
  rw [hm, Option.filter_eq_none_iff] at htime
  simpa using htime

theorem openCall_open (t : Task) (h : Inv host.dryRun s) :
    (openCall t).wp (fun id ↦ Open host.dryRun id t.retry 0) (fun _ ↦ Inv host.dryRun) s := by
  have hnil : s.callLog (s.taskCalls + 1) = [] := by
    refine List.filter_eq_nil_iff.mpr fun ev hev hcall ↦ ?_
    have := h.numbered ev hev _ (of_decide_eq_true hcall)
    omega
  have hwithin : host.dryRun = true → ∀ l ∈ s.ledgers.modifyHead
      (fun l ↦ { l with calls := l.calls + 1 }), l.Within := by
    intro hdry l hl
    cases hledgers : s.ledgers with
    | nil => simp [hledgers] at hl
    | cons l₀ up =>
        have hall := h.within hdry
        rw [hledgers] at hl hall
        rcases List.mem_cons.mp hl with rfl | hup
        · exact hall l₀ List.mem_cons_self
        · exact hall l (List.mem_cons_of_mem _ hup)
  have hcounted : Inv host.dryRun { s with
      taskCalls := s.taskCalls + 1
      ledgers := s.ledgers.modifyHead fun l ↦ { l with calls := l.calls + 1 } } :=
    ⟨h.affordable, h.orderly, fun ev hev id hid ↦ (h.numbered ev hev id hid).trans (Nat.le_succ _),
      hwithin, h.spentWithin⟩
  simp only [openCall, wp_bind, wp_modify, wp_get, note, wp_pure]
  refine ⟨hcounted.note (e := .begin (s.taskCalls + 1) t.retry) ?_ trivial
    (fun _ ↦ trivial) ?_, le_refl _, Nat.zero_le _, ⟨[], ?_, rfl, by simp⟩⟩
  · rintro id ⟨⟩
    exact le_refl _
  · rintro id ⟨⟩
    refine Or.inr ⟨t.retry, [], ?_, ⟨by simp, Nat.zero_le _, List.Pairwise.nil⟩⟩
    change s.callLog (s.taskCalls + 1) ++ _ = _
    rw [hnil]
    rfl
  · refine (callLog_append s (.begin (s.taskCalls + 1) t.retry) _).trans ?_
    simp [hnil, Event.call]

/-- An execution that preflight lets through starts out backed. -/
theorem running_zero {t : Option ℚ} (h : Open host.dryRun c.id c.task.retry 0 s)
    (hpos : 0 < c.proj.totalS) (hlimit : c.limitS = minLimit t (Ledger.remainingS s.ledgers))
    (hfits : c.Fits 0 c.proj.totalS) : Running host c 0 0 s := by
  refine ⟨h, fun l hl limit hl' ↦ ?_⟩
  cases hr : Ledger.remainingS s.ledgers with
  | none =>
      rw [Ledger.remainingS_eq_none hr l hl] at hl'
      contradiction
  | some r =>
      obtain ⟨m, hm, hmr⟩ := minLimit_right t (r := r)
      have hleft : c.left 0 = some (m - 0) := by
        rw [Call.left, hlimit, hr, hm]
        rfl
      have hm0 : c.proj.totalS ≤ m := by simpa using hfits _ hleft
      have hmax := hmr.trans (Ledger.remainingS_le hr l hl limit hl')
      refine ⟨m - 0, hleft, ?_⟩
      rw [sub_zero]
      rcases le_max_iff.mp hmax with hneg | hle
      · linarith
      · exact hle

end Preflight

theorem task_preserves (t : Task) (args : List Val) (line : ℕ) :
    (task host prog t args line).Preserves (Inv host.dryRun) := by
  refine (preserves_ofOption _ _ _).bind fun lane ↦ ?_
  dsimp only
  split
  · exact (preserves_ofOption _ _ _).bind fun param ↦ preserves_pure _ _
  · refine (messages_preserves host t _).bind ?_
    rintro ⟨msgs, promptTokens⟩
    refine (readClock_preserves host (inv_unobserved _)).bind fun now ↦ ?_
    refine (preserves_get _).bind fun s₀ ↦ (toFloat_preserves _).bind fun _ ↦ ?_
    intro s h
    unfold Ensures
    refine wp_bind_of (openCall_open t h) fun id s h ↦ ?_
    refine wp_bind_of ((taskBudget_preserves prog t).wp h fun _ _ h ↦ h.inv) fun budget s h ↦ ?_
    simp only [wp_bind, wp_get]
    split
    · simp only [wp_bind, note, wp_modify, wp_pure]
      exact h.note_inv rfl rfl h.sends trivial fun _ ↦ trivial
    · rename_i hrefusal
      have hpos := project_totalS_pos lane promptTokens t.reply
        (((s₀.laneLastCall.find? (·.1 = lane.name)).map Prod.snd).map (now - ·)) t.reply_pos
      have hfits := refusal_none hrefusal
      have hrun := running_zero h hpos rfl hfits
      simp only [wp_bind, wp_modify]
      refine attempts_inv (Call.Limited.mk hpos fun t' ht' ↦ ?_) _ _ 0 0 [] _
        (running_unobserved host _ _ _ _ _ hrun rfl rfl rfl) (Nat.zero_add _) hfits
      rw [show budget.bind Budget.timeS = some t' from ht']
      exact minLimit_left _

/-! ## Flows -/

/-- A new ledger has spent nothing. -/
theorem ledgerFor_inv (name : Option String) {s : St} (h : Inv host.dryRun s) :
    (ledgerFor prog name).wp (fun l s' ↦ Inv host.dryRun (pushLedger l s').2)
      (fun _ ↦ Inv host.dryRun) s := by
  have hpush : ∀ l : Ledger, l.Within → Inv host.dryRun (pushLedger l s).2 := by
    intro l hl
    refine (h.setLedgers (l :: s.ledgers) fun hdry l' hl' ↦ ?_).note_other
      (e := .opened (l :: s.ledgers)) rfl trivial trivial
    rcases List.mem_cons.mp hl' with rfl | hup
    · exact hl
    · exact h.within hdry l' hup
  unfold ledgerFor
  cases name with
  | none => exact hpush _ fun limit hlimit ↦ by contradiction
  | some name =>
      simp only [wp_bind, wp_ofOption, wp_pure]
      exact ⟨fun _ ↦ h, fun b _ ↦ hpush _ fun limit hlimit ↦ (b.time_pos limit hlimit).le⟩

theorem popLedger_inv : popLedger.Preserves (Inv host.dryRun) := by
  intro s h
  unfold popLedger Ensures
  rw [wp_bind, wp_get]
  cases hs : s.ledgers with
  | nil => exact h
  | cons l up =>
      refine (h.setLedgers _ fun hdry l' hl' ↦
        ?_).note_other (e := .closed l up) rfl trivial trivial
      exact h.within hdry l' (List.mem_of_mem_tail hl')

theorem inv_carried : Carried host prog (Inv host.dryRun) where
  unobserved := inv_unobserved host.dryRun
  init := ⟨by simp [St.init], fun _ ↦ Or.inl rfl, by simp [St.init], by simp [St.init],
    by simp [St.init]⟩
  task := task_preserves host prog
  opened := fun name _ h ↦ ledgerFor_inv host prog name h
  closed := popLedger_inv host
  called := fun _ flow h ↦ (h.setLedgers [] (by simp)).note_other (e := .called flow)
    rfl trivial trivial

/-- Every send can be afforded, every execution sends at most `retry + 1` times
and never after a final failure or a refusal, and in a dry run no ledger is
ever overdrawn. -/
theorem requests_affordable (runs : List (ℕ × String × List (String × Arg))) :
    (∀ ev ∈ (session host prog runs).log, ev.Affordable) ∧
    (∀ id, Orderly id ((session host prog runs).callLog id)) ∧
    (host.dryRun = true → (∀ ev ∈ (session host prog runs).log, ev.SpentWithin) ∧
      ∀ l ∈ (session host prog runs).ledgers, l.Within) := by
  have h := (inv_carried host prog).session runs
  exact ⟨h.affordable, h.orderly, fun hdry ↦ ⟨h.spentWithin hdry, h.within hdry⟩⟩

end NucLlm.Errand
