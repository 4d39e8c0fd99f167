import NucLlm.Errand.Traversal
import Mathlib.Algebra.Order.Field.Basic
import Mathlib.Tactic.Linarith
import Mathlib.Tactic.Positivity

/-!
# What a task execution may send

Every execution keeps `Running`: the seconds left of its own limit are backed
by what is left of its task's budget and of every live ledger.  A spend lowers
both sides alike, and an attempt is made only while the projection fits.
-/

namespace NucLlm.Errand

/-! ## The projected seconds are positive -/

theorem e1Curve_nonneg (tokens : ℚ) :
    ∀ (p : ℚ × ℚ) (points : List (ℚ × ℚ)), p.1 ≤ tokens → 0 ≤ p.2 →
      (p :: points).Pairwise (fun p q ↦ p.1 < q.1 ∧ p.2 ≤ q.2) →
      0 ≤ e1Curve tokens (p :: points) := by
  intro p points
  induction points generalizing p with
  | nil =>
      intro _ _ _
      exact le_refl 0
  | cons q rest ih =>
      intro hx hy hsorted
      obtain ⟨hp, hrest⟩ := List.pairwise_cons.mp hsorted
      obtain ⟨hlt, hle⟩ := hp q List.mem_cons_self
      obtain ⟨x₀, y₀⟩ := p
      obtain ⟨x₁, y₁⟩ := q
      have hdx : 0 < x₁ - x₀ := sub_pos.mpr hlt
      have hdy : 0 ≤ y₁ - y₀ := sub_nonneg.mpr hle
      unfold e1Curve
      split
      · have hdt : 0 ≤ tokens - x₀ := sub_nonneg.mpr hx
        dsimp only at hy
        positivity
      · rename_i hfar
        have hqx : x₁ ≤ tokens := (not_le.mp hfar).le
        have hqy : 0 ≤ y₁ := le_trans hy hle
        cases rest with
        | nil =>
            have hdt : 0 ≤ tokens - x₁ := sub_nonneg.mpr hqx
            positivity
        | cons r rest => exact ih (x₁, y₁) hqx hqy hrest

theorem qwen36PrefillS_nonneg (tokens : ℕ) : 0 ≤ qwen36PrefillS tokens :=
  e1Curve_nonneg tokens _ _ (Nat.cast_nonneg tokens) (by norm_num) (by norm_num)

theorem project_totalS_pos (lane : Lane) (promptTokens replyTokens : ℕ) (idleS : Option ℚ)
    (hreply : 0 < replyTokens) : 0 < (project lane promptTokens replyTokens idleS).totalS := by
  have hdecode : 0 < (replyTokens : ℚ) / lane.decode :=
    div_pos (Nat.cast_pos.mpr hreply) lane.decode_pos
  have hcold := lane.coldPenalty_nonneg
  have httft : 0 ≤ (project lane promptTokens replyTokens idleS).ttftS := by
    unfold project
    dsimp only
    cases hprefill : lane.prefill with
    | e1 =>
        have hbase := qwen36PrefillS_nonneg promptTokens
        split
        · exact add_nonneg hbase hcold
        · exact hbase
    | rate r =>
        have hrate := lane.prefill_pos r hprefill
        have hfixed := lane.fixed_nonneg
        have hbase : 0 ≤ lane.fixed + promptTokens / r := by positivity
        split
        · exact add_nonneg hbase hcold
        · exact hbase
  exact add_pos_of_nonneg_of_pos httft hdecode

/-! ## The limits of a chain of ledgers -/

namespace Ledger

/-- The seconds spent are within the limit, where there is one. -/
def Within (l : Ledger) : Prop := ∀ limit, l.limitS = some limit → l.spentS ≤ limit

theorem remainingS_eq_none {chain : List Ledger} (h : remainingS chain = none) :
    ∀ l ∈ chain, l.limitS = none := by
  induction chain with
  | nil => simp
  | cons l up ih =>
      rw [remainingS] at h
      split at h <;> simp_all

theorem remainingS_le {chain : List Ledger} {r : ℚ} (h : remainingS chain = some r) :
    ∀ l ∈ chain, ∀ limit, l.limitS = some limit → r ≤ max 0 (limit - l.spentS) := by
  induction chain generalizing r with
  | nil => simp
  | cons l up ih =>
      intro l' hl' limit hlimit
      rw [remainingS] at h
      rcases List.mem_cons.mp hl' with rfl | hup
      · rw [hlimit] at h
        cases hr : remainingS up with
        | none => simp_all
        | some r' =>
            simp only [hr, Option.some.injEq] at h
            exact h ▸ min_le_left _ _
      · cases hr : remainingS up with
        | none =>
            have := remainingS_eq_none hr l' hup
            simp_all
        | some r' =>
            have hle := ih hr l' hup limit hlimit
            cases hl : l.limitS with
            | none => simp_all
            | some m =>
                simp only [hl, hr, Option.some.injEq] at h
                exact h ▸ (min_le_right _ _).trans hle

@[simp] theorem spend_limitS (seconds : ℚ) (lane : Option String) (i o : ℤ) (l : Ledger) :
    (l.spend seconds lane i o).limitS = l.limitS := rfl

@[simp] theorem spend_spentS (seconds : ℚ) (lane : Option String) (i o : ℤ) (l : Ledger) :
    (l.spend seconds lane i o).spentS = l.spentS + seconds := rfl

end Ledger

/-! ## What the log must show -/

namespace Event

/-- The task execution an event belongs to, if it is one of a task. -/
def call : Event → Option ℕ
  | begin call _ => some call
  | send call _ _ _ _ _ _ _ => some call
  | attempted call _ _ _ _ => some call
  | failed call _ => some call
  | refused call => some call
  | waited call _ => some call
  | spent call _ => some call
  | called _ => none
  | opened _ => none
  | closed _ _ => none

def isBegin : Event → Bool
  | begin _ _ => true
  | _ => false

def isSend : Event → Bool
  | send _ _ _ _ _ _ _ _ => true
  | _ => false

/-- A failure that may not be retried, or a refusal. -/
def isFinal : Event → Bool
  | failed _ retryable => !retryable
  | refused _ => true
  | _ => false

/-- A send under a time limit fits its timeout, and the timeout fits what is
left of the task's budget and of every ledger of the chain. -/
def Affordable : Event → Prop
  | send _ _ _ timeout projected taskLeft _ ledgers =>
      (taskLeft.isSome ∨ ∃ l ∈ ledgers, l.limitS.isSome) →
        projected ≤ timeout ∧ (∀ left, taskLeft = some left → timeout ≤ left) ∧
          ∀ l ∈ ledgers, ∀ limit, l.limitS = some limit → timeout ≤ limit - l.spentS
  | _ => True

/-- After a spend every ledger of the chain is within its limit. -/
def SpentWithin : Event → Prop
  | spent _ ledgers => ∀ l ∈ ledgers, l.Within
  | _ => True

end Event

/-- What may follow the beginning of an execution of a task with `retry`. -/
structure Execution (retry : ℕ) (events : List Event) : Prop where
  begun : ∀ ev ∈ events, ev.isBegin = false
  sends : events.countP Event.isSend ≤ retry + 1
  final : events.Pairwise fun a b ↦ a.isFinal = true → b.isSend = false

/-- The events of one execution: nothing yet, or its beginning and what may
follow it. -/
def Orderly (id : ℕ) (events : List Event) : Prop :=
  events = [] ∨ ∃ retry rest, events = .begin id retry :: rest ∧ Execution retry rest

def St.callLog (s : St) (id : ℕ) : List Event := s.log.filter fun ev ↦ ev.call = some id

/-- What holds between any two steps of a session. -/
structure Inv (dryRun : Bool) (s : St) : Prop where
  affordable : ∀ ev ∈ s.log, ev.Affordable
  orderly : ∀ id, Orderly id (s.callLog id)
  numbered : ∀ ev ∈ s.log, ∀ id ∈ ev.call, id ≤ s.taskCalls
  within : dryRun = true → ∀ l ∈ s.ledgers, l.Within
  spentWithin : dryRun = true → ∀ ev ∈ s.log, ev.SpentWithin

theorem inv_unobserved (dryRun : Bool) : Unobserved (Inv dryRun) := by
  intro s s' h hlog hcalls hledgers
  constructor
  · rw [hlog]
    exact h.affordable
  · unfold St.callLog
    rw [hlog]
    exact h.orderly
  · rw [hlog, hcalls]
    exact h.numbered
  · rw [hledgers]
    exact h.within
  · rw [hlog]
    exact h.spentWithin

theorem Inv.setLedgers {dryRun : Bool} {s : St} (h : Inv dryRun s) (ledgers : List Ledger)
    (hwithin : dryRun = true → ∀ l ∈ ledgers, l.Within) :
    Inv dryRun { s with ledgers := ledgers } :=
  ⟨h.affordable, h.orderly, h.numbered, hwithin, h.spentWithin⟩

theorem callLog_append (s : St) (ev : Event) (id : ℕ) :
    St.callLog { s with log := s.log ++ [ev] } id =
      s.callLog id ++ if ev.call = some id then [ev] else [] := by
  unfold St.callLog
  by_cases h : ev.call = some id <;> simp [h]

theorem Inv.note {dryRun : Bool} {s : St} {e : Event} (h : Inv dryRun s)
    (hcall : ∀ id ∈ e.call, id ≤ s.taskCalls) (haffordable : e.Affordable)
    (hspent : dryRun = true → e.SpentWithin)
    (horderly : ∀ id ∈ e.call, Orderly id (s.callLog id ++ [e])) :
    Inv dryRun { s with log := s.log ++ [e] } := by
  constructor
  · exact List.forall_mem_append.mpr ⟨h.affordable, by simpa using haffordable⟩
  · intro id
    rw [callLog_append]
    by_cases hid : e.call = some id
    · rw [if_pos hid]
      exact horderly id hid
    · simpa [hid] using h.orderly id
  · exact List.forall_mem_append.mpr ⟨h.numbered, by simpa using hcall⟩
  · exact h.within
  · intro hdry
    exact List.forall_mem_append.mpr ⟨h.spentWithin hdry, by simpa using hspent hdry⟩

/-- An event of no execution leaves the executions as they were. -/
theorem Inv.note_other {dryRun : Bool} {s : St} {e : Event} (h : Inv dryRun s)
    (hcall : e.call = none) (haffordable : e.Affordable) (hspent : e.SpentWithin) :
    Inv dryRun { s with log := s.log ++ [e] } :=
  h.note (by simp [hcall]) haffordable (fun _ ↦ hspent) (by simp [hcall])

/-! ## An execution under way -/

/-- No failure that is final yet, and `sent` sends so far. -/
structure Open (dryRun : Bool) (id retry sent : ℕ) (s : St) : Prop where
  inv : Inv dryRun s
  numbered : id ≤ s.taskCalls
  sends : sent ≤ retry + 1
  events : ∃ rest, s.callLog id = .begin id retry :: rest ∧ rest.countP Event.isSend = sent ∧
    ∀ ev ∈ rest, ev.isBegin = false ∧ ev.isFinal = false

theorem open_unobserved (dryRun : Bool) (id retry sent : ℕ) :
    Unobserved (Open dryRun id retry sent) := by
  intro s s' h hlog hcalls hledgers
  refine ⟨inv_unobserved dryRun s s' h.inv hlog hcalls hledgers, ?_, h.sends, ?_⟩
  · rw [hcalls]
    exact h.numbered
  · unfold St.callLog
    rw [hlog]
    exact h.events

theorem Open.setLedgers {dryRun : Bool} {id retry sent : ℕ} {s : St}
    (h : Open dryRun id retry sent s) {ledgers : List Ledger}
    (hwithin : dryRun = true → ∀ l ∈ ledgers, l.Within) :
    Open dryRun id retry sent { s with ledgers := ledgers } :=
  ⟨h.inv.setLedgers _ hwithin, h.numbered, h.sends, h.events⟩

section Note

variable {dryRun : Bool} {id retry sent : ℕ} {s : St} {e : Event}

/-- Any event but another beginning may be noted, as long as the sends left
allow it. -/
theorem Open.note_inv (h : Open dryRun id retry sent s) (hcall : e.call = some id)
    (hbegin : e.isBegin = false) (hsends : sent + e.isSend.toNat ≤ retry + 1)
    (haffordable : e.Affordable) (hspent : dryRun = true → e.SpentWithin) :
    Inv dryRun { s with log := s.log ++ [e] } := by
  obtain ⟨rest, hlog, hcount, hrest⟩ := h.events
  have hid : ∀ id' ∈ e.call, id' = id := by
    intro id' hid'
    exact Option.some.inj (hid'.symm.trans hcall)
  refine h.inv.note (fun id' hid' ↦ hid id' hid' ▸ h.numbered) haffordable hspent ?_
  intro id' hid'
  rw [hid id' hid', hlog]
  refine Or.inr ⟨retry, rest ++ [e], rfl, ?_, ?_, ?_⟩
  · intro e' hev'
    rcases List.mem_append.mp hev' with hmem | hmem
    · exact (hrest e' hmem).1
    · rw [List.mem_singleton.mp hmem]
      exact hbegin
  · rw [List.countP_append, hcount]
    cases hsend : e.isSend <;> simp_all
  · rw [List.pairwise_append]
    refine ⟨?_, List.pairwise_singleton _ _, ?_⟩
    · refine List.Pairwise.imp_of_mem ?_ (List.pairwise_of_forall (fun _ _ ↦ trivial))
      intro a b ha _ _ hfinal
      rw [(hrest a ha).2] at hfinal
      contradiction
    · intro a ha b _ hfinal
      rw [(hrest a ha).2] at hfinal
      contradiction

/-- Unless the event is final, the execution stays open. -/
theorem Open.note (h : Open dryRun id retry sent s) (hcall : e.call = some id)
    (hbegin : e.isBegin = false) (hfinal : e.isFinal = false)
    (hsends : sent + e.isSend.toNat ≤ retry + 1) (haffordable : e.Affordable)
    (hspent : dryRun = true → e.SpentWithin) :
    Open dryRun id retry (sent + e.isSend.toNat) { s with log := s.log ++ [e] } := by
  refine ⟨h.note_inv hcall hbegin hsends haffordable hspent, h.numbered, hsends, ?_⟩
  obtain ⟨rest, hlog, hcount, hrest⟩ := h.events
  refine ⟨rest ++ [e], ?_, ?_, ?_⟩
  · rw [callLog_append, hlog, if_pos hcall]
    rfl
  · rw [List.countP_append, hcount]
    cases hsend : e.isSend <;> simp [hsend]
  · intro e' hev'
    rcases List.mem_append.mp hev' with hmem | hmem
    · exact hrest e' hmem
    · rw [List.mem_singleton.mp hmem]
      exact ⟨hbegin, hfinal⟩

end Note

end NucLlm.Errand
