import NucLlm.Lib.Credit
import NucLlm.Errand.Affordable
import NucLlm.Errand.Demand
import NucLlm.Errand.Link
import NucLlm.Errand.Traversal
import Mathlib

/-!
# Which token limits a prompt is held to

Preflight compares a prompt with the limit its task declares and with the one
the innermost flow declares, and with nothing that is left of them.  The limits
hold where there is room for all that a program may send under them: what is
left of each ledger backs what is still to be sent.
-/

namespace NucLlm.Errand

open Exec

/-- The prompt is within what is left of the limit, if there is one. -/
def Fits (estimate : ℕ) (limit : Option ℕ) (charged : ℤ) : Prop :=
  ∀ tokens ∈ limit, (estimate : ℤ) ≤ tokens - charged

instance (estimate : ℕ) (limit : Option ℕ) (charged : ℤ) :
    Decidable (Fits estimate limit charged) :=
  inferInstanceAs (Decidable (∀ tokens ∈ limit, (estimate : ℤ) ≤ tokens - charged))

namespace Event

/-- A prompt that is sent fits what is left of its task's own token limit and
of the limit of every ledger of the chain. -/
def TokensFit : Event → Prop
  | send _ _ _ _ _ _ tokens ledgers =>
      Fits tokens.estimate tokens.taskLimit tokens.charged ∧
        ∀ l ∈ ledgers, Fits tokens.estimate l.limitTokens l.tokensIn
  | _ => True

instance : DecidablePred TokensFit := fun ev ↦ by
  unfold TokensFit
  split <;> infer_instance

end Event

/-- Every prompt sent so far fitted its limits. -/
def AllFit (s : St) : Prop := ∀ ev ∈ s.log, ev.TokensFit

theorem AllFit.note {s : St} {e : Event} (h : AllFit s) (he : e.TokensFit) :
    AllFit { s with log := s.log ++ [e] } :=
  List.forall_mem_append.mpr ⟨h, by simpa using he⟩

/-! ## Ledgers that back a demand -/

/-- A ledger's limit, and what is wanted of it once the credit is used up. -/
structure Reserve where
  limit : Option ℕ
  rest : ℕ∞

/-- What is left of the limit covers `d` tokens and the reserve. -/
structure Ledger.Backs (d : ℕ∞) (l : Ledger) (r : Reserve) : Prop where
  limit : l.limitTokens = r.limit
  room : ∀ tokens ∈ r.limit, ∃ k : ℕ, d + r.rest = k ∧ l.tokensIn + k ≤ tokens

theorem Ledger.Backs.less {d e : ℕ∞} {l : Ledger} {r : Reserve} (h : l.Backs e r) (hle : d ≤ e) :
    l.Backs d r := by
  refine ⟨h.limit, fun tokens htokens ↦ ?_⟩
  obtain ⟨k, hk, hroom⟩ := h.room tokens htokens
  have hlt : d + r.rest ≤ k := hk ▸ add_le_add_left hle r.rest
  obtain ⟨j, hj, hjk⟩ := ENat.le_natCast_iff.mp hlt
  exact ⟨j, hj, by omega⟩

/-- A ledger that backs a prompt has room for it. -/
theorem Ledger.Backs.fits {n : ℕ} {l : Ledger} {r : Reserve} (h : l.Backs n r) :
    Fits n l.limitTokens l.tokensIn := by
  intro tokens htokens
  rw [h.limit] at htokens
  obtain ⟨k, hk, hroom⟩ := h.room tokens htokens
  have hle : (n : ℕ∞) ≤ k := hk ▸ le_self_add
  have := ENat.natCast_le_natCast.mp hle
  omega

/-- A charge of at most `n` tokens leaves what was backed besides. -/
theorem Ledger.Backs.spend {n : ℕ} {d : ℕ∞} {l : Ledger} {r : Reserve} (h : l.Backs (n + d) r)
    {i : ℤ} (hi : i ≤ n) (seconds : ℚ) (lane : Option String) (o : ℤ) :
    (l.spend seconds lane i o).Backs d r := by
  refine ⟨h.limit, fun tokens htokens ↦ ?_⟩
  obtain ⟨k, hk, hroom⟩ := h.room tokens htokens
  rw [add_assoc] at hk
  have hle : d + r.rest ≤ k := hk ▸ le_add_self
  obtain ⟨j, hj, _⟩ := ENat.le_natCast_iff.mp hle
  have hsum : n + j = k := by
    rw [hj] at hk
    exact_mod_cast hk
  refine ⟨j, hj, ?_⟩
  change l.tokensIn + i + j ≤ tokens
  omega

/-- Every ledger backs `d` tokens and its reserve. -/
structure Backed (chain : List Reserve) (d : ℕ∞) (s : St) : Prop where
  sent : AllFit s
  ledgers : List.Forall₂ (Ledger.Backs d) s.ledgers chain

/-- The limit that preflight finds on the innermost ledger. -/
def innerLimit (chain : List Reserve) : Option ℕ := chain.head?.bind Reserve.limit

theorem backed_credit (chain : List Reserve) : Credit (Backed chain) AllFit where
  less := fun _ _ _ hle h ↦ ⟨h.sent, h.ledgers.imp fun _ _ hb ↦ hb.less hle⟩
  fails := fun _ _ h ↦ h.sent

theorem backed_unobserved (chain : List Reserve) (d : ℕ∞) : Unobserved (Backed chain d) := by
  intro s s' h hlog _ hledgers
  constructor
  · unfold AllFit
    rw [hlog]
    exact h.sent
  · rw [hledgers]
    exact h.ledgers

theorem Backed.note {chain : List Reserve} {d : ℕ∞} {s : St} {e : Event} (h : Backed chain d s)
    (he : e.TokensFit) : Backed chain d { s with log := s.log ++ [e] } :=
  ⟨h.sent.note he, h.ledgers⟩

theorem Backed.inner {chain : List Reserve} {d : ℕ∞} {s : St} (h : Backed chain d s) :
    s.ledgers.head?.bind Ledger.limitTokens = innerLimit chain := by
  obtain ⟨_, hledgers⟩ := h
  generalize s.ledgers = ledgers at hledgers
  cases hledgers with
  | nil => rfl
  | cons hl _ => exact hl.limit

variable {host : Host} {prog : Program} {size : Task → ℕ∞} {need : String → ℕ∞}

/-! ## The attempts of a task -/

/-- The prompt of the call fits each of its limits as declared, and its own for every attempt. -/
structure Call.Modest (host : Host) (c : Call) : Prop where
  estimated : c.proj.promptTokens = host.estimate c.request
  own : ∀ tokens ∈ c.taskLimitTokens, (c.task.retry + 1) * c.proj.promptTokens ≤ tokens

/-- After `done` attempts no more is charged to the execution than their prompts. -/
structure Underway (c : Call) (chain : List Reserve) (done : ℕ) (d : ℕ∞) (s : St) : Prop where
  backed : Backed chain d s
  charged : headTokens s.ledgers ≤ c.tokensBefore + done * c.proj.promptTokens

section Attempts

variable {c : Call} {chain : List Reserve}

theorem underway_unobserved (done : ℕ) (d : ℕ∞) : Unobserved (Underway c chain done d) := by
  intro s s' h hlog hcalls hledgers
  refine ⟨backed_unobserved chain d s s' h.backed hlog hcalls hledgers, ?_⟩
  rw [hledgers]
  exact h.charged

theorem note_underway {done : ℕ} {d : ℕ∞} {e : Event} (he : e.TokensFit) :
    (note e).Preserves (Underway c chain done d) :=
  fun _ h ↦ ⟨h.backed.note he, h.charged⟩

/-- A prompt of an execution that is within its limits may be sent once more. -/
theorem Underway.fits {done : ℕ} {d : ℕ∞} {s : St} (hc : c.Modest host)
    (h : Underway c chain done (c.proj.promptTokens + d) s) (hdone : done ≤ c.task.retry)
    (spentHere : ℚ) : (c.sendEvent host spentHere s.ledgers).TokensFit := by
  constructor
  · intro tokens htokens
    have hall := hc.own tokens htokens
    have hcharged := h.charged
    have hmul : (done + 1) * c.proj.promptTokens ≤ (c.task.retry + 1) * c.proj.promptTokens :=
      Nat.mul_le_mul_right _ (by omega)
    have hle : ((done + 1) * c.proj.promptTokens : ℤ) ≤ tokens := by
      exact_mod_cast hmul.trans hall
    change (c.proj.promptTokens : ℤ) ≤ tokens - (headTokens s.ledgers - c.tokensBefore)
    linarith
  · have hbacks := h.backed.ledgers.imp fun l r hl ↦
      And.intro (hl.less le_self_add : l.Backs c.proj.promptTokens r).fits hl
    exact ((List.forall₂_and_left _ _).mp hbacks).1

theorem sendRequest_underway {done : ℕ} {d : ℕ∞} {s : St} (hc : c.Modest host)
    (h : Underway c chain done (c.proj.promptTokens + d) s) (hdone : done ≤ c.task.retry)
    (spentHere : ℚ) : (sendRequest host c spentHere).wp
      (fun result s' ↦ Underway c chain done (c.proj.promptTokens + d) s' ∧
        ∃ k timeout, host.send k c.lane c.request timeout = result)
      (fun _ ↦ AllFit) s := by
  have hsent := (note_underway (h.fits hc hdone spentHere) s h : Underway ..)
  simp only [sendRequest, wp_bind, wp_get, note, wp_modify]
  split
  · exact hsent.backed.sent
  · refine ⟨⟨⟨hsent.backed.sent, hsent.backed.ledgers⟩, hsent.charged⟩, ?_⟩
    exact ⟨_, _, rfl⟩

theorem attemptSeconds_underway (done : ℕ) (d : ℕ∞) (t₀ : ℚ) :
    (attemptSeconds host c t₀).Preserves (Underway c chain done d) := by
  unfold attemptSeconds
  split
  · exact preserves_pure _ _
  · exact (readClock_preserves host (underway_unobserved done d)).bind fun t₁ ↦ preserves_pure _ _

/-- The tokens charged are those reported, if any are, and else those estimated. -/
theorem judge_tokens (hp : Planned host prog size need) (hc : c.Modest host)
    {result : SendResult} {k : ℕ} {timeout : ℚ}
    (hresult : host.send k c.lane c.request timeout = result) :
    (judge host c result).Returns fun a ↦ a.tokensIn ≤ c.proj.promptTokens := by
  cases result with
  | transportError msg status retryable => exact gives_pure (le_refl _)
  | crash msg => exact gives_fail trivial
  | reply r =>
      have hreported : r.promptTokens.getD c.proj.promptTokens ≤ (c.proj.promptTokens : ℤ) := by
        cases hr : r.promptTokens with
        | none => exact le_refl _
        | some n =>
            rw [hc.estimated]
            exact hp.reported _ _ _ _ r hresult n hr
      unfold judge
      dsimp only
      repeat' split
      all_goals first | exact gives_pure hreported | exact gives_fail trivial

theorem headTokens_spend (seconds : ℚ) (lane : Option String) (i o : ℤ) (ledgers : List Ledger) :
    headTokens (ledgers.map (Ledger.spend seconds lane i o)) = headTokens ledgers +
      if ledgers = [] then 0 else i := by
  cases ledgers <;> simp [headTokens, Ledger.spend]

/-- The charge of an attempt uses up its prompt. -/
theorem spend_underway {done : ℕ} {d : ℕ∞} {s : St}
    (h : Underway c chain done (c.proj.promptTokens + d) s) (seconds : ℚ) (lane : Option String)
    {i : ℤ} (hi : i ≤ c.proj.promptTokens) (o : ℤ) :
    Underway c chain (done + 1) d (spend c.id seconds lane i o s).2 := by
  constructor
  · refine ⟨h.backed.sent.note trivial, ?_⟩
    refine List.forall₂_map_left_iff.mpr (h.backed.ledgers.imp fun l r hbacks ↦ ?_)
    exact hbacks.spend hi seconds lane o
  · change headTokens (s.ledgers.map (Ledger.spend seconds lane i o)) ≤ _
    rw [headTokens_spend]
    have hcharged := h.charged
    push_cast
    split <;> linarith

/-- A wait charges no tokens. -/
theorem wait_underway {done : ℕ} {d : ℕ∞} (delay : ℚ) :
    (spend c.id delay none 0 0).Preserves (Underway c chain done d) := by
  intro s h
  constructor
  · refine ⟨h.backed.sent.note trivial, ?_⟩
    refine List.forall₂_map_left_iff.mpr (h.backed.ledgers.imp fun l r hbacks ↦ ?_)
    rw [← zero_add d] at hbacks
    exact Ledger.Backs.spend (n := 0) (by simpa using hbacks) (le_refl _) delay none 0
  · change headTokens (s.ledgers.map (Ledger.spend delay none 0 0)) ≤ _
    rw [headTokens_spend]
    simpa using h.charged

/-- The loop: each turn uses up one prompt of the credit. -/
theorem attempts_backed (hp : Planned host prog size need) (hc : c.Modest host) (rest : ℕ∞) :
    ∀ (rem n done : ℕ) (spentBefore : ℚ) (recs : List Json) (s : St),
      Underway c chain done ((rem * c.proj.promptTokens : ℕ) + rest) s →
      done + rem = c.task.retry + 1 →
      (attempts host c rem n spentBefore recs).wp (fun _ ↦ Backed chain rest)
        (fun _ ↦ AllFit) s := by
  intro rem
  induction rem with
  | zero =>
      intro n done spentBefore recs s h _
      exact h.backed.sent
  | succ rem ih =>
      intro n done spentBefore recs s h hdone
      have hfails := fun (k : ℕ) (d : ℕ∞) (_ : Err) s (h : Underway c chain k d s) ↦ h.backed.sent
      have hrest : ∀ s, Underway c chain (done + 1) ((rem * c.proj.promptTokens : ℕ) + rest) s →
          Backed chain rest s :=
        fun s h ↦ (backed_credit chain).less _ _ s le_add_self h.backed
      have hturn : (((rem + 1) * c.proj.promptTokens : ℕ) + rest : ℕ∞) =
          c.proj.promptTokens + ((rem * c.proj.promptTokens : ℕ) + rest) := by
        rw [← add_assoc, ← Nat.cast_add, Nat.succ_mul, Nat.add_comm]
      rw [hturn] at h
      unfold attempts
      refine wp_bind_of ((readClock_preserves host
        (underway_unobserved done _)).wp h (hfails _ _)) fun t₀ s h ↦ ?_
      refine wp_bind_of (sendRequest_underway hc h (by omega) spentBefore) ?_
      rintro result s ⟨h, k, timeout, hresult⟩
      refine wp_bind_of ((attemptSeconds_underway done _ t₀).wp h (hfails _ _))
        fun seconds s h ↦ ?_
      have hjudge := wp_and ((judge_preserves host c result).wp h (hfails _ _))
        (judge_tokens hp hc hresult s)
      refine wp_bind_of (wp_mono hjudge (fun _ _ h ↦ h) fun _ _ h ↦ h.1) ?_
      rintro a s ⟨h, hi⟩
      refine wp_bind_of ((note_underway (e := .attempted c.id c.lane.name seconds a.tokensIn
        a.tokensOut) trivial).wp h (hfails _ _)) fun _ s h ↦ ?_
      refine wp_bind_of (P := fun _ ↦ Underway c chain (done + 1)
        ((rem * c.proj.promptTokens : ℕ) + rest))
        (spend_underway h seconds (some c.lane.name) hi a.tokensOut) fun _ s h ↦ ?_
      cases a.outcome with
      | ok value => exact hrest s h
      | error failure =>
          obtain ⟨msg, retryable⟩ := failure
          refine wp_bind_of ((note_underway (e := .failed c.id retryable) trivial).wp h
            (hfails _ _)) fun _ s h ↦ ?_
          split
          · exact hrest s h
          · refine wp_bind_of ((toFloat_preserves _).wp h (hfails _ _)) fun factor s h ↦ ?_
            refine wp_bind_of ((readRng_preserves host (underway_unobserved _ _)).wp h
              (hfails _ _)) fun r s h ↦ ?_
            dsimp only
            split
            · exact wp_bind_of ((note_underway (e := .refused c.id) trivial).wp h (hfails _ _))
                fun _ s h ↦ hrest s h
            · refine wp_bind_of ((sleepFor_preserves host _).wp h (hfails _ _)) fun _ s h ↦ ?_
              refine wp_bind_of ((note_underway (e := .waited c.id _) trivial).wp h
                (hfails _ _)) fun _ s h ↦ ?_
              refine wp_bind_of ((wait_underway _).wp h (hfails _ _)) fun _ s h ↦ ?_
              exact ih _ _ _ _ _ h (by omega)

end Attempts

/-! ## A task -/

/-- What a preflight that does not refuse has compared. -/
theorem refusal_none_fits {c : Call} {ledger : Option Ledger}
    (h : refusal host c ledger = none) :
    (∀ limit ∈ c.taskLimitTokens, c.proj.promptTokens ≤ limit) ∧
      (∀ limit ∈ ledger.bind Ledger.limitTokens, c.proj.promptTokens ≤ limit) ∧
      ∀ room ∈ c.lane.ctx.map (· - c.task.reply), c.proj.promptTokens ≤ room := by
  unfold refusal at h
  dsimp only at h
  split at h <;> try contradiction
  rename_i hctx htask hledger _
  rw [Option.filter_eq_none_iff] at hctx htask hledger
  refine ⟨?_, ?_, ?_⟩
  · intro limit hlimit
    simpa using htask limit hlimit
  · intro limit hlimit
    simpa using hledger limit hlimit
  · intro room hroom
    obtain ⟨ctx, hctx', rfl⟩ := Option.map_eq_some_iff.mp hroom
    have hle := hctx ctx hctx'
    simp only [decide_eq_true_eq, not_lt] at hle
    omega

theorem messages_estimate (t : Task) (env : Env) : (messages host t env).Returns fun r ↦
    r.2 = (r.1.map fun m ↦ host.count m.content).sum :=
  .after fun _ ↦ .after fun _ ↦ gives_pure rfl

/-- A prompt within its templates' size and the limits compared is at most the largest one. -/
theorem le_largest {t : Task} {n : ℕ} {inner : Option ℕ} {lane : Lane} (hsize : (n : ℕ∞) ≤ size t)
    (htask : ∀ limit ∈ prog.tokenLimit t.budget, n ≤ limit) (hinner : ∀ limit ∈ inner, n ≤ limit)
    (hlane : prog.lane? t.lane = some lane)
    (hroom : ∀ room ∈ lane.ctx.map (· - t.reply), n ≤ room) :
    (n : ℕ∞) ≤ prog.largest size inner t := by
  refine le_min (le_min hsize (le_bound.mpr htask)) (le_min (le_bound.mpr hinner) ?_)
  rw [Program.promptRoom, hlane]
  exact le_bound.mpr hroom

theorem taskBudget_gives (t : Task) :
    (taskBudget prog t).Returns fun b ↦ b = t.budget.bind prog.budget? := by
  intro s
  unfold taskBudget
  cases hb : t.budget with
  | none => exact rfl
  | some name =>
      simp only [wp_bind, wp_ofOption, wp_pure, Option.bind_some]
      exact ⟨fun _ ↦ trivial, fun b h ↦ h.symm⟩

theorem openCall_backed (t : Task) (chain : List Reserve) (d : ℕ∞) :
    (openCall t).Preserves (Backed chain d) := by
  intro s h
  refine ⟨h.sent.note trivial, ?_⟩
  change List.Forall₂ (Ledger.Backs d)
    (s.ledgers.modifyHead fun l ↦ { l with calls := l.calls + 1 }) chain
  obtain ⟨_, hledgers⟩ := h
  generalize s.ledgers = ledgers at hledgers
  cases hledgers with
  | nil => exact .nil
  | cons hl hup => exact .cons ⟨hl.limit, hl.room⟩ hup

/-- One execution of a task sends its largest prompt at most, once for each attempt. -/
theorem task_draws (hp : Planned host prog size need) {t : Task} (ht : t ∈ prog.tasks)
    (args : List Val) (line : ℕ) (chain : List Reserve) :
    (task host prog t args line).Draws
      ((t.retry + 1 : ℕ) * prog.largest size (innerLimit chain) t) (Backed chain) AllFit := by
  have hcredit := backed_credit chain
  intro rest s h
  unfold task
  simp only [wp_bind, wp_ofOption]
  refine ⟨fun _ ↦ h.sent, fun lane hlane ↦ ?_⟩
  split
  · exact draws_of_preserves hcredit
      (fun _ ↦ (preserves_ofOption _ _ _).bind fun _ ↦ preserves_pure _ _) _ rest s h
  · have hfails := fun (x : ℕ∞) (_ : Err) s (h : Backed chain x s) ↦ h.sent
    have hsized := wp_and (hp.sized t ht (t.params.zip args) s) (messages_estimate t _ s)
    have hmessages := wp_and ((messages_preserves host t _).wp h (hfails _)) hsized
    refine wp_bind_of (wp_mono hmessages (fun _ _ h ↦ h) fun _ _ h ↦ h.1) ?_
    rintro ⟨msgs, promptTokens⟩ s ⟨h, hsize, hcount⟩
    refine wp_bind_of ((readClock_preserves host (backed_unobserved chain _)).wp h (hfails _))
      fun now s h ↦ ?_
    refine wp_bind_of (P := fun _ ↦ Backed chain _) h fun s₀ s h ↦ ?_
    refine wp_bind_of ((toFloat_preserves _).wp h (hfails _)) fun _ s h ↦ ?_
    refine wp_bind_of ((openCall_backed t chain _).wp h (hfails _)) fun id s h ↦ ?_
    have hbudget := wp_and ((taskBudget_preserves prog t).wp h (hfails _)) (taskBudget_gives t s)
    refine wp_bind_of (wp_mono hbudget (fun _ _ h ↦ h) fun _ _ h ↦ h.1) ?_
    rintro budget s ⟨h, rfl⟩
    simp only [wp_bind, wp_get]
    split
    · exact hcredit.less _ _ _ le_add_self (h.note trivial)
    · rename_i hrefusal
      obtain ⟨htask, hinner, hroom⟩ := refusal_none_fits hrefusal
      have hlimit := hinner
      rw [h.inner] at hlimit
      have hcap := le_largest hsize htask hlimit hlane hroom
      simp only [wp_bind, wp_modify]
      refine attempts_backed hp ⟨hcount, ?_⟩ rest (t.retry + 1) 1 0 0 [] _ ⟨?_, ?_⟩ (by simp)
      · intro tokens htokens
        have hown : (promptTokens : ℕ∞) ≤ prog.largest size none t :=
          le_largest hsize htask (by simp) hlane hroom
        have hall := hp.tasks t ht tokens htokens
        exact_mod_cast (mul_le_mul_right hown (t.retry + 1 : ℕ)).trans hall
      · have hmul := mul_le_mul_right hcap (t.retry + 1 : ℕ)
        have hless := hcredit.less _ _ s (add_le_add_left hmul rest) h
        rw [← Nat.cast_mul] at hless
        exact ⟨hless.sent, hless.ledgers⟩
      · change headTokens s.ledgers ≤ headTokens s.ledgers + _
        simp

/-! ## Flows -/

/-- A new ledger backs what its flow needs, and below it the chain keeps its credit. -/
theorem opened_backed (hp : Planned host prog size need) {name : String} {f : Flow}
    (hf : prog.flow? name = some f) {chain : List Reserve} {rest : ℕ∞} {s : St}
    (h : Backed chain (need name + rest) s) :
    (ledgerFor prog f.budget).wp
      (fun l s' ↦ Backed (⟨prog.tokenLimit f.budget, 0⟩ ::
        chain.map fun r ↦ ⟨r.limit, rest + r.rest⟩) (need name) (pushLedger l s').2)
      (fun _ ↦ AllFit) s := by
  have hup : List.Forall₂ (Ledger.Backs (need name)) s.ledgers
      (chain.map fun r ↦ ⟨r.limit, rest + r.rest⟩) := by
    refine List.forall₂_map_right_iff.mpr (h.ledgers.imp fun l r hl ↦ ⟨hl.limit, ?_⟩)
    intro tokens htokens
    obtain ⟨k, hk, hroom⟩ := hl.room tokens htokens
    exact ⟨k, by rw [← add_assoc]; exact hk, hroom⟩
  generalize hlimit : prog.tokenLimit f.budget = limit
  have hpush : ∀ l : Ledger, l.limitTokens = limit → l.tokensIn = 0 →
      Backed (⟨limit, 0⟩ :: chain.map fun r ↦ ⟨r.limit, rest + r.rest⟩) (need name)
        (pushLedger l s).2 := by
    intro l hl hzero
    refine ⟨h.sent.note (e := .opened (l :: s.ledgers)) trivial, .cons ⟨hl, ?_⟩ hup⟩
    intro tokens htokens
    have hle := hp.flows name f hf tokens (hlimit ▸ htokens)
    obtain ⟨k, hk, hroom⟩ := ENat.le_natCast_iff.mp hle
    refine ⟨k, by rw [hk, add_zero], ?_⟩
    rw [hzero]
    omega
  unfold ledgerFor
  cases hb : f.budget with
  | none =>
      rw [hb] at hlimit
      exact hpush _ hlimit rfl
  | some name' =>
      rw [hb] at hlimit
      simp only [wp_bind, wp_ofOption, wp_pure]
      refine ⟨fun _ ↦ h.sent, fun b hbudget ↦ hpush _ ?_ rfl⟩
      rw [← hlimit]
      change b.tokens = (prog.budget? name').bind Budget.tokens
      rw [hbudget]
      rfl

/-- When a flow has closed its ledger, what it did not need is there besides the rest. -/
theorem closed_backed {r₀ : Reserve} {chain : List Reserve} {rest : ℕ∞} {s : St}
    (h : Backed (r₀ :: chain.map fun r ↦ ⟨r.limit, rest + r.rest⟩) 0 s) :
    popLedger.wp (fun _ ↦ Backed chain rest) (fun _ ↦ AllFit) s := by
  unfold popLedger
  rw [wp_bind, wp_get]
  cases hs : s.ledgers with
  | nil =>
      have hnil := h.ledgers
      rw [hs] at hnil
      cases hnil
  | cons l up =>
      have hledgers := h.ledgers
      rw [hs] at hledgers
      obtain ⟨_, hup⟩ := List.forall₂_cons.mp hledgers
      refine ⟨h.sent.note (e := .closed l up) trivial, ?_⟩
      change List.Forall₂ (Ledger.Backs rest) s.ledgers.tail chain
      rw [hs]
      refine (List.forall₂_map_right_iff.mp hup).imp fun l r hl ↦ ⟨hl.limit, ?_⟩
      intro tokens htokens
      obtain ⟨k, hk, hroom⟩ := hl.room tokens htokens
      exact ⟨k, by rw [← hk, zero_add], hroom⟩

theorem flowSeconds_backed (t₀ : ℚ) (l : Ledger) (chain : List Reserve) (d : ℕ∞) :
    (flowSeconds host t₀ l).Preserves (Backed chain d) :=
  flowSeconds_preserves host (readClock_preserves host (backed_unobserved chain d)) t₀ l

/-- With so much fuel, the four functions draw their demands. -/
structure Draw (host : Host) (prog : Program) (size : Task → ℕ∞) (need : String → ℕ∞) (fuel : ℕ) :
    Prop where
  expr : ∀ e env chain, (expr host prog fuel e env).Draws
    (prog.exprDemand size need (innerLimit chain) e) (Backed chain) AllFit
  exprs : ∀ es env chain, (exprs host prog fuel es env).Draws
    (prog.exprsDemand size need (innerLimit chain) es) (Backed chain) AllFit
  block : ∀ stmts env emitted chain, (block host prog fuel stmts env emitted).Draws
    (prog.blockDemand size need (innerLimit chain) stmts) (Backed chain) AllFit
  flow : ∀ name args chain, (runFlow host prog fuel name args).Draws (need name) (Backed chain)
    AllFit

section Deeper

variable {fuel : ℕ} (hp : Planned host prog size need) (ih : Draw host prog size need fuel)

include hp ih

theorem call_draws (name : String) (args : List Expr) (line : ℕ) (env : Env)
    (chain : List Reserve) :
    (expr host prog (fuel + 1) (.call name args line) env).Draws
      (prog.exprDemand size need (innerLimit chain) (.call name args line)) (Backed chain)
      AllFit := by
  have hcredit := backed_credit chain
  refine (ih.exprs args env chain).bind fun vals ↦ ?_
  unfold Program.callDemand
  split
  · exact draws_of_preserves hcredit (fun _ ↦ builtin_preserves host name vals line) _
  · cases htask : prog.task? name with
    | some t => exact task_draws hp (List.mem_of_find?_eq_some htask) vals line chain
    | none =>
        refine .after (draws_ofOption hcredit _ _ _) fun flow ↦ ?_
        split
        · exact draws_pure hcredit _ _
        · exact .then (ih.flow name _ chain) fun res ↦ draws_pure hcredit _ _

theorem expr_draws (e : Expr) (env : Env) (chain : List Reserve) :
    (expr host prog (fuel + 1) e env).Draws
      (prog.exprDemand size need (innerLimit chain) e) (Backed chain) AllFit := by
  have hcredit := backed_credit chain
  cases e with
  | str s => exact draws_of_preserves hcredit (fun _ ↦ interpolateFrom_preserves host _ _ _ _ _) _
  | num value line => exact draws_pure hcredit _ _
  | bool value line => exact draws_pure hcredit _ _
  | name name line => exact draws_of_preserves hcredit (fun _ ↦ lookupEnv_preserves _ _) _
  | rescue left right line =>
      refine (ih.expr left env chain).bind fun l ↦ ?_
      cases l with
      | ok value prov => exact draws_pure hcredit _ _
      | miss reasons prov =>
          refine .then (ih.expr right env chain) fun r ↦ ?_
          cases r <;> exact draws_pure hcredit _ _
  | cmp op left right line =>
      refine (ih.expr left env chain).bind fun l ↦ ?_
      exact .then (ih.expr right env chain) fun r ↦ draws_pure hcredit _ _
  | call name args line => exact call_draws hp ih name args line env chain

omit hp in
theorem exprs_draws (es : List Expr) (env : Env) (chain : List Reserve) :
    (exprs host prog (fuel + 1) es env).Draws
      (prog.exprsDemand size need (innerLimit chain) es) (Backed chain) AllFit := by
  have hcredit := backed_credit chain
  cases es with
  | nil => exact draws_pure hcredit _ _
  | cons e es =>
      refine (ih.expr e env chain).bind fun v ↦ ?_
      exact .then (ih.exprs es env chain) fun vs ↦ draws_pure hcredit _ _

omit hp in
/-- An `if` draws for the branch that needs more. -/
theorem ifStmt_draws (cond : Expr) (thenBody elseBody stmts : List Stmt) (line : ℕ) (env : Env)
    (emitted : List Val) (chain : List Reserve) :
    (block host prog (fuel + 1) (.ifStmt cond thenBody elseBody line :: stmts) env emitted).Draws
      (prog.blockDemand size need (innerLimit chain) (.ifStmt cond thenBody elseBody line :: stmts))
      (Backed chain) AllFit := by
  have hcredit := backed_credit chain
  change Draws _ ((_ + max _ _) + _) _ _
  rw [add_assoc]
  refine (ih.expr cond env chain).bind fun c ↦ ?_
  split
  · exact draws_pure hcredit _ _
  · rename_i b _
    have hbranch :
      prog.blockDemand size need (innerLimit chain) (if b then thenBody else elseBody) ≤
        max (prog.blockDemand size need (innerLimit chain) thenBody)
          (prog.blockDemand size need (innerLimit chain) elseBody) := by
      cases b with
      | true => exact le_max_left _ _
      | false => exact le_max_right _ _
    refine ((ih.block _ env emitted chain).mono hcredit hbranch).bind ?_
    rintro ⟨miss, emitted⟩
    cases miss with
    | none => exact ih.block stmts env emitted chain
    | some miss => exact draws_pure hcredit _ _
  · exact draws_pure hcredit _ _

omit hp in
theorem block_draws (stmts : List Stmt) (env : Env) (emitted : List Val) (chain : List Reserve) :
    (block host prog (fuel + 1) stmts env emitted).Draws
      (prog.blockDemand size need (innerLimit chain) stmts) (Backed chain) AllFit := by
  cases stmts with
  | nil => exact draws_pure (backed_credit chain) _ _
  | cons stmt stmts =>
      cases stmt with
      | letStmt name e line =>
          exact (ih.expr e env chain).bind fun v ↦ ih.block stmts _ emitted chain
      | emitStmt e line =>
          exact (ih.expr e env chain).bind fun v ↦ ih.block stmts env _ chain
      | ifStmt cond thenBody elseBody line =>
          exact ifStmt_draws ih cond thenBody elseBody stmts line env emitted chain

/-- A flow draws in its own ledger what its body needs; the ledgers below pass it on. -/
theorem runFlow_draws (name : String) (args : List (String × Arg)) (chain : List Reserve) :
    (runFlow host prog (fuel + 1) name args).Draws (need name) (Backed chain) AllFit := by
  intro rest s h
  unfold runFlow
  simp only [wp_bind, wp_ofOption]
  refine ⟨fun _ ↦ h.sent, fun f hf ↦ ?_⟩
  split
  · exact h.sent
  · refine wp_bind_of (opened_backed hp hf h) fun ledger s h ↦ ?_
    refine wp_bind_of (m := pushLedger ledger) (P := fun _ ↦ Backed _ _) h fun _ s h ↦ ?_
    have hfails := fun (chain : List Reserve) (x : ℕ∞) (_ : Err) s (h : Backed chain x s) ↦
      h.sent
    refine wp_bind_of ((readClock_preserves host (backed_unobserved _ _)).wp h
      (hfails _ _)) fun t₀ s h ↦ ?_
    have hbody := fun env ↦ (ih.block f.body env [] (⟨prog.tokenLimit f.budget, 0⟩ ::
      chain.map fun r ↦ ⟨r.limit, rest + r.rest⟩)).mono (backed_credit _)
      (hp.covered name f hf)
    rw [← add_zero (need name)] at h
    refine wp_bind_of (hbody _ 0 s h) ?_
    rintro ⟨miss, emitted⟩ s h
    refine wp_bind_of (closed_backed h) ?_
    rintro ⟨own, up⟩ s h
    exact wp_bind_of ((flowSeconds_backed t₀ _ chain rest).wp h (hfails _ _))
      fun seconds s h ↦ h

end Deeper

theorem eval_draws (hp : Planned host prog size need) (fuel : ℕ) :
    Draw host prog size need fuel := by
  induction fuel with
  | zero =>
      constructor
      · exact fun _ _ chain ↦ draws_fail (backed_credit chain) _ _
      · exact fun _ _ chain ↦ draws_fail (backed_credit chain) _ _
      · exact fun _ _ _ chain ↦ draws_fail (backed_credit chain) _ _
      · exact fun _ _ chain ↦ draws_fail (backed_credit chain) _ _
  | succ fuel ih => exact ⟨expr_draws hp ih, exprs_draws ih, block_draws ih, runFlow_draws hp ih⟩

/-- Where the token limits have room for all that a program may send under them, every prompt of
every session fits what is left of its task's limit and of every ledger's. -/
theorem tokensFit_of_planned (host : Host) (prog : Program) (size : Task → ℕ∞)
    (need : String → ℕ∞) (hp : Planned host prog size need)
    (runs : List (ℕ × String × List (String × Arg))) :
    ∀ ev ∈ (session host prog runs).log, ev.TokensFit := by
  refine session_of_runFlow host prog (I := AllFit) (by simp [AllFit, St.init]) ?_ runs
  intro fuel name args s h
  have henter : Backed [] (need name + 0) (s.enter name) := ⟨h.note trivial, .nil⟩
  have hflow := (eval_draws hp fuel).flow name args [] 0 _ henter
  exact wp_mono hflow (fun _ _ h ↦ h.sent) fun _ _ h ↦ h

/-! ## A limit that nothing is compared with -/

def slowLane : Lane where
  name := "small"
  url := "http://127.0.0.1:8080"
  model := "olmoe"
  prefill := .rate 10
  decode := 5
  fixed := 0
  ctx := none
  tools := false
  coldPenalty := 0
  coldAfter := none
  decode_pos := by norm_num
  prefill_pos := by
    rintro r ⟨⟩
    norm_num
  fixed_nonneg := le_refl 0
  coldPenalty_nonneg := le_refl 0

def askTask : Task where
  name := "ask"
  params := []
  lane := "small"
  budget := none
  retry := 0
  backoffS := 1
  system := none
  user := ⟨[.text "hi"], 3⟩
  reply := 1
  expect := none
  line := 2
  reply_pos := Nat.one_pos
  system_params := by simp
  user_params := by decide

def tinyBudget : Budget where
  name := "tiny"
  timeS := none
  tokens := some 3
  time_pos := by simp

/-- `flow outer() within tiny { emit inner() }` over `flow inner() { emit ask() }`. -/
def nestedFlows : Program where
  lanes := [slowLane]
  budgets := [tinyBudget]
  tasks := [askTask]
  flows := [⟨"outer", [], some "tiny", [.emitStmt (.call "inner" [] 6) 6], 5⟩,
    ⟨"inner", [], none, [.emitStmt (.call "ask" [] 9) 9], 8⟩]

/-- A dry run with the default tokenizer. -/
def dryHost : Host where
  count := charsCount
  perMessage := 5
  clock := fun _ ↦ 0
  rng := fun _ ↦ 1 / 2
  sleep := fun _ ↦ none
  send := fun _ _ _ _ ↦ .reply ⟨"<dry-run>", none, none, 200, true⟩
  dryRun := true
  defaultTimeoutS := 3600
  texts := ⟨id, fun s _ ↦ s, id, fun s ↦ [s], id, fun _ ↦ "", fun _ ↦ "", fun _ ↦ .ok "",
    fun _ ↦ .parsed .null⟩

/-- The six tokens of the prompt are sent below a limit of three. -/
theorem nestedFlows_exceeds : nestedFlows.Linked ∧
    ¬ ∀ ev ∈ (session dryHost nestedFlows [(9, "outer", [])]).log, ev.TokensFit := by
  constructor
  · decide +kernel
  · decide +kernel

/-! ## A limit with room for what is below it -/

def wideBudget : Budget where
  name := "wide"
  timeS := none
  tokens := some 12
  time_pos := by simp

/-- The flow inside asks twice. -/
def wideFlows : Program where
  lanes := [slowLane]
  budgets := [wideBudget]
  tasks := [askTask]
  flows := [⟨"outer", [], some "wide", [.emitStmt (.call "inner" [] 6) 6], 5⟩,
    ⟨"inner", [], none, [.emitStmt (.call "ask" [] 9) 9, .emitStmt (.call "ask" [] 10) 10], 8⟩]

theorem askTask_sized (env : Env) :
    (messages dryHost askTask env).Returns fun r ↦ (r.2 : ℕ∞) ≤ 6 := by
  have hcount : charsCount "hi" + 0 = 6 := by decide +kernel
  intro s
  change ((charsCount "hi" + 0 : ℕ) : ℕ∞) ≤ 6
  rw [hcount]
  rfl

theorem wideFlows_planned : Planned dryHost wideFlows (fun _ ↦ 6) (fun _ ↦ 12) where
  sized := by
    intro t ht env
    obtain rfl := List.mem_singleton.mp ht
    exact askTask_sized env
  reported := by
    rintro k lane request timeout r hr n hn
    obtain rfl := SendResult.reply.inj hr
    contradiction
  tasks := by
    intro t ht limit hlimit
    obtain rfl := List.mem_singleton.mp ht
    contradiction
  covered := by
    intro name f hf
    have hask : ∀ inner, wideFlows.callDemand (fun _ ↦ 6) (fun _ ↦ 12) inner "ask" ≤ 6 := by
      intro inner
      change ((0 + 1 : ℕ) : ℕ∞) * wideFlows.largest (fun _ ↦ 6) inner askTask ≤ 6
      rw [Nat.zero_add, Nat.cast_one, one_mul]
      exact (min_le_left _ _).trans (min_le_left _ _)
    have hin := List.mem_of_find?_eq_some hf
    simp only [wideFlows, List.mem_cons, List.not_mem_nil, or_false] at hin
    rcases hin with rfl | rfl
    · have hinner : ∀ inner, wideFlows.callDemand (fun _ ↦ 6) (fun _ ↦ 12) inner "inner" = 12 :=
        fun _ ↦ rfl
      simp [Program.blockDemand, Program.stmtDemand, Program.exprDemand, Program.exprsDemand,
        hinner]
    · have hsum := (add_le_add (hask none) (hask none)).trans (by norm_num : (6 : ℕ∞) + 6 ≤ 12)
      simpa [Program.blockDemand, Program.stmtDemand, Program.exprDemand, Program.exprsDemand,
        Program.tokenLimit] using hsum
  flows := by
    intro name f hf limit hlimit
    have hin := List.mem_of_find?_eq_some hf
    simp only [wideFlows, List.mem_cons, List.not_mem_nil, or_false] at hin
    rcases hin with rfl | rfl
    · obtain rfl := Option.some.inj hlimit
      rfl
    · contradiction

theorem wideFlows_fit :
    (session dryHost wideFlows [(9, "outer", [])]).log.countP Event.isSend = 2 ∧
      ∀ ev ∈ (session dryHost wideFlows [(9, "outer", [])]).log, ev.TokensFit :=
  ⟨by decide +kernel, tokensFit_of_planned dryHost wideFlows (fun _ ↦ 6) (fun _ ↦ 12)
    wideFlows_planned [(9, "outer", [])]⟩

end NucLlm.Errand
