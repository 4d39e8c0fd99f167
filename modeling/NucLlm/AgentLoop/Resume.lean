import NucLlm.AgentLoop.Costs
import NucLlm.AgentLoop.Replay
import Mathlib.Data.List.TakeWhile

/-!
# Resuming a run

A process takes up the checkpoint another one has left.  Between two steps the
checkpoint holds the variables of the run but for the counter behind the ids of
recovered calls.
-/

namespace NucLlm.AgentLoop

open Exec

/-! ## Caches and calibration -/

theorem Coherent.sameCost {ms : List Entry} (h : Coherent ms) :
    SameCost (ms.map Entry.strip) ms := by
  unfold SameCost
  rw [List.map_map]
  apply List.map_congr_left
  intro e he
  change Entry.mk e.msg (some e.msg.chars) = ⟨e.msg, some e.msgChars⟩
  rw [h e he]

/-- What a checkpoint keeps of an estimator, put into a fresh one, gives it back. -/
def Calibrated (fresh est : Estimator) : Prop :=
  (if est.observations = 0 then fresh
    else { fresh with charsPerToken := est.charsPerToken, observations := est.observations }) = est

theorem Calibrated.observe {fresh est : Estimator} (h : Calibrated fresh est)
    (chars tokens : ℤ) : Calibrated fresh (est.observe chars tokens) := by
  unfold Estimator.observe
  split
  · exact h
  · have hbounds : est.emaAlpha = fresh.emaAlpha ∧ est.minRatio = fresh.minRatio ∧
        est.maxRatio = fresh.maxRatio := by
      rw [← h]
      split <;> exact ⟨rfl, rfl, rfl⟩
    obtain ⟨halpha, hmin, hmax⟩ := hbounds
    unfold Calibrated
    dsimp only
    rw [if_neg (Nat.succ_ne_zero _), halpha, hmin, hmax]

theorem calibrated_restored (fresh : Estimator) (c : Checkpoint) :
    Calibrated fresh (c.toLoop fresh).estimator := by
  unfold Calibrated Checkpoint.toLoop
  dsimp only
  split
  · split <;> rfl
  · rfl

/-- Nothing has been saved since `s₀`. -/
def Quiet (s₀ s : St) : Prop := ∃ evs, (∀ c, .saved c ∉ evs) ∧ s = s₀.after evs

theorem Quiet.refl (s : St) : Quiet s s := ⟨[], fun _ ↦ List.not_mem_nil, s.after_nil.symm⟩

theorem Quiet.emit {s₀ s : St} (h : Quiet s₀ s) {ev : Event} (hev : ∀ c, ev ≠ .saved c) :
    Quiet s₀ { s with history := s.history ++ [ev] } := by
  obtain ⟨evs, hquiet, rfl⟩ := h
  refine ⟨evs ++ [ev], fun c hc ↦ ?_, ?_⟩
  · rcases List.mem_append.mp hc with hmem | hmem
    · exact hquiet c hmem
    · exact hev c (List.mem_singleton.mp hmem).symm
  · rw [Setup.emit_after hev, St.after_after]

theorem emit_quiet (w : World) (s₀ : St) {ev : Event} (hev : ∀ c, ev ≠ .saved c) :
    (AgentLoop.emit w ev).Preserves (Quiet s₀) := by
  refine Preserves.bind ?_ fun _ ↦ (preserves_get _).bind fun s ↦ ?_
  · exact preserves_modify fun s h ↦ h.emit hev
  · split
    · exact preserves_fail _ _
    · exact preserves_pure _ _

/-! ## Steps between two checkpoints -/

namespace Setup

variable (A : Setup)

/-- Variables that a checkpoint holds in full. -/
structure Boundary (L : Loop) : Prop where
  coherent : Coherent L.messages
  calibrated : Calibrated A.estimator L.estimator

/-- The checkpoint of a completed run. -/
def Completed (c : Checkpoint) (r : AgentResult) : Prop :=
  ∃ L text error cost, c = A.checkpoint L L.messages (some (.completed, text, error)) none none ∧
    r = agentResult L .completed text error cost ∧
    currentCost A.launch L.usage = pure cost

end Setup

/-- A checkpoint of a completed run, or one that is not of the end of a run: its
messages close with the task, a guard's answer or the results of tools. -/
def Checkpoint.Continues (c : Checkpoint) : Prop :=
  c.result.isSome ∨
    (c.lastStopReason = none ∧ (c.messages.getLast?.any fun e ↦ e.msg.isAssistant) = false)

instance : DecidablePred Checkpoint.Continues := fun c ↦
  inferInstanceAs (Decidable (c.result.isSome ∨ (c.lastStopReason = none ∧ _)))

namespace Setup

variable {A : Setup} {s₀ : St}

variable (s₀) in
/-- `c` is the one checkpoint saved since `s₀`, and the last thing done. -/
def SavedSince (c : Checkpoint) (s : St) : Prop := ∃ s', Quiet s₀ s' ∧ s = s'.after [.saved c]

variable (A s₀) in
/-- The run has ended, and its checkpoint is one to continue from only if it is
complete. -/
def Ended (r : AgentResult) (s : St) : Prop :=
  ∃ c, Coherent c.messages ∧ SavedSince s₀ c s ∧ (c.Continues → A.Completed c r)

variable (A s₀) in
/-- A step has ended between two checkpoints, or with the run. -/
def Stepped (n : ℕ) : Loop ⊕ AgentResult → St → Prop
  | .inl L, s => L.steps = n ∧ A.Boundary L ∧
      SavedSince s₀ (A.checkpoint L L.messages none none none) s
  | .inr r, s => A.Ended s₀ r s

theorem save_wp (L : Loop) (messages : List Entry)
    (result : Option (StopReason × String × Option String)) (last : Option StopReason)
    (error : Option String) {Q : Unit → St → Prop} {E : Stop → St → Prop} {s : St} :
    (save A.steady A.launch L messages result last error).wp Q E s ↔
      Q () (s.after [.saved (A.checkpoint L messages result last error)]) := by
  unfold Exec.wp steady
  rw [save_world]
  exact Iff.rfl

theorem currentCost_eq (l : Launch) (usage : Usage) :
    (∃ cost, currentCost l usage = pure cost) ∨ ∃ e, currentCost l usage = fail e := by
  unfold currentCost
  split
  · exact Or.inl ⟨none, rfl⟩
  · cases usage.costUsd l.config.model l.config.writeTtl with
    | none => exact Or.inr ⟨_, rfl⟩
    | some cost => exact Or.inl ⟨cost, rfl⟩

theorem finish_ended (L : Loop) (reason : StopReason) (text : String) (error : Option String)
    (persist : List Entry) {s : St} (h : Quiet s₀ s) :
    (finish A.steady A.launch L reason text error persist).wp (A.Ended s₀)
      (fun _ ↦ Quiet s₀) s := by
  unfold finish saveEnd
  rcases currentCost_eq A.launch L.usage with ⟨cost, hcost⟩ | ⟨e, he⟩
  · rw [hcost, wp_bind, wp_pure, wp_bind]
    by_cases hreason : reason = .completed
    · subst hreason
      rw [if_pos rfl, save_wp]
      exact ⟨_, coherent_strip _, ⟨s, h, rfl⟩, fun _ ↦ ⟨L, text, error, cost, rfl, rfl, hcost⟩⟩
    · rw [if_neg hreason, save_wp]
      refine ⟨_, coherent_strip _, ⟨s, h, rfl⟩, fun hcontinues ↦ ?_⟩
      rcases hcontinues with hresult | ⟨hlast, -⟩
      · contradiction
      · contradiction
  · rw [he]
    exact h

theorem ended_stepped {m : M AgentResult} {s : St} (n : ℕ)
    (h : m.wp (A.Ended s₀) (fun _ ↦ Quiet s₀) s) :
    (m >>= fun r ↦ pure (.inr r)).wp (A.Stepped s₀ n) (fun _ ↦ Quiet s₀) s :=
  wp_bind_of h fun _ _ hr ↦ hr

theorem save_stepped {L : Loop} (hL : A.Boundary L) {s : St} (h : Quiet s₀ s) :
    (save A.steady A.launch L L.messages none none none >>= fun _ ↦ pure (.inl L)).wp
      (A.Stepped s₀ L.steps) (fun _ ↦ Quiet s₀) s := by
  rw [wp_bind, save_wp]
  exact ⟨rfl, hL, s, h, rfl⟩

theorem toolMessages_coherent (l : Launch) (calls : List ToolCall) :
    ∀ (results : List ToolResult) (answers : List Entry),
      toolMessages l calls results = some answers → Coherent answers := by
  induction calls with
  | nil =>
      intro results answers h
      obtain rfl := Option.some.inj h
      exact fun e he ↦ absurd he List.not_mem_nil
  | cons c cs ih =>
      intro results answers h
      cases results with
      | nil =>
          obtain rfl := Option.some.inj h
          exact fun e he ↦ absurd he List.not_mem_nil
      | cons r rs =>
          simp only [toolMessages, Option.bind_eq_bind, Option.bind_eq_some_iff, Option.pure_def,
            Option.some.injEq] at h
          obtain ⟨e, he, es, hes, rfl⟩ := h
          obtain ⟨observation, -, rfl⟩ := Option.map_eq_some_iff.mp he
          exact coherent_cons rfl (ih rs es hes)

theorem runTools_stepped (L : Loop) {before : List Entry} (t : Turn) (hbefore : Coherent before)
    (hest : Calibrated A.estimator L.estimator) {s : St} (h : Quiet s₀ s) :
    (runTools A.steady A.launch L before t).wp (A.Stepped s₀ L.steps) (fun _ ↦ Quiet s₀) s := by
  unfold runTools
  refine wp_bind_of (budgetExceeded_preserves A.steady A.launch _ _ s h) fun exceeded s h ↦ ?_
  cases exceeded with
  | some exceeded => exact ended_stepped _ (finish_ended _ _ _ _ _ h)
  | none =>
      have hbatch : (emit A.steady (.dispatched t.toolCalls)).Preserves (Quiet s₀) :=
        emit_quiet A.steady s₀ fun c heq ↦ by contradiction
      have hran (c : ToolCall) (r : ToolResult) :
          (emit A.steady (.ran c r)).Preserves (Quiet s₀) :=
        emit_quiet A.steady s₀ fun c heq ↦ by contradiction
      refine wp_bind_of (dispatchAll_results A.steady A.launch hbatch hran h) ?_
      rintro results s ⟨-, h⟩
      rw [wp_bind, wp_ofOption]
      refine ⟨fun _ ↦ h, fun answers hanswers ↦ ?_⟩
      have hmessages : Coherent (before ++ assistantEntry t :: answers) :=
        hbefore.append (coherent_cons rfl (toolMessages_coherent A.launch _ _ _ hanswers))
      dsimp only
      refine wp_bind_of (P := fun _ ↦ Quiet s₀) ?_ fun exceeded s h ↦ ?_
      · unfold budgetAfterTools
        split
        · exact h
        · exact budgetExceeded_preserves A.steady A.launch _ _ s h
      · cases exceeded with
        | some exceeded => exact ended_stepped _ (finish_ended _ _ _ _ _ h)
        | none =>
            refine save_stepped (L := { L with
              messages := before ++ assistantEntry t :: answers
              toolCalls := L.toolCalls + answers.length
              usage := _ }) ?_ h
            exact ⟨hmessages, hest⟩

theorem judge_stepped (L : Loop) {before : List Entry} (t : Turn) (rejection : Option Rejection)
    (hbefore : Coherent before) (hest : Calibrated A.estimator L.estimator) {s : St}
    (h : Quiet s₀ s) :
    (judge A.steady A.launch L before t rejection).wp (A.Stepped s₀ L.steps)
      (fun _ ↦ Quiet s₀) s := by
  cases rejection with
  | none => exact ended_stepped _ (finish_ended _ _ _ _ _ h)
  | some rejection =>
      unfold judge
      dsimp only
      split
      · exact runTools_stepped { L with
          messages := before ++ [assistantEntry t]
          guardRecoveries := L.guardRecoveries + 1 } _ hbefore hest h
      · have hmessages : Coherent
            (before ++ [assistantEntry t] ++ [⟨.user rejection.message none, none⟩]) :=
          (hbefore.append (coherent_cons rfl fun e he ↦ absurd he List.not_mem_nil)).append
            (coherent_cons rfl fun e he ↦ absurd he List.not_mem_nil)
        split
        · exact ended_stepped _ (finish_ended _ _ _ _ _ h)
        · exact save_stepped (L := { L with
            messages := before ++ [assistantEntry t] ++ [⟨.user rejection.message none, none⟩]
            guardRejections := L.guardRejections + 1 }) ⟨hmessages, hest⟩ h

theorem respond_stepped {L : Loop} (hL : A.Boundary L) (charsSent : ℕ) (c : Except String Turn)
    {s : St} (h : Quiet s₀ s) :
    (respond A.steady A.launch L charsSent c).wp (A.Stepped s₀ L.steps)
      (fun _ ↦ Quiet s₀) s := by
  cases c with
  | error repr => exact ended_stepped _ (finish_ended _ _ _ _ _ h)
  | ok t =>
      unfold respond
      have hest : Calibrated A.estimator (if 0 < t.usage.totalInput then
          L.estimator.observe charsSent t.usage.totalInput else L.estimator) := by
        split
        · exact hL.calibrated.observe _ _
        · exact hL.calibrated
      dsimp only
      refine wp_bind_of (checkRatio_preserves _ _ s h) fun _ s h ↦ ?_
      split
      · rw [judgeText_eq, wp_bind, wp_get]
        exact judge_stepped { L with usage := L.usage + t.usage, estimator := _ } t _
          hL.coherent hest h
      · exact runTools_stepped { L with usage := L.usage + t.usage, estimator := _ } t
          hL.coherent hest h

theorem completeWithRetry_quiet (est : Estimator) (messages : List Entry) (tools : List Json) :
    (completeWithRetry A.steady A.launch est messages tools).Preserves (Quiet s₀) :=
  completeWithRetry_preserves A.steady A.launch est
    (emit_quiet A.steady s₀ fun c heq ↦ by contradiction)

theorem step_stepped {L : Loop} (hL : A.Boundary L) {s : St} (h : Quiet s₀ s) :
    (step A.steady A.launch L).wp (A.Stepped s₀ (L.steps + 1)) (fun _ ↦ Quiet s₀) s := by
  have hfit := fitContext_wp A.steady A.launch (I := Quiet s₀)
    (P := fun L' ↦ A.Boundary L' ∧ L'.steps = L.steps + 1)
    (fun L' _ ↦ emit_quiet A.steady s₀ fun c heq ↦ by contradiction)
    (fun L' n hL' ↦ ⟨⟨hL'.1.coherent, hL'.1.calibrated.observe _ _⟩, hL'.2⟩)
    (fun L' budget hL' ↦
      ⟨⟨hL'.1.coherent.compact budget L'.estimator _, hL'.1.calibrated⟩, hL'.2⟩)
    (L := { L with steps := L.steps + 1 }) ⟨⟨hL.coherent, hL.calibrated⟩, rfl⟩ h
  rw [step_eq]
  refine wp_bind_of hfit ?_
  rintro L' s ⟨⟨hL', hsteps⟩, h⟩
  unfold ask
  refine wp_bind_of (completeWithRetry_quiet _ _ _ s h) fun c s h ↦ ?_
  rw [← hsteps]
  exact respond_stepped (L := { L' with messages := L'.messages.map Entry.cached })
    ⟨hL'.coherent.cached, hL'.calibrated⟩ _ c h

/-! ## What a checkpoint leaves to do -/

variable (A) in
/-- A run that ends as `r` in `s'` has just saved `c`, in the last state named:
either it goes on with the variables `c` holds, or it is completed. -/
inductive Remains (r : Except Stop AgentResult) (s' : St) : Checkpoint → St → Prop
  | step {L : Loop} {t : St} (hL : A.Boundary L)
      (hrun : loop A.steady A.launch (A.config.maxSteps - L.steps) L t = (r, s')) :
      Remains r s' (A.checkpoint L L.messages none none none) t
  | done {c : Checkpoint} {result : AgentResult} (hr : r = .ok result)
      (hc : A.Completed c result) : Remains r s' c s'

variable (A) in
/-- From each checkpoint to continue from, on the way to the end of a run, the
run goes on as the checkpoint says. -/
inductive Traced (r : Except Stop AgentResult) (s' : St) : St → Prop
  | done : Traced r s' s'
  | event {s : St} {ev : Event} (hev : ∀ c, ev ≠ .saved c) (h : Traced r s' (s.after [ev])) :
      Traced r s' s
  | saved {s : St} {c : Checkpoint} (hc : Coherent c.messages)
      (hremains : c.Continues → A.Remains r s' c (s.after [.saved c]))
      (h : Traced r s' (s.after [.saved c])) : Traced r s' s

variable {r : Except Stop AgentResult} {s s' : St}

theorem Traced.quiet {s₁ : St} (hquiet : Quiet s s₁) (h : A.Traced r s' s₁) : A.Traced r s' s := by
  obtain ⟨evs, hevs, rfl⟩ := hquiet
  induction evs generalizing s with
  | nil => rwa [St.after_nil] at h
  | cons ev evs ih =>
      have hev : ∀ c, ev ≠ .saved c := by
        rintro c rfl
        exact hevs c List.mem_cons_self
      refine .event hev (ih (fun c hc ↦ hevs c (List.mem_cons_of_mem _ hc)) ?_)
      rwa [St.after_after]

theorem Traced.events (h : A.Traced r s' s) :
    ∃ evs, s' = s.after evs ∧ (∀ c, .saved c ∈ evs → Coherent c.messages) ∧
      ∀ pre c post, evs = pre ++ .saved c :: post → c.Continues →
        A.Remains r s' c (s.after (pre ++ [.saved c])) := by
  induction h with
  | done => exact ⟨[], s'.after_nil.symm, by simp, by simp⟩
  | event hev h ih =>
      obtain ⟨evs, heq, hcoherent, hremains⟩ := ih
      rename_i s ev
      refine ⟨ev :: evs, by rw [heq, St.after_after]; rfl, ?_, ?_⟩
      · intro c hmem
        rcases List.mem_cons.mp hmem with heq | hmem
        · exact absurd heq.symm (hev c)
        · exact hcoherent c hmem
      · intro pre c post hsplit hc
        cases pre with
        | nil => exact absurd (List.cons.inj hsplit).1 (hev c)
        | cons e pre =>
            obtain ⟨rfl, hevs⟩ := List.cons.inj hsplit
            have hrest := hremains pre c post hevs hc
            rwa [St.after_after] at hrest
  | saved hcoh hcont h ih =>
      obtain ⟨evs, heq, hcoherent, hremains⟩ := ih
      rename_i s c₀
      refine ⟨.saved c₀ :: evs, by rw [heq, St.after_after]; rfl, ?_, ?_⟩
      · intro c hmem
        rcases List.mem_cons.mp hmem with heq | hmem
        · obtain rfl := Event.saved.inj heq
          exact hcoh
        · exact hcoherent c hmem
      · intro pre c post hsplit hc
        cases pre with
        | nil =>
            obtain rfl := Event.saved.inj (List.cons.inj hsplit).1
            exact hcont hc
        | cons e pre =>
            obtain ⟨rfl, hevs⟩ := List.cons.inj hsplit
            have hrest := hremains pre c post hevs hc
            rwa [St.after_after] at hrest

theorem traced_bind {α : Type} {m : M α} {f : α → M AgentResult}
    (h : m.wp (fun a s₁ ↦ A.Traced (f a s₁).1 (f a s₁).2 s)
      (fun e s₁ ↦ A.Traced (.error e) s₁ s) s) :
    A.Traced ((m >>= f) s).1 ((m >>= f) s).2 s := by
  change A.Traced (Exec.bind m f s).1 (Exec.bind m f s).2 s
  unfold Exec.wp at h
  unfold Exec.bind
  generalize m s = outcome at h ⊢
  obtain ⟨_ | a, s₁⟩ := outcome
  · exact h
  · exact h

theorem Ended.traced {result : AgentResult} (h : A.Ended s result s') :
    A.Traced (.ok result) s' s := by
  obtain ⟨c, hcoherent, ⟨s₁, hquiet, rfl⟩, hc⟩ := h
  exact .quiet hquiet (.saved hcoherent (fun hcontinues ↦ .done rfl (hc hcontinues)) .done)

theorem finish_traced (L : Loop) (reason : StopReason) (text : String) (error : Option String)
    (persist : List Entry) (s : St) :
    A.Traced (finish A.steady A.launch L reason text error persist s).1
      (finish A.steady A.launch L reason text error persist s).2 s := by
  have h := finish_ended (A := A) L reason text error persist (Quiet.refl s)
  unfold Exec.wp at h
  generalize finish A.steady A.launch L reason text error persist s = outcome at h ⊢
  obtain ⟨_ | result, s₁⟩ := outcome
  · exact .quiet h .done
  · exact Ended.traced h

theorem wrapUp_traced (L : Loop) (s : St) :
    A.Traced (wrapUp A.steady A.launch L s).1 (wrapUp A.steady A.launch L s).2 s := by
  unfold wrapUp
  split
  · refine traced_bind (wp_mono (completeWithRetry_quiet _ _ _ s (Quiet.refl s)) ?_
      fun e s₁ h ↦ .quiet h .done)
    intro c s₁ h
    refine .quiet h ?_
    cases c with
    | error repr => exact finish_traced _ _ _ _ _ s₁
    | ok t =>
        refine traced_bind ?_
        rw [save_wp]
        refine .saved (coherent_strip _) (fun hcontinues ↦ ?_) (finish_traced _ _ _ _ _ _)
        -- the wrap-up answer closes this checkpoint
        rcases hcontinues with hresult | ⟨-, hlast⟩
        · contradiction
        · change (List.getLast? (List.map Entry.strip (_ ++ [_]))).any _ = false at hlast
          rw [List.map_append, List.map_singleton, List.getLast?_concat] at hlast
          contradiction
  · exact finish_traced _ _ _ _ _ s

theorem loop_traced (rem : ℕ) :
    ∀ (L : Loop) (s : St), A.Boundary L → rem = A.config.maxSteps - L.steps →
      A.Traced (loop A.steady A.launch rem L s).1 (loop A.steady A.launch rem L s).2 s := by
  induction rem with
  | zero => exact fun L s _ _ ↦ wrapUp_traced L s
  | succ rem ih =>
      intro L s hL hrem
      refine traced_bind (wp_mono (step_stepped hL (Quiet.refl s)) ?_ fun e s₁ h ↦ .quiet h .done)
      intro next s₁ h
      cases next with
      | inr result => exact Ended.traced h
      | inl L' =>
          obtain ⟨hsteps, hL', s₂, hquiet, rfl⟩ := h
          have hrem' : rem = A.config.maxSteps - L'.steps := by omega
          refine .quiet hquiet (.saved (coherent_strip _) (fun _ ↦ ?_) (ih L' _ hL' hrem'))
          refine .step hL' ?_
          rw [← hrem']

/-! ## Processes -/

variable (A) in
/-- A process that has looked for its file. -/
def proceed (w : World) : Option Checkpoint → M AgentResult
  | some c => resume w A.launch c
  | none => start w A.launch

theorem restore_world (dies : History → Bool) (c : Checkpoint) :
    restore (A.world dies) c = pure () := by
  unfold restore
  split
  · exact if_neg Bool.false_ne_true
  · rfl

variable (A) in
/-- The variables of a fresh run. -/
def initial : Loop where
  messages := [⟨.system (systemPromptWith A.config.systemPrompt A.notes), none⟩,
    ⟨.user A.task none, none⟩]
  steps := 0
  toolCalls := 0
  compactions := 0
  usage := {}
  guardRejections := 0
  guardRecoveries := 0
  estimator := A.estimator
  resumedFrom := none

theorem start_world (dies : History → Bool) :
    start (A.world dies) A.launch =
      (save (A.world dies) A.launch A.initial A.initial.messages none none none >>= fun _ ↦
        loop (A.world dies) A.launch A.config.maxSteps A.initial) :=
  rfl

variable (A) in
/-- `resume` once the checkpoint is this task's. -/
def takeUp (w : World) (c : Checkpoint) : M AgentResult :=
  match c.result with
  | some (reason, text, error) => do
      let cost ← currentCost A.launch c.usage
      pure (agentResult (c.toLoop A.estimator) reason text error cost)
  | none => loop w A.launch (A.config.maxSteps - c.steps) (c.toLoop A.estimator)

theorem resume_world (dies : History → Bool) (c : Checkpoint) :
    resume (A.world dies) A.launch c =
      if c.task ≠ A.task then fail (.raised "ValueError") else A.takeUp (A.world dies) c := by
  unfold resume
  rw [restore_world]
  rfl

theorem initial_boundary : A.Boundary A.initial := by
  have hempty : Coherent [] := fun e he ↦ absurd he List.not_mem_nil
  refine ⟨coherent_cons rfl (coherent_cons rfl hempty), ?_⟩
  unfold Calibrated initial
  split <;> rfl

theorem run_world (dies : History → Bool) (s : St) :
    run (A.world dies) A.launch s =
      if dies (s.history ++ [.launched A.task]) then (.error .died, s.after [.launched A.task])
      else A.proceed (A.world dies) s.file (s.after [.launched A.task]) := by
  change Exec.bind (emit (A.world dies) (.launched A.task)) (fun _ ↦ Exec.bind Exec.get fun s ↦
    match s.file with
    | some c => resume (A.world dies) A.launch c
    | none => start (A.world dies) A.launch) s = _
  unfold Exec.bind
  rw [emit_world]
  by_cases hdies : dies (s.history ++ [.launched A.task]) = true
  · rw [if_pos hdies, if_pos hdies]
    rfl
  · rw [if_neg hdies, if_neg hdies]
    change (match s.file with
      | some c => resume (A.world dies) A.launch c
      | none => start (A.world dies) A.launch) (s.after [.launched A.task]) = _
    cases s.file with
    | none => rfl
    | some c => rfl

theorem proceed_traced {f : Option Checkpoint} (hf : ∀ c, f = some c → Coherent c.messages)
    (s : St) :
    A.Traced (A.proceed A.steady f s).1 (A.proceed A.steady f s).2 s := by
  cases f with
  | none =>
      change A.Traced (start A.steady A.launch s).1 (start A.steady A.launch s).2 s
      unfold steady
      rw [start_world]
      refine traced_bind ?_
      change (save A.steady A.launch _ _ _ _ _).wp _ _ s
      rw [save_wp]
      exact .saved (coherent_strip _) (fun _ ↦ .step initial_boundary rfl)
        (loop_traced _ _ _ initial_boundary rfl)
  | some c =>
      change A.Traced (resume A.steady A.launch c s).1 (resume A.steady A.launch c s).2 s
      unfold steady
      rw [resume_world]
      split_ifs with htask
      · exact .done
      · unfold takeUp
        cases c.result with
        | none => exact loop_traced _ _ _ ⟨hf c rfl, calibrated_restored A.estimator c⟩ rfl
        | some result =>
            dsimp only
            rcases currentCost_eq A.launch c.usage with ⟨cost, hcost⟩ | ⟨e, he⟩
            · rw [hcost]
              exact .done
            · rw [he]
              exact .done

variable {dies : History → Bool} {b₁ b₂ : St}

theorem takeUp_ends (dies : History → Bool) (c : Checkpoint) :
    Coupled (A.coupling dies b₁ b₂) (A.coupling dies b₁ b₂).rel (A.takeUp (A.world dies) c)
      (A.takeUp A.steady c) (A.Ends dies b₁ b₂) := by
  have hsame : SameCost (c.toLoop A.estimator).messages (c.toLoop A.estimator).messages := rfl
  unfold takeUp
  cases c.result with
  | none => exact loop_ends dies _ (c.toLoop A.estimator) (some c.steps) hsame
  | some result =>
      refine (currentCost_agrees A.launch c.usage).bind_same fun cost ↦ ?_
      exact coupled_pure fun _ _ h ↦ ⟨rfl, h⟩

theorem proceed_ends (dies : History → Bool) (f : Option Checkpoint) :
    Coupled (A.coupling dies b₁ b₂) (A.coupling dies b₁ b₂).rel (A.proceed (A.world dies) f)
      (A.proceed A.steady f) (A.Ends dies b₁ b₂) := by
  have hsame : SameCost A.initial.messages A.initial.messages := rfl
  cases f with
  | none =>
      change Coupled _ _ (start (A.world dies) A.launch) (start A.steady A.launch) _
      unfold steady
      rw [start_world, start_world]
      exact (save_agrees dies A.initial A.initial.messages none rfl none none none).bind_same
        fun _ ↦ loop_ends dies _ A.initial none hsame
  | some c =>
      change Coupled _ _ (resume (A.world dies) A.launch c) (resume A.steady A.launch c) _
      unfold steady
      rw [resume_world, resume_world]
      split_ifs with htask
      · exact coupled_fail _
      · exact takeUp_ends dies c

/-- Two ways to end that differ in caches and origin at most. -/
def Alike : Except Stop AgentResult → Except Stop AgentResult → Prop
  | .ok r₁, .ok r₂ => r₁.plain = r₂.plain
  | .error e₁, .error e₂ => e₁ = e₂
  | _, _ => False

theorem alike_of_coupled {m₁ m₂ : M AgentResult}
    (h : Coupled (A.coupling (fun _ ↦ false) b₁ b₂) (A.coupling (fun _ ↦ false) b₁ b₂).rel m₁ m₂
      (A.Ends (fun _ ↦ false) b₁ b₂))
    (hadmits : (A.coupling (fun _ ↦ false) b₁ b₂).admits (m₂ b₂).2) :
    ∃ evs, (m₁ b₁).2 = b₁.after evs ∧ (m₂ b₂).2 = b₂.after evs ∧
      Alike (m₁ b₁).1 (m₂ b₂).1 := by
  have houtcome := h.outcome b₁ b₂ ⟨[], b₁.after_nil.symm, b₂.after_nil.symm⟩ hadmits
  generalize m₁ b₁ = o₁ at houtcome ⊢
  generalize m₂ b₂ = o₂ at houtcome ⊢
  obtain ⟨e | r₁, s₁⟩ := o₁
  · obtain ⟨r, s₂⟩ := o₂
    rcases houtcome with ⟨⟨-, h, hdies⟩, -⟩ | ⟨rfl, evs, h₁, h₂⟩
    · exact absurd hdies Bool.false_ne_true
    · exact ⟨evs, h₁, h₂, rfl⟩
  · obtain ⟨r, s₂⟩ := o₂
    obtain ⟨r₂, rfl, hplain, evs, h₁, h₂⟩ := houtcome
    exact ⟨evs, h₁, h₂, hplain⟩

theorem recast_checkpoint {L : Loop} (hL : A.Boundary L)
    (result : Option (StopReason × String × Option String)) (last : Option StopReason)
    (error : Option String) :
    (A.checkpoint L L.messages result last error).toLoop A.estimator =
      L.recast (L.messages.map Entry.strip) (some L.steps) := by
  unfold Checkpoint.toLoop checkpoint snapshot Loop.recast
  dsimp only
  rw [hL.calibrated]

/-- Whoever takes up a checkpoint does what remained to be done. -/
theorem Remains.takeUp {c : Checkpoint} {t : St} (h : A.Remains r s' c t)
    (hadmits : (A.coupling (fun _ ↦ false) b₁ t).admits s') :
    c.task = A.task ∧ ∃ evs, (A.takeUp A.steady c b₁).2 = b₁.after evs ∧ s' = t.after evs ∧
      Alike (A.takeUp A.steady c b₁).1 r := by
  cases h with
  | step hL hrun =>
      rename_i L
      refine ⟨rfl, ?_⟩
      have htake : A.takeUp A.steady (A.checkpoint L L.messages none none none) =
          loop A.steady A.launch (A.config.maxSteps - L.steps)
            (L.recast (L.messages.map Entry.strip) (some L.steps)) := by
        rw [← recast_checkpoint hL none none none]
        rfl
      have hloop : Coupled (A.coupling (fun _ ↦ false) b₁ t)
          (A.coupling (fun _ ↦ false) b₁ t).rel
          (A.takeUp A.steady (A.checkpoint L L.messages none none none))
          (loop A.steady A.launch (A.config.maxSteps - L.steps) L)
          (A.Ends (fun _ ↦ false) b₁ t) := by
        rw [htake]
        exact loop_ends _ _ L _ hL.coherent.sameCost
      have halike := alike_of_coupled hloop (by rwa [hrun])
      rwa [hrun] at halike
  | done hr hc =>
      obtain ⟨L, text, error, cost, rfl, rfl, hcost⟩ := hc
      refine ⟨rfl, [], ?_⟩
      have htake : A.takeUp A.steady
          (A.checkpoint L L.messages (some (.completed, text, error)) none none) b₁ =
          (.ok (agentResult ((A.checkpoint L L.messages (some (.completed, text, error)) none
            none).toLoop A.estimator) .completed text error cost), b₁) := by
        change Exec.bind (currentCost A.launch L.usage) _ b₁ = _
        rw [hcost]
        rfl
      rw [htake, hr]
      refine ⟨b₁.after_nil.symm, s'.after_nil.symm, ?_⟩
      change AgentResult.plain _ = AgentResult.plain _
      unfold AgentResult.plain agentResult Checkpoint.toLoop checkpoint snapshot
      dsimp only
      rw [List.map_map]
      rfl

/-! ## A process that dies and one that resumes -/

variable (A)

/-- What processes leave behind that start one after the other, each with its
own moments to die. -/
def left (processes : List (History → Bool)) : St :=
  processes.foldl (fun s dies ↦ (run (A.world dies) A.launch s).2) St.init

def crashed (dies : History → Bool) (s : St) : Except Stop AgentResult × St :=
  run (A.world dies) A.launch s

def uninterrupted (s : St) : Except Stop AgentResult × St := run A.steady A.launch s

def resumed (dies : History → Bool) (s : St) : Except Stop AgentResult × St :=
  run A.steady A.launch (A.crashed dies s).2

end Setup

/-- What the event saves has its keys in order already. -/
def Event.keysSorted : Event → Bool
  | .saved c => c.messages.all (fun e ↦ e.msg.keysSorted) && c.llmState.all Json.keysSorted
  | _ => true

theorem Checkpoint.dumped_eq {c : Checkpoint} (h : (Event.saved c).keysSorted = true) :
    c.dumped = c := by
  obtain ⟨hmessages, hstate⟩ := Bool.and_eq_true_iff.mp h
  have hmessages : c.messages.map Entry.sortKeys = c.messages :=
    (List.map_congr_left fun e he ↦
      Entry.sortKeys_eq (List.all_eq_true.mp hmessages e he)).trans (List.map_id _)
  have hstate : c.llmState.map Json.sortKeys = c.llmState := by
    cases hc : c.llmState with
    | none => rfl
    | some st =>
        rw [hc] at hstate
        exact congrArg some (Json.sortKeys_eq hstate)
  unfold dumped
  rw [hmessages, hstate]

def Event.isSaved : Event → Bool
  | .saved _ => true
  | _ => false

/-- The events up to the last checkpoint, or else the first event. -/
def keptOf (evs : List Event) : List Event :=
  match (evs.reverse.dropWhile fun ev ↦ !ev.isSaved).reverse with
  | [] => evs.take 1
  | kept => kept

theorem isSaved_eq_false {evs : List Event} (h : ∀ c, .saved c ∉ evs) :
    ∀ ev ∈ evs, (!ev.isSaved) = true := by
  intro ev hev
  cases ev with
  | saved c => exact absurd hev (h c)
  | launched | restored | request | countTokens | dispatched | ran => rfl

theorem keptOf_quiet {evs : List Event} (h : ∀ c, .saved c ∉ evs) : keptOf evs = evs.take 1 := by
  have hdrop : (evs.reverse.dropWhile fun ev ↦ !ev.isSaved) = [] := by
    rw [List.dropWhile_eq_nil_iff]
    exact fun ev hev ↦ isSaved_eq_false h ev (List.mem_reverse.mp hev)
  unfold keptOf
  rw [hdrop]
  rfl

theorem keptOf_saved (pre : List Event) (c : Checkpoint) {post : List Event}
    (h : ∀ c, .saved c ∉ post) : keptOf (pre ++ .saved c :: post) = pre ++ [.saved c] := by
  have hpost : ∀ ev ∈ post.reverse, (!ev.isSaved) = true :=
    fun ev hev ↦ isSaved_eq_false h ev (List.mem_reverse.mp hev)
  have hdrop : ((pre ++ .saved c :: post).reverse.dropWhile fun ev ↦ !ev.isSaved) =
      .saved c :: pre.reverse := by
    rw [List.reverse_append, List.reverse_cons, List.append_assoc,
      List.dropWhile_append_of_pos hpost]
    rfl
  unfold keptOf
  rw [hdrop, List.reverse_cons, List.reverse_reverse]
  split
  · rename_i hnil
    exact absurd hnil (List.concat_ne_nil _ _)
  · rfl

/-- The last checkpoint among some events. -/
theorem exists_last_saved (evs : List Event) :
    (∀ c, .saved c ∉ evs) ∨
      ∃ pre c post, evs = pre ++ .saved c :: post ∧ ∀ c, .saved c ∉ post := by
  induction evs with
  | nil => exact Or.inl fun c ↦ List.not_mem_nil
  | cons ev evs ih =>
      rcases ih with hquiet | ⟨pre, c, post, rfl, hquiet⟩
      · cases ev with
        | saved c => exact Or.inr ⟨[], c, evs, rfl, hquiet⟩
        | launched | restored | request | countTokens | dispatched | ran =>
            refine Or.inl fun c hmem ↦ ?_
            rcases List.mem_cons.mp hmem with heq | hmem
            · contradiction
            · exact hquiet c hmem
      · exact Or.inr ⟨ev :: pre, c, post, rfl, hquiet⟩

theorem fileAfter_quiet (f : Option Checkpoint) {evs : List Event} (h : ∀ c, .saved c ∉ evs) :
    fileAfter f evs = f := by
  induction evs generalizing f with
  | nil => rfl
  | cons ev evs ih =>
      have hrest := ih f fun c hc ↦ h c (List.mem_cons_of_mem _ hc)
      cases ev with
      | saved c => exact absurd List.mem_cons_self (h c)
      | launched | restored | request | countTokens | dispatched | ran => exact hrest

theorem fileAfter_saved (f : Option Checkpoint) (pre : List Event) (c : Checkpoint)
    {post : List Event} (h : ∀ c, .saved c ∉ post) :
    fileAfter f (pre ++ .saved c :: post) = some c.dumped := by
  rw [fileAfter_append]
  exact fileAfter_quiet (some c.dumped) h

/-- The file is one of the checkpoints saved, unless it is the old one. -/
theorem fileAfter_eq (f : Option Checkpoint) (evs : List Event) :
    fileAfter f evs = f ∨ ∃ c, .saved c ∈ evs ∧ fileAfter f evs = some c.dumped := by
  rcases exists_last_saved evs with hquiet | ⟨pre, c, post, rfl, hquiet⟩
  · exact Or.inl (fileAfter_quiet f hquiet)
  · refine Or.inr ⟨c, ?_, fileAfter_saved f pre c hquiet⟩
    exact List.mem_append_right pre List.mem_cons_self

namespace Setup

variable (A : Setup)

/-- What the process had done when it last saved, or launched. -/
def kept (dies : History → Bool) (s : St) : List Event :=
  keptOf ((A.crashed dies s).2.history.drop s.history.length)

/-- What the uninterrupted run does from there on. -/
def rest (dies : History → Bool) (s : St) : List Event :=
  (A.uninterrupted s).2.history.drop (s.history.length + (A.kept dies s).length)

/-- The process that resumes does what the uninterrupted one does from the last
checkpoint on, and ends alike. -/
structure Invisible (dies : History → Bool) (s : St) : Prop where
  uninterrupted : (A.uninterrupted s).2 = s.after (A.kept dies s ++ A.rest dies s)
  resumed : (A.resumed dies s).2 =
    (A.crashed dies s).2.after (.launched A.task :: A.rest dies s)
  alike : Alike (A.resumed dies s).1 (A.uninterrupted s).1

/-- The checkpoint left, if it is a new one, is one to continue from, its objects
had their keys in order before it was written, and no ids are made both before
and after it. -/
structure Harmless (dies : History → Bool) (s : St) : Prop where
  checkpoint : A.kept dies s = [.launched A.task] ∨
    ∀ c, (A.crashed dies s).2.file = some c → c.Continues
  keys : (A.kept dies s).getLast?.all Event.keysSorted = true
  ids : A.minted (s.history ++ A.kept dies s) = 0 ∨ ∀ ev ∈ A.rest dies s, A.mintedBy ev = 0

variable {A} {dies : History → Bool} {s : St}

/-- A process that may die gets through some of the events of one that does not. -/
theorem crashed_prefix (dies : History → Bool) (s : St) :
    ∃ evs more, (A.crashed dies s).2 = (s.after [.launched A.task]).after evs ∧
      (A.uninterrupted s).2 = (s.after [.launched A.task]).after (evs ++ more) := by
  have hsteady : A.uninterrupted s = A.proceed A.steady s.file (s.after [.launched A.task]) :=
    run_world _ s
  rw [hsteady]
  unfold crashed
  rw [run_world]
  generalize s.after [.launched A.task] = t
  have hproceed : Coupled (A.coupling dies t t) (A.coupling dies t t).rel
      (A.proceed (A.world dies) s.file) (A.proceed A.steady s.file) (A.Ends dies t t) :=
    proceed_ends dies s.file
  split_ifs with hdies
  · obtain ⟨whole, hwhole⟩ := hproceed.grows t
    exact ⟨[], whole, t.after_nil.symm, hwhole⟩
  · have houtcome := hproceed.outcome t t ⟨[], t.after_nil.symm, t.after_nil.symm⟩ (Or.inl rfl)
    generalize A.proceed (A.world dies) s.file t = o₁ at houtcome ⊢
    generalize A.proceed A.steady s.file t = o₂ at houtcome ⊢
    obtain ⟨e | r₁, s₁⟩ := o₁
    · obtain ⟨r, s₂⟩ := o₂
      rcases houtcome with ⟨-, s₃, ⟨evs, h₁, rfl⟩, more, h₂⟩ | ⟨-, evs, h₁, h₂⟩
      · exact ⟨evs, more, h₁, by rw [← St.after_after]; exact h₂⟩
      · exact ⟨evs, [], h₁, by rw [List.append_nil]; exact h₂⟩
    · obtain ⟨r, s₂⟩ := o₂
      obtain ⟨r₂, -, -, evs, h₁, h₂⟩ := houtcome
      exact ⟨evs, [], h₁, by rw [List.append_nil]; exact h₂⟩

theorem St.after_inj {s : St} {evs evs' : List Event} (h : s.after evs = s.after evs') :
    evs = evs' :=
  List.append_cancel_left (congrArg St.history h)

theorem history_drop (s : St) (evs : List Event) :
    (s.after evs).history.drop s.history.length = evs :=
  List.drop_left

theorem rest_eq {kept rest : List Event} (hkept : A.kept dies s = kept)
    (hwhole : (A.uninterrupted s).2 = s.after (kept ++ rest)) : A.rest dies s = rest := by
  unfold Setup.rest
  rw [hkept, hwhole]
  change (s.history ++ (kept ++ rest)).drop (s.history.length + kept.length) = rest
  rw [← List.append_assoc, ← List.length_append, List.drop_left]

theorem minted_launched (h : History) (task : String) : A.minted (h ++ [.launched task]) = 0 := by
  rw [minted_append]
  rfl

theorem resumed_eq (dies : History → Bool) (s : St) :
    A.resumed dies s = A.proceed A.steady (A.crashed dies s).2.file
      ((A.crashed dies s).2.after [.launched A.task]) :=
  run_world _ _

/-- The crash left no checkpoint of its own. -/
theorem invisible_of_quiet {evs : List Event} (hquiet : ∀ c, .saved c ∉ evs)
    (hcrashed : (A.crashed dies s).2 = (s.after [.launched A.task]).after evs) :
    A.Invisible dies s := by
  have hlaunched : ∀ c, Event.saved c ∉ Event.launched A.task :: evs := by
    intro c hmem
    rcases List.mem_cons.mp hmem with heq | hmem
    · contradiction
    · exact hquiet c hmem
  rw [St.after_after] at hcrashed
  have hfile : (A.crashed dies s).2.file = s.file := by
    rw [hcrashed]
    exact fileAfter_quiet s.file hlaunched
  have hkept : A.kept dies s = [.launched A.task] := by
    unfold kept
    rw [hcrashed, history_drop]
    exact keptOf_quiet hlaunched
  have hwhole : A.uninterrupted s = A.proceed A.steady s.file (s.after [.launched A.task]) :=
    run_world _ s
  have hminted (b : St) : A.minted (b.after [.launched A.task]).history = 0 :=
    minted_launched b.history A.task
  have hends : Coupled (A.coupling (fun _ ↦ false) ((A.crashed dies s).2.after [.launched A.task])
      (s.after [.launched A.task])) _ (A.proceed A.steady s.file) (A.proceed A.steady s.file) _ :=
    proceed_ends (fun _ ↦ false) s.file
  obtain ⟨rest, hresumed, hrest, halike⟩ :=
    alike_of_coupled hends (Or.inl ((hminted _).trans (hminted s).symm))
  have huninterrupted : (A.uninterrupted s).2 = s.after ([.launched A.task] ++ rest) := by
    rw [hwhole, hrest, St.after_after]
  have hrestOf := rest_eq hkept huninterrupted
  refine ⟨?_, ?_, ?_⟩
  · rw [hkept, hrestOf]
    exact huninterrupted
  · rw [resumed_eq, hfile, hresumed, St.after_after, hrestOf]
    rfl
  · rw [resumed_eq, hfile, hwhole]
    exact halike

/-- The crash left the checkpoint `c`, and the rest of the run is known. -/
theorem invisible_of_saved {pre post : List Event} {c : Checkpoint}
    (hquiet : ∀ c, .saved c ∉ post) (hdumped : c.dumped = c)
    (hcrashed : (A.crashed dies s).2 =
      (s.after [.launched A.task]).after (pre ++ .saved c :: post))
    (hremains : A.Remains (A.uninterrupted s).1 (A.uninterrupted s).2 c
      (s.after (A.kept dies s)))
    (hids : A.minted (s.history ++ A.kept dies s) = 0 ∨
      ∀ ev ∈ A.rest dies s, A.mintedBy ev = 0) : A.Invisible dies s := by
  have hfile : (A.crashed dies s).2.file = some c := by
    rw [hcrashed]
    exact (fileAfter_saved _ pre c hquiet).trans (congrArg some hdumped)
  have hadmits : (A.coupling (fun _ ↦ false) ((A.crashed dies s).2.after [.launched A.task])
      (s.after (A.kept dies s))).admits (A.uninterrupted s).2 := by
    rcases hids with hminted | hnone
    · exact Or.inl ((minted_launched _ A.task).trans hminted.symm)
    · refine Or.inr fun evs hevs ↦ ?_
      have hrest : A.rest dies s = evs := by
        unfold Setup.rest
        rw [hevs]
        change (s.history ++ A.kept dies s ++ evs).drop _ = evs
        rw [← List.length_append, List.drop_left]
      rwa [hrest] at hnone
  obtain ⟨htask, rest, hresumed, hrest, halike⟩ := hremains.takeUp hadmits
  rw [St.after_after] at hrest
  have htake : A.resumed dies s = A.takeUp A.steady c
      ((A.crashed dies s).2.after [.launched A.task]) := by
    rw [resumed_eq, hfile]
    change resume A.steady A.launch c _ = _
    unfold steady
    rw [resume_world, if_neg (not_not_intro htask)]
  have hrestOf := rest_eq rfl hrest
  refine ⟨?_, ?_, ?_⟩
  · rw [hrestOf]
    exact hrest
  · rw [htake, hresumed, St.after_after, hrestOf]
    rfl
  · rw [htake]
    exact halike

theorem invisible_of_harmless (hfile : ∀ c, s.file = some c → Coherent c.messages)
    (h : A.Harmless dies s) : A.Invisible dies s := by
  obtain ⟨evs, more, hcrashed, hwhole⟩ := crashed_prefix (A := A) dies s
  rcases exists_last_saved evs with hquiet | ⟨pre, c, post, rfl, hquiet⟩
  · exact invisible_of_quiet hquiet hcrashed
  · have hkept : A.kept dies s = .launched A.task :: pre ++ [.saved c] := by
      unfold kept
      rw [hcrashed, St.after_after, history_drop]
      exact keptOf_saved (.launched A.task :: pre) c hquiet
    have hdumped : c.dumped = c := by
      have hkeys := h.keys
      rw [hkept, List.getLast?_concat] at hkeys
      exact Checkpoint.dumped_eq hkeys
    have hcontinues : c.Continues := by
      rcases h.checkpoint with hlaunched | hcontinues
      · rw [hlaunched] at hkept
        have hnil : [] = pre ++ [Event.saved c] := (List.cons.inj hkept).2
        exact absurd hnil.symm (List.concat_ne_nil _ _)
      · apply hcontinues
        rw [hcrashed]
        exact (fileAfter_saved _ pre c hquiet).trans (congrArg some hdumped)
    have hproceed : A.uninterrupted s =
        A.proceed A.steady s.file (s.after [.launched A.task]) :=
      run_world _ s
    obtain ⟨evs, hevs, -, hremains⟩ := (proceed_traced hfile (s.after [.launched A.task])).events
    rw [← hproceed, hwhole] at hevs
    have hsplit := St.after_inj hevs
    rw [List.append_assoc] at hsplit
    have hrest := hremains pre c (post ++ more) hsplit.symm hcontinues
    rw [← hproceed, St.after_after] at hrest
    refine invisible_of_saved hquiet hdumped hcrashed ?_ h.ids
    rw [hkept]
    exact hrest

theorem left_coherent (processes : List (History → Bool)) :
    ∀ c, (A.left processes).file = some c → Coherent c.messages := by
  induction processes using List.reverseRecOn with
  | nil => exact fun c h ↦ by contradiction
  | append_singleton processes dies ih =>
      intro c hc
      have hleft : A.left (processes ++ [dies]) = (A.crashed dies (A.left processes)).2 := by
        unfold left
        rw [List.foldl_append]
        rfl
      obtain ⟨evs, more, hcrashed, hwhole⟩ := crashed_prefix (A := A) dies (A.left processes)
      have hproceed : A.uninterrupted (A.left processes) = A.proceed A.steady
          (A.left processes).file ((A.left processes).after [.launched A.task]) :=
        run_world _ _
      obtain ⟨evs', hevs, hcoherent, -⟩ :=
        (proceed_traced ih ((A.left processes).after [.launched A.task])).events
      rw [← hproceed, hwhole] at hevs
      obtain rfl := St.after_inj hevs
      rw [hleft, hcrashed] at hc
      rcases fileAfter_eq (A.left processes).file evs with heq | ⟨c', hmem, heq⟩
      · exact ih c (heq.symm.trans hc)
      · obtain rfl := Option.some.inj (heq.symm.trans hc)
        exact (hcoherent c' (List.mem_append_left more hmem)).sortKeys

/-- Whatever processes ran before, and wherever the last of them died: if that
was harmless, the next process resumes unseen. -/
theorem resume_invisible (processes : List (History → Bool)) (dies : History → Bool)
    (h : A.Harmless dies (A.left processes)) : A.Invisible dies (A.left processes) :=
  invisible_of_harmless (left_coherent processes) h

end Setup

/-! ## An agent that recovers a call twice -/

/-- The ids of the tool calls in the requests among some events. -/
def requestIds (evs : List Event) : List (List String) :=
  evs.filterMap fun ev ↦
    match ev with
    | .request messages _ => some (messages.flatMap fun e ↦ e.msg.toolCalls.map ToolCall.callId)
    | _ => none

theorem Setup.Invisible.requestIds {A : Setup} {dies : History → Bool} {s : St}
    (h : A.Invisible dies s) {n : ℕ} (hcrashed : (A.crashed dies s).2.history.length = n)
    (hkept : (s.history ++ A.kept dies s).length = n) :
    requestIds ((A.resumed dies s).2.history.drop n) =
      requestIds ((A.uninterrupted s).2.history.drop n) := by
  rw [h.resumed, h.uninterrupted]
  unfold St.after
  dsimp only
  rw [List.drop_left' hcrashed, ← List.append_assoc, List.drop_left' hkept]
  rfl

def diedIn : Except Stop AgentResult → Bool
  | .error .died => true
  | _ => false

theorem eq_died {o : Except Stop AgentResult} (h : diedIn o = true) : o = .error .died := by
  cases o with
  | ok r => contradiction
  | error e =>
      cases e with
      | died => rfl
      | raised => contradiction

/-- A model that writes its calls out as text, and is done after two of them. -/
def recoversTwice : Setup where
  config :=
    { systemPrompt := "p", maxSteps := 3, maxObservationChars := 80, maxAttempts := 1
      contextBudget := none, parallelTools := false, maxParallel := 1
      maxTotalTokens := none, maxCostUsd := none, model := "", writeTtl := "5m"
      exactTokenCheck := false, exactTokenMargin := 0, wrapUpOnMaxSteps := false
      wrapUpPrompt := "", maxGuardRetries := 2, guards := [], toolSpecs := [.str "look"]
      parallelSafe := fun _ ↦ false }
  task := "t"
  estimator := {}
  reply := fun messages _ ↦ .turn ⟨if messages.length < 6 then "look()" else "done", [], {}, none⟩
  countTokens := none
  tool := fun _ _ ↦ ⟨true, "nothing", {}⟩
  findings := [fun text ↦
    if text = "look()" then .recovers "call_in_text" "call" [("look", [])] else .accepts]
  notes := none
  repr := id
  fixed4 := fun _ ↦ ""

namespace Setup

/-- A process that dies after five events had got through the tool call of its
first step, and only the start was saved. -/
theorem recoversTwice_invisible :
    recoversTwice.Invisible (fun h ↦ h.length = 5) (recoversTwice.left []) := by
  have hfile : ((recoversTwice.crashed (fun h ↦ h.length = 5) St.init).2.file.all fun c ↦
      decide c.Continues) = true := by
    decide +kernel
  have hkeys : (recoversTwice.kept (fun h ↦ h.length = 5) St.init).getLast?.all
      Event.keysSorted = true := by
    decide +kernel
  have hminted : recoversTwice.minted
      (St.init.history ++ recoversTwice.kept (fun h ↦ h.length = 5) St.init) = 0 := by
    decide +kernel
  have hcontinues : ∀ c, (recoversTwice.crashed (fun h ↦ h.length = 5) St.init).2.file = some c →
      c.Continues := by
    generalize (recoversTwice.crashed (fun h ↦ h.length = 5) St.init).2.file = f at hfile ⊢
    rintro c rfl
    exact of_decide_eq_true hfile
  have hharmless : recoversTwice.Harmless (fun h ↦ h.length = 5) St.init := by
    constructor
    · exact Or.inr hcontinues
    · exact hkeys
    · exact Or.inl hminted
  exact resume_invisible [] _ hharmless

/-- A process that dies after the first step was saved: the next one makes
`call_1` again where the uninterrupted run makes `call_2`. -/
theorem recoversTwice_visible :
    ¬ ∀ processes dies,
      (recoversTwice.crashed dies (recoversTwice.left processes)).1 = .error .died →
      (recoversTwice.crashed dies (recoversTwice.left processes)).2.file.isSome →
      recoversTwice.Invisible dies (recoversTwice.left processes) := by
  intro h
  have hdied : diedIn (recoversTwice.crashed (fun h ↦ h.length = 6) St.init).1 = true := by
    decide +kernel
  have hfile : (recoversTwice.crashed (fun h ↦ h.length = 6) St.init).2.file.isSome := by
    decide +kernel
  have hcrashed :
      (recoversTwice.crashed (fun h ↦ h.length = 6) St.init).2.history.length = 6 := by
    decide +kernel
  have hkept : (St.init.history ++
      recoversTwice.kept (fun h ↦ h.length = 6) St.init).length = 6 := by
    decide +kernel
  have hids :
      requestIds ((recoversTwice.resumed (fun h ↦ h.length = 6) St.init).2.history.drop 6) ≠
      requestIds ((recoversTwice.uninterrupted St.init).2.history.drop 6) := by
    decide +kernel
  have hleft : recoversTwice.left [] = St.init := rfl
  have hinvisible := h [] fun h ↦ h.length = 6
  rw [hleft] at hinvisible
  exact hids ((hinvisible (eq_died hdied) hfile).requestIds hcrashed hkept)

end Setup

end NucLlm.AgentLoop
