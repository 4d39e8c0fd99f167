import NucLlm.AgentLoop.Compaction
import NucLlm.AgentLoop.Upheld

/-!
# Cached costs

A cost that is cached on a message is the cost of what the message says now.
Elision clears the cache with the content it changes, a stub starts without
one, and a guard rewrites a turn only before its cost was ever asked for.  The
saved file has no caches at all.
-/

namespace NucLlm.AgentLoop

open Exec

/-- The costs the messages carry are theirs. -/
def Coherent (ms : List Entry) : Prop := ∀ e ∈ ms, e.msgChars = e.msg.chars

theorem coherent_iff (ms : List Entry) : Coherent ms ↔ ∀ e ∈ ms, e.Valid := by
  refine forall₂_congr fun e _ ↦ ?_
  constructor
  · intro h n hn
    unfold Entry.msgChars at h
    rwa [Option.mem_def.mp hn] at h
  · exact Entry.Valid.msgChars_eq

/-- A guard writes the calls it recovered into the turn, and leaves its cache
as it is. -/
def Entry.recover (calls : List ToolCall) (e : Entry) : Entry :=
  match e.msg with
  | .assistant text _ rawContent =>
      ⟨.assistant text calls (rawContent.map fun blocks ↦ blocks ++ calls.map toolUseBlock),
        e.chars⟩
  | _ => e

theorem assistantEntry_recover (t : Turn) (calls : List ToolCall) :
    assistantEntry (t.recover calls) = (assistantEntry t).recover calls := rfl

/-- Nothing is cached on a turn yet when it is rewritten. -/
theorem chars_recover (e : Entry) (calls : List ToolCall) : (e.recover calls).chars = e.chars := by
  unfold Entry.recover
  split <;> rfl

/-! ## What becomes of messages -/

theorem coherent_strip (ms : List Entry) : Coherent (ms.map Entry.strip) := by
  intro e he
  obtain ⟨e, -, rfl⟩ := List.mem_map.mp he
  rfl

theorem Coherent.sortKeys {ms : List Entry} (h : Coherent ms) :
    Coherent (ms.map Entry.sortKeys) := by
  intro e he
  obtain ⟨e, hmem, rfl⟩ := List.mem_map.mp he
  rw [e.msgChars_sortKeys, h e hmem]
  exact (e.msg.chars_sortKeys).symm

theorem Coherent.append {ms ms' : List Entry} (h : Coherent ms) (h' : Coherent ms') :
    Coherent (ms ++ ms') :=
  List.forall_mem_append.mpr ⟨h, h'⟩

theorem coherent_cons {e : Entry} {ms : List Entry} (he : e.chars = none) (h : Coherent ms) :
    Coherent (e :: ms) := by
  refine List.forall_mem_cons.mpr ⟨?_, h⟩
  unfold Entry.msgChars
  rw [he]
  rfl

theorem coherent_elide {e : Entry} (h : e.msgChars = e.msg.chars) :
    (elide e).msgChars = (elide e).msg.chars := by
  obtain ⟨msg, chars⟩ := e
  cases msg with
  | tool => rfl
  | system | user | assistant => exact h

theorem Coherent.cached {ms : List Entry} (h : Coherent ms) : Coherent (ms.map Entry.cached) := by
  intro e he
  obtain ⟨e, hmem, rfl⟩ := List.mem_map.mp he
  exact h e hmem

theorem Coherent.compact {ms : List Entry} (h : Coherent ms) (budget : ContextBudget)
    (est : Estimator) (tools : List Json) :
    Coherent (AgentLoop.compact ms budget est tools).1 :=
  compact_forall (P := fun e ↦ e.msgChars = e.msg.chars) (fun _ he ↦ coherent_elide he)
    (fun _ _ ↦ rfl) (fun _ he ↦ he) h budget est tools

theorem coherent_uncached {ms : List Entry} (h : ∀ e ∈ ms, e.chars = none) : Coherent ms := by
  induction ms with
  | nil => exact List.forall_mem_nil _
  | cons e ms ih =>
      obtain ⟨he, hms⟩ := List.forall_mem_cons.mp h
      exact coherent_cons he (ih hms)

theorem Coherent.answered {before answers : List Entry} (h : Coherent before) {turn : Entry}
    (hturn : turn.chars = none) (hanswers : ∀ e ∈ answers, e.chars = none) :
    Coherent (before ++ turn :: answers) :=
  h.append (coherent_cons hturn (coherent_uncached hanswers))

theorem Coherent.concat {before : List Entry} (h : Coherent before) (m : Message) :
    Coherent (before ++ [⟨m, none⟩]) :=
  h.answered rfl (List.forall_mem_nil _)

variable (w : World) (l : Launch)

theorem coherent_upheld : Upholds w l 0 (fun _ ↦ True) Coherent Coherent where
  shrinks := fun _ _ _ ↦ trivial
  fresh := fun _ ↦ coherent_uncached (by simp)
  cached := fun _ h ↦ h.cached
  strip := fun ms _ ↦ coherent_strip ms
  dumped := fun _ h ↦ h.sortKeys
  dumpedDone := fun _ h ↦ h.sortKeys
  compact := fun _ budget est h ↦ h.compact budget est l.config.toolSpecs
  completed := fun _ _ _ _ _ _ _ _ ↦ coherent_strip _
  sentBack := fun _ _ _ _ _ _ _ _ _ h ↦ (h.concat _).concat _
  called := fun _ _ _ _ _ _ _ h _ huncached ↦ h.answered rfl huncached
  recovered := by
    intro _ t r ms answers _ _ _ _ _ h _ huncached
    rw [assistantEntry_recover]
    exact h.answered (chars_recover _ r.calls) huncached
  asked := fun _ h ↦ h.concat _
  wrappedUp := fun _ _ h ↦ h.concat _

/-! ## The variables of a run -/

/-- A step leaves coherent messages, in the variables or in the result. -/
def NextCoherent : Loop ⊕ AgentResult → Prop
  | .inl L => Coherent L.messages
  | .inr r => Coherent r.messages

theorem finish_coherent (L : Loop) (h : Coherent L.messages) (reason : StopReason) (text : String)
    (error : Option String) (persist : List Entry) :
    (finish w l L reason text error persist).Returns fun r ↦ Coherent r.messages :=
  Returns.after fun _ ↦ Returns.after fun _ ↦ gives_pure h

theorem ended_coherent {m : M AgentResult} (h : m.Returns fun r ↦ Coherent r.messages) :
    (m >>= fun r ↦ pure (.inr r)).Returns NextCoherent :=
  h.bind fun _ hr ↦ gives_pure hr

theorem fitContext_coherent {L : Loop} (h : Coherent L.messages) :
    (fitContext w l L).Returns fun L ↦ Coherent L.messages := by
  intro s
  refine wp_mono (fitContext_wp w l (I := fun _ ↦ True) (P := fun L ↦ Coherent L.messages)
    (fun _ _ _ _ ↦ wp_mono (wp_true _) (fun _ _ h ↦ h) fun _ _ h ↦ h) (fun _ _ h ↦ h)
    (fun L budget h ↦ h.compact budget L.estimator l.config.toolSpecs) h trivial) ?_ ?_
  · exact fun _ _ h ↦ h.1
  · exact fun _ _ h ↦ h

theorem runTools_coherent (L : Loop) {before : List Entry} {t : Turn} (h : Coherent before) :
    (runTools w l L before t).Returns NextCoherent := by
  unfold runTools
  refine Returns.after fun exceeded ↦ ?_
  cases exceeded with
  | some exceeded =>
      exact ended_coherent (finish_coherent w l _ (h.answered rfl (List.forall_mem_nil _)) _ _ _ _)
  | none =>
      refine Returns.after fun results ↦ ?_
      intro s
      rw [wp_bind, wp_ofOption]
      refine ⟨fun _ ↦ trivial, fun answers hanswers ↦ ?_⟩
      have hmessages : Coherent (before ++ assistantEntry t :: answers) :=
        h.answered rfl (toolMessages_uncached l _ _ _ hanswers)
      revert s
      refine Returns.after fun exceeded ↦ ?_
      cases exceeded with
      | some exceeded => exact ended_coherent (finish_coherent w l _ hmessages _ _ _ _)
      | none => exact Returns.after fun _ ↦ gives_pure hmessages

theorem judgeText_coherent (L : Loop) {before : List Entry} (t : Turn) (h : Coherent before) :
    (judgeText w l L before t).Returns NextCoherent := by
  have hturn : Coherent (before ++ [assistantEntry t]) := h.concat _
  unfold judgeText
  refine Returns.after fun s ↦ ?_
  dsimp only
  split
  · exact ended_coherent (finish_coherent w l _ hturn _ _ _ _)
  · split
    · exact runTools_coherent w l _ h
    · split
      · exact ended_coherent (finish_coherent w l _ (hturn.concat _) _ _ _ _)
      · exact Returns.after fun _ ↦ gives_pure (hturn.concat _)

theorem step_coherent {L : Loop} (h : Coherent L.messages) :
    (step w l L).Returns NextCoherent := by
  unfold step
  refine (fitContext_coherent w l (L := { L with steps := L.steps + 1 }) h).bind fun L hL ↦ ?_
  have hcached : Coherent (L.messages.map Entry.cached) := hL.cached
  refine Returns.after fun turn ↦ ?_
  cases turn with
  | error repr => exact ended_coherent (finish_coherent w l _ hcached _ _ _ _)
  | ok t =>
      refine Returns.after fun _ ↦ ?_
      dsimp only
      split
      · exact judgeText_coherent w l _ t hcached
      · exact runTools_coherent w l _ hcached

theorem wrapUp_coherent {L : Loop} (h : Coherent L.messages) :
    (wrapUp w l L).Returns fun r ↦ Coherent r.messages := by
  unfold wrapUp
  split
  · have hasked : Coherent ((L.messages ++ [Entry.mk (.user l.config.wrapUpPrompt none) none]).map
        Entry.cached) := (h.concat _).cached
    refine Returns.after fun turn ↦ ?_
    cases turn with
    | error repr =>
        exact finish_coherent w l _ (fun e he ↦ hasked e (List.mem_of_mem_dropLast he)) _ _ _ _
    | ok t =>
        exact Returns.after fun _ ↦ finish_coherent w l _ (hasked.concat _) _ _ _ _
  · exact finish_coherent w l _ h _ _ _ _

theorem loop_coherent (rem : ℕ) :
    ∀ L : Loop, Coherent L.messages → (loop w l rem L).Returns fun r ↦ Coherent r.messages := by
  induction rem with
  | zero => exact fun L h ↦ wrapUp_coherent w l h
  | succ rem ih =>
      intro L h
      refine (step_coherent w l h).bind fun next hnext ↦ ?_
      cases next with
      | inl L => exact ih L hnext
      | inr r => exact gives_pure hnext

/-- The variables of a fresh run. -/
def freshLoop (prompt : String) : Loop :=
  { messages := [⟨.system prompt, none⟩, ⟨.user l.task none, none⟩]
    steps := 0
    toolCalls := 0
    compactions := 0
    usage := {}
    guardRejections := 0
    guardRecoveries := 0
    estimator := l.estimator
    resumedFrom := none }

theorem coherent_freshLoop (prompt : String) : Coherent (freshLoop l prompt).messages :=
  coherent_uncached (by simp [freshLoop])

/-- The variables and the state at the head of each turn of a run begun in `s₀`. -/
inductive Turns (s₀ : St) : Loop → St → Prop where
  | started {s s' : St} {prompt : String} : emit w (.launched l.task) s₀ = (.ok (), s) →
      found l s = none → prompt = systemPromptWith l.config.systemPrompt (w.notes s.history) →
      save w l (freshLoop l prompt) (freshLoop l prompt).messages none none none s = (.ok (), s') →
      Turns s₀ (freshLoop l prompt) s'
  | resumed {s s' : St} {c : Checkpoint} : emit w (.launched l.task) s₀ = (.ok (), s) →
      found l s = some c → c.task = l.task → c.result = none → restore w c s = (.ok (), s') →
      Turns s₀ (c.toLoop l.estimator) s'
  | stepped {L L' : Loop} {s s' : St} : Turns s₀ L s → L.steps < l.config.maxSteps →
      step w l L s = (.ok (.inl L'), s') → Turns s₀ L' s'

theorem emit_file (ev : Event) (s : St) :
    (emit w ev).Ensures (fun s' ↦ s'.file = s.file) s := by
  unfold emit
  simp only [Ensures, wp_bind, wp_modify, wp_get]
  split
  · rfl
  · rfl

theorem found_coherent {s₀ s : St} (hfile : ∀ c, s₀.file = some c → Coherent c.messages)
    (hemit : (emit w (.launched l.task) s₀).2 = s) {c : Checkpoint} (h : found l s = some c) :
    Coherent c.messages := by
  unfold found at h
  split at h
  · rw [← hemit, (emit_file w _ s₀).state] at h
    exact hfile c h
  · contradiction

theorem turns_coherent {s₀ : St} (hfile : ∀ c, s₀.file = some c → Coherent c.messages)
    {L : Loop} {s : St} (h : Turns w l s₀ L s) : Coherent L.messages := by
  induction h with
  | started _ _ _ _ => exact coherent_freshLoop l _
  | resumed hemit hfound _ _ _ =>
      exact found_coherent w l hfile (congrArg Prod.snd hemit) hfound
  | stepped _ _ hstep ih => exact (step_coherent w l ih).of_ok (congrArg Prod.fst hstep)

theorem resume_coherent {c : Checkpoint} (h : Coherent c.messages) :
    (resume w l c).Returns fun r ↦ Coherent r.messages := by
  unfold resume
  split
  · exact gives_fail trivial
  · refine Returns.after fun _ ↦ ?_
    dsimp only
    split
    · exact Returns.after fun _ ↦ gives_pure h
    · exact loop_coherent w l _ _ h

theorem start_coherent : (start w l).Returns fun r ↦ Coherent r.messages :=
  Returns.after fun s ↦ Returns.after fun _ ↦
    loop_coherent w l _ _ (coherent_freshLoop l (systemPromptWith l.config.systemPrompt
      (w.notes s.history)))

theorem run_coherent {s₀ : St} (hfile : ∀ c, s₀.file = some c → Coherent c.messages) :
    (run w l).wp (fun r _ ↦ Coherent r.messages) (fun _ _ ↦ True) s₀ := by
  have hemit := wp_mono (emit_file w (.launched l.task) s₀) (fun _ _ h ↦ h)
    fun _ _ (_ : _ = s₀.file) ↦ trivial
  refine wp_bind_of hemit fun _ s hs ↦ ?_
  rw [wp_bind, wp_get]
  split
  · rename_i c hc
    refine resume_coherent w l (hfile c ?_) s
    rw [← hs]
    split at hc
    · exact hc
    · contradiction
  · exact start_coherent w l s

/-! ## Campaigns -/

/-- The messages an event carries. -/
def Event.messages : Event → List Entry
  | .request messages _ => messages
  | .countTokens messages _ => messages
  | .saved c => c.messages
  | _ => []

theorem coherent_of_carries (ev : Event) (h : ev.Carries Coherent Coherent) :
    Coherent ev.messages := by
  cases ev with
  | request | countTokens => exact h
  | saved c =>
      change c.Carries Coherent Coherent at h
      unfold Checkpoint.Carries at h
      split at h
      · exact h
      · exact h
  | launched | restored | dispatched | ran => exact List.forall_mem_nil _

theorem campaign_file_coherent (launches : List Launch) {c : Checkpoint}
    (h : (campaign w launches).file = some c) : Coherent c.messages :=
  coherent_of_carries (.saved c)
    ((Upholds.campaign_carried (coherent_upheld w) launches).file c h)

/-- After any launches, what was sent, counted or saved is coherent.  In a further
run so are the variables at the head of every turn, after compaction, and in the result. -/
theorem costs_coherent (launches : List Launch) :
    (∀ ev ∈ (campaign w launches).history, Coherent ev.messages) ∧
    (∀ c, (campaign w launches).file = some c → Coherent c.messages) ∧
    (∀ L s, Turns w l (campaign w launches) L s → Coherent L.messages ∧
      ∀ L' s', fitContext w l { L with steps := L.steps + 1 } s = (.ok L', s') →
        Coherent L'.messages) ∧
    ∀ r s', run w l (campaign w launches) = (.ok r, s') → Coherent r.messages := by
  have hfile := fun c ↦ campaign_file_coherent w launches (c := c)
  refine ⟨fun ev hev ↦ ?_, hfile, fun L s h ↦ ?_, fun r s' h ↦ ?_⟩
  · exact coherent_of_carries ev
      ((Upholds.campaign_carried (coherent_upheld w) launches).events ev hev)
  · have hL := turns_coherent w l hfile h
    exact ⟨hL, fun L' s' hfit ↦
      (fitContext_coherent w l (L := { L with steps := L.steps + 1 }) hL).of_ok
        (congrArg Prod.fst hfit)⟩
  · have hrun := run_coherent w l hfile
    unfold Exec.wp at hrun
    rw [h] at hrun
    exact hrun

end NucLlm.AgentLoop
