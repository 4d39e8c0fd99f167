import NucLlm.AgentLoop.Agent

/-!
# What the parts of a run keep

Rules for the parts of a run that end in one way or another with the same kind
of events: what every such event keeps, the part keeps.
-/

namespace NucLlm.AgentLoop

open Exec

/-! ## Effects -/

theorem emit_wp {w : World} {ev : Event} {Q : St → Prop} {s : St}
    (h : Q { s with history := s.history ++ [ev] }) :
    (emit w ev).wp (fun _ ↦ Q) (fun _ ↦ Q) s := by
  unfold emit
  simp only [wp_bind, wp_modify, wp_get]
  split
  · exact h
  · exact h

variable (w : World) (l : Launch)

/-- The checkpoint a launch finds. -/
def found (s : St) : Option Checkpoint := if l.checkpointed then s.file else none

theorem checkRatio_preserves (est : Estimator) (I : St → Prop) : (checkRatio est).Preserves I := by
  unfold checkRatio
  split
  · exact preserves_fail _ I
  · exact preserves_pure _ I

theorem currentCost_preserves (usage : Usage) (I : St → Prop) :
    (currentCost l usage).Preserves I := by
  unfold currentCost
  split
  · exact preserves_pure _ I
  · exact preserves_ofOption _ _ I

theorem budgetExceeded_preserves (usage : Usage) (I : St → Prop) :
    (budgetExceeded w l usage).Preserves I := by
  unfold budgetExceeded
  split
  · exact preserves_pure _ I
  · split
    · exact preserves_pure _ I
    · refine (currentCost_preserves l usage I).bind fun cost ↦ ?_
      cases cost <;> exact preserves_pure _ I

/-- What one attempt keeps until the model replies, all attempts keep. -/
theorem attempt_rule {messages : List Entry} {tools : List Json} {I E : St → Prop}
    {R : Turn → St → Prop}
    (hask : ∀ s, I s → (askOnce w messages tools).wp
      (fun c s ↦ match c with
        | .ok t => R t s
        | .error _ => I s) (fun _ ↦ E) s) (rem : ℕ) :
    ∀ last s, I s → (attempt w l messages tools rem last).wp
      (fun c s ↦ match c with
        | .ok t => R t s
        | .error _ => I s) (fun _ ↦ E) s := by
  induction rem with
  | zero => exact fun last s h ↦ h
  | succ rem ih =>
      intro last s h
      refine wp_bind_of (hask s h) fun c s hc ↦ ?_
      split
      · exact hc
      · exact ih _ s hc
      · exact hc

theorem completeWithRetry_rule (est : Estimator) {messages : List Entry} {tools : List Json}
    {I E : St → Prop} {R : Turn → St → Prop} (hE : ∀ s, I s → E s)
    (hask : ∀ s, I s → (askOnce w messages tools).wp
      (fun c s ↦ match c with
        | .ok t => R t s
        | .error _ => I s) (fun _ ↦ E) s) {s : St} (h : I s) :
    (completeWithRetry w l est messages tools).wp
      (fun c s ↦ match c with
        | .ok t => R t s
        | .error _ => I s) (fun _ ↦ E) s := by
  unfold completeWithRetry
  refine wp_bind_of ((checkRatio_preserves est I).wp h fun _ s h ↦ hE s h) fun _ s h ↦ ?_
  split
  · exact hE s h
  · exact attempt_rule w l hask _ _ s h

theorem askOnce_preserves {I : St → Prop} {messages : List Entry} {tools : List Json}
    (h : (emit w (.request messages tools)).Preserves I) :
    (askOnce w messages tools).Preserves I := by
  refine h.bind fun _ ↦ (preserves_get _).bind fun s ↦ ?_
  split
  · exact preserves_pure _ _
  · exact preserves_pure _ _
  · exact preserves_fail _ _

theorem completeWithRetry_preserves {I : St → Prop} (est : Estimator) {messages : List Entry}
    {tools : List Json} (h : (emit w (.request messages tools)).Preserves I) :
    (completeWithRetry w l est messages tools).Preserves I := by
  intro s hs
  have hask : ∀ s, I s → (askOnce w messages tools).wp
      (fun c s ↦ match c with
        | .ok _ => I s
        | .error _ => I s) (fun _ ↦ I) s := by
    intro s hs
    refine wp_mono (askOnce_preserves w h s hs) (fun c s hs ↦ ?_) fun _ _ hs ↦ hs
    cases c <;> exact hs
  refine wp_mono (completeWithRetry_rule w l est (R := fun _ ↦ I) (fun _ hs ↦ hs) hask hs)
    (fun c s hs ↦ ?_) fun _ _ hs ↦ hs
  cases c <;> exact hs

/-! ## Tools -/

theorem dispatchSerial_results {I : St → Prop} (h : ∀ c r, (emit w (.ran c r)).Preserves I)
    (calls : List ToolCall) :
    ∀ i s, I s → (dispatchSerial w i calls).wp
      (fun results s ↦ results.length = calls.length ∧ I s) (fun _ ↦ I) s := by
  induction calls with
  | nil => exact fun i s hs ↦ ⟨rfl, hs⟩
  | cons c cs ih =>
      intro i s hs
      unfold dispatchSerial
      simp only [wp_bind, wp_get, wp_pure]
      refine wp_mono (h c _ s hs) (fun _ s hs ↦ ?_) fun _ _ hs ↦ hs
      refine wp_mono (ih (i + 1) s hs) (fun rs s hs ↦ ?_) fun _ _ hs ↦ hs
      exact ⟨congrArg Nat.succ hs.1, hs.2⟩

theorem dispatchPool_results {I : St → Prop} (h : ∀ c r, (emit w (.ran c r)).Preserves I)
    (history : History) (calls : List ToolCall) :
    ∀ i s, I s → (dispatchPool w history i calls).wp
      (fun results s ↦ results.length = calls.length ∧ I s) (fun _ ↦ I) s := by
  induction calls with
  | nil => exact fun i s hs ↦ ⟨rfl, hs⟩
  | cons c cs ih =>
      intro i s hs
      unfold dispatchPool
      simp only [wp_bind, wp_pure]
      refine wp_mono (h c _ s hs) (fun _ s hs ↦ ?_) fun _ _ hs ↦ hs
      refine wp_mono (ih (i + 1) s hs) (fun rs s hs ↦ ?_) fun _ _ hs ↦ hs
      exact ⟨congrArg Nat.succ hs.1, hs.2⟩

theorem dispatchAll_results {I : St → Prop} {calls : List ToolCall}
    (hbatch : (emit w (.dispatched calls)).Preserves I)
    (hran : ∀ c r, (emit w (.ran c r)).Preserves I) {s : St} (hs : I s) :
    (dispatchAll w l calls).wp (fun results s ↦ results.length = calls.length ∧ I s)
      (fun _ ↦ I) s := by
  unfold dispatchAll
  refine wp_bind_of (hbatch s hs) fun _ s hs ↦ ?_
  dsimp only
  split
  · split
    · exact hs
    · exact dispatchPool_results w hran _ calls 0 s hs
  · exact dispatchSerial_results w hran calls 0 s hs

theorem toolMessage_answers {c : ToolCall} {r : ToolResult} {e : Entry}
    (h : toolMessage l c r = some e) : e.answers = some (c.callId, c.name) := by
  obtain ⟨observation, -, rfl⟩ := Option.map_eq_some_iff.mp h
  rfl

theorem toolMessages_answers (calls : List ToolCall) :
    ∀ (results : List ToolResult) (answers : List Entry), results.length = calls.length →
      toolMessages l calls results = some answers →
      answers.map Entry.answers = calls.map fun c ↦ some (c.callId, c.name) := by
  induction calls with
  | nil =>
      intro results answers _ h
      simp_all [toolMessages]
  | cons c cs ih =>
      intro results answers hlen h
      cases results with
      | nil => contradiction
      | cons r rs =>
          simp only [toolMessages, Option.bind_eq_bind, Option.bind_eq_some_iff, Option.pure_def,
            Option.some.injEq] at h
          obtain ⟨e, he, es, hes, rfl⟩ := h
          rw [List.map_cons, List.map_cons, toolMessage_answers l he,
            ih rs es (Nat.succ.inj hlen) hes]

theorem toolMessages_uncached (calls : List ToolCall) :
    ∀ (results : List ToolResult) (answers : List Entry),
      toolMessages l calls results = some answers → ∀ e ∈ answers, e.chars = none := by
  induction calls with
  | nil =>
      intro results answers h
      obtain rfl : [] = answers := Option.some.inj h
      simp
  | cons c cs ih =>
      intro results answers h
      cases results with
      | nil =>
          obtain rfl : [] = answers := Option.some.inj h
          simp
      | cons r rs =>
          simp only [toolMessages, Option.bind_eq_bind, Option.bind_eq_some_iff, Option.pure_def,
            Option.some.injEq] at h
          obtain ⟨e, he, es, hes, rfl⟩ := h
          obtain ⟨observation, -, rfl⟩ := Option.map_eq_some_iff.mp he
          exact List.forall_mem_cons.mpr ⟨rfl, ih rs es hes⟩

/-! ## The head of a step -/

section Head

variable {I : St → Prop} {P : Loop → Prop} (budget : ContextBudget)

theorem maybeExactCheck_wp
    (hcount : ∀ L, P L → (emit w (.countTokens L.messages l.config.toolSpecs)).Preserves I)
    (hobserve : ∀ L n, P L → P { L with
      estimator := L.estimator.observe (charsOf L.messages l.config.toolSpecs) n })
    (hcompact : ∀ L, P L → P (withCompaction l L budget)) {L : Loop} {s : St} (hL : P L)
    (hs : I s) : (maybeExactCheck w l L budget).wp (fun L s ↦ P L ∧ I s) (fun _ ↦ I) s := by
  unfold maybeExactCheck
  split
  · exact ⟨hL, hs⟩
  · dsimp only
    split
    · exact ⟨hL, hs⟩
    · refine wp_bind_of (hcount L hL s hs) fun _ s hs ↦ ?_
      simp only [wp_bind, wp_get]
      split
      · exact hs
      · exact ⟨hL, hs⟩
      · rename_i n _
        have hL := hobserve L n hL
        split
        · exact ⟨hL, hs⟩
        · refine wp_bind_of (checkRatio_preserves _ I s hs) fun _ s hs ↦ ?_
          exact ⟨hcompact _ hL, hs⟩

/-- What compaction, counting and its calibration keep holds of the variables that
are sent. -/
theorem fitContext_wp
    (hcount : ∀ L, P L → (emit w (.countTokens L.messages l.config.toolSpecs)).Preserves I)
    (hobserve : ∀ L n, P L → P { L with
      estimator := L.estimator.observe (charsOf L.messages l.config.toolSpecs) n })
    (hcompact : ∀ L budget, P L → P (withCompaction l L budget)) {L : Loop} {s : St} (hL : P L)
    (hs : I s) : (fitContext w l L).wp (fun L s ↦ P L ∧ I s) (fun _ ↦ I) s := by
  unfold fitContext
  split
  · exact ⟨hL, hs⟩
  · rename_i budget _
    refine wp_bind_of (checkRatio_preserves _ I s hs) fun _ s hs ↦ ?_
    have hfit := hcompact L budget hL
    dsimp only
    split
    · exact maybeExactCheck_wp w l budget hcount hobserve (hcompact · budget) hfit hs
    · exact ⟨hfit, hs⟩

end Head

end NucLlm.AgentLoop
