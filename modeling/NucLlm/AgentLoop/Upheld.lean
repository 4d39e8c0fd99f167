import NucLlm.AgentLoop.Traversal

/-!
# What a run upholds

A property of the messages that every way of extending or compacting them
keeps holds of every list of messages a run sends, counts or saves.  Replies
are only considered where the history so far is of a given kind; the messages
of a completed run, which are never sent again, may satisfy less.
-/

namespace NucLlm.AgentLoop

open Exec

/-- The messages of a checkpoint, which are done with when it is completed. -/
def Checkpoint.Carries (K D : List Entry → Prop) (c : Checkpoint) : Prop :=
  if c.result.isSome then D c.messages else K c.messages

def Event.Carries (K D : List Entry → Prop) : Event → Prop
  | .request messages _ => K messages
  | .countTokens messages _ => K messages
  | .saved c => c.Carries K D
  | _ => True

structure Carried (K D : List Entry → Prop) (s : St) : Prop where
  events : ∀ ev ∈ s.history, ev.Carries K D
  file : ∀ c, s.file = some c → c.Carries K D

/-- The history goes on beyond its first `n` events and ends in a request, and the
model replies with `t`. -/
def Replies (w : World) (n : ℕ) (h : History) (t : Turn) : Prop :=
  n < h.length ∧ (∃ messages tools, h.getLast? = some (.request messages tools)) ∧
    w.complete h = .turn t

variable (w : World) (l : Launch) (n : ℕ) (C : History → Prop) (K D : List Entry → Prop)

/-- `K` is kept by all that a run does with its messages after the first `n`
events, in histories of the kind `C`. -/
structure Upholds : Prop where
  shrinks : ∀ h ev, C (h ++ [ev]) → C h
  fresh : ∀ prompt, K [⟨.system prompt, none⟩, ⟨.user l.task none, none⟩]
  cached : ∀ ms, K ms → K (ms.map Entry.cached)
  strip : ∀ ms, K ms → K (ms.map Entry.strip)
  dumped : ∀ ms, K ms → K (ms.map Entry.sortKeys)
  dumpedDone : ∀ ms, D ms → D (ms.map Entry.sortKeys)
  compact : ∀ ms budget est, K ms → K (compact ms budget est l.config.toolSpecs).1
  completed : ∀ h t ms, C h → Replies w n h t → t.toolCalls = [] →
    runGuards h t.text l.config.guards = none → K ms →
    D ((ms ++ [assistantEntry t]).map Entry.strip)
  sentBack : ∀ h t r ms, C h → Replies w n h t → t.toolCalls = [] →
    runGuards h t.text l.config.guards = some r → r.calls = [] → K ms →
    K (ms ++ [assistantEntry t] ++ [⟨.user r.message none, none⟩])
  called : ∀ h t ms answers, C h → Replies w n h t → t.toolCalls ≠ [] → K ms →
    answers.map Entry.answers = t.toolCalls.map (fun c ↦ some (c.callId, c.name)) →
    (∀ e ∈ answers, e.chars = none) → K (ms ++ assistantEntry t :: answers)
  recovered : ∀ h t r ms answers, C h → Replies w n h t → t.toolCalls = [] →
    runGuards h t.text l.config.guards = some r → r.calls ≠ [] → K ms →
    answers.map Entry.answers = r.calls.map (fun c ↦ some (c.callId, c.name)) →
    (∀ e ∈ answers, e.chars = none) → K (ms ++ assistantEntry (t.recover r.calls) :: answers)
  asked : ∀ ms, K ms → K (ms ++ [⟨.user l.config.wrapUpPrompt none, none⟩])
  wrappedUp : ∀ ms text, K ms → K (ms ++ [⟨.assistant text [] none, none⟩])

/-- In histories of the kind `C`, all is carried and `P` is known. -/
def Knows (P : Prop) (s : St) : Prop :=
  n ≤ s.history.length ∧ (C s.history → Carried K D s ∧ P)

/-- Besides, the model has just replied with `t`. -/
def KnowsReply (P : Prop) (t : Turn) (s : St) : Prop :=
  Knows n C K D P s ∧ Replies w n s.history t

namespace Upholds

variable {w l n C K D} (hU : Upholds w l n C K D)

theorem knows_mono {P Q : Prop} {s : St} (h : Knows n C K D P s) (hPQ : P → Q) :
    Knows n C K D Q s :=
  ⟨h.1, fun hC ↦ ⟨(h.2 hC).1, hPQ (h.2 hC).2⟩⟩

include hU

/-! ## Effects -/

theorem knows_emit {P : Prop} {e : Event} (hev : P → e.Carries K D) {s : St}
    (h : Knows n C K D P s) : Knows n C K D P { s with history := s.history ++ [e] } := by
  have hlength : n ≤ (s.history ++ [e]).length := by
    rw [List.length_append]
    exact Nat.le_add_right_of_le h.1
  refine ⟨hlength, fun hC ↦ ?_⟩
  obtain ⟨hcarried, hP⟩ := h.2 (hU.shrinks _ _ hC)
  refine ⟨⟨?_, hcarried.file⟩, hP⟩
  refine List.forall_mem_append.mpr ⟨hcarried.events, fun e he ↦ ?_⟩
  obtain rfl := List.mem_singleton.mp he
  exact hev hP

theorem emit_knows {P : Prop} {e : Event} (hev : P → e.Carries K D) :
    (emit w e).Preserves (Knows n C K D P) := by
  refine Preserves.bind ?_ fun _ ↦ (preserves_get _).bind fun s ↦ ?_
  · exact preserves_modify fun s h ↦ hU.knows_emit hev h
  · split
    · exact preserves_fail _ _
    · exact preserves_pure _ _

theorem dumped_carries {c : Checkpoint} (h : c.Carries K D) : c.dumped.Carries K D := by
  unfold Checkpoint.Carries Checkpoint.dumped at *
  split_ifs at h ⊢
  · exact hU.dumpedDone _ h
  · exact hU.dumped _ h

theorem save_knows {P : Prop} (L : Loop) (messages : List Entry)
    (result : Option (StopReason × String × Option String)) (last : Option StopReason)
    (error : Option String)
    (hmessages : P → if result.isSome then D (messages.map Entry.strip)
      else K (messages.map Entry.strip)) :
    (save w l L messages result last error).Preserves (Knows n C K D P) := by
  unfold save
  split
  · refine (preserves_get _).bind fun s ↦ ?_
    have hc : P → (snapshot w l L messages s.history result last error).Carries K D := hmessages
    refine Preserves.bind (preserves_modify fun s h ↦ ⟨h.1, fun hC ↦ ?_⟩) fun _ ↦
      hU.emit_knows (e := .saved _) hc
    obtain ⟨hcarried, hP⟩ := h.2 hC
    refine ⟨⟨hcarried.events, fun c heq ↦ ?_⟩, hP⟩
    obtain rfl := Option.some.inj heq
    exact hU.dumped_carries (hc hP)
  · exact preserves_pure _ _

theorem finish_knows {P : Prop} (L : Loop) (reason : StopReason) (text : String)
    (error : Option String) (persist : List Entry) (hpersist : reason ≠ .completed → P → K persist)
    (hdone : reason = .completed → P → D (L.messages.map Entry.strip)) :
    (finish w l L reason text error persist).Preserves (Knows n C K D P) := by
  refine (currentCost_preserves l _ _).bind fun cost ↦ ?_
  refine Preserves.bind ?_ fun _ ↦ preserves_pure _ _
  unfold saveEnd
  split
  · rename_i hreason
    exact hU.save_knows L _ _ _ _ (hdone hreason)
  · rename_i hreason
    exact hU.save_knows L _ _ _ _ fun hP ↦ hU.strip _ (hpersist hreason hP)

theorem askOnce_knows {messages : List Entry} {tools : List Json} {P : Prop}
    (hP : P → K messages) {s : St} (h : Knows n C K D P s) :
    (askOnce w messages tools).wp
      (fun c s ↦ match c with
        | .ok t => KnowsReply w n C K D P t s
        | .error _ => Knows n C K D P s) (fun _ ↦ Knows n C K D P) s := by
  have hasked := hU.knows_emit (e := .request messages tools) hP h
  unfold askOnce emit
  simp only [wp_bind, wp_modify, wp_get]
  split
  · exact hasked
  · simp only [wp_pure]
    split
    · rename_i t hturn
      refine ⟨hasked, ?_, ⟨messages, tools, List.getLast?_concat⟩, hturn⟩
      rw [List.length_append]
      exact Nat.lt_succ_of_le h.1
    · exact hasked
    · exact hasked

theorem completeWithRetry_knows (est : Estimator) {messages : List Entry} {tools : List Json}
    {P : Prop} (hP : P → K messages) {s : St} (h : Knows n C K D P s) :
    (completeWithRetry w l est messages tools).wp
      (fun c s ↦ match c with
        | .ok t => KnowsReply w n C K D P t s
        | .error _ => Knows n C K D P s) (fun _ ↦ Knows n C K D P) s :=
  completeWithRetry_rule w l est (fun _ h ↦ h) (fun _ h ↦ hU.askOnce_knows hP h) h

/-! ## Steps -/

/-- A step leads to variables whose messages satisfy `K`, or ends the run. -/
abbrev Leads (n : ℕ) (C : History → Prop) (K D : List Entry → Prop) (m : M (Loop ⊕ AgentResult))
    (s : St) : Prop :=
  m.wp (fun next s ↦ Knows n C K D (∀ L, next = .inl L → K L.messages) s)
    (fun _ ↦ Knows n C K D True) s

omit hU in
theorem leads_finish {P : Prop} {m : M AgentResult} (h : m.Preserves (Knows n C K D P)) {s : St}
    (hs : Knows n C K D P s) : Leads n C K D (m >>= fun r ↦ pure (.inr r)) s := by
  refine wp_bind_of (wp_mono (h s hs) (fun _ _ h ↦ h) fun _ _ h ↦ knows_mono h fun _ ↦ trivial) ?_
  exact fun r s hs ↦ knows_mono hs fun _ L heq ↦ by contradiction

theorem leads_save (L : Loop) {P : Prop} (hL : P → K L.messages) {s : St}
    (hs : Knows n C K D P s) :
    Leads n C K D (save w l L L.messages none none none >>= fun _ ↦ pure (.inl L)) s := by
  have hsave := hU.save_knows L L.messages none none none fun hP ↦ hU.strip _ (hL hP)
  refine wp_bind_of (wp_mono (hsave s hs) (fun _ _ h ↦ h)
    fun _ _ h ↦ knows_mono h fun _ ↦ trivial) fun _ s hs ↦ ?_
  refine knows_mono hs fun hP L' heq ↦ ?_
  obtain rfl := Sum.inl.inj heq
  exact hL hP

theorem runTools_leads (L : Loop) {before : List Entry} {t : Turn} {s : St}
    (h : Knows n C K D (K before ∧ ∀ answers,
      answers.map Entry.answers = t.toolCalls.map (fun c ↦ some (c.callId, c.name)) →
        (∀ e ∈ answers, e.chars = none) → K (before ++ assistantEntry t :: answers)) s) :
    Leads n C K D (runTools w l L before t) s := by
  unfold runTools
  refine wp_bind_of ((budgetExceeded_preserves w l _ _).wp h fun _ _ h ↦
    knows_mono h fun _ ↦ trivial) fun exceeded s h ↦ ?_
  cases exceeded with
  | some exceeded =>
      exact leads_finish (hU.finish_knows _ .budgetExhausted _ _ before (fun _ h ↦ h.1)
        fun heq ↦ by contradiction) h
  | none =>
      refine wp_bind_of (wp_mono (dispatchAll_results w l
        (hU.emit_knows (e := .dispatched t.toolCalls) fun _ ↦ trivial)
        (fun c r ↦ hU.emit_knows (e := .ran c r) fun _ ↦ trivial) h) (fun _ _ h ↦ h)
        fun _ _ h ↦ knows_mono h fun _ ↦ trivial) ?_
      rintro results s ⟨hlength, h⟩
      rw [wp_bind, wp_ofOption]
      refine ⟨fun _ ↦ knows_mono h fun _ ↦ trivial, fun answers hanswers ↦ ?_⟩
      have hmap := toolMessages_answers l t.toolCalls results answers hlength hanswers
      have huncached := toolMessages_uncached l t.toolCalls results answers hanswers
      replace h := knows_mono h fun h ↦ h.2 answers hmap huncached
      dsimp only
      refine wp_bind_of (P := fun _ ↦ Knows n C K D (K (before ++ assistantEntry t :: answers))) ?_
        fun exceeded s h ↦ ?_
      · unfold budgetAfterTools
        split
        · exact h
        · exact (budgetExceeded_preserves w l _ _).wp h fun _ _ h ↦ knows_mono h fun _ ↦ trivial
      · cases exceeded with
        | some exceeded =>
            exact leads_finish (hU.finish_knows _ .budgetExhausted _ _ _ (fun _ h ↦ h)
              fun heq ↦ by contradiction) h
        | none => exact hU.leads_save _ (fun h ↦ h) h

theorem judgeText_leads (L : Loop) {before : List Entry} {t : Turn} (ht : t.toolCalls = [])
    {s : St} (h : KnowsReply w n C K D (K before) t s) :
    Leads n C K D (judgeText w l L before t) s := by
  obtain ⟨h, hturn⟩ := h
  unfold judgeText
  simp only [wp_bind, wp_get, Leads]
  split
  · rename_i hguards
    have hdone : Knows n C K D (D ((before ++ [assistantEntry t]).map Entry.strip)) s :=
      ⟨h.1, fun hC ↦
        ⟨(h.2 hC).1, hU.completed s.history t before hC hturn ht hguards (h.2 hC).2⟩⟩
    exact leads_finish (hU.finish_knows _ .completed _ _ _ (fun hne ↦ absurd rfl hne)
      fun _ h ↦ h) hdone
  · rename_i rejection hguards
    split
    · rename_i c cs hcalls
      have hrecovered : rejection.calls ≠ [] := by
        rw [hcalls]
        exact List.cons_ne_nil c cs
      refine hU.runTools_leads _
        ⟨h.1, fun hC ↦ ⟨(h.2 hC).1, (h.2 hC).2, fun answers hanswers huncached ↦ ?_⟩⟩
      rw [← hcalls] at hanswers ⊢
      exact hU.recovered s.history t rejection before answers hC hturn ht hguards hrecovered
        (h.2 hC).2 hanswers huncached
    · rename_i hcalls
      have hsent : Knows n C K D (K (before ++ [assistantEntry t] ++
          [⟨.user rejection.message none, none⟩])) s :=
        ⟨h.1, fun hC ↦ ⟨(h.2 hC).1, hU.sentBack s.history t rejection before hC hturn ht hguards
          hcalls (h.2 hC).2⟩⟩
      split
      · exact leads_finish (hU.finish_knows _ .rejected _ _ _ (fun _ h ↦ h)
          fun heq ↦ by contradiction) hsent
      · exact hU.leads_save _ (fun h ↦ h) hsent

theorem step_leads {L : Loop} {s : St} (h : Knows n C K D (K L.messages) s) :
    Leads n C K D (step w l L) s := by
  have hfit := fitContext_wp w l (I := Knows n C K D (K L.messages))
    (P := fun L' ↦ K L.messages → K L'.messages)
    (fun L' hL' ↦ hU.emit_knows (e := .countTokens L'.messages l.config.toolSpecs) hL')
    (fun L' n hL' ↦ hL') (fun L' budget hL' hK ↦ hU.compact _ budget L'.estimator (hL' hK))
    (L := { L with steps := L.steps + 1 }) (fun hK ↦ hK) h
  unfold step
  refine wp_bind_of (wp_mono hfit (fun _ _ h ↦ h) fun _ _ h ↦ knows_mono h fun _ ↦ trivial) ?_
  rintro L' s ⟨hL', h⟩
  have hcached := knows_mono h fun hK ↦ hU.cached _ (hL' hK)
  dsimp only
  refine wp_bind_of (wp_mono (hU.completeWithRetry_knows _ (fun hK ↦ hK) hcached)
    (fun _ _ h ↦ h) fun _ _ h ↦ knows_mono h fun _ ↦ trivial) fun c s h ↦ ?_
  cases c with
  | error repr =>
      exact leads_finish (hU.finish_knows _ .llmError _ _ _ (fun _ h ↦ h)
        fun heq ↦ by contradiction) h
  | ok t =>
      dsimp only at h ⊢
      refine wp_bind_of (P := fun _ s ↦ KnowsReply w n C K D _ t s)
        (wp_mono (checkRatio_preserves _ (KnowsReply w n C K D _ t) s h) (fun _ _ h ↦ h)
          fun _ _ h ↦ knows_mono h.1 fun _ ↦ trivial) fun _ s h ↦ ?_
      split
      · rename_i hnone
        exact hU.judgeText_leads _ (List.isEmpty_iff.mp hnone) h
      · rename_i hsome
        refine hU.runTools_leads _
          ⟨h.1.1, fun hC ↦ ⟨(h.1.2 hC).1, (h.1.2 hC).2, fun answers hanswers huncached ↦ ?_⟩⟩
        have hcalls : t.toolCalls ≠ [] := fun hnil ↦ hsome (List.isEmpty_iff.mpr hnil)
        exact hU.called s.history t _ answers hC h.2 hcalls (h.1.2 hC).2 hanswers huncached

/-! ## Runs -/

omit hU in
theorem knows_ensures {P : Prop} {m : M AgentResult} (h : m.Preserves (Knows n C K D P)) {s : St}
    (hs : Knows n C K D P s) : m.Ensures (Knows n C K D True) s :=
  wp_mono (h s hs) (fun _ _ h ↦ knows_mono h fun _ ↦ trivial)
    fun _ _ h ↦ knows_mono h fun _ ↦ trivial

theorem wrappedUp_knows (L : Loop) (text : String) {s : St} (h : Knows n C K D (K L.messages) s) :
    (save w l L L.messages none none none >>= fun _ ↦
      finish w l L .maxSteps text none L.messages).Ensures (Knows n C K D True) s := by
  have hsave := hU.save_knows L L.messages none none none fun hK ↦ hU.strip _ hK
  refine wp_bind_of (wp_mono (hsave s h) (fun _ _ h ↦ h)
    fun _ _ h ↦ knows_mono h fun _ ↦ trivial) fun _ s h ↦ ?_
  exact knows_ensures (hU.finish_knows L .maxSteps text none L.messages (fun _ h ↦ h)
    fun heq ↦ by contradiction) h

theorem wrapUp_knows {L : Loop} {s : St} (h : Knows n C K D (K L.messages) s) :
    (wrapUp w l L).Ensures (Knows n C K D True) s := by
  unfold wrapUp
  split
  · have hdrop : ((L.messages ++ [Entry.mk (.user l.config.wrapUpPrompt none) none]).map
        Entry.cached).dropLast = L.messages.map Entry.cached := by
      rw [List.map_append, List.map_singleton, List.dropLast_concat]
    have hasked := knows_mono h fun hK ↦ And.intro hK (hU.cached _ (hU.asked _ hK))
    refine wp_bind_of (wp_mono (hU.completeWithRetry_knows _ (fun h ↦ h.2) hasked)
      (fun _ _ h ↦ h) fun _ _ h ↦ knows_mono h fun _ ↦ trivial) fun c s h ↦ ?_
    cases c with
    | error repr =>
        refine knows_ensures (hU.finish_knows _ .maxSteps _ _ _ (fun _ h ↦ ?_)
          fun heq ↦ by contradiction) h
        dsimp only
        rw [hdrop]
        exact hU.cached _ h.1
    | ok t =>
        exact hU.wrappedUp_knows _ t.text (knows_mono h.1 fun h ↦ hU.wrappedUp _ t.text h.2)
  · exact knows_ensures (hU.finish_knows _ .maxSteps _ _ _ (fun _ h ↦ h)
      fun heq ↦ by contradiction) h

theorem loop_knows (rem : ℕ) :
    ∀ L s, Knows n C K D (K L.messages) s → (loop w l rem L).Ensures (Knows n C K D True) s := by
  induction rem with
  | zero => exact fun L s h ↦ hU.wrapUp_knows h
  | succ rem ih =>
      intro L s h
      refine wp_bind_of (hU.step_leads h) fun next s h ↦ ?_
      cases next with
      | inl L => exact ih L s (knows_mono h fun h ↦ h L rfl)
      | inr r => exact knows_mono h fun _ ↦ trivial

theorem resume_knows {c : Checkpoint} {s : St} (h : Knows n C K D (c.Carries K D) s) :
    (resume w l c).Ensures (Knows n C K D True) s := by
  unfold resume
  split
  · exact knows_mono h fun _ ↦ trivial
  · have hrestore : (restore w c).Preserves (Knows n C K D (c.Carries K D)) := by
      unfold restore
      split
      · split
        · exact hU.emit_knows fun _ ↦ trivial
        · exact preserves_pure _ _
      · exact preserves_pure _ _
    refine wp_bind_of (wp_mono (hrestore s h) (fun _ _ h ↦ h)
      fun _ _ h ↦ knows_mono h fun _ ↦ trivial) fun _ s h ↦ ?_
    dsimp only
    split
    · exact knows_ensures (P := c.Carries K D)
        ((currentCost_preserves l _ _).bind fun cost ↦ preserves_pure _ _) h
    · rename_i hnone
      refine hU.loop_knows _ _ s (knows_mono h fun hc ↦ ?_)
      unfold Checkpoint.Carries at hc
      rw [hnone] at hc
      exact hc

theorem start_knows {s : St} (h : Knows n C K D True s) :
    (start w l).Ensures (Knows n C K D True) s := by
  unfold start
  refine wp_bind_of (P := fun _ ↦ Knows n C K D True) h fun s s' h ↦ ?_
  have hfresh := knows_mono h fun _ ↦
    hU.fresh (systemPromptWith l.config.systemPrompt (w.notes s.history))
  refine wp_bind_of (wp_mono (hU.save_knows _ _ none none none (fun hK ↦ hU.strip _ hK) s' hfresh)
    (fun _ _ h ↦ h) fun _ _ h ↦ knows_mono h fun _ ↦ trivial) fun _ s h ↦ ?_
  exact hU.loop_knows _ _ s h

/-- A run, in a history that is of the kind `C` to its end. -/
theorem run_carried {s : St} (hn : n ≤ s.history.length) (hs : Carried K D s)
    (hC : C (run w l s).2.history) :
    Carried K D (run w l s).2 := by
  have hrun : (run w l).Ensures (Knows n C K D True) s := by
    have h : Knows n C K D (∀ c, s.file = some c → c.Carries K D) s :=
      ⟨hn, fun _ ↦ ⟨hs, hs.file⟩⟩
    refine wp_bind_of (P := fun _ s' ↦ s'.file = s.file ∧
      Knows n C K D (∀ c, s.file = some c → c.Carries K D) s') ?_ ?_
    · have hlaunched := hU.knows_emit (e := .launched l.task) (fun _ ↦ trivial) h
      simp only [emit, wp_bind, wp_modify, wp_get]
      split
      · exact knows_mono hlaunched fun _ ↦ trivial
      · exact ⟨rfl, hlaunched⟩
    · rintro _ s' ⟨hfile, h⟩
      simp only [wp_bind, wp_get]
      split
      · rename_i c hc
        have hfound : s.file = some c := by
          rw [← hfile]
          split at hc
          · exact hc
          · contradiction
        exact hU.resume_knows (knows_mono h fun h ↦ h c hfound)
      · exact hU.start_knows (knows_mono h fun _ ↦ trivial)
  exact (hrun.state.2 hC).1

omit hU in
/-- A campaign, when every launch upholds what is asked of its messages. -/
theorem campaign_carried (hU : ∀ l, Upholds w l 0 (fun _ ↦ True) K D) (launches : List Launch) :
    Carried K D (campaign w launches) := by
  have hfold : ∀ s, Carried K D s → Carried K D (launches.foldl (fun s l ↦ (run w l s).2) s) := by
    induction launches with
    | nil => exact fun s h ↦ h
    | cons l launches ih =>
        exact fun s h ↦ ih _ ((hU l).run_carried (Nat.zero_le _) h trivial)
  exact hfold St.init ⟨by simp [St.init], by simp [St.init]⟩

end Upholds

end NucLlm.AgentLoop
