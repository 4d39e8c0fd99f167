import NucLlm.AgentLoop.Deterministic

/-!
# Two processes of one agent

From variables that differ in their caches only, a process that may die passes
through the events of one that does not.
-/

namespace NucLlm.AgentLoop

open Exec

/-- The file after some events. -/
def fileAfter (f : Option Checkpoint) (evs : List Event) : Option Checkpoint :=
  evs.foldl (fun f ev ↦ match ev with | .saved c => some c.dumped | _ => f) f

theorem fileAfter_append (f : Option Checkpoint) (evs evs' : List Event) :
    fileAfter f (evs ++ evs') = fileAfter (fileAfter f evs) evs' :=
  List.foldl_append

/-- A state some events further on. -/
def St.after (s : St) (evs : List Event) : St := ⟨fileAfter s.file evs, s.history ++ evs⟩

theorem St.after_after (s : St) (evs evs' : List Event) :
    (s.after evs).after evs' = s.after (evs ++ evs') := by
  unfold St.after
  rw [fileAfter_append, List.append_assoc]

theorem St.after_nil (s : St) : s.after [] = s := by
  unfold St.after
  rw [List.append_nil]
  rfl

namespace Setup

variable (A : Setup)

/-- A world in which no process dies. -/
def steady : World := A.world fun _ ↦ false

/-- Both processes have gone through the same events since the states `b₁` and
`b₂`.  The ids they make agree if they had made as many before, or if the one
on the right makes none. -/
def coupling (dies : History → Bool) (b₁ b₂ : St) : Coupling Stop St where
  rel := fun s₁ s₂ ↦ ∃ evs, s₁ = b₁.after evs ∧ s₂ = b₂.after evs
  grows := fun s s' ↦ ∃ evs, s' = s.after evs
  cut := fun e ↦ e = .died ∧ ∃ h, dies h = true
  admits := fun s ↦ A.minted b₁.history = A.minted b₂.history ∨
    ∀ evs, s.history = b₂.history ++ evs → ∀ ev ∈ evs, A.mintedBy ev = 0
  refl := fun s ↦ ⟨[], s.after_nil.symm⟩
  trans := by
    rintro s _ _ ⟨evs, rfl⟩ ⟨evs', rfl⟩
    exact ⟨_, s.after_after evs evs'⟩
  admits_of := by
    rintro s _ ⟨more, rfl⟩ h
    refine h.imp_right fun h evs hevs ev hev ↦ ?_
    refine h (evs ++ more) ?_ ev (List.mem_append_left more hev)
    change s.history ++ more = _
    rw [hevs, List.append_assoc]

variable {A} {dies : History → Bool} {b₁ b₂ : St}

/-! ## Effects -/

variable (A dies b₁ b₂) in
/-- A computation of both processes that hands on equal values. -/
abbrev Agrees {α : Type} (m₁ m₂ : M α) : Prop :=
  Coupled (A.coupling dies b₁ b₂) (A.coupling dies b₁ b₂).rel m₁ m₂ (A.coupling dies b₁ b₂).Same

theorem emit_after {ev : Event} (hev : ∀ c, ev ≠ .saved c) (s : St) :
    { s with history := s.history ++ [ev] } = s.after [ev] := by
  cases ev with
  | saved c => exact absurd rfl (hev c)
  | launched | restored | request | countTokens | dispatched | ran => rfl

variable (A) in
theorem emit_world (dies : History → Bool) (ev : Event) (s : St) :
    emit (A.world dies) ev s =
      (if dies (s.history ++ [ev]) then .error .died else .ok (),
        { s with history := s.history ++ [ev] }) := by
  change (if dies (s.history ++ [ev]) = true then fail .died else pure () : M Unit)
    { s with history := s.history ++ [ev] } = _
  split
  · rfl
  · rfl

theorem emit_agrees (dies : History → Bool) {ev : Event} (hev : ∀ c, ev ≠ .saved c) :
    A.Agrees dies b₁ b₂ (emit (A.world dies) ev) (emit A.steady ev) := by
  constructor
  · intro s
    rw [steady, emit_world, emit_after hev]
    exact ⟨[ev], rfl⟩
  · rintro _ _ ⟨evs, rfl, rfl⟩ -
    rw [steady, emit_world, emit_world, emit_after hev, emit_after hev, St.after_after,
      St.after_after]
    split
    · rename_i hdies
      exact Or.inl ⟨⟨rfl, _, hdies⟩, _, ⟨_, rfl, rfl⟩, (A.coupling dies b₁ b₂).refl _⟩
    · exact ⟨(), rfl, rfl, _, rfl, rfl⟩

theorem checkRatio_coupled (est : Estimator) {P : St → St → Prop}
    (hP : ∀ s₁ s₂, P s₁ s₂ → (A.coupling dies b₁ b₂).rel s₁ s₂) :
    Coupled (A.coupling dies b₁ b₂) P (checkRatio est) (checkRatio est) fun _ _ ↦ P := by
  unfold checkRatio
  split
  · exact (coupled_fail _).mono hP fun _ _ _ _ h ↦ h
  · exact coupled_pure fun _ _ h ↦ h

theorem currentCost_agrees (l : Launch) (usage : Usage) :
    A.Agrees dies b₁ b₂ (currentCost l usage) (currentCost l usage) := by
  unfold currentCost
  split
  · exact coupled_same none
  · exact coupled_ofOption _ _

theorem budgetExceeded_agrees (dies : History → Bool) (l : Launch) (usage : Usage) :
    A.Agrees dies b₁ b₂ (budgetExceeded (A.world dies) l usage)
      (budgetExceeded A.steady l usage) := by
  unfold budgetExceeded
  split
  · exact coupled_same _
  · split
    · exact coupled_same none
    · refine (currentCost_agrees l usage).bind_same fun cost ↦ ?_
      cases cost with
      | none => exact coupled_same _
      | some cost => exact coupled_same _

end Setup

/-- The variables with other caches and another origin. -/
def Loop.recast (L : Loop) (ms : List Entry) (r : Option ℕ) : Loop :=
  { L with messages := ms, resumedFrom := r }

/-- What a run returns, without caches and origin. -/
def AgentResult.plain (r : AgentResult) : AgentResult :=
  { r with messages := r.messages.map Entry.strip, resumedFrom := none }

namespace Setup

variable (A : Setup)

def checkpoint (L : Loop) (messages : List Entry)
    (result : Option (StopReason × String × Option String)) (last : Option StopReason)
    (error : Option String) : Checkpoint :=
  snapshot A.steady A.launch L messages [] result last error

theorem save_world (dies : History → Bool) (L : Loop) (messages : List Entry)
    (result : Option (StopReason × String × Option String)) (last : Option StopReason)
    (error : Option String) (s : St) :
    save (A.world dies) A.launch L messages result last error s =
      (if dies (s.history ++ [.saved (A.checkpoint L messages result last error)])
        then .error .died else .ok (),
        s.after [.saved (A.checkpoint L messages result last error)]) := by
  change emit (A.world dies) (.saved (A.checkpoint L messages result last error))
    ⟨some (A.checkpoint L messages result last error).dumped, s.history⟩ = _
  rw [emit_world]
  rfl

theorem checkpoint_recast (L : Loop) (ms : List Entry) (r : Option ℕ)
    {messages messages' : List Entry}
    (h : messages.map Entry.strip = messages'.map Entry.strip)
    (result : Option (StopReason × String × Option String)) (last : Option StopReason)
    (error : Option String) :
    A.checkpoint (L.recast ms r) messages result last error =
      A.checkpoint L messages' result last error := by
  unfold checkpoint snapshot Loop.recast
  rw [h]

variable {A} {dies : History → Bool} {b₁ b₂ : St}

theorem save_agrees (dies : History → Bool) (L : Loop) (ms : List Entry) (r : Option ℕ)
    {messages messages' : List Entry} (h : messages.map Entry.strip = messages'.map Entry.strip)
    (result : Option (StopReason × String × Option String)) (last : Option StopReason)
    (error : Option String) :
    A.Agrees dies b₁ b₂ (save (A.world dies) A.launch (L.recast ms r) messages result last error)
      (save A.steady A.launch L messages' result last error) := by
  constructor
  · intro s
    rw [steady, save_world]
    exact ⟨_, rfl⟩
  · rintro _ _ ⟨evs, rfl, rfl⟩ -
    rw [steady, save_world, save_world, A.checkpoint_recast L ms r h, St.after_after,
      St.after_after]
    split
    · rename_i hdies
      exact Or.inl ⟨⟨rfl, _, hdies⟩, _, ⟨_, rfl, rfl⟩, (A.coupling dies b₁ b₂).refl _⟩
    · exact ⟨(), rfl, rfl, _, rfl, rfl⟩

variable (A dies b₁ b₂) in
/-- Both runs end alike. -/
def Ends (r₁ r₂ : AgentResult) (s₁ s₂ : St) : Prop :=
  r₁.plain = r₂.plain ∧ (A.coupling dies b₁ b₂).rel s₁ s₂

theorem finish_agrees (dies : History → Bool) (L : Loop) {ms : List Entry} (r : Option ℕ)
    (hms : ms.map Entry.strip = L.messages.map Entry.strip) (reason : StopReason) (text : String)
    (error : Option String) {persist persist' : List Entry}
    (hpersist : persist.map Entry.strip = persist'.map Entry.strip) :
    Coupled (A.coupling dies b₁ b₂) (A.coupling dies b₁ b₂).rel
      (finish (A.world dies) A.launch (L.recast ms r) reason text error persist)
      (finish A.steady A.launch L reason text error persist') (A.Ends dies b₁ b₂) := by
  unfold finish saveEnd
  refine (currentCost_agrees A.launch L.usage).bind_same fun cost ↦ ?_
  have hend : ∀ s₁ s₂, (A.coupling dies b₁ b₂).rel s₁ s₂ →
      A.Ends dies b₁ b₂ (agentResult (L.recast ms r) reason text error cost)
        (agentResult L reason text error cost) s₁ s₂ := by
    intro s₁ s₂ hrel
    refine ⟨?_, hrel⟩
    unfold AgentResult.plain agentResult Loop.recast
    rw [hms]
  split
  · exact (save_agrees dies L ms r hms _ _ _).bind_same fun _ ↦ coupled_pure hend
  · exact (save_agrees dies L ms r hpersist _ _ _).bind_same fun _ ↦ coupled_pure hend

end Setup

/-! ## Requests and tools -/

namespace Setup

variable {A : Setup} {dies : History → Bool} {b₁ b₂ : St}

variable (A b₁ b₂) in
/-- Both processes have just had the reply `t` to the same request. -/
def Asked (tools : List Json) (t : Turn) (s₁ s₂ : St) : Prop :=
  ∃ evs messages, s₁ = b₁.after (evs ++ [.request messages tools]) ∧
    s₂ = b₂.after (evs ++ [.request messages tools]) ∧
    A.reply (messages.map Entry.msg) tools = .turn t

theorem Asked.rel {tools : List Json} {t : Turn} {s₁ s₂ : St} (h : A.Asked b₁ b₂ tools t s₁ s₂) :
    (A.coupling dies b₁ b₂).rel s₁ s₂ := by
  obtain ⟨evs, messages, h₁, h₂, -⟩ := h
  exact ⟨_, h₁, h₂⟩

variable (A dies b₁ b₂) in
/-- Equal answers, with the request behind a reply. -/
def Answered {ε : Type} (tools : List Json) (c c' : Except ε Turn) (s₁ s₂ : St) : Prop :=
  c = c' ∧ (A.coupling dies b₁ b₂).rel s₁ s₂ ∧ ∀ t, c' = .ok t → A.Asked b₁ b₂ tools t s₁ s₂

variable (A) in
theorem complete_after (dies : History → Bool) (s : St) (messages : List Entry)
    (tools : List Json) :
    (A.world dies).complete (s.after [.request messages tools]).history =
      A.reply (messages.map Entry.msg) tools := by
  have hlast : (s.after [.request messages tools]).history.getLast? =
      some (Event.request messages tools) := List.getLast?_concat
  unfold world
  dsimp only
  rw [hlast]

variable (A) in
/-- What `askOnce` makes of a reply. -/
def answer (messages : List Entry) (tools : List Json) : Except Stop (Except LlmError Turn) :=
  match A.reply (messages.map Entry.msg) tools with
  | .turn t => .ok (.ok t)
  | .llmError e => .ok (.error e)
  | .raises repr => .error (.raised repr)

theorem askOnce_world (dies : History → Bool) (messages : List Entry) (tools : List Json) (s : St) :
    askOnce (A.world dies) messages tools s =
      (if dies (s.history ++ [.request messages tools]) then .error .died
        else A.answer messages tools, s.after [.request messages tools]) := by
  have hcomplete := A.complete_after dies s messages tools
  have hstate : { s with history := s.history ++ [Event.request messages tools] } =
      s.after [.request messages tools] := rfl
  change Exec.bind (emit (A.world dies) (.request messages tools)) _ s = _
  unfold Exec.bind
  rw [emit_world, hstate]
  split_ifs with hdies
  · rfl
  · change (match (A.world dies).complete (s.after [.request messages tools]).history with
      | .turn t => (pure (.ok t) : M (Except LlmError Turn))
      | .llmError e => pure (.error e)
      | .raises repr => fail (.raised repr)) (s.after [.request messages tools]) = _
    rw [hcomplete, answer]
    cases A.reply (messages.map Entry.msg) tools with
    | turn t => rfl
    | llmError e => rfl
    | raises repr => rfl

theorem askOnce_coupled (dies : History → Bool) (messages : List Entry) (tools : List Json) :
    Coupled (A.coupling dies b₁ b₂) (A.coupling dies b₁ b₂).rel
      (askOnce (A.world dies) messages tools)
      (askOnce A.steady messages tools) (A.Answered dies b₁ b₂ tools) := by
  constructor
  · intro s
    rw [steady, askOnce_world]
    exact ⟨_, rfl⟩
  · rintro _ _ ⟨evs, rfl, rfl⟩ -
    have hrel : (A.coupling dies b₁ b₂).rel (b₁.after (evs ++ [.request messages tools]))
        (b₂.after (evs ++ [.request messages tools])) := ⟨_, rfl, rfl⟩
    rw [steady, askOnce_world, askOnce_world, St.after_after, St.after_after]
    simp only [Bool.false_eq_true, if_false]
    split
    · rename_i hdies
      exact Or.inl ⟨⟨rfl, _, hdies⟩, _, hrel, (A.coupling dies b₁ b₂).refl _⟩
    · rw [answer]
      split
      · rename_i t hreply
        refine ⟨_, rfl, rfl, hrel, fun t' ht ↦ ?_⟩
        obtain rfl := Except.ok.inj ht
        exact ⟨evs, messages, rfl, rfl, hreply⟩
      · exact ⟨_, rfl, rfl, hrel, fun t ht ↦ by contradiction⟩
      · exact Or.inr ⟨rfl, hrel⟩

theorem attempt_coupled (dies : History → Bool) (messages : List Entry) (tools : List Json)
    (rem : ℕ) :
    ∀ last, Coupled (A.coupling dies b₁ b₂) (A.coupling dies b₁ b₂).rel
      (attempt (A.world dies) A.launch messages tools rem last)
      (attempt A.steady A.launch messages tools rem last) (A.Answered dies b₁ b₂ tools) := by
  induction rem with
  | zero =>
      intro last
      exact coupled_pure fun s₁ s₂ h ↦ ⟨rfl, h, fun t ht ↦ by contradiction⟩
  | succ rem ih =>
      intro last
      refine (askOnce_coupled dies messages tools).bind fun c c' ↦ ?_
      refine coupled_of ?_ (fun _ _ h _ ↦ h.1) ?_
      · intro s
        split
        · exact (A.coupling dies b₁ b₂).refl s
        · exact (ih _).grows s
        · exact (A.coupling dies b₁ b₂).refl s
      rintro rfl
      split
      · refine coupled_pure fun s₁ s₂ h ↦ ⟨rfl, h.2.1, fun t ht ↦ ?_⟩
        obtain rfl := Except.ok.inj ht
        exact h.2.2 _ rfl
      · exact (ih _).mono (fun _ _ h ↦ h.2.1) fun _ _ _ _ h ↦ h
      · exact coupled_pure fun s₁ s₂ h ↦ ⟨rfl, h.2.1, fun t ht ↦ by contradiction⟩

theorem completeWithRetry_coupled (dies : History → Bool) (est : Estimator)
    (messages : List Entry) (tools : List Json) :
    Coupled (A.coupling dies b₁ b₂) (A.coupling dies b₁ b₂).rel
      (completeWithRetry (A.world dies) A.launch est messages tools)
      (completeWithRetry A.steady A.launch est messages tools) (A.Answered dies b₁ b₂ tools) := by
  unfold completeWithRetry
  refine (checkRatio_coupled est fun _ _ h ↦ h).bind fun _ _ ↦ ?_
  split
  · exact coupled_fail _
  · exact attempt_coupled dies messages tools _ _

theorem dispatchSerial_agrees (dies : History → Bool) (calls : List ToolCall) :
    ∀ i, A.Agrees dies b₁ b₂ (dispatchSerial (A.world dies) i calls)
      (dispatchSerial A.steady i calls) := by
  induction calls with
  | nil => exact fun i ↦ coupled_same []
  | cons c cs ih =>
      intro i
      unfold dispatchSerial
      refine (coupled_get fun _ _ h ↦ h).bind (Q := fun _ _ ↦
        (A.coupling dies b₁ b₂).rel) fun _ _ ↦ ?_
      refine (emit_agrees dies fun c h ↦ by contradiction).bind_same fun _ ↦ ?_
      exact (ih (i + 1)).bind_same fun rs ↦ coupled_same _

theorem dispatchPool_agrees (dies : History → Bool) (h₁ h₂ : History) (calls : List ToolCall) :
    ∀ i, A.Agrees dies b₁ b₂ (dispatchPool (A.world dies) h₁ i calls)
      (dispatchPool A.steady h₂ i calls) := by
  induction calls with
  | nil => exact fun i ↦ coupled_same []
  | cons c cs ih =>
      intro i
      unfold dispatchPool
      refine (emit_agrees dies fun c h ↦ by contradiction).bind_same fun _ ↦ ?_
      exact (ih (i + 1)).bind_same fun rs ↦ coupled_same _

theorem dispatchAll_agrees (dies : History → Bool) (calls : List ToolCall) :
    A.Agrees dies b₁ b₂ (dispatchAll (A.world dies) A.launch calls)
      (dispatchAll A.steady A.launch calls) := by
  unfold dispatchAll
  refine (emit_agrees dies fun c h ↦ by contradiction).bind_same fun _ ↦ ?_
  dsimp only
  split
  · split
    · exact coupled_fail _
    · refine (coupled_get fun _ _ h ↦ h).bind (Q := fun _ _ ↦ (A.coupling dies b₁ b₂).rel)
        fun s₁ s₂ ↦ ?_
      exact dispatchPool_agrees dies s₁.history s₂.history calls 0
  · exact dispatchSerial_agrees dies calls 0

/-! ## Steps -/

/-- Variables that differ in caches and origin. -/
def Recast (r : Option ℕ) (L₁ L₂ : Loop) : Prop :=
  ∃ ms, L₁ = L₂.recast ms r ∧ SameCost ms L₂.messages

theorem recast_self (L : Loop) (r : Option ℕ) : Recast r (L.recast L.messages r) L :=
  ⟨_, rfl, rfl⟩

theorem withCompaction_recast (L : Loop) {ms : List Entry} (r : Option ℕ)
    (hms : SameCost ms L.messages) (budget : ContextBudget) :
    withCompaction A.launch (L.recast ms r) budget =
      (withCompaction A.launch L budget).recast (withCompaction A.launch L budget).messages r := by
  unfold withCompaction Loop.recast
  rw [hms.compact budget L.estimator A.launch.config.toolSpecs]

variable (A dies b₁ b₂) in
/-- Both processes go on with variables that differ in caches and origin. -/
def Fits (r : Option ℕ) (L₁ L₂ : Loop) (s₁ s₂ : St) : Prop :=
  Recast r L₁ L₂ ∧ (A.coupling dies b₁ b₂).rel s₁ s₂

theorem count_after (f : List Message → List Json → TokenCount) (s : St)
    (messages : List Entry) (tools : List Json) :
    (match (s.after [.countTokens messages tools]).history.getLast? with
      | some (.countTokens messages tools) => f (messages.map Entry.msg) tools
      | _ => .raises "") = f (messages.map Entry.msg) tools := by
  have hlast : (s.after [.countTokens messages tools]).history.getLast? =
      some (Event.countTokens messages tools) := List.getLast?_concat
  rw [hlast]

theorem emit_coupled (dies : History → Bool) {ev : Event} (hev : ∀ c, ev ≠ .saved c) :
    Coupled (A.coupling dies b₁ b₂) (A.coupling dies b₁ b₂).rel (emit (A.world dies) ev)
      (emit A.steady ev) fun _ _ s₁ s₂ ↦
        ∃ evs, s₁ = b₁.after (evs ++ [ev]) ∧ s₂ = b₂.after (evs ++ [ev]) := by
  constructor
  · intro s
    rw [steady, emit_world, emit_after hev]
    exact ⟨[ev], rfl⟩
  · rintro _ _ ⟨evs, rfl, rfl⟩ -
    rw [steady, emit_world, emit_world, emit_after hev, emit_after hev, St.after_after,
      St.after_after]
    split
    · rename_i hdies
      exact Or.inl ⟨⟨rfl, _, hdies⟩, _, ⟨_, rfl, rfl⟩, (A.coupling dies b₁ b₂).refl _⟩
    · exact ⟨(), rfl, evs, rfl, rfl⟩

/-- The rest of `_maybe_exact_check`, with the count. -/
def afterCount (l : Launch) (L : Loop) (budget : ContextBudget) : TokenCount → M Loop
  | .raises repr => fail (.raised repr)
  | .llmError _ => pure L
  | .tokens exact => do
      let chars := charsOf L.messages l.config.toolSpecs
      let L := { L with estimator := L.estimator.observe chars exact }
      if exact ≤ budget.target then pure L
      else do
        checkRatio L.estimator
        pure (withCompaction l L budget)

theorem afterCount_coupled (L : Loop) (r : Option ℕ) (budget : ContextBudget) (n : TokenCount) :
    Coupled (A.coupling dies b₁ b₂) (A.coupling dies b₁ b₂).rel
      (afterCount A.launch (L.recast L.messages r) budget n) (afterCount A.launch L budget n)
      (A.Fits dies b₁ b₂ r) := by
  cases n with
  | raises repr => exact coupled_fail _
  | llmError e => exact coupled_pure fun _ _ h ↦ ⟨recast_self L r, h⟩
  | tokens count =>
      unfold afterCount
      dsimp only [Loop.recast]
      generalize L.estimator.observe (charsOf L.messages A.launch.config.toolSpecs) count = est
      have hrecast := recast_self { L with estimator := est } r
      split
      · exact coupled_pure fun _ _ h ↦ ⟨hrecast, h⟩
      · refine (checkRatio_coupled est fun _ _ h ↦ h).bind fun _ _ ↦ ?_
        refine coupled_pure fun _ _ h ↦ ⟨⟨_, ?_, rfl⟩, h⟩
        exact withCompaction_recast { L with estimator := est } r rfl budget

/-- `_maybe_exact_check` in terms of `afterCount`. -/
theorem maybeExactCheck_some {w : World} {count : History → TokenCount}
    (hcount : w.countTokens = some count) (l : Launch) (L : Loop) (budget : ContextBudget) :
    maybeExactCheck w l L budget =
      if l.config.exactTokenMargin < (|L.estimator.estimate L.messages l.config.toolSpecs -
          budget.target|) then pure L
      else
        emit w (.countTokens L.messages l.config.toolSpecs) >>= fun _ ↦
          Exec.get >>= fun s ↦ afterCount l L budget (count s.history) := by
  unfold maybeExactCheck
  rw [hcount]
  rfl

theorem maybeExactCheck_coupled (dies : History → Bool) (L : Loop) (r : Option ℕ)
    (budget : ContextBudget) :
    Coupled (A.coupling dies b₁ b₂) (A.coupling dies b₁ b₂).rel
      (maybeExactCheck (A.world dies) A.launch (L.recast L.messages r) budget)
      (maybeExactCheck A.steady A.launch L budget) (A.Fits dies b₁ b₂ r) := by
  have hworld : ∀ d, (A.world d).countTokens = A.countTokens.map fun f h ↦
      match h.getLast? with
      | some (.countTokens messages tools) => f (messages.map Entry.msg) tools
      | _ => .raises "" := fun _ ↦ rfl
  cases hcount : A.countTokens with
  | none =>
      have hnone : ∀ d, (A.world d).countTokens = none := by
        intro d
        rw [hworld, hcount]
        rfl
      unfold maybeExactCheck steady
      rw [hnone, hnone]
      exact coupled_pure fun _ _ h ↦ ⟨recast_self L r, h⟩
  | some f =>
      rw [hcount] at hworld
      rw [maybeExactCheck_some (hworld _), steady, maybeExactCheck_some (hworld _)]
      change Coupled _ _ (if A.launch.config.exactTokenMargin <
        |L.estimator.estimate L.messages A.launch.config.toolSpecs - budget.target| then _ else _)
        _ _
      have hev : ∀ c, Event.countTokens L.messages A.launch.config.toolSpecs ≠ .saved c :=
        fun c h ↦ by contradiction
      split
      · exact coupled_pure fun _ _ h ↦ ⟨recast_self L r, h⟩
      · refine (emit_coupled dies hev).bind fun _ _ ↦ ?_
        refine (coupled_get fun _ _ h ↦ ⟨rfl, rfl, h⟩).bind
          (Q := fun t₁ t₂ s₁ s₂ ↦ t₁ = s₁ ∧ t₂ = s₂ ∧ ∃ evs,
            s₁ = b₁.after (evs ++ [.countTokens L.messages A.launch.config.toolSpecs]) ∧
            s₂ = b₂.after (evs ++ [.countTokens L.messages A.launch.config.toolSpecs]))
          fun t₁ t₂ ↦ ?_
        have hgrows (n : TokenCount) : ∀ s, (A.coupling dies b₁ b₂).grows s
            (afterCount A.launch L budget n s).2 := (afterCount_coupled L r budget n).grows
        refine coupled_of (p := ∃ s₁ s₂ : St,
          t₁ = s₁.after [.countTokens L.messages A.launch.config.toolSpecs] ∧
            t₂ = s₂.after [.countTokens L.messages A.launch.config.toolSpecs]) (hgrows _) ?_ ?_
        · rintro _ _ ⟨rfl, rfl, evs, h₁, h₂⟩ -
          rw [← St.after_after] at h₁ h₂
          exact ⟨_, _, h₁, h₂⟩
        · rintro ⟨s₁, s₂, rfl, rfl⟩
          dsimp only
          rw [count_after, count_after]
          refine (afterCount_coupled L r budget _).mono ?_ fun _ _ _ _ h ↦ h
          rintro _ _ ⟨-, -, evs, h₁, h₂⟩
          exact ⟨_, h₁, h₂⟩

theorem fitContext_coupled (dies : History → Bool) (L : Loop) {ms : List Entry} (r : Option ℕ)
    (hms : SameCost ms L.messages) :
    Coupled (A.coupling dies b₁ b₂) (A.coupling dies b₁ b₂).rel
      (fitContext (A.world dies) A.launch (L.recast ms r)) (fitContext A.steady A.launch L)
      (A.Fits dies b₁ b₂ r) := by
  unfold fitContext
  split
  · exact coupled_pure fun _ _ h ↦ ⟨⟨ms, rfl, hms⟩, h⟩
  · rename_i budget _
    refine (checkRatio_coupled _ fun _ _ h ↦ h).bind fun _ _ ↦ ?_
    dsimp only
    rw [withCompaction_recast L r hms budget]
    split
    · exact maybeExactCheck_coupled dies _ r budget
    · exact coupled_pure fun _ _ h ↦ ⟨recast_self _ r, h⟩

/-! ### Guards -/

theorem minted_append (h evs : History) :
    A.minted (h ++ evs) =
      evs.foldl (fun n ev ↦ match ev with | .launched _ => 0 | ev => n + A.mintedBy ev)
        (A.minted h) :=
  List.foldl_append

end Setup

/-- The rejection of a finding, when `n` ids have been made. -/
def Finding.rejection (n : ℕ) : Finding → Option Rejection
  | .accepts | .raises => none
  | .rejects guard reason message => some ⟨guard, reason, message, []⟩
  | .recovers guard reason calls => some ⟨guard, reason, "", mintIds n calls⟩

/-- Without recovered calls the ids made before do not matter. -/
theorem Finding.rejection_eq {f : Finding} (h : f.calls = []) (n n' : ℕ) :
    f.rejection n = f.rejection n' := by
  cases f with
  | recovers guard reason calls =>
      obtain rfl : calls = [] := h
      rfl
  | accepts | rejects | raises => rfl

namespace Setup

variable {A : Setup} {dies : History → Bool} {b₁ b₂ : St}

theorem runGuards_findings (h : History) (text : String) (fs : List (String → Finding)) :
    runGuards h text (fs.map A.guard) =
      (firstFinding text fs).rejection (A.minted h.dropLast) := by
  induction fs with
  | nil => rfl
  | cons f fs ih =>
      rw [List.map_cons, runGuards, firstFinding, guard]
      cases f text with
      | accepts => exact ih
      | raises => exact ih
      | rejects guard reason message => rfl
      | recovers guard reason calls => rfl

/-- Both processes judge a reply alike, the ids they make included. -/
theorem runGuards_agree {t : Turn} (ht : t.toolCalls = []) {s₁ s₂ : St}
    (hasked : A.Asked b₁ b₂ A.config.toolSpecs t s₁ s₂)
    (hadmits : (A.coupling dies b₁ b₂).admits s₂) :
    runGuards s₁.history t.text A.launch.config.guards =
      runGuards s₂.history t.text A.launch.config.guards := by
  obtain ⟨evs, messages, rfl, rfl, hreply⟩ := hasked
  have hlast (b : St) : (b.after (evs ++ [.request messages A.config.toolSpecs])).history.dropLast =
      b.history ++ evs := by
    change (b.history ++ (evs ++ [Event.request messages A.config.toolSpecs])).dropLast = _
    rw [← List.append_assoc, List.dropLast_concat]
  change runGuards _ _ (A.findings.map A.guard) = runGuards _ _ (A.findings.map A.guard)
  rw [runGuards_findings, runGuards_findings, hlast, hlast]
  rcases hadmits with hminted | hnone
  · rw [minted_append, minted_append, hminted]
  · have hzero := hnone _ rfl _ (List.mem_append_right evs List.mem_cons_self)
    have hoffers : (A.config.toolSpecs.isEmpty && !A.config.toolSpecs.isEmpty) = false := by
      cases A.config.toolSpecs.isEmpty <;> rfl
    rw [mintedBy, hoffers, hreply] at hzero
    dsimp only at hzero
    rw [ht] at hzero
    exact Finding.rejection_eq (List.length_eq_zero_iff.mp hzero) _ _

/-! ### The end of a step -/

variable (A dies b₁ b₂) in
/-- Both processes go on to the next step, or both end. -/
def Goes (r : Option ℕ) (n₁ n₂ : Loop ⊕ AgentResult) (s₁ s₂ : St) : Prop :=
  match n₁, n₂ with
  | .inl L₁, .inl L₂ => A.Fits dies b₁ b₂ r L₁ L₂ s₁ s₂
  | .inr r₁, .inr r₂ => A.Ends dies b₁ b₂ r₁ r₂ s₁ s₂
  | _, _ => False

theorem finish_goes (dies : History → Bool) (L : Loop) (r : Option ℕ) (reason : StopReason)
    (text : String) (error : Option String) (persist : List Entry) :
    Coupled (A.coupling dies b₁ b₂) (A.coupling dies b₁ b₂).rel
      (finish (A.world dies) A.launch (L.recast L.messages r) reason text error persist >>=
        fun e ↦ pure (.inr e))
      (finish A.steady A.launch L reason text error persist >>= fun e ↦ pure (.inr e))
      (A.Goes dies b₁ b₂ r) :=
  (finish_agrees dies L r rfl reason text error rfl).bind fun _ _ ↦ coupled_pure fun _ _ h ↦ h

theorem save_goes (dies : History → Bool) (L : Loop) (r : Option ℕ) :
    Coupled (A.coupling dies b₁ b₂) (A.coupling dies b₁ b₂).rel
      (save (A.world dies) A.launch (L.recast L.messages r) L.messages none none none >>=
        fun _ ↦ pure (.inl (L.recast L.messages r)))
      (save A.steady A.launch L L.messages none none none >>= fun _ ↦ pure (.inl L))
      (A.Goes dies b₁ b₂ r) :=
  (save_agrees dies L L.messages r rfl none none none).bind_same fun _ ↦
    coupled_pure fun _ _ h ↦ ⟨recast_self L r, h⟩

theorem budgetAfterTools_agrees (dies : History → Bool) (used usage : Usage) :
    A.Agrees dies b₁ b₂ (budgetAfterTools (A.world dies) A.launch used usage)
      (budgetAfterTools A.steady A.launch used usage) := by
  unfold budgetAfterTools
  split
  · exact coupled_same none
  · exact budgetExceeded_agrees dies A.launch usage

theorem runTools_goes (dies : History → Bool) (L : Loop) (ms : List Entry) (r : Option ℕ)
    (before : List Entry) (t : Turn) :
    Coupled (A.coupling dies b₁ b₂) (A.coupling dies b₁ b₂).rel
      (runTools (A.world dies) A.launch (L.recast ms r) before t)
      (runTools A.steady A.launch L before t) (A.Goes dies b₁ b₂ r) := by
  unfold runTools
  refine (budgetExceeded_agrees dies A.launch L.usage).bind_same fun exceeded ↦ ?_
  cases exceeded with
  | some exceeded =>
      exact finish_goes dies { L with messages := before ++ [assistantEntry t] } r
        .budgetExhausted t.text (some exceeded) before
  | none =>
      refine (dispatchAll_agrees dies t.toolCalls).bind_same fun results ↦ ?_
      refine (coupled_ofOption _ _).bind_same fun answers ↦ ?_
      dsimp only [Loop.recast]
      generalize (if (toolUsage results).isZero = true then L.usage
        else L.usage + toolUsage results) = usage
      refine (budgetAfterTools_agrees dies (toolUsage results) usage).bind_same fun exceeded ↦ ?_
      cases exceeded with
      | some exceeded =>
          exact finish_goes dies
            { L with messages := before ++ assistantEntry t :: answers
                     toolCalls := L.toolCalls + answers.length
                     usage := usage } r .budgetExhausted t.text (some exceeded) _
      | none =>
          exact save_goes dies
            { L with messages := before ++ assistantEntry t :: answers
                     toolCalls := L.toolCalls + answers.length
                     usage := usage } r

/-- `judgeText` once the guards have judged. -/
def judge (w : World) (l : Launch) (L : Loop) (before : List Entry) (t : Turn) :
    Option Rejection → M (Loop ⊕ AgentResult)
  | none => do
      let L := { L with messages := before ++ [assistantEntry t] }
      let r ← finish w l L .completed t.text none L.messages
      pure (.inr r)
  | some rejection =>
      let L := { L with messages := before ++ [assistantEntry t] }
      match rejection.calls with
      | c :: cs =>
          runTools w l { L with guardRecoveries := L.guardRecoveries + 1 } before
            (t.recover (c :: cs))
      | [] => do
          let L := { L with
            guardRejections := L.guardRejections + 1
            messages := L.messages ++ [⟨.user rejection.message none, none⟩] }
          if l.config.maxGuardRetries - L.guardRejections < 0 then do
            let error := s!"{rejection.guard}: {rejection.reason}"
            let r ← finish w l L .rejected t.text (some error) L.messages
            pure (.inr r)
          else do
            save w l L L.messages none none none
            pure (.inl L)

theorem judgeText_eq (w : World) (l : Launch) (L : Loop) (before : List Entry) (t : Turn) :
    judgeText w l L before t = Exec.get >>= fun s ↦
      judge w l L before t (runGuards s.history t.text l.config.guards) := by
  unfold judgeText judge
  rfl

theorem judge_goes (dies : History → Bool) (L : Loop) (ms : List Entry) (r : Option ℕ)
    (before : List Entry) (t : Turn) (rejection : Option Rejection) :
    Coupled (A.coupling dies b₁ b₂) (A.coupling dies b₁ b₂).rel
      (judge (A.world dies) A.launch (L.recast ms r) before t rejection)
      (judge A.steady A.launch L before t rejection) (A.Goes dies b₁ b₂ r) := by
  cases rejection with
  | none =>
      exact finish_goes dies { L with messages := before ++ [assistantEntry t] } r .completed
        t.text none _
  | some rejection =>
      unfold judge
      dsimp only [Loop.recast]
      split
      · rename_i c cs _
        exact runTools_goes dies
          { L with messages := before ++ [assistantEntry t]
                   guardRecoveries := L.guardRecoveries + 1 }
          (before ++ [assistantEntry t]) r before (t.recover (c :: cs))
      · split
        · exact finish_goes dies
            { L with messages := before ++ [assistantEntry t] ++
              [⟨.user rejection.message none, none⟩]
                     guardRejections := L.guardRejections + 1 } r .rejected t.text _ _
        · exact save_goes dies
            { L with messages := before ++ [assistantEntry t] ++
              [⟨.user rejection.message none, none⟩]
                     guardRejections := L.guardRejections + 1 } r

theorem judgeText_goes (dies : History → Bool) (L : Loop) (ms : List Entry) (r : Option ℕ)
    (before : List Entry) {t : Turn} (ht : t.toolCalls = []) :
    Coupled (A.coupling dies b₁ b₂) (A.Asked b₁ b₂ A.config.toolSpecs t)
      (judgeText (A.world dies) A.launch (L.recast ms r) before t)
      (judgeText A.steady A.launch L before t) (A.Goes dies b₁ b₂ r) := by
  rw [judgeText_eq, judgeText_eq]
  refine (coupled_get fun _ _ h ↦ ⟨rfl, rfl, h⟩).bind
    (Q := fun t₁ t₂ s₁ s₂ ↦ t₁ = s₁ ∧ t₂ = s₂ ∧ A.Asked b₁ b₂ A.config.toolSpecs t s₁ s₂)
    fun t₁ t₂ ↦ ?_
  have hgoes (o : Option Rejection) : Coupled (A.coupling dies b₁ b₂) (A.coupling dies b₁ b₂).rel
      (judge (A.world dies) A.launch (L.recast ms r) before t o)
      (judge A.steady A.launch L before t o) (A.Goes dies b₁ b₂ r) :=
    judge_goes dies L ms r before t o
  refine coupled_of (hgoes _).grows (p := runGuards t₁.history t.text A.launch.config.guards =
    runGuards t₂.history t.text A.launch.config.guards) ?_ fun heq ↦ ?_
  · rintro _ _ ⟨rfl, rfl, hasked⟩ hadmits
    exact runGuards_agree ht hasked hadmits
  · rw [heq]
    exact (hgoes _).mono (fun _ _ h ↦ h.2.2.rel) fun _ _ _ _ h ↦ h

/-- `step` once the model has answered. -/
def respond (w : World) (l : Launch) (L : Loop) (charsSent : ℕ) :
    Except String Turn → M (Loop ⊕ AgentResult)
  | .error repr => do
      let r ← finish w l L .llmError "" (some repr) L.messages
      pure (.inr r)
  | .ok t => do
      let input := t.usage.totalInput
      let L := { L with
        usage := L.usage + t.usage
        estimator := if 0 < input then L.estimator.observe charsSent input else L.estimator }
      checkRatio L.estimator
      if t.toolCalls.isEmpty then judgeText w l L L.messages t else runTools w l L L.messages t

/-- `step` once the context fits. -/
def ask (w : World) (l : Launch) (L : Loop) : M (Loop ⊕ AgentResult) :=
  let cached := { L with messages := L.messages.map Entry.cached }
  completeWithRetry w l cached.estimator cached.messages l.config.toolSpecs >>=
    respond w l cached (charsOf L.messages l.config.toolSpecs)

theorem step_eq (w : World) (l : Launch) (L : Loop) :
    step w l L = fitContext w l { L with steps := L.steps + 1 } >>= ask w l := by
  unfold step ask respond
  rfl

theorem respond_goes (dies : History → Bool) (L : Loop) (r : Option ℕ) (charsSent : ℕ)
    (c : Except String Turn) :
    Coupled (A.coupling dies b₁ b₂)
      (fun s₁ s₂ ↦ (A.coupling dies b₁ b₂).rel s₁ s₂ ∧
        ∀ t, c = .ok t → A.Asked b₁ b₂ A.config.toolSpecs t s₁ s₂)
      (respond (A.world dies) A.launch (L.recast L.messages r) charsSent c)
      (respond A.steady A.launch L charsSent c) (A.Goes dies b₁ b₂ r) := by
  cases c with
  | error repr =>
      exact (finish_goes dies L r .llmError "" (some repr) L.messages).mono (fun _ _ h ↦ h.1)
        fun _ _ _ _ h ↦ h
  | ok t =>
      unfold respond
      dsimp only [Loop.recast]
      generalize (if 0 < t.usage.totalInput then
        L.estimator.observe charsSent t.usage.totalInput else L.estimator) = est
      refine (checkRatio_coupled est fun _ _ h ↦ h.1).bind fun _ _ ↦ ?_
      split
      · rename_i hnone
        exact (judgeText_goes dies { L with usage := L.usage + t.usage, estimator := est }
          L.messages r L.messages (List.isEmpty_iff.mp hnone)).mono (fun _ _ h ↦ h.2 t rfl)
          fun _ _ _ _ h ↦ h
      · exact (runTools_goes dies { L with usage := L.usage + t.usage, estimator := est }
          L.messages r L.messages t).mono (fun _ _ h ↦ h.1) fun _ _ _ _ h ↦ h

theorem ask_goes (dies : History → Bool) (L : Loop) {ms : List Entry} (r : Option ℕ)
    (hms : SameCost ms L.messages) :
    Coupled (A.coupling dies b₁ b₂) (A.coupling dies b₁ b₂).rel
      (ask (A.world dies) A.launch (L.recast ms r)) (ask A.steady A.launch L)
      (A.Goes dies b₁ b₂ r) := by
  have hcached : ms.map Entry.cached = L.messages.map Entry.cached := hms
  unfold ask
  dsimp only [Loop.recast]
  rw [hcached, hms.charsOf]
  refine (completeWithRetry_coupled dies L.estimator _ A.launch.config.toolSpecs).bind
    fun c c' ↦ ?_
  refine coupled_of (respond_goes dies { L with messages := L.messages.map Entry.cached } r _
    c').grows (fun _ _ h _ ↦ h.1) ?_
  rintro rfl
  exact (respond_goes dies { L with messages := L.messages.map Entry.cached } r _ c).mono
    (fun _ _ h ↦ h.2) fun _ _ _ _ h ↦ h

theorem step_goes (dies : History → Bool) (L : Loop) {ms : List Entry} (r : Option ℕ)
    (hms : SameCost ms L.messages) :
    Coupled (A.coupling dies b₁ b₂) (A.coupling dies b₁ b₂).rel
      (step (A.world dies) A.launch (L.recast ms r)) (step A.steady A.launch L)
      (A.Goes dies b₁ b₂ r) := by
  rw [step_eq, step_eq]
  refine (fitContext_coupled dies { L with steps := L.steps + 1 } r hms).bind fun L₁ L₂ ↦ ?_
  have hself : SameCost L₂.messages L₂.messages := rfl
  refine coupled_of (ask_goes dies L₂ r hself).grows (fun _ _ h _ ↦ h.1) ?_
  rintro ⟨ms, rfl, hms⟩
  exact (ask_goes dies L₂ r hms).mono (fun _ _ h ↦ h.2) fun _ _ _ _ h ↦ h

/-! ## Runs -/

theorem wrapUp_ends (dies : History → Bool) (L : Loop) {ms : List Entry} (r : Option ℕ)
    (hms : SameCost ms L.messages) :
    Coupled (A.coupling dies b₁ b₂) (A.coupling dies b₁ b₂).rel
      (wrapUp (A.world dies) A.launch (L.recast ms r)) (wrapUp A.steady A.launch L)
      (A.Ends dies b₁ b₂) := by
  unfold wrapUp
  split
  · have hasked := hms.append [Entry.mk (.user A.launch.config.wrapUpPrompt none) none]
    unfold SameCost at hasked
    dsimp only [Loop.recast]
    rw [hasked]
    generalize (L.messages ++ [Entry.mk (.user A.launch.config.wrapUpPrompt none) none]).map
      Entry.cached = asked
    refine (completeWithRetry_coupled dies L.estimator asked []).bind fun c c' ↦ ?_
    have hends (c : Except String Turn) : Coupled (A.coupling dies b₁ b₂)
        (A.coupling dies b₁ b₂).rel
        (match c with
          | .error repr =>
              finish (A.world dies) A.launch
                (Loop.recast { L with messages := asked.dropLast } asked.dropLast r) .maxSteps ""
                (some s!"wrap-up failed: {repr}") asked.dropLast
          | .ok t => do
              let L := { L with
                usage := L.usage + t.usage
                messages := asked ++ [Entry.mk (.assistant t.text [] none) none] }
              save (A.world dies) A.launch (L.recast L.messages r) L.messages none none none
              finish (A.world dies) A.launch (L.recast L.messages r) .maxSteps t.text none
                L.messages)
        (match c with
          | .error repr =>
              finish A.steady A.launch { L with messages := asked.dropLast } .maxSteps ""
                (some s!"wrap-up failed: {repr}") asked.dropLast
          | .ok t => do
              let L := { L with
                usage := L.usage + t.usage
                messages := asked ++ [Entry.mk (.assistant t.text [] none) none] }
              save A.steady A.launch L L.messages none none none
              finish A.steady A.launch L .maxSteps t.text none L.messages)
        (A.Ends dies b₁ b₂) := by
      cases c with
      | error repr =>
          exact finish_agrees dies { L with messages := asked.dropLast } r rfl .maxSteps "" _ rfl
      | ok t =>
          dsimp only
          refine (save_agrees dies _ _ r rfl none none none).bind_same fun _ ↦ ?_
          exact finish_agrees dies _ r rfl .maxSteps t.text none rfl
    refine coupled_of (hends c').grows (fun _ _ h _ ↦ h.1) ?_
    rintro rfl
    exact (hends c).mono (fun _ _ h ↦ h.2.1) fun _ _ _ _ h ↦ h
  · exact finish_agrees dies L r hms.strip .maxSteps "" none hms.strip

theorem loop_ends (dies : History → Bool) (rem : ℕ) :
    ∀ (L : Loop) {ms : List Entry} (r : Option ℕ), SameCost ms L.messages →
      Coupled (A.coupling dies b₁ b₂) (A.coupling dies b₁ b₂).rel
        (loop (A.world dies) A.launch rem (L.recast ms r)) (loop A.steady A.launch rem L)
        (A.Ends dies b₁ b₂) := by
  induction rem with
  | zero => exact fun L ms r hms ↦ wrapUp_ends dies L r hms
  | succ rem ih =>
      intro L ms r hms
      refine (step_goes dies L r hms).bind fun n₁ n₂ ↦ ?_
      cases n₂ with
      | inl L₂ =>
          have hself : SameCost L₂.messages L₂.messages := rfl
          have hgrows := (ih L₂ (r := r) hself).grows
          cases n₁ with
          | inl L₁ =>
              refine coupled_of hgrows (fun _ _ h _ ↦ h.1) ?_
              rintro ⟨ms, rfl, hms⟩
              exact (ih L₂ r hms).mono (fun _ _ h ↦ h.2) fun _ _ _ _ h ↦ h
          | inr r₁ => exact ⟨hgrows, fun _ _ h ↦ h.elim⟩
      | inr r₂ =>
          cases n₁ with
          | inl L₁ => exact ⟨(A.coupling dies b₁ b₂).refl, fun _ _ h ↦ h.elim⟩
          | inr r₁ => exact coupled_pure fun _ _ h ↦ h

end Setup

end NucLlm.AgentLoop
