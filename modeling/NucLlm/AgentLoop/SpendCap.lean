import NucLlm.AgentLoop.Traversal

/-!
# The spend cap

What a run has spent is read off its events.  The caps are tested on the way
from a reply to the next request except where a guard sends the reply back, and
not when a run starts or resumes.
-/

namespace NucLlm.AgentLoop

open Exec

/-- The cost of the usage, where the model has a price. -/
def price (cfg : Config) (u : Usage) : Option ℚ :=
  if cfg.model = "" then none else (u.costUsd cfg.model cfg.writeTtl).join

def Reached (cfg : Config) (u : Usage) : Prop :=
  (∃ cap, cfg.maxTotalTokens = some cap ∧ cap ≤ u.total) ∨
    ∃ cap cost, cfg.maxCostUsd = some cap ∧ price cfg u = some cost ∧ cap ≤ cost

/-! ## The account of a run -/

/-- What the events of a run add up to; `batch` is what the tools of the turn
under way have spent themselves. -/
structure Spent where
  usage : Usage
  batch : Usage
  replies : ℕ
  rejected : ℕ

def Spent.total (sp : Spent) : Usage :=
  if sp.batch.isZero then sp.usage else sp.usage + sp.batch

/-- The guards reject the text and recover no call from it. -/
def textRejected (l : Launch) (h : History) (t : Turn) : Bool :=
  t.toolCalls.isEmpty && (runGuards h t.text l.config.guards).any fun r ↦ r.calls.isEmpty

/-- There is a step left, or the wrap-up. -/
def Asks (l : Launch) (replies : ℕ) : Prop :=
  replies < l.config.maxSteps ∨ l.config.wrapUpOnMaxSteps = true

/-- A reply of the loop that a guard sends back for another one. -/
def SentBack (l : Launch) (h : History) (sp : Spent) (t : Turn) : Prop :=
  sp.replies < l.config.maxSteps ∧ textRejected l h t = true ∧
    (sp.rejected + 1 : ℕ) ≤ l.config.maxGuardRetries ∧ Asks l (sp.replies + 1)

section Account

variable (w : World) (l : Launch)

def Spent.next (h : History) (sp : Spent) (ev : Event) : Spent :=
  match ev with
  | .request _ _ =>
      match w.complete (h ++ [ev]) with
      | .turn t =>
          ⟨sp.total + t.usage, {}, sp.replies + 1,
            sp.rejected + if textRejected l (h ++ [ev]) t then 1 else 0⟩
      | _ => sp
  | .ran _ r => if r.usage.isZero then sp else { sp with batch := sp.batch + r.usage }
  | _ => sp

/-- The account after more events of a run. -/
def spent (h : History) (sp : Spent) : List Event → Spent
  | [] => sp
  | ev :: evs => spent (h ++ [ev]) (sp.next w l h ev) evs

/-- The account a run starts with: the one of its checkpoint. -/
def spentBefore (s : St) : Spent :=
  match found l s with
  | some c => ⟨c.usage, {}, c.steps, c.guardRejections⟩
  | none => ⟨{}, {}, 0, 0⟩

/-- The checkpoint is that of a completed run, which is not continued. -/
def Replays (s : St) : Prop := ∃ c ∈ found l s, c.result.isSome

/-- No request is made once a cap has been reached. -/
def StaysUnder (h : History) (sp : Spent) (evs : List Event) : Prop :=
  ∀ pre messages tools post, evs = pre ++ .request messages tools :: post →
    ¬ Reached l.config (spent w l h sp pre).total

/-- No reply that is sent back brings the usage to a cap. -/
def BackUnder (h : History) (sp : Spent) (evs : List Event) : Prop :=
  ∀ pre messages tools post t, evs = pre ++ .request messages tools :: post →
    w.complete (h ++ pre ++ [.request messages tools]) = .turn t →
    SentBack l (h ++ pre ++ [.request messages tools]) (spent w l h sp pre) t →
    ¬ Reached l.config ((spent w l h sp pre).total + t.usage)

/-- A run that asks at all does not start at a cap. -/
def StartsUnder (s : St) : Prop :=
  ¬ Replays l s → Asks l (spentBefore l s).replies →
    ¬ Reached l.config (spentBefore l s).total

end Account

/-! ## One event more -/

section Snoc

variable {w : World} {l : Launch} {h₀ : History} {sp₀ : Spent}

theorem spent_concat (evs : List Event) (ev : Event) :
    ∀ h sp, spent w l h sp (evs ++ [ev]) = (spent w l h sp evs).next w l (h ++ evs) ev := by
  induction evs with
  | nil =>
      intro h sp
      rw [List.nil_append, List.append_nil]
      rfl
  | cons e evs ih =>
      intro h sp
      have := ih (h ++ [e]) (sp.next w l h e)
      rw [List.append_assoc] at this
      exact this

theorem BackUnder.init {evs : List Event} {ev : Event}
    (h : BackUnder w l h₀ sp₀ (evs ++ [ev])) : BackUnder w l h₀ sp₀ evs := by
  intro pre messages tools post t hevs
  refine h pre messages tools (post ++ [ev]) t ?_
  rw [hevs, List.append_assoc, List.cons_append]

theorem StaysUnder.concat {evs : List Event} {ev : Event} (h : StaysUnder w l h₀ sp₀ evs)
    (hev : ∀ messages tools, ev = .request messages tools →
      ¬ Reached l.config (spent w l h₀ sp₀ evs).total) :
    StaysUnder w l h₀ sp₀ (evs ++ [ev]) := by
  intro pre messages tools post hevs
  rcases Lists.concat_eq_split hevs with ⟨rfl, heq⟩ | ⟨post', hevs⟩
  · exact hev messages tools heq.symm
  · exact h pre messages tools post' hevs

end Snoc

/-! ## What every moment of a run satisfies -/

section Run

variable (w : World) (l : Launch) (h₀ : History) (sp₀ : Spent)

/-- The events of the run so far keep under the caps if its replies do. -/
structure Account (evs : List Event) (s : St) : Prop where
  history : s.history = h₀ ++ evs
  under : BackUnder w l h₀ sp₀ evs → StaysUnder w l h₀ sp₀ evs

def Sound (s : St) : Prop := ∃ evs, Account w l h₀ sp₀ evs s

/-- The account stands at `sp`. -/
def Stands (sp : Spent) (s : St) : Prop :=
  ∃ evs, Account w l h₀ sp₀ evs s ∧ spent w l h₀ sp₀ evs = sp

/-- The state between two steps: the account has the loop's numbers, and a cap
that is reached is reached by a reply that was sent back. -/
def Ready (usage : Usage) (steps rejections : ℕ) (s : St) : Prop :=
  ∃ evs, Account w l h₀ sp₀ evs s ∧ (spent w l h₀ sp₀ evs).total = usage ∧
    (spent w l h₀ sp₀ evs).replies = steps ∧ (spent w l h₀ sp₀ evs).rejected = rejections ∧
    (BackUnder w l h₀ sp₀ evs → Asks l steps → ¬ Reached l.config usage)

/-- The state after the reply `t` to a request. -/
def Replied (usage : Usage) (steps rejections : ℕ) (t : Turn) (s : St) : Prop :=
  ∃ evs messages tools, Account w l h₀ sp₀ (evs ++ [.request messages tools]) s ∧
    w.complete s.history = .turn t ∧ (spent w l h₀ sp₀ evs).total = usage ∧
    (spent w l h₀ sp₀ evs).replies = steps ∧ (spent w l h₀ sp₀ evs).rejected = rejections

variable {w l h₀ sp₀}

theorem Stands.sound {sp : Spent} {s : St} (h : Stands w l h₀ sp₀ sp s) : Sound w l h₀ sp₀ s :=
  h.imp fun _ h ↦ h.1

theorem Ready.sound {usage : Usage} {steps rejections : ℕ} {s : St}
    (h : Ready w l h₀ sp₀ usage steps rejections s) : Sound w l h₀ sp₀ s :=
  h.imp fun _ h ↦ h.1

theorem Replied.sound {usage : Usage} {steps rejections : ℕ} {t : Turn} {s : St}
    (h : Replied w l h₀ sp₀ usage steps rejections t s) : Sound w l h₀ sp₀ s := by
  obtain ⟨evs, messages, tools, h, -⟩ := h
  exact ⟨_, h⟩

/-- An event that is no request, and the account after it. -/
theorem Account.concat {evs : List Event} {s : St} (h : Account w l h₀ sp₀ evs s) {ev : Event}
    (hev : ∀ messages tools, ev = .request messages tools →
      BackUnder w l h₀ sp₀ evs → ¬ Reached l.config (spent w l h₀ sp₀ evs).total) :
    Account w l h₀ sp₀ (evs ++ [ev]) { s with history := s.history ++ [ev] } := by
  constructor
  · change s.history ++ [ev] = h₀ ++ (evs ++ [ev])
    rw [h.history, List.append_assoc]
  · intro hback
    exact (h.under hback.init).concat fun messages tools heq ↦ hev messages tools heq hback.init

/-- An event without a part in the account. -/
def Event.Silent : Event → Prop
  | .request _ _ | .ran _ _ => False
  | _ => True

theorem Event.Silent.next {ev : Event} (h : ev.Silent) (hist : History) (sp : Spent) :
    sp.next w l hist ev = sp := by
  cases ev with
  | request => exact h.elim
  | ran => exact h.elim
  | launched | restored | countTokens | dispatched | saved => rfl

theorem Event.Silent.ne_request {ev : Event} (h : ev.Silent) (messages : List Entry)
    (tools : List Json) : ev ≠ .request messages tools := by
  rintro rfl
  exact h

theorem silent_stands {ev : Event} (hev : ev.Silent) {sp : Spent} {s : St}
    (h : Stands w l h₀ sp₀ sp s) :
    Stands w l h₀ sp₀ sp { s with history := s.history ++ [ev] } := by
  obtain ⟨evs, haccount, hspent⟩ := h
  refine ⟨evs ++ [ev], haccount.concat fun m t heq ↦ absurd heq (hev.ne_request m t), ?_⟩
  rw [spent_concat, hev.next, hspent]

theorem silent_ready {ev : Event} (hev : ev.Silent) {usage : Usage} {steps rejections : ℕ} {s : St}
    (h : Ready w l h₀ sp₀ usage steps rejections s) :
    Ready w l h₀ sp₀ usage steps rejections { s with history := s.history ++ [ev] } := by
  obtain ⟨evs, haccount, htotal, hreplies, hrejected, hunder⟩ := h
  refine ⟨evs ++ [ev], haccount.concat fun m t heq ↦ absurd heq (hev.ne_request m t), ?_⟩
  rw [spent_concat, hev.next]
  exact ⟨htotal, hreplies, hrejected, fun hback ↦ hunder hback.init⟩

theorem silent_sound {ev : Event} (hev : ev.Silent) {s : St} (h : Sound w l h₀ sp₀ s) :
    Sound w l h₀ sp₀ { s with history := s.history ++ [ev] } := by
  obtain ⟨evs, haccount⟩ := h
  exact ⟨evs ++ [ev], haccount.concat fun m t heq ↦ absurd heq (hev.ne_request m t)⟩

end Run

/-! ## Effects -/

section Effects

variable (w : World) (l : Launch) {h₀ : History} {sp₀ : Spent}

theorem save_preserves_of {I : St → Prop}
    (hfile : ∀ s f, I s → I { s with file := f })
    (hsilent : ∀ s (ev : Event), ev.Silent → I s → I { s with history := s.history ++ [ev] })
    (L : Loop) (messages : List Entry) (result : Option (StopReason × String × Option String))
    (last : Option StopReason) (error : Option String) :
    (save w l L messages result last error).Preserves I := by
  unfold save
  split
  · refine (preserves_get _).bind fun s ↦ ?_
    refine (preserves_modify fun s hs ↦ hfile s _ hs).bind fun _ ↦ ?_
    exact fun s hs ↦ emit_wp (hsilent s _ trivial hs)
  · exact preserves_pure _ _

theorem save_sound (L : Loop) (messages : List Entry)
    (result : Option (StopReason × String × Option String)) (last : Option StopReason)
    (error : Option String) :
    (save w l L messages result last error).Preserves (Sound w l h₀ sp₀) := by
  apply save_preserves_of
  · rintro s f ⟨evs, h⟩
    exact ⟨evs, h.history, h.under⟩
  · exact fun s ev hev h ↦ silent_sound hev h

theorem save_ready (usage : Usage) (steps rejections : ℕ) (L : Loop) (messages : List Entry)
    (result : Option (StopReason × String × Option String)) (last : Option StopReason)
    (error : Option String) :
    (save w l L messages result last error).Preserves
      (Ready w l h₀ sp₀ usage steps rejections) := by
  apply save_preserves_of
  · rintro s f ⟨evs, h, hrest⟩
    exact ⟨evs, ⟨h.history, h.under⟩, hrest⟩
  · exact fun s ev hev h ↦ silent_ready hev h

theorem finish_sound (L : Loop) (reason : StopReason) (text : String) (error : Option String)
    (persist : List Entry) :
    (finish w l L reason text error persist).Preserves (Sound w l h₀ sp₀) := by
  refine (currentCost_preserves l _ _).bind fun cost ↦ ?_
  refine Preserves.bind ?_ fun _ ↦ preserves_pure _ _
  unfold saveEnd
  split
  · exact save_sound w l L _ _ _ _
  · exact save_sound w l L _ _ _ _

/-- The state is unchanged. -/
theorem currentCost_wp (usage : Usage) (s : St) :
    (currentCost l usage).wp (fun cost s' ↦ s' = s ∧ cost = price l.config usage)
      (fun _ s' ↦ s' = s) s := by
  unfold currentCost price
  split
  · exact ⟨rfl, rfl⟩
  · rw [wp_ofOption]
    refine ⟨fun _ ↦ rfl, fun cost hcost ↦ ⟨rfl, ?_⟩⟩
    rw [hcost]
    rfl

/-- A run that goes on has reached no cap. -/
theorem budgetExceeded_wp (usage : Usage) (s : St) :
    (budgetExceeded w l usage).wp
      (fun exceeded s' ↦ s' = s ∧ (exceeded = none → ¬ Reached l.config usage))
      (fun _ s' ↦ s' = s) s := by
  unfold budgetExceeded
  split
  · exact ⟨rfl, fun h ↦ by contradiction⟩
  · rename_i hcap
    have htokens : ¬ ∃ cap, l.config.maxTotalTokens = some cap ∧ cap ≤ usage.total := by
      rintro ⟨cap, hsome, hle⟩
      rw [hsome, Option.filter_some, if_pos (by simpa using hle)] at hcap
      contradiction
    split
    · rename_i hcost
      refine ⟨rfl, fun _ hreached ↦ ?_⟩
      rcases hreached with hreached | ⟨cap, cost, hsome, -⟩
      · exact htokens hreached
      · rw [hcost] at hsome
        contradiction
    · rename_i cap hcost
      refine wp_bind_of (currentCost_wp l usage s) ?_
      rintro cost s ⟨rfl, hprice⟩
      cases cost with
      | none => exact ⟨rfl, fun h ↦ by contradiction⟩
      | some cost =>
          refine ⟨rfl, fun hnone hreached ↦ ?_⟩
          rcases hreached with hreached | ⟨cap', cost', hcap', hcost', hle⟩
          · exact htokens hreached
          · rw [hcost] at hcap'
            rw [← hprice] at hcost'
            obtain rfl := Option.some.inj hcap'
            obtain rfl := Option.some.inj hcost'
            rw [if_pos hle] at hnone
            contradiction

theorem askOnce_wp {messages : List Entry} {tools : List Json} {usage : Usage}
    {steps rejections : ℕ} (hasks : Asks l steps) {s : St}
    (h : Ready w l h₀ sp₀ usage steps rejections s) :
    (askOnce w messages tools).wp
      (fun c s ↦ match c with
        | .ok t => Replied w l h₀ sp₀ usage steps rejections t s
        | .error _ => Ready w l h₀ sp₀ usage steps rejections s)
      (fun _ ↦ Sound w l h₀ sp₀) s := by
  obtain ⟨evs, haccount, htotal, hreplies, hrejected, hunder⟩ := h
  have hasked : Account w l h₀ sp₀ (evs ++ [.request messages tools])
      { s with history := s.history ++ [.request messages tools] } :=
    haccount.concat fun _ _ _ hback ↦ htotal ▸ hunder hback hasks
  unfold askOnce emit
  simp only [wp_bind, wp_modify, wp_get]
  split
  · exact ⟨_, hasked⟩
  · simp only [wp_pure]
    split
    · rename_i t hturn
      exact ⟨evs, messages, tools, hasked, hturn, htotal, hreplies, hrejected⟩
    · rename_i e herror
      have hnext : (spent w l h₀ sp₀ evs).next w l (h₀ ++ evs) (.request messages tools) =
          spent w l h₀ sp₀ evs := by
        rw [← haccount.history, Spent.next]
        rw [herror]
      refine ⟨_, hasked, ?_⟩
      rw [spent_concat, hnext]
      exact ⟨htotal, hreplies, hrejected, fun hback ↦ hunder hback.init⟩
    · exact ⟨_, hasked⟩

theorem attempt_wp {messages : List Entry} {tools : List Json} {usage : Usage}
    {steps rejections : ℕ} (hasks : Asks l steps) (rem : ℕ) :
    ∀ (last : String) (s : St), Ready w l h₀ sp₀ usage steps rejections s →
      (attempt w l messages tools rem last).wp
        (fun c s ↦ match c with
          | .ok t => Replied w l h₀ sp₀ usage steps rejections t s
          | .error _ => Sound w l h₀ sp₀ s)
        (fun _ ↦ Sound w l h₀ sp₀) s := by
  induction rem with
  | zero => exact fun last s h ↦ h.sound
  | succ rem ih =>
      intro last s h
      refine wp_bind_of (askOnce_wp w l hasks h) fun c s hc ↦ ?_
      split
      · exact hc
      · exact ih _ s hc
      · exact hc.sound

theorem completeWithRetry_wp (est : Estimator) {messages : List Entry} {tools : List Json}
    {usage : Usage} {steps rejections : ℕ} (hasks : Asks l steps) {s : St}
    (h : Ready w l h₀ sp₀ usage steps rejections s) :
    (completeWithRetry w l est messages tools).wp
      (fun c s ↦ match c with
        | .ok t => Replied w l h₀ sp₀ usage steps rejections t s
        | .error _ => Sound w l h₀ sp₀ s)
      (fun _ ↦ Sound w l h₀ sp₀) s := by
  unfold completeWithRetry
  refine wp_bind_of ((checkRatio_preserves est _).wp h fun _ _ h ↦ h.sound) fun _ s h ↦ ?_
  split
  · exact h.sound
  · exact attempt_wp w l hasks _ _ s h

/-! ## Tools -/

/-- A tool's own usage joins the batch. -/
theorem ran_stands {sp : Spent} {c : ToolCall} {r : ToolResult} {s : St}
    (h : Stands w l h₀ sp₀ sp s) :
    Stands w l h₀ sp₀
      { sp with batch := if r.usage.isZero then sp.batch else sp.batch + r.usage }
      { s with history := s.history ++ [.ran c r] } := by
  obtain ⟨evs, haccount, hspent⟩ := h
  refine ⟨_, haccount.concat fun _ _ heq ↦ by contradiction, ?_⟩
  rw [spent_concat, hspent, Spent.next]
  split
  · rfl
  · rfl

def batchUsage (batch : Usage) (results : List ToolResult) : Usage :=
  results.foldl (fun u r ↦ if r.usage.isZero then u else u + r.usage) batch

theorem dispatchSerial_wp (calls : List ToolCall) :
    ∀ i sp s, Stands w l h₀ sp₀ sp s →
      (dispatchSerial w i calls).wp
        (fun rs s ↦ Stands w l h₀ sp₀ { sp with batch := batchUsage sp.batch rs } s)
        (fun _ ↦ Sound w l h₀ sp₀) s := by
  induction calls with
  | nil => exact fun i sp s h ↦ h
  | cons c cs ih =>
      intro i sp s h
      unfold dispatchSerial
      simp only [wp_bind, wp_get, wp_pure]
      refine wp_mono (emit_wp (ran_stands w l h)) (fun _ s h ↦ ?_) fun _ _ h ↦ h.sound
      exact wp_mono (ih (i + 1) _ s h) (fun rs s h ↦ h) fun _ _ h ↦ h

theorem dispatchPool_wp (history : History) (calls : List ToolCall) :
    ∀ i sp s, Stands w l h₀ sp₀ sp s →
      (dispatchPool w history i calls).wp
        (fun rs s ↦ Stands w l h₀ sp₀ { sp with batch := batchUsage sp.batch rs } s)
        (fun _ ↦ Sound w l h₀ sp₀) s := by
  induction calls with
  | nil => exact fun i sp s h ↦ h
  | cons c cs ih =>
      intro i sp s h
      unfold dispatchPool
      simp only [wp_bind, wp_pure]
      refine wp_mono (emit_wp (ran_stands w l h)) (fun _ s h ↦ ?_) fun _ _ h ↦ h.sound
      exact wp_mono (ih (i + 1) _ s h) (fun rs s h ↦ h) fun _ _ h ↦ h

theorem dispatchAll_wp (calls : List ToolCall) {sp : Spent} {s : St}
    (h : Stands w l h₀ sp₀ sp s) :
    (dispatchAll w l calls).wp
      (fun rs s ↦ Stands w l h₀ sp₀ { sp with batch := batchUsage sp.batch rs } s)
      (fun _ ↦ Sound w l h₀ sp₀) s := by
  unfold dispatchAll
  have hsilent : (Event.dispatched calls).Silent := trivial
  refine wp_bind_of (wp_mono (emit_wp (silent_stands hsilent h)) (fun _ _ h ↦ h)
    fun _ _ h ↦ h.sound) fun _ s h ↦ ?_
  dsimp only
  split
  · split
    · exact h.sound
    · exact dispatchPool_wp w l _ calls 0 sp s h
  · exact dispatchSerial_wp w l calls 0 sp s h

/-! ## Steps -/

variable (h₀ sp₀) in
/-- The rest of a step ends the run or leads to the next step. -/
abbrev Continues (m : M (Loop ⊕ AgentResult)) (steps : ℕ) (s : St) : Prop :=
  m.wp
    (fun next s ↦ match next with
      | .inl L => L.steps = steps ∧ Ready w l h₀ sp₀ L.usage L.steps L.guardRejections s
      | .inr _ => Sound w l h₀ sp₀ s)
    (fun _ ↦ Sound w l h₀ sp₀) s

theorem continues_finish {m : M AgentResult} (h : m.Preserves (Sound w l h₀ sp₀)) {steps : ℕ}
    {s : St} (hs : Sound w l h₀ sp₀ s) :
    Continues w l h₀ sp₀ (m >>= fun r ↦ pure (.inr r)) steps s :=
  wp_bind_of (h s hs) fun _ _ hs ↦ hs

/-- The account after the reply. -/
theorem Replied.stands {usage : Usage} {steps rejections : ℕ} {t : Turn} {s : St}
    (h : Replied w l h₀ sp₀ usage steps rejections t s) :
    Stands w l h₀ sp₀
      ⟨usage + t.usage, {}, steps + 1,
        rejections + if textRejected l s.history t then 1 else 0⟩ s := by
  obtain ⟨evs, messages, tools, haccount, hturn, rfl, rfl, rfl⟩ := h
  have hhistory : h₀ ++ evs ++ [.request messages tools] = s.history := by
    rw [haccount.history, List.append_assoc]
  refine ⟨_, haccount, ?_⟩
  rw [spent_concat, Spent.next, hhistory, hturn]

theorem Stands.ready {sp : Spent} {s : St} (h : Stands w l h₀ sp₀ sp s)
    (hunder : ¬ Reached l.config sp.total) :
    Ready w l h₀ sp₀ sp.total sp.replies sp.rejected s := by
  obtain ⟨evs, haccount, rfl⟩ := h
  exact ⟨evs, haccount, rfl, rfl, rfl, fun _ _ ↦ hunder⟩

theorem runTools_continues {L : Loop} (before : List Entry) (t : Turn) {s : St}
    (h : Stands w l h₀ sp₀ ⟨L.usage, {}, L.steps, L.guardRejections⟩ s) :
    Continues w l h₀ sp₀ (runTools w l L before t) L.steps s := by
  unfold runTools
  refine wp_bind_of (wp_mono (budgetExceeded_wp w l _ s) (fun _ _ h ↦ h)
    fun _ s' heq ↦ heq ▸ h.sound) ?_
  rintro exceeded s ⟨rfl, hunder⟩
  split
  · exact continues_finish w l (finish_sound w l _ _ _ _ _) h.sound
  · have hunder := hunder rfl
    refine wp_bind_of (dispatchAll_wp w l t.toolCalls h) fun results s h ↦ ?_
    rw [wp_bind, wp_ofOption]
    refine ⟨fun _ ↦ h.sound, fun answers _ ↦ ?_⟩
    dsimp only
    change Stands w l h₀ sp₀ ⟨L.usage, toolUsage results, L.steps, L.guardRejections⟩ s at h
    have htotal : (Spent.mk L.usage (toolUsage results) L.steps L.guardRejections).total =
        if (toolUsage results).isZero = true then L.usage else L.usage + toolUsage results := rfl
    generalize hnow : (if (toolUsage results).isZero = true then L.usage
      else L.usage + toolUsage results) = usage at htotal ⊢
    refine wp_bind_of (P := fun exceeded s ↦ Sound w l h₀ sp₀ s ∧ (exceeded = none →
      Ready w l h₀ sp₀ usage L.steps L.guardRejections s)) ?_ fun exceeded s hnext ↦ ?_
    · unfold budgetAfterTools
      split
      · rename_i hzero
        rw [if_pos hzero] at hnow
        refine ⟨h.sound, fun _ ↦ ?_⟩
        have hready := h.ready w l (by rw [htotal, ← hnow]; exact hunder)
        rw [htotal] at hready
        exact hready
      · refine wp_mono (budgetExceeded_wp w l _ s) ?_ fun _ s' heq ↦ heq ▸ h.sound
        rintro exceeded s ⟨rfl, hunder⟩
        refine ⟨h.sound, fun hnone ↦ ?_⟩
        have hready := h.ready w l (by rw [htotal]; exact hunder hnone)
        rw [htotal] at hready
        exact hready
    · split
      · exact continues_finish w l (finish_sound w l _ _ _ _ _) hnext.1
      · have hready := hnext.2 rfl
        refine wp_bind_of ((save_ready w l _ _ _ _ _ _ _ _).wp hready
          fun _ _ h ↦ h.sound) fun _ s hready ↦ ?_
        exact ⟨rfl, hready⟩

/-- A reply without tool calls: it ends the run, has its calls recovered, or is
sent back. -/
theorem judgeText_continues {L : Loop} (usage : Usage) {steps : ℕ} (before : List Entry)
    {t : Turn} (ht : t.toolCalls = []) {s : St} (hsteps : steps < l.config.maxSteps)
    (husage : L.usage = usage + t.usage) (hL : L.steps = steps + 1)
    (h : Replied w l h₀ sp₀ usage steps L.guardRejections t s) :
    Continues w l h₀ sp₀ (judgeText w l L before t) L.steps s := by
  have hstands := h.stands
  unfold judgeText
  rw [Continues, wp_bind, wp_get]
  dsimp only
  split
  · exact continues_finish w l (finish_sound w l _ _ _ _ _) h.sound
  · rename_i rejection hguards
    split
    · rename_i c cs hcalls
      have haccepted : textRejected l s.history t = false := by
        rw [textRejected, hguards, Option.any_some, hcalls]
        exact Bool.and_false _
      rw [haccepted, ← husage, ← hL] at hstands
      exact runTools_continues w l before _ hstands
    · rename_i hcalls
      have hrejected : textRejected l s.history t = true := by
        rw [textRejected, hguards, Option.any_some, hcalls, ht]
        rfl
      split
      · exact continues_finish w l (finish_sound w l _ _ _ _ _) h.sound
      · rename_i hretries
        obtain ⟨evs, messages, tools, haccount, hturn, htotal, hreplies, hrejections⟩ := h
        have hhistory : h₀ ++ evs ++ [.request messages tools] = s.history := by
          rw [haccount.history, List.append_assoc]
        have hspent : spent w l h₀ sp₀ (evs ++ [.request messages tools]) =
            ⟨L.usage, {}, L.steps, L.guardRejections + 1⟩ := by
          rw [spent_concat, Spent.next, hhistory, hturn]
          dsimp only
          rw [hrejected, htotal, hreplies, hrejections, ← husage, ← hL]
          rfl
        have hready : Ready w l h₀ sp₀ L.usage L.steps (L.guardRejections + 1) s := by
          refine ⟨_, haccount, by rw [hspent]; rfl, by rw [hspent], by rw [hspent], ?_⟩
          intro hback hasks
          rw [husage, ← htotal]
          refine hback evs messages tools [] t rfl (hhistory ▸ hturn) ⟨?_, ?_, ?_, ?_⟩
          · rw [hreplies]
            exact hsteps
          · rw [hhistory]
            exact hrejected
          · rw [hrejections]
            omega
          · rw [hreplies, ← hL]
            exact hasks
        refine wp_bind_of ((save_ready w l _ _ _ _ _ _ _ _).wp hready
          fun _ _ h ↦ h.sound) fun _ s hready ↦ ?_
        exact ⟨rfl, hready⟩

/-- What compaction leaves as it is. -/
def SameNumbers (L L' : Loop) : Prop :=
  L'.usage = L.usage ∧ L'.steps = L.steps ∧ L'.guardRejections = L.guardRejections

theorem fitContext_ready (L : Loop) {usage : Usage} {steps rejections : ℕ} {s : St}
    (h : Ready w l h₀ sp₀ usage steps rejections s) :
    (fitContext w l L).wp
      (fun L' s ↦ SameNumbers L L' ∧ Ready w l h₀ sp₀ usage steps rejections s)
      (fun _ ↦ Sound w l h₀ sp₀) s := by
  have hcount (messages : List Entry) (tools : List Json) :
      (emit w (.countTokens messages tools)).Preserves
        (Ready w l h₀ sp₀ usage steps rejections) := by
    intro s h
    have hsilent : (Event.countTokens messages tools).Silent := trivial
    exact emit_wp (silent_ready hsilent h)
  have hfit := fitContext_wp w l (P := SameNumbers L) (fun L' _ ↦ hcount L'.messages _)
    (fun _ _ hL ↦ hL) (fun _ _ hL ↦ hL) (L := L) ⟨rfl, rfl, rfl⟩ h
  exact wp_mono hfit (fun _ _ h ↦ h) fun _ _ h ↦ h.sound

theorem step_continues {L : Loop} (hsteps : L.steps < l.config.maxSteps) {s : St}
    (h : Ready w l h₀ sp₀ L.usage L.steps L.guardRejections s) :
    Continues w l h₀ sp₀ (step w l L) (L.steps + 1) s := by
  unfold step
  refine wp_bind_of (fitContext_ready w l { L with steps := L.steps + 1 } h) ?_
  rintro L' s ⟨⟨husage, hnow, hrejections⟩, h⟩
  dsimp only at husage hnow hrejections ⊢
  refine wp_bind_of (completeWithRetry_wp w l _ (Or.inl hsteps) h) fun turn s h ↦ ?_
  split
  · exact continues_finish w l (finish_sound w l _ _ _ _ _) h
  · rename_i t
    dsimp only at h
    rw [← husage, ← hrejections] at h
    refine wp_bind_of ((checkRatio_preserves _ _).wp h fun _ _ h ↦ h.sound) fun _ s h ↦ ?_
    split
    · rename_i hnone
      rw [← hnow]
      refine judgeText_continues w l L'.usage _ (List.isEmpty_iff.mp hnone) hsteps ?_ hnow ?_
      · rfl
      · exact h
    · rename_i hcalls
      have haccepted : textRejected l s.history t = false := by
        rw [textRejected, Bool.eq_false_iff.mpr hcalls]
        rfl
      have hstands := h.stands
      rw [haccepted, ← hnow] at hstands
      rw [← hnow]
      refine runTools_continues w l _ t ?_
      exact hstands

/-! ## Runs -/

theorem wrapUp_sound (L : Loop) {s : St}
    (h : Ready w l h₀ sp₀ L.usage L.steps L.guardRejections s) :
    (wrapUp w l L).Ensures (Sound w l h₀ sp₀) s := by
  unfold wrapUp Ensures
  split
  · rename_i hwrap
    refine wp_bind_of (completeWithRetry_wp w l _ (Or.inr hwrap) h) fun turn s h ↦ ?_
    split
    · exact finish_sound w l _ _ _ _ _ s h
    · refine wp_bind_of (save_sound w l _ _ _ _ _ s h.sound) fun _ s h ↦ ?_
      exact finish_sound w l _ _ _ _ _ s h
  · exact finish_sound w l _ _ _ _ _ s h.sound

theorem loop_sound (rem : ℕ) :
    ∀ (L : Loop) (s : St), rem = l.config.maxSteps - L.steps →
      Ready w l h₀ sp₀ L.usage L.steps L.guardRejections s →
      (loop w l rem L).Ensures (Sound w l h₀ sp₀) s := by
  induction rem with
  | zero =>
      intro L s hrem h
      exact wrapUp_sound w l L h
  | succ rem ih =>
      intro L s hrem h
      refine wp_bind_of (step_continues w l (by omega) h) fun next s hnext ↦ ?_
      cases next with
      | inl L' =>
          obtain ⟨hsteps, hready⟩ := hnext
          exact ih L' s (by omega) hready
      | inr r => exact hnext

theorem resume_sound {c : Checkpoint} {s : St}
    (h : Ready w l h₀ sp₀ c.usage c.steps c.guardRejections s ∨
      c.result.isSome ∧ Sound w l h₀ sp₀ s) :
    (resume w l c).Ensures (Sound w l h₀ sp₀) s := by
  have hsound : Sound w l h₀ sp₀ s := by
    rcases h with h | h
    · exact h.sound
    · exact h.2
  unfold resume Ensures
  split
  · exact hsound
  · have hrestored : (restore w c).wp
        (fun _ s ↦ Ready w l h₀ sp₀ c.usage c.steps c.guardRejections s ∨
          c.result.isSome ∧ Sound w l h₀ sp₀ s) (fun _ ↦ Sound w l h₀ sp₀) s := by
      unfold restore
      split
      · rename_i st _
        have hsilent : (Event.restored st).Silent := trivial
        split
        · refine wp_mono (emit_wp (Q := fun s ↦ Sound w l h₀ sp₀ s ∧
            (Ready w l h₀ sp₀ c.usage c.steps c.guardRejections s ∨
              c.result.isSome ∧ Sound w l h₀ sp₀ s)) ?_) (fun _ _ h ↦ h.2) fun _ _ h ↦ h.1
          refine ⟨silent_sound hsilent hsound, h.imp (silent_ready hsilent) fun h ↦ ?_⟩
          exact ⟨h.1, silent_sound hsilent h.2⟩
        · exact h
      · exact h
    refine wp_bind_of hrestored fun _ s h ↦ ?_
    dsimp only
    split
    · have hsound : Sound w l h₀ sp₀ s := by
        rcases h with h | h
        · exact h.sound
        · exact h.2
      exact (currentCost_preserves l _ _).bind (fun cost ↦ preserves_pure _ _) s hsound
    · rename_i hnone
      have hready := h.resolve_right fun h ↦ by
        rw [hnone] at h
        exact absurd h.1 (by simp)
      exact loop_sound w l _ _ s rfl hready

/-- A run that does not start at a cap, and whose replies keep under the caps
where a guard sends them back, makes no request once a cap is reached. -/
theorem requests_underCap (s : St) (hstart : StartsUnder l s) (evs : List Event)
    (hrun : (run w l s).2.history = s.history ++ evs)
    (hback : BackUnder w l s.history (spentBefore l s) evs) :
    StaysUnder w l s.history (spentBefore l s) evs := by
  have hsilent : (Event.launched l.task).Silent := trivial
  have hstays : StaysUnder w l s.history (spentBefore l s) [] := by
    intro pre messages tools post h
    exact absurd h (by simp)
  have haccount : Account w l s.history (spentBefore l s) [] s :=
    ⟨(List.append_nil _).symm, fun _ ↦ hstays⟩
  have hsound : Sound w l s.history (spentBefore l s) s := ⟨_, haccount⟩
  have hready (hnew : ¬ Replays l s) : Ready w l s.history (spentBefore l s)
      (spentBefore l s).total (spentBefore l s).replies (spentBefore l s).rejected s :=
    ⟨[], haccount, rfl, rfl, rfl, fun _ ↦ hstart hnew⟩
  have hfound : ∀ s' : St, s'.file = s.file →
      (if l.checkpointed = true then s'.file else none) = found l s := by
    intro s' hfile
    rw [hfile]
    rfl
  have hensures : (run w l).Ensures (Sound w l s.history (spentBefore l s)) s := by
    unfold run Ensures
    refine wp_bind_of (wp_mono (emit_wp (Q := fun s' ↦ s'.file = s.file ∧
      Sound w l s.history (spentBefore l s) s' ∧ (¬ Replays l s →
        Ready w l s.history (spentBefore l s) (spentBefore l s).total (spentBefore l s).replies
          (spentBefore l s).rejected s')) ?_) (fun _ _ h ↦ h) fun _ _ h ↦ h.2.1) ?_
    · exact ⟨rfl, silent_sound hsilent hsound, fun hnew ↦ silent_ready hsilent (hready hnew)⟩
    · rintro _ s' ⟨hfile, hsound, hready⟩
      simp only [wp_bind, wp_get]
      rw [hfound s' hfile]
      split
      · rename_i c hc
        have hbefore : spentBefore l s = ⟨c.usage, {}, c.steps, c.guardRejections⟩ := by
          rw [spentBefore, hc]
        refine resume_sound w l ?_
        by_cases hreplays : Replays l s
        · obtain ⟨c', hc', hresult⟩ := hreplays
          rw [hc] at hc'
          obtain rfl := Option.some.inj hc'
          exact Or.inr ⟨hresult, hsound⟩
        · left
          have := hready hreplays
          rw [hbefore] at this ⊢
          exact this
      · rename_i hnone
        have hbefore : spentBefore l s = ⟨{}, {}, 0, 0⟩ := by
          rw [spentBefore, hnone]
        have hnew : ¬ Replays l s := by
          rintro ⟨c, hc, -⟩
          rw [hnone] at hc
          contradiction
        have hready := hready hnew
        unfold start
        simp only [wp_bind, wp_get]
        refine wp_mono ((save_ready w l _ _ _ _ _ _ _ _).wp hready fun _ _ h ↦ h.sound)
          (fun _ s h ↦ ?_) fun _ _ h ↦ h
        rw [hbefore] at h ⊢
        exact loop_sound w l _ _ s rfl h
  obtain ⟨evs', h⟩ := hensures.state
  rw [h.history] at hrun
  obtain rfl := List.append_cancel_left hrun
  exact h.under hback

end Effects

/-! ## A guard that sends empty replies back -/

/-- A model that replies nothing, for twenty tokens. -/
def silentWorld : World where
  complete := fun _ ↦ .turn ⟨"", [], { outputTokens := 20 }, none⟩
  countTokens := none
  dispatch := fun _ _ _ ↦ ⟨true, "", {}⟩
  notes := fun _ ↦ none
  checkpointState := none
  restoresState := false
  dies := fun _ ↦ false
  repr := id
  fixed4 := fun _ ↦ ""

def rejectEmpty (_ : History) (text : String) : Verdict :=
  if text = "" then .rejects ⟨"empty_reply", "empty", "Your previous reply was empty.", []⟩
  else .accepts

def Event.isRequest : Event → Bool
  | .request _ _ => true
  | _ => false

theorem exists_request {evs : List Event} (h : evs.head?.any Event.isRequest = true) :
    ∃ messages tools post, evs = .request messages tools :: post := by
  cases evs with
  | nil => contradiction
  | cons ev post =>
      cases ev with
      | request messages tools => exact ⟨messages, tools, post, rfl⟩
      | launched | restored | countTokens | dispatched | ran | saved =>
          exact Bool.noConfusion h

/-- Three steps, two of whose replies may be sent back. -/
def cappedLaunch (cap : ℤ) : Launch where
  config :=
    { systemPrompt := "p", maxSteps := 3, maxObservationChars := 80, maxAttempts := 1
      contextBudget := none, parallelTools := false, maxParallel := 1
      maxTotalTokens := some cap, maxCostUsd := none, model := "", writeTtl := "5m"
      exactTokenCheck := false, exactTokenMargin := 0, wrapUpOnMaxSteps := false
      wrapUpPrompt := "", maxGuardRetries := 2, guards := [rejectEmpty], toolSpecs := []
      parallelSafe := fun _ ↦ false }
  task := "t"
  checkpointed := false
  estimator := {}

/-- Whether replies sent back keep under a token cap is a matter of numbers. -/
theorem backUnder_of_totals {cap : ℤ} {sp : Spent} {evs : List Event}
    (h : ∀ k < evs.length, (spent silentWorld (cappedLaunch cap) [] sp (evs.take k)).rejected < 2 →
      ((spent silentWorld (cappedLaunch cap) [] sp (evs.take k)).total +
        { outputTokens := 20 }).total < cap) :
    BackUnder silentWorld (cappedLaunch cap) [] sp evs := by
  intro pre messages tools post t hevs hturn hsent hreached
  obtain rfl := Completion.turn.inj hturn
  have hlength : pre.length < evs.length := by
    rw [hevs, List.length_append, List.length_cons]
    omega
  have htake : evs.take pre.length = pre := by
    rw [hevs, List.take_left]
  have hretries : ((spent silentWorld (cappedLaunch cap) [] sp pre).rejected + 1 : ℕ) ≤ (2 : ℤ) :=
    hsent.2.2.1
  have hlt := h pre.length hlength
  rw [htake] at hlt
  have hlt := hlt (by omega)
  rcases hreached with ⟨cap', hcap, hle⟩ | ⟨cap', cost, hcap, -⟩
  · obtain rfl := Option.some.inj hcap
    exact absurd hle (not_le.mpr hlt)
  · have hnone : (none : Option ℚ) = some cap' := hcap
    exact absurd hnone (by simp)

/-- Three replies are asked for under a cap that the third one passes. -/
theorem requests_underCap_fifty :
    StaysUnder silentWorld (cappedLaunch 50) [] (spentBefore (cappedLaunch 50) St.init)
      (run silentWorld (cappedLaunch 50) St.init).2.history := by
  have hstart : StartsUnder (cappedLaunch 50) St.init := by
    intro _ _ hreached
    rcases hreached with ⟨cap, hcap, hle⟩ | ⟨cap, cost, hcap, -⟩
    · obtain rfl := Option.some.inj hcap
      exact absurd hle (by decide)
    · have hnone : (none : Option ℚ) = some cap := hcap
      exact absurd hnone (by simp)
  refine requests_underCap silentWorld (cappedLaunch 50) St.init hstart _
    (List.nil_append _).symm ?_
  apply backUnder_of_totals
  decide +kernel

/-- Under a cap of ten the second reply is asked for after the first has spent
twenty. -/
theorem sentBack_overspends :
    ¬ StaysUnder silentWorld (cappedLaunch 10) [] (spentBefore (cappedLaunch 10) St.init)
      (run silentWorld (cappedLaunch 10) St.init).2.history := by
  have hrequest : ((run silentWorld (cappedLaunch 10) St.init).2.history.drop 2).head?.any
      Event.isRequest = true := by
    decide +kernel
  have hspent : (10 : ℤ) ≤ (spent silentWorld (cappedLaunch 10) []
      (spentBefore (cappedLaunch 10) St.init)
      ((run silentWorld (cappedLaunch 10) St.init).2.history.take 2)).total.total := by
    decide +kernel
  generalize (run silentWorld (cappedLaunch 10) St.init).2.history = evs at hrequest hspent ⊢
  obtain ⟨messages, tools, post, hdrop⟩ := exists_request hrequest
  have hevs := (List.take_append_drop 2 evs).symm
  rw [hdrop] at hevs
  exact fun h ↦ h _ messages tools post hevs (Or.inl ⟨10, rfl, hspent⟩)

end NucLlm.AgentLoop
