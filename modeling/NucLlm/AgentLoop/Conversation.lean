import NucLlm.AgentLoop.Upheld

/-!
# Conversations stay well paired

Whatever the model, the tools, the guards and the deaths of the process do,
every list of messages that is sent or saved is well paired.  A turn with tool
calls joins the history in one go with its answers, and only the saved file
carries messages from one launch to the next.
-/

namespace NucLlm.AgentLoop

open Exec

/-- The messages an event carries are well paired. -/
def Event.Ok : Event → Prop
  | .request messages _ => WellPaired messages
  | .countTokens messages _ => WellPaired messages
  | .saved c => WellPaired c.messages
  | _ => True

/-- What holds at every moment of a campaign. -/
structure Inv (s : St) : Prop where
  events : ∀ ev ∈ s.history, ev.Ok
  file : ∀ c, s.file = some c → WellPaired c.messages

variable (w : World) (l : Launch)

theorem wellPaired_strip {messages : List Entry} (h : WellPaired messages) :
    WellPaired (messages.map Entry.strip) :=
  h.map Entry.callKeys_strip Entry.answers_strip

/-- A turn followed by the messages of all its results is well paired. -/
theorem wellPaired_answered {before answers : List Entry} {t : Turn} (h : WellPaired before)
    (hanswers : answers.map Entry.answers = t.toolCalls.map fun c ↦ some (c.callId, c.name)) :
    WellPaired (before ++ assistantEntry t :: answers) := by
  refine h.concat_turn rfl ?_
  rw [hanswers]
  exact (List.map_map ..).symm

theorem wellPaired_text {before : List Entry} {t : Turn} (h : WellPaired before)
    (ht : t.toolCalls = []) : WellPaired (before ++ [assistantEntry t]) := by
  have hcalls : (assistantEntry t).callKeys = [] := by
    simp [assistantEntry, Entry.callKeys, Message.callKeys, Message.toolCalls, ht]
  exact h.concat hcalls rfl

/-- Whatever a run does with its messages, they stay well paired. -/
theorem wellPaired_upheld : Upholds w l 0 (fun _ ↦ True) WellPaired WellPaired where
  shrinks := fun _ _ _ ↦ trivial
  fresh := fun _ ↦ .turn _ [] _ rfl rfl (.turn _ [] _ rfl rfl .nil)
  cached := fun _ h ↦ wellPaired_cached h
  strip := fun _ h ↦ wellPaired_strip h
  dumped := fun _ h ↦ wellPaired_sortKeys h
  dumpedDone := fun _ h ↦ wellPaired_sortKeys h
  compact := fun _ budget est h ↦ compact_wellPaired budget est l.config.toolSpecs h
  completed := fun _ _ _ _ _ ht _ h ↦ wellPaired_strip (wellPaired_text h ht)
  sentBack := fun _ _ _ _ _ _ ht _ _ h ↦ (wellPaired_text h ht).concat rfl rfl
  called := fun _ _ _ _ _ _ _ h hanswers _ ↦ wellPaired_answered h hanswers
  recovered := fun _ _ _ _ _ _ _ _ _ _ h hanswers _ ↦ wellPaired_answered h hanswers
  asked := fun _ h ↦ h.concat rfl rfl
  wrappedUp := fun _ _ h ↦ h.concat rfl rfl

theorem checkpoint_carries (c : Checkpoint) :
    c.Carries WellPaired WellPaired ↔ WellPaired c.messages := by
  unfold Checkpoint.Carries
  split
  · exact Iff.rfl
  · exact Iff.rfl

theorem event_carries (ev : Event) : ev.Carries WellPaired WellPaired ↔ ev.Ok := by
  cases ev with
  | saved c => exact checkpoint_carries c
  | launched | restored | request | countTokens | dispatched | ran => exact Iff.rfl

theorem carried_iff (s : St) : Carried WellPaired WellPaired s ↔ Inv s := by
  constructor
  · intro h
    exact ⟨fun ev hev ↦ (event_carries ev).mp (h.events ev hev),
      fun c hc ↦ (checkpoint_carries c).mp (h.file c hc)⟩
  · intro h
    exact ⟨fun ev hev ↦ (event_carries ev).mpr (h.events ev hev),
      fun c hc ↦ (checkpoint_carries c).mpr (h.file c hc)⟩

theorem campaign_inv (launches : List Launch) : Inv (campaign w launches) :=
  (carried_iff _).mp (Upholds.campaign_carried (wellPaired_upheld w) launches)

/-- Every request, every token count and every saved checkpoint of a campaign
carries a well paired conversation, and so does the file it leaves. -/
theorem conversations_wellPaired (launches : List Launch) :
    (∀ ev ∈ (campaign w launches).history, ev.Ok) ∧
      ∀ c, (campaign w launches).file = some c → WellPaired c.messages :=
  ⟨(campaign_inv w launches).events, (campaign_inv w launches).file⟩

end NucLlm.AgentLoop
