import NucLlm.Lib.Coupling
import NucLlm.AgentLoop.Agent

/-!
# Deterministic agents

The model answers as a function of the request, a tool as a function of its
call, a guard as a function of the text.  Only the ids of the calls a guard
recovers come from a counter, which every process starts anew.  Two processes
that take up equal variables, one of which may die, run side by side.
-/

namespace NucLlm.AgentLoop

open Exec

/-- What a guard finds in a text; the calls it recovers have no ids yet. -/
inductive Finding where
  | accepts
  | rejects (guard reason message : String)
  | recovers (guard reason : String) (calls : List (String × List (String × Json)))
  | raises

structure Setup where
  config : Config
  task : String
  estimator : Estimator
  reply : List Message → List Json → Completion
  countTokens : Option (List Message → List Json → TokenCount)
  tool : String → List (String × Json) → ToolResult
  findings : List (String → Finding)
  notes : Option String
  repr : String → String
  fixed4 : ℚ → String

/-- `make_call_id` for each of the calls, when `n` ids have been made. -/
def mintIds (n : ℕ) (calls : List (String × List (String × Json))) : List ToolCall :=
  calls.mapIdx fun i c ↦ ⟨c.1, c.2, s!"call_{n + i + 1}"⟩

/-- The first finding that is a rejection. -/
def firstFinding (text : String) : List (String → Finding) → Finding
  | [] => .accepts
  | f :: fs =>
      match f text with
      | .accepts | .raises => firstFinding text fs
      | finding => finding

def Finding.calls : Finding → List (String × List (String × Json))
  | .recovers _ _ calls => calls
  | _ => []

def Finding.verdict (n : ℕ) : Finding → Verdict
  | .accepts => .accepts
  | .raises => .raises
  | .rejects guard reason message => .rejects ⟨guard, reason, message, []⟩
  | .recovers guard reason calls => .rejects ⟨guard, reason, "", mintIds n calls⟩

namespace Setup

variable (A : Setup)

/-- The ids a guard makes for the reply to a request; the wrap-up, which offers
no tools, is not guarded. -/
def mintedBy : Event → ℕ
  | .request messages tools =>
      if tools.isEmpty && !A.config.toolSpecs.isEmpty then 0
      else
        match A.reply (messages.map Entry.msg) tools with
        | .turn t =>
            if t.toolCalls.isEmpty then (firstFinding t.text A.findings).calls.length else 0
        | _ => 0
  | _ => 0

/-- `_call_counter`: the ids made since the process was launched. -/
def minted (h : History) : ℕ :=
  h.foldl (fun n ev ↦ match ev with | .launched _ => 0 | ev => n + A.mintedBy ev) 0

/-- A guard that judges the reply to the last event. -/
def guard (f : String → Finding) (h : History) (text : String) : Verdict :=
  (f text).verdict (A.minted h.dropLast)

def launch : Launch where
  config := { A.config with guards := A.findings.map A.guard }
  task := A.task
  checkpointed := true
  estimator := A.estimator

def world (dies : History → Bool) : World where
  complete := fun h ↦
    match h.getLast? with
    | some (.request messages tools) => A.reply (messages.map Entry.msg) tools
    | _ => .raises ""
  countTokens := A.countTokens.map fun f h ↦
    match h.getLast? with
    | some (.countTokens messages tools) => f (messages.map Entry.msg) tools
    | _ => .raises ""
  dispatch := fun _ _ c ↦ A.tool c.name c.args
  notes := fun _ ↦ A.notes
  checkpointState := none
  restoresState := false
  dies := dies
  repr := A.repr
  fixed4 := A.fixed4

end Setup

/-! ## Caches -/

/-- The same messages at the same costs, wherever these are cached. -/
def SameCost (ms₁ ms₂ : List Entry) : Prop := ms₁.map Entry.cached = ms₂.map Entry.cached

theorem SameCost.charsOf {ms₁ ms₂ : List Entry} (h : SameCost ms₁ ms₂) (tools : List Json) :
    charsOf ms₁ tools = charsOf ms₂ tools := by
  rw [← charsOf_cached, h, charsOf_cached]

theorem SameCost.strip {ms₁ ms₂ : List Entry} (h : SameCost ms₁ ms₂) :
    ms₁.map Entry.strip = ms₂.map Entry.strip := by
  have hstrip : ∀ ms : List Entry, (ms.map Entry.cached).map Entry.strip = ms.map Entry.strip := by
    intro ms
    rw [List.map_map]
    rfl
  rw [← hstrip, h, hstrip]

theorem SameCost.append {ms₁ ms₂ : List Entry} (h : SameCost ms₁ ms₂) (ms : List Entry) :
    SameCost (ms₁ ++ ms) (ms₂ ++ ms) := by
  unfold SameCost
  rw [List.map_append, List.map_append, h]

/-- Compaction sizes everything before it changes anything. -/
theorem SameCost.compact {ms₁ ms₂ : List Entry} (h : SameCost ms₁ ms₂) (budget : ContextBudget)
    (est : Estimator) (tools : List Json) :
    AgentLoop.compact ms₁ budget est tools = AgentLoop.compact ms₂ budget est tools := by
  unfold AgentLoop.compact Estimator.estimate
  rw [h.charsOf tools, show ms₁.map Entry.cached = ms₂.map Entry.cached from h]

end NucLlm.AgentLoop
