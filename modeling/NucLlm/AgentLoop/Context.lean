import NucLlm.Lib.Lists
import NucLlm.AgentLoop.Message
import Mathlib.Algebra.Order.Floor.Ring
import Mathlib.Data.Rat.Floor

/-!
# Context compaction

The estimator and `compact`: first the oldest observations are elided in place,
then whole early steps are replaced by a stub.  Both stages keep a history well
paired, since the first changes no call and no answer and the second cuts only
where a step begins.
-/

namespace NucLlm.AgentLoop

/-! ## The estimator -/

/-- `int(q)`. -/
def pyInt (q : ℚ) : ℤ := if 0 ≤ q then ⌊q⌋ else ⌈q⌉

structure Estimator where
  charsPerToken : ℚ := 4
  emaAlpha : ℚ := 3 / 10
  minRatio : ℚ := 3 / 2
  maxRatio : ℚ := 10
  observations : ℕ := 0

def toolsChars (tools : List Json) : ℕ := (tools.map Json.dumpsLen).sum

def charsOf (messages : List Entry) (tools : List Json) : ℕ :=
  (messages.map Entry.msgChars).sum + toolsChars tools

theorem charsOf_cached (messages : List Entry) (tools : List Json) :
    charsOf (messages.map Entry.cached) tools = charsOf messages tools := by
  unfold charsOf
  rw [List.map_map]
  rfl

namespace Estimator

def tokensForChars (est : Estimator) (chars : ℤ) : ℤ := pyInt (chars / est.charsPerToken) + 1

def estimate (est : Estimator) (messages : List Entry) (tools : List Json) : ℤ :=
  est.tokensForChars (charsOf messages tools)

def observe (est : Estimator) (chars actualTokens : ℤ) : Estimator :=
  if chars ≤ 0 ∨ actualTokens ≤ 0 then est
  else
    let ratio := max est.minRatio (min est.maxRatio (chars / actualTokens))
    { est with
      charsPerToken := if est.observations = 0 then ratio
        else (1 - est.emaAlpha) * est.charsPerToken + est.emaAlpha * ratio
      observations := est.observations + 1 }

end Estimator

inductive ElideOrder where
  | oldest
  | newest
deriving DecidableEq

structure ContextBudget where
  maxInputTokens : ℤ
  keepRecentResults : ℕ := 2
  minStepsKept : ℕ := 1
  reserveTokens : ℤ := 0
  elideOrder : ElideOrder := .oldest
  maxInputTokens_pos : 0 < maxInputTokens
  reserveTokens_lt : reserveTokens < maxInputTokens

def ContextBudget.target (budget : ContextBudget) : ℤ :=
  budget.maxInputTokens - budget.reserveTokens

structure CompactionReport where
  beforeTokens : ℤ
  afterTokens : ℤ
  elidedResults : ℕ := 0
  droppedSteps : ℕ := 0
  fits : Bool := true
  firstChangedIndex : Option ℕ := none
  invalidatedChars : ℕ := 0

def CompactionReport.changed (r : CompactionReport) : Bool :=
  decide (0 < r.elidedResults ∨ 0 < r.droppedSteps)

/-! ## Helpers -/

/-- `_steps`, with the index of the first message of the list. -/
def stepsFrom (i : ℕ) : List Entry → List (ℕ × ℕ)
  | [] => []
  | e :: es =>
      if e.msg.isAssistant then
        let k := (es.takeWhile fun e ↦ e.msg.isTool).length
        (i, i + 1 + k) :: stepsFrom (i + 1 + k) (es.drop k)
      else stepsFrom (i + 1) es
termination_by es => es.length

def steps (messages : List Entry) : List (ℕ × ℕ) := stepsFrom 0 messages

def elidedStub (tool : String) (chars : ℕ) : String :=
  s!"[observation elided to save context: {tool} returned {chars} chars; " ++
    "call it again if you need it]"

/-- `_elide`: the cached cost goes with the content. -/
def elide (e : Entry) : Entry :=
  match e.msg with
  | .tool content callId name ok _ =>
      ⟨.tool (elidedStub name content.length) callId name ok (some content.length), none⟩
  | _ => e

/-- The characters `_elide` saves. -/
def elideSaved (e : Entry) : ℤ := e.msg.content.length - (elide e).msg.content.length

/-- `_drop_stub`. -/
def dropStub (n : ℕ) (tools : List String) : Entry :=
  let names := if tools.isEmpty then "no tools" else ", ".intercalate (Lists.sortedSet tools)
  ⟨.user s!"[{n} earlier step(s) dropped to save context: {names}]" (some n), none⟩

def rstripBracket (s : String) : String :=
  String.ofList (s.toList.reverse.dropWhile (· = ']')).reverse

/-- The tools a drop stub names. -/
def stubTools (content : String) : List String :=
  let inner := match content.splitOn ": " with
    | _ :: r :: rs => rstripBracket (": ".intercalate (r :: rs))
    | _ => ""
  (inner.splitOn ", ").filter fun t ↦ t ≠ "" ∧ t ≠ "no tools"

/-- `dropped_steps` of a message, where nothing counts as zero. -/
def Entry.dropped (e : Entry) : ℕ := e.msg.droppedSteps.getD 0

/-- `_merge_drop_stubs`. -/
def mergeDropStubs (messages : List Entry) (at_ : ℕ) : List Entry :=
  match at_ with
  | 0 => messages
  | p + 1 =>
      match messages[p]?, messages[p + 1]? with
      | some prev, some cur =>
          if prev.dropped ≠ 0 ∧ cur.dropped ≠ 0 then
            let tools := Lists.sortedSet (stubTools prev.msg.content ++ stubTools cur.msg.content)
            messages.take p ++ dropStub (prev.dropped + cur.dropped) tools :: messages.drop (p + 2)
          else messages
      | _, _ => messages

/-! ## Compaction -/

/-- What the first stage has done so far. -/
structure Elision where
  messages : List Entry
  chars : ℤ
  elided : ℕ := 0
  first : Option ℕ := none

/-- Elide one candidate after the other until the running size fits. -/
def elideLoop (est : Estimator) (target : ℤ) : List ℕ → Elision → Elision
  | [], acc => acc
  | i :: rest, acc =>
      let acc : Elision :=
        { messages := acc.messages.modify i elide
          chars := acc.chars - (acc.messages[i]?.map elideSaved).getD 0
          elided := acc.elided + 1
          first := some (acc.first.elim i fun j ↦ min i j) }
      if est.tokensForChars acc.chars ≤ target then acc else elideLoop est target rest acc

/-- The observations that may be elided, in the order of the budget. -/
def candidates (budget : ContextBudget) (messages : List Entry) : List ℕ :=
  let toolIdx := messages.findIdxs fun e ↦ e.msg.isFullObservation
  let eligible := toolIdx.take (toolIdx.length - budget.keepRecentResults)
  match budget.elideOrder with
  | .oldest => eligible
  | .newest => eligible.reverse

/-- What the second stage has decided to drop so far. -/
structure Dropped where
  count : ℕ
  tools : List String
  stop : ℕ

/-- Drop one step after the other until the trial fits. -/
def dropLoop (est : Estimator) (tools : List Json) (target : ℤ) (messages : List Entry)
    (firstStart : ℕ) : List (ℕ × ℕ) → Dropped → Dropped
  | [], acc => acc
  | (s, e) :: rest, acc =>
      let names := (messages[s]?.map fun m ↦ m.msg.toolCalls.map ToolCall.name).getD []
      let acc : Dropped := ⟨acc.count + 1, acc.tools ++ names, e⟩
      let trial := messages.take firstStart ++
        dropStub acc.count acc.tools :: messages.drop acc.stop
      if est.estimate trial tools ≤ target then acc
      else dropLoop est tools target messages firstStart rest acc

/-- The second stage: the messages, the steps dropped and where. -/
def dropStage (budget : ContextBudget) (est : Estimator) (tools : List Json)
    (messages : List Entry) : List Entry × ℕ × Option ℕ :=
  let all := steps messages
  let droppable := all.take (all.length - budget.minStepsKept)
  match droppable with
  | [] => (messages, 0, none)
  | (firstStart, _) :: _ =>
      let d := dropLoop est tools budget.target messages firstStart droppable ⟨0, [], firstStart⟩
      let dropped := messages.take firstStart ++ dropStub d.count d.tools :: messages.drop d.stop
      let merged := mergeDropStubs dropped firstStart
      let stubBefore : Bool := match firstStart with
        | 0 => false
        | p + 1 => merged[p]?.any fun e ↦ decide (e.dropped ≠ 0)
      (merged, d.count, some (if stubBefore then firstStart - 1 else firstStart))

/-- The smaller of the indices that are there. -/
def minIndex : Option ℕ → Option ℕ → Option ℕ
  | none, j => j
  | some i, none => some i
  | some i, some j => some (min i j)

/-- `compact`.  Sizing the messages caches the cost of each. -/
def compact (messages : List Entry) (budget : ContextBudget) (est : Estimator)
    (tools : List Json) : List Entry × CompactionReport :=
  let before := est.estimate messages tools
  let messages := messages.map Entry.cached
  if before ≤ budget.target then (messages, { beforeTokens := before, afterTokens := before })
  else
    let el := elideLoop est budget.target (candidates budget messages)
      { messages := messages, chars := charsOf messages tools }
    let sized := el.messages.map Entry.cached
    let (messages, dropped, dropAt) :=
      if budget.target < est.estimate sized tools then dropStage budget est tools sized
      else (sized, 0, none)
    let after := est.estimate messages tools
    let messages := messages.map Entry.cached
    let first := minIndex el.first dropAt
    (messages,
      { beforeTokens := before
        afterTokens := after
        elidedResults := el.elided
        droppedSteps := dropped
        fits := decide (after ≤ budget.target)
        firstChangedIndex := first
        invalidatedChars := (first.map fun i ↦ ((messages.drop i).map Entry.msgChars).sum).getD 0 })

/-! ## What holds of every message -/

section Forall

variable {P : Entry → Prop} (helide : ∀ e, P e → P (elide e))
  (hstub : ∀ n tools, P (dropStub n tools))

include helide in
theorem modify_elide_forall {messages : List Entry} (h : ∀ e ∈ messages, P e) (i : ℕ) :
    ∀ e ∈ messages.modify i elide, P e := by
  induction messages generalizing i with
  | nil => simp
  | cons e messages ih =>
      obtain ⟨he, hmessages⟩ := List.forall_mem_cons.mp h
      cases i with
      | zero => exact List.forall_mem_cons.mpr ⟨helide e he, hmessages⟩
      | succ i => exact List.forall_mem_cons.mpr ⟨he, ih hmessages i⟩

include helide in
theorem elideLoop_forall (est : Estimator) (target : ℤ) (is : List ℕ) :
    ∀ acc : Elision, (∀ e ∈ acc.messages, P e) →
      ∀ e ∈ (elideLoop est target is acc).messages, P e := by
  induction is with
  | nil => exact fun acc h ↦ h
  | cons i rest ih =>
      intro acc h
      have hstep := modify_elide_forall helide h i
      unfold elideLoop
      dsimp only
      split
      · exact hstep
      · exact ih _ hstep

include hstub in
/-- Cutting a stretch of the messages out for a stub. -/
theorem cut_forall {messages : List Entry} (h : ∀ e ∈ messages, P e) (i j n : ℕ)
    (tools : List String) :
    ∀ e ∈ messages.take i ++ dropStub n tools :: messages.drop j, P e := by
  have htake : ∀ e ∈ messages.take i, P e := fun e he ↦ h e (List.mem_of_mem_take he)
  have hdrop : ∀ e ∈ messages.drop j, P e := fun e he ↦ h e (List.mem_of_mem_drop he)
  exact List.forall_mem_append.mpr ⟨htake, List.forall_mem_cons.mpr ⟨hstub n tools, hdrop⟩⟩

include hstub in
theorem mergeDropStubs_forall {messages : List Entry} (at_ : ℕ) (h : ∀ e ∈ messages, P e) :
    ∀ e ∈ mergeDropStubs messages at_, P e := by
  unfold mergeDropStubs
  split
  · exact h
  · split
    · split
      · exact cut_forall hstub h _ _ _ _
      · exact h
    · exact h

include hstub in
theorem dropStage_forall (budget : ContextBudget) (est : Estimator) (tools : List Json)
    {messages : List Entry} (h : ∀ e ∈ messages, P e) :
    ∀ e ∈ (dropStage budget est tools messages).1, P e := by
  unfold dropStage
  dsimp only
  split
  · exact h
  · exact mergeDropStubs_forall hstub _ (cut_forall hstub h _ _ _ _)

include helide hstub in
/-- What eliding, stubs and caching keep of each message, compaction keeps. -/
theorem compact_forall (hcached : ∀ e, P e → P e.cached) {messages : List Entry}
    (h : ∀ e ∈ messages, P e) (budget : ContextBudget) (est : Estimator) (tools : List Json) :
    ∀ e ∈ (compact messages budget est tools).1, P e := by
  have hmap {ms : List Entry} (hms : ∀ e ∈ ms, P e) : ∀ e ∈ ms.map Entry.cached, P e := by
    intro e he
    obtain ⟨e, hmem, rfl⟩ := List.mem_map.mp he
    exact hcached e (hms e hmem)
  unfold compact
  dsimp only
  split
  · exact hmap h
  · have hsized := hmap (elideLoop_forall helide est budget.target
      (candidates budget (messages.map Entry.cached))
      { messages := messages.map Entry.cached, chars := charsOf (messages.map Entry.cached) tools }
      (hmap h))
    split
    · exact hmap (dropStage_forall hstub budget est tools hsized)
    · exact hmap hsized

end Forall

/-! ## Pairing -/

theorem callKeys_elide (e : Entry) : (elide e).callKeys = e.callKeys := by
  obtain ⟨msg, _⟩ := e
  cases msg <;> rfl

theorem answers_elide (e : Entry) : (elide e).answers = e.answers := by
  obtain ⟨msg, _⟩ := e
  cases msg <;> rfl

theorem wellPaired_cached {messages : List Entry} (h : WellPaired messages) :
    WellPaired (messages.map Entry.cached) :=
  h.map Entry.callKeys_cached Entry.answers_cached

theorem elideLoop_wellPaired (est : Estimator) (target : ℤ) (is : List ℕ) :
    ∀ acc : Elision, WellPaired acc.messages →
      WellPaired (elideLoop est target is acc).messages := by
  induction is with
  | nil => exact fun acc h ↦ h
  | cons i rest ih =>
      intro acc h
      have hstep := h.modify i callKeys_elide answers_elide
      unfold elideLoop
      dsimp only
      split
      · exact hstep
      · exact ih _ hstep

/-- A step starts at an assistant message, and no answer follows it. -/
theorem stepsFrom_bounds (messages : List Entry) (i : ℕ) {s e : ℕ}
    (h : (s, e) ∈ stepsFrom i messages) :
    Paired.Fresh Entry.answers (messages.drop (s - i)) ∧
      Paired.Fresh Entry.answers (messages.drop (e - i)) ∧ i ≤ s ∧ s ≤ e := by
  induction i, messages using stepsFrom.induct with
  | case1 i => simp [stepsFrom] at h
  | case2 i m ms hassistant k ih =>
      rw [stepsFrom, if_pos hassistant] at h
      rcases List.mem_cons.mp h with heq | hmem
      · obtain ⟨rfl, rfl⟩ := Prod.mk.inj heq
        refine ⟨?_, ?_, le_refl _, by omega⟩
        · rw [Nat.sub_self, List.drop_zero, Paired.fresh_cons, Entry.answers_eq_none]
          obtain ⟨msg, _⟩ := m
          cases msg <;> simp_all [Message.isAssistant, Message.isTool]
        · intro a ha
          have hdrop : (m :: ms).drop (s + 1 + k - s) = ms.dropWhile fun e ↦ e.msg.isTool := by
            rw [show s + 1 + k - s = k + 1 by omega, List.drop_succ_cons]
            exact Lists.drop_length_takeWhile _ ms
          rw [hdrop] at ha
          rw [Entry.answers_eq_none]
          have := List.head?_dropWhile_not (fun e : Entry ↦ e.msg.isTool) ms
          rw [ha] at this
          simpa using this
      · obtain ⟨hs, he, his, hse⟩ := ih hmem
        have hdrop (n : ℕ) (hn : i + 1 + k ≤ n) :
            (ms.drop k).drop (n - (i + 1 + k)) = (m :: ms).drop (n - i) := by
          rw [List.drop_drop, show n - i = k + (n - (i + 1 + k)) + 1 by omega,
            List.drop_succ_cons]
        rw [hdrop s his] at hs
        rw [hdrop e (his.trans hse)] at he
        exact ⟨hs, he, by omega, hse⟩
  | case3 i m ms hassistant ih =>
      rw [stepsFrom, if_neg hassistant] at h
      obtain ⟨hs, he, his, hse⟩ := ih h
      have hdrop (n : ℕ) (hn : i + 1 ≤ n) : ms.drop (n - (i + 1)) = (m :: ms).drop (n - i) := by
        rw [show n - i = n - (i + 1) + 1 by omega, List.drop_succ_cons]
      rw [hdrop s his] at hs
      rw [hdrop e (his.trans hse)] at he
      exact ⟨hs, he, by omega, hse⟩

theorem dropLoop_stop (est : Estimator) (tools : List Json) (target : ℤ) (messages : List Entry)
    (firstStart : ℕ) (droppable : List (ℕ × ℕ)) :
    ∀ acc, droppable ≠ [] → ∃ s,
      (s, (dropLoop est tools target messages firstStart droppable acc).stop) ∈ droppable := by
  induction droppable with
  | nil =>
      intro acc h
      contradiction
  | cons step rest ih =>
      intro acc _
      obtain ⟨s, e⟩ := step
      unfold dropLoop
      dsimp only
      split
      · exact ⟨s, List.mem_cons_self⟩
      · cases rest with
        | nil => exact ⟨s, List.mem_cons_self⟩
        | cons step rest =>
            obtain ⟨s', hmem⟩ := ih _ (List.cons_ne_nil _ _)
            exact ⟨s', List.mem_cons_of_mem _ hmem⟩

theorem callKeys_dropped {e : Entry} (h : e.dropped ≠ 0) : e.callKeys = [] ∧ e.answers = none := by
  obtain ⟨msg, _⟩ := e
  cases msg <;> simp_all [Entry.dropped, Message.droppedSteps, Entry.callKeys, Message.callKeys,
    Message.toolCalls, Entry.answers, Message.answers]

theorem mergeDropStubs_wellPaired {messages : List Entry} (at_ : ℕ) (h : WellPaired messages) :
    WellPaired (mergeDropStubs messages at_) := by
  cases at_ with
  | zero => exact h
  | succ p =>
      unfold mergeDropStubs
      dsimp only
      split
      · rename_i prev cur hprev hcur
        split
        · rename_i hdropped
          obtain ⟨hprevCalls, hprevAnswers⟩ := callKeys_dropped hdropped.1
          obtain ⟨hcurCalls, _⟩ := callKeys_dropped hdropped.2
          have hdrop : messages.drop p = prev :: cur :: messages.drop (p + 2) := by
            obtain ⟨hp, rfl⟩ := List.getElem?_eq_some_iff.mp hprev
            obtain ⟨hp', rfl⟩ := List.getElem?_eq_some_iff.mp hcur
            rw [List.drop_eq_getElem_cons hp, List.drop_eq_getElem_cons hp']
          have hfresh : Paired.Fresh Entry.answers (messages.drop p) := by
            rw [hdrop, Paired.fresh_cons]
            exact hprevAnswers
          obtain ⟨htake, hrest⟩ := h.take_drop hfresh hfresh
          rw [hdrop] at hrest
          exact htake.append (.turn _ [] _ rfl rfl ((hrest.tail hprevCalls).tail hcurCalls))
        · exact h
      · exact h

theorem dropStage_wellPaired (budget : ContextBudget) (est : Estimator) (tools : List Json)
    {messages : List Entry} (h : WellPaired messages) :
    WellPaired (dropStage budget est tools messages).1 := by
  unfold dropStage
  dsimp only
  split
  · exact h
  · rename_i firstStart stop rest hdroppable
    have hmem {s e : ℕ} (hse : (s, e) ∈ (firstStart, stop) :: rest) :
        (s, e) ∈ stepsFrom 0 messages := by
      rw [← hdroppable] at hse
      exact List.mem_of_mem_take hse
    obtain ⟨hstart, -, -, -⟩ := stepsFrom_bounds messages 0 (hmem List.mem_cons_self)
    obtain ⟨s, hstop⟩ := dropLoop_stop est tools budget.target messages firstStart
      ((firstStart, stop) :: rest) ⟨0, [], firstStart⟩ (List.cons_ne_nil _ _)
    obtain ⟨-, hend, -, -⟩ := stepsFrom_bounds messages 0 (hmem hstop)
    obtain ⟨hleft, hright⟩ := h.take_drop hstart hend
    rw [← hdroppable] at hright
    exact mergeDropStubs_wellPaired _ (hleft.append (.turn _ [] _ rfl rfl hright))

/-- Compaction keeps a history well paired, whatever it elides or drops. -/
theorem compact_wellPaired (budget : ContextBudget) (est : Estimator) (tools : List Json)
    {messages : List Entry} (h : WellPaired messages) :
    WellPaired (compact messages budget est tools).1 := by
  unfold compact
  dsimp only
  split
  · exact wellPaired_cached h
  · have hsized := wellPaired_cached (elideLoop_wellPaired est budget.target
      (candidates budget (messages.map Entry.cached))
      { messages := messages.map Entry.cached, chars := charsOf (messages.map Entry.cached) tools }
      (wellPaired_cached h))
    split
    · exact wellPaired_cached (dropStage_wellPaired budget est tools hsized)
    · exact wellPaired_cached hsized

end NucLlm.AgentLoop
