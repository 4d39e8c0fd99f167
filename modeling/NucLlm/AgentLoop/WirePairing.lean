import Mathlib
import NucLlm.AgentLoop.Anthropic
import NucLlm.AgentLoop.Conversation

/-!
# Pairing on the wire

The loop pairs its own calls and answers; a body replays the provider's blocks.
Where the blocks of every turn that is sent again use exactly the ids of the
calls the loop has answered, the body is paired as well.
-/

namespace NucLlm.AgentLoop

/-! ## Ids in a body -/

def ofType (type : String) (block : Json) : Bool :=
  match block.get? "type" with
  | some (.str t) => t = type
  | _ => false

def blockId (key : String) (block : Json) : Option String := (block.get? key).bind Json.str?

/-- The ids under `key` of the blocks of a type. -/
def idsOf (type key : String) (blocks : List Json) : List (Option String) :=
  (blocks.filter (ofType type)).map (blockId key)

def wireBlocks (m : Json) : List Json :=
  match m.get? "content" with
  | some (.arr blocks) => blocks
  | _ => []

def wireRole (m : Json) : Option String := (m.get? "role").bind Json.str?

/-- The ids of the `tool_use` blocks of an assistant message. -/
def toolUses (m : Json) : List (Option String) :=
  if wireRole m = some "assistant" then idsOf "tool_use" "id" (wireBlocks m) else []

/-- The ids that the `tool_result` blocks of a user message answer. -/
def toolResults (m : Json) : List (Option String) :=
  if wireRole m = some "user" then idsOf "tool_result" "tool_use_id" (wireBlocks m) else []

/-- Each message of a body answers all that the message before it used, each id
by exactly one result, and nothing else. -/
def WirePaired (messages : List Json) : Prop := Batched toolUses toolResults [] messages

instance : DecidablePred WirePaired :=
  fun messages ↦ inferInstanceAs (Decidable (Batched toolUses toolResults [] messages))

def bodyMessages (body : List (String × Json)) : List Json :=
  match body.lookup "messages" with
  | some (.arr messages) => messages
  | _ => []

/-! ## Blocks -/

theorem idsOf_append (type key : String) (blocks blocks' : List Json) :
    idsOf type key (blocks ++ blocks') = idsOf type key blocks ++ idsOf type key blocks' := by
  unfold idsOf
  rw [List.filter_append, List.map_append]

theorem idsOf_cons (type key : String) (block : Json) (blocks : List Json) :
    idsOf type key (block :: blocks) =
      (if ofType type block then [blockId key block] else []) ++ idsOf type key blocks := by
  unfold idsOf
  rw [List.filter_cons]
  split
  · rfl
  · rfl

theorem toolUseBlock_use (c : ToolCall) :
    idsOf "tool_use" "id" [toolUseBlock c] = [some c.callId] :=
  rfl

theorem textBlock_use (text : String) : idsOf "tool_use" "id" [textBlock text] = [] :=
  rfl

theorem toolResultBlock_result (content toolCallId : String) (ok : Bool) :
    idsOf "tool_result" "tool_use_id" [toolResultBlock content toolCallId ok] =
      [some toolCallId] :=
  rfl

theorem toolUses_wireMessage (blocks : List Json) :
    toolUses (wireMessage "assistant" (.arr blocks)) = idsOf "tool_use" "id" blocks := by
  rfl

theorem toolResults_wireMessage (blocks : List Json) :
    toolResults (wireMessage "user" (.arr blocks)) =
      idsOf "tool_result" "tool_use_id" blocks := by
  rfl

/-! ## Histories on the wire -/

/-- An assistant message uses on the wire the ids of its own calls, each once. -/
def Message.OnWire : Message → Prop
  | .assistant content toolCalls rawContent =>
      (∀ ids, idsOf "tool_use" "id" (assistantBlocks ids content toolCalls rawContent).1 =
        toolCalls.map fun c ↦ some c.callId) ∧ (toolCalls.map ToolCall.callId).Nodup
  | _ => True

namespace Rendering

/-- The messages rendered so far, with the results that are due, are paired. -/
def Settled (r : Rendering) : Prop := WirePaired r.flush.out

theorem flush_pending (r : Rendering) : r.flush.pendingResults = [] := by
  unfold flush
  split
  · rename_i hempty
    exact List.isEmpty_iff.mp hempty
  · rfl

theorem flush_systemParts (r : Rendering) (systemParts : List String) :
    (flush { r with systemParts := systemParts }).out = r.flush.out := by
  unfold flush
  split
  · rfl
  · rfl

theorem flush_out {blocks : List Json} (h : blocks ≠ []) (systemParts : List String)
    (out : List Json) (ids : ℕ) :
    (flush ⟨systemParts, out, blocks, ids⟩).out = out ++ [wireMessage "user" (.arr blocks)] := by
  unfold flush
  rw [if_neg fun hempty ↦ h (List.isEmpty_iff.mp hempty)]

theorem add_user (r : Rendering) (content : String) (droppedSteps : Option ℕ) :
    r.add (.user content droppedSteps) =
      ⟨r.flush.systemParts, r.flush.out ++ [wireMessage "user" (.str content)], [],
        r.flush.ids⟩ := by
  unfold add
  dsimp only
  rw [flush_pending]

theorem add_assistant (r : Rendering) (content : String) (toolCalls : List ToolCall)
    (rawContent : Option (List Json)) :
    r.add (.assistant content toolCalls rawContent) =
      ⟨r.flush.systemParts, r.flush.out ++ [wireMessage "assistant"
        (.arr (assistantBlocks r.flush.ids content toolCalls rawContent).1)], [],
        (assistantBlocks r.flush.ids content toolCalls rawContent).2⟩ := by
  unfold add
  dsimp only
  rw [flush_pending]

/-- A message without tool calls and results. -/
theorem settled_add {r : Rendering} (h : r.Settled) {m : Json} (huses : toolUses m = [])
    (hresults : toolResults m = []) (systemParts : List String) (ids : ℕ) :
    Settled ⟨systemParts, r.flush.out ++ [m], [], ids⟩ :=
  Batched.append h (.single huses hresults)

/-- Tool messages only add to the results that are due. -/
theorem foldl_tools {results : List Entry} {keys : List (String × String)}
    (h : results.map Entry.answers = keys.map some) (r : Rendering) :
    ∃ blocks, (results.map Entry.msg).foldl add r =
        { r with pendingResults := r.pendingResults ++ blocks } ∧
      idsOf "tool_result" "tool_use_id" blocks = keys.map fun k ↦ some k.1 := by
  induction results generalizing keys r with
  | nil =>
      obtain rfl := List.map_eq_nil_iff.mp h.symm
      exact ⟨[], by rw [List.append_nil]; rfl, rfl⟩
  | cons e results ih =>
      obtain ⟨k, keys, rfl, hk, hkeys⟩ := List.map_eq_cons_iff.mp h.symm
      obtain ⟨msg, chars⟩ := e
      cases msg with
      | tool content toolCallId toolName ok elided =>
          obtain rfl := Option.some.inj hk
          obtain ⟨blocks, hfold, hids⟩ := ih hkeys.symm
            (r.add (.tool content toolCallId toolName ok elided))
          refine ⟨toolResultBlock content toolCallId ok :: blocks, ?_, ?_⟩
          · rw [List.map_cons, List.foldl_cons, hfold]
            unfold add
            dsimp only
            rw [List.append_assoc]
            rfl
          · rw [← List.singleton_append, idsOf_append, toolResultBlock_result, hids]
            rfl
      | system | user | assistant => contradiction

/-- An assistant message and the results of its calls. -/
theorem settled_turn {r : Rendering} (h : r.Settled) {content : String}
    {toolCalls : List ToolCall} {rawContent : Option (List Json)} {results : List Entry}
    (hwire : (Message.assistant content toolCalls rawContent).OnWire)
    (hresults : results.map Entry.answers =
      (toolCalls.map fun c ↦ (c.callId, c.name)).map some) :
    Settled ((results.map Entry.msg).foldl add
      (r.add (.assistant content toolCalls rawContent))) := by
  obtain ⟨blocks, hfold, hids⟩ :=
    foldl_tools hresults (r.add (.assistant content toolCalls rawContent))
  have huses := hwire.1 r.flush.ids
  rw [List.map_map] at hids
  rw [hfold, add_assistant]
  dsimp only
  rw [List.nil_append]
  generalize (assistantBlocks r.flush.ids content toolCalls rawContent).1 = rendered at huses ⊢
  by_cases hempty : blocks = []
  · subst hempty
    have hnone : toolCalls = [] := List.map_eq_nil_iff.mp hids.symm
    subst hnone
    exact settled_add h (m := wireMessage "assistant" (.arr rendered)) huses rfl _ _
  · have hnodup : (toolUses (wireMessage "assistant" (.arr rendered))).Nodup := by
      rw [toolUses_wireMessage, huses]
      have hmap := hwire.2.map (Option.some_injective String)
      rwa [List.map_map] at hmap
    have hanswers : toolResults (wireMessage "user" (.arr blocks)) =
        toolUses (wireMessage "assistant" (.arr rendered)) := by
      rw [toolUses_wireMessage, toolResults_wireMessage, huses, hids]
      rfl
    have hpair := Batched.append h
      (.exchange (a := wireMessage "assistant" (.arr rendered)) rfl hnodup hanswers rfl)
    unfold Settled
    rw [flush_out hempty, List.append_assoc]
    exact hpair

theorem foldl_settled {messages : List Entry} (hpaired : WellPaired messages)
    (hwire : ∀ e ∈ messages, e.msg.OnWire) (r : Rendering) (h : r.Settled) :
    ((messages.map Entry.msg).foldl add r).Settled := by
  induction hpaired generalizing r with
  | nil => exact h
  | turn a results rest hfirst hresults _ ih =>
      have hrest : ∀ e ∈ rest, e.msg.OnWire :=
        fun e he ↦ hwire e (List.mem_cons_of_mem a (List.mem_append_right results he))
      rw [List.map_cons, List.map_append, List.foldl_cons, List.foldl_append]
      apply ih hrest
      have ha := hwire a List.mem_cons_self
      obtain ⟨msg, chars⟩ := a
      cases msg with
      | tool => contradiction
      | assistant content toolCalls rawContent => exact settled_turn h ha hresults
      | system content =>
          obtain rfl := List.map_eq_nil_iff.mp hresults
          change Settled { r with systemParts := r.systemParts ++ [content] }
          unfold Settled
          rwa [flush_systemParts]
      | user content droppedSteps =>
          obtain rfl := List.map_eq_nil_iff.mp hresults
          change Settled (r.add (.user content droppedSteps))
          rw [add_user]
          exact settled_add h rfl rfl _ _

end Rendering

theorem toAnthropicMessages_paired {messages : List Entry} (hpaired : WellPaired messages)
    (hwire : ∀ e ∈ messages, e.msg.OnWire) (ids : ℕ) :
    WirePaired (toAnthropicMessages ids (messages.map Entry.msg)).2 :=
  Rendering.foldl_settled hpaired hwire ⟨[], [], [], ids⟩ rfl

/-! ## Bodies -/

theorem lookup_setField_ne {key key' : String} (h : key ≠ key') (value : Json)
    (fields : List (String × Json)) :
    (setField key' value fields).lookup key = fields.lookup key := by
  have hkey : (key == key') = false := beq_eq_false_iff_ne.mpr h
  induction fields with
  | nil =>
      unfold setField
      rw [List.lookup_cons, hkey]
  | cons f fields ih =>
      obtain ⟨k, v⟩ := f
      unfold setField
      split
      · rename_i hk
        rw [List.lookup_cons, List.lookup_cons, hk, hkey]
      · rw [List.lookup_cons, List.lookup_cons, ih]

theorem lookup_setField_self (key : String) (value : Json) (fields : List (String × Json)) :
    (setField key value fields).lookup key = some value := by
  induction fields with
  | nil => exact List.lookup_cons_self
  | cons f fields ih =>
      obtain ⟨k, v⟩ := f
      unfold setField
      split
      · exact List.lookup_cons_self
      · rename_i hk
        have hkey : (key == k) = false := beq_eq_false_iff_ne.mpr (Ne.symm hk)
        rw [List.lookup_cons, hkey]
        exact ih

theorem lookup_updateFields {key : String} {other : List (String × Json)}
    (h : ∀ v, (key, v) ∉ other) (fields : List (String × Json)) :
    (updateFields fields other).lookup key = fields.lookup key := by
  unfold updateFields
  induction other generalizing fields with
  | nil => rfl
  | cons f other ih =>
      obtain ⟨k, v⟩ := f
      have hne : key ≠ k := by
        rintro rfl
        exact h v List.mem_cons_self
      rw [List.foldl_cons, ih (fun v hv ↦ h v (List.mem_cons_of_mem _ hv)),
        lookup_setField_ne hne]

/-- What pairing reads of a message. -/
def reading (m : Json) : List (Option String) × List (Option String) := (toolUses m, toolResults m)

/-- Other content with the same ids. -/
theorem reading_setContent {fields : List (String × Json)} {blocks : List Json}
    (huses : idsOf "tool_use" "id" blocks = idsOf "tool_use" "id" (wireBlocks (.obj fields)))
    (hresults : idsOf "tool_result" "tool_use_id" blocks =
      idsOf "tool_result" "tool_use_id" (wireBlocks (.obj fields))) :
    reading (.obj (setField "content" (.arr blocks) fields)) = reading (.obj fields) := by
  have hrole : wireRole (.obj (setField "content" (.arr blocks) fields)) =
      wireRole (.obj fields) := by
    unfold wireRole Json.get?
    dsimp only
    rw [lookup_setField_ne (by decide)]
  have hblocks : wireBlocks (.obj (setField "content" (.arr blocks) fields)) = blocks := by
    unfold wireBlocks Json.get?
    dsimp only
    rw [lookup_setField_self]
  unfold reading toolUses toolResults
  rw [hrole, hblocks, huses, hresults]

theorem idsOf_markBlock (type : String) {key : String} (hkey : key ≠ "cache_control")
    (cache : List (String × Json)) (blocks : List Json) (i : ℕ) :
    idsOf type key (blocks.modify i (markBlock cache)) = idsOf type key blocks := by
  have hget {k : String} (hk : k ≠ "cache_control") (b : Json) :
      (markBlock cache b).get? k = b.get? k := by
    cases b with
    | obj fields => exact lookup_setField_ne hk _ fields
    | null | bool | num | str | arr => rfl
  have htype (b : Json) : ofType type (markBlock cache b) = ofType type b := by
    unfold ofType
    rw [hget (by decide)]
  have hid (b : Json) : blockId key (markBlock cache b) = blockId key b := by
    unfold blockId
    rw [hget hkey]
  induction blocks generalizing i with
  | nil => simp
  | cons b blocks ih =>
      cases i with
      | zero => rw [List.modify_zero_cons, idsOf_cons, idsOf_cons, htype, hid]
      | succ i => rw [List.modify_succ_cons, idsOf_cons, idsOf_cons, ih]

theorem reading_shapeUser (m : Json) : reading (shapeUser m) = reading m := by
  unfold shapeUser
  split
  · rename_i fields s hcontent
    split
    · have hblocks : wireBlocks (.obj fields) = [] := by
        unfold wireBlocks
        rw [hcontent]
      exact reading_setContent (by rw [hblocks]; rfl) (by rw [hblocks]; rfl)
    · rfl
  · rfl

theorem reading_markMessage (cache : List (String × Json)) (m : Json) :
    reading (markMessage cache m) = reading m := by
  unfold markMessage
  split
  · rename_i fields blocks hcontent
    have hblocks : wireBlocks (.obj fields) = blocks := by
      unfold wireBlocks
      rw [hcontent]
    refine reading_setContent ?_ ?_
    · rw [idsOf_markBlock _ (by decide), hblocks]
    · rw [idsOf_markBlock _ (by decide), hblocks]
  · rfl

theorem map_reading_markUsers (cache : List (String × Json)) (ms : List Json) :
    ∀ n, (markUsers cache n ms).map reading = ms.map reading := by
  induction ms with
  | nil => exact fun n ↦ by cases n <;> rfl
  | cons m ms ih =>
      intro n
      cases n with
      | zero => rfl
      | succ n =>
          unfold markUsers
          split
          · rw [List.map_cons, List.map_cons, reading_markMessage, ih]
          · rw [List.map_cons, List.map_cons, ih]

theorem WirePaired.markMessages {ms : List Json} (h : WirePaired ms)
    (cache : List (String × Json)) : WirePaired (markMessages cache ms) := by
  refine Batched.congr h ?_
  change (AgentLoop.markMessages cache ms).map reading = ms.map reading
  unfold AgentLoop.markMessages
  have hshape : (ms.map shapeUser).map reading = ms.map reading := by
    rw [List.map_map]
    exact List.map_congr_left fun m _ ↦ reading_shapeUser m
  rw [List.map_reverse, map_reading_markUsers, ← List.map_reverse, List.reverse_reverse, hshape]

/-- The markers touch the system prompt, the tools and the user messages. -/
theorem bodyMessages_markers (cache fields : List (String × Json)) {ms : List Json}
    (h : fields.lookup "messages" = some (.arr ms)) :
    bodyMessages (applyCacheMarkers cache fields) = markMessages cache ms := by
  have hne (key : String) (hkey : "messages" ≠ key) (value : Json) :
      (setField key value fields).lookup "messages" = some (.arr ms) := by
    rw [lookup_setField_ne hkey, h]
  have htools (tools : Option Json) :
      (applyCacheMarkers.markTools cache tools fields).lookup "messages" = some (.arr ms) := by
    unfold applyCacheMarkers.markTools
    split
    · exact hne "tools" (by decide) _
    · exact h
  have hbody {body : List (String × Json)} (hlookup : body.lookup "messages" = some (.arr ms)) :
      bodyMessages (match body.lookup "messages" with
        | some (.arr ms) => setField "messages" (.arr (markMessages cache ms)) body
        | _ => body) = markMessages cache ms := by
    rw [hlookup]
    unfold bodyMessages
    dsimp only
    rw [lookup_setField_self]
  unfold applyCacheMarkers
  apply hbody
  split
  · split
    · exact hne "system" (by decide) _
    · exact htools _
  · exact htools _

/-- The messages of a body are those of the history, unless `extra_body` has others. -/
theorem buildBody_paired {cfg : AdapterConfig} (hextra : ∀ v, ("messages", v) ∉ cfg.extraBody)
    {ids : ℕ} {messages : List Message} {tools : List Json} {body : List (String × Json)}
    (hbody : buildBody cfg ids messages tools = some body)
    (h : WirePaired (toAnthropicMessages ids messages).2) : WirePaired (bodyMessages body) := by
  unfold buildBody at hbody
  simp only [Option.bind_eq_bind, Option.bind_eq_some_iff, Option.pure_def,
    Option.some.injEq] at hbody
  obtain ⟨specs, -, rfl⟩ := hbody
  have hlookup : (updateFields (baseFields cfg (toAnthropicMessages ids messages).1
      (toAnthropicMessages ids messages).2 specs) cfg.extraBody).lookup "messages" =
      some (.arr (toAnthropicMessages ids messages).2) := by
    rw [lookup_updateFields hextra]
    rfl
  generalize updateFields (baseFields cfg (toAnthropicMessages ids messages).1
    (toAnthropicMessages ids messages).2 specs) cfg.extraBody = fields at hlookup ⊢
  split
  · unfold bodyMessages
    rw [hlookup]
    exact h
  · rw [bodyMessages_markers _ _ hlookup]
    exact h.markMessages cfg.cache

theorem completeBody_paired {cfg : AdapterConfig} (hextra : ∀ v, ("messages", v) ∉ cfg.extraBody)
    {ids : ℕ} {messages : List Message} {tools : List Json} {body : List (String × Json)}
    (hbody : completeBody cfg ids messages tools = some body)
    (h : WirePaired (toAnthropicMessages ids messages).2) : WirePaired (bodyMessages body) := by
  obtain ⟨fields, hfields, rfl⟩ := Option.map_eq_some_iff.mp hbody
  have hpaired := buildBody_paired hextra hfields h
  split
  · unfold bodyMessages
    rw [lookup_setField_ne (by decide)]
    exact hpaired
  · exact hpaired

theorem lookup_filter {key : String} {p : String × Json → Bool} (h : ∀ v, p (key, v) = true)
    (fields : List (String × Json)) : (fields.filter p).lookup key = fields.lookup key := by
  induction fields with
  | nil => rfl
  | cons f fields ih =>
      obtain ⟨k, v⟩ := f
      rw [List.filter_cons, List.lookup_cons]
      split
      · rw [List.lookup_cons, ih]
      · rename_i hp
        have hkey : (key == k) = false := by
          apply beq_eq_false_iff_ne.mpr
          rintro rfl
          exact hp (h v)
        rw [hkey, ih]

theorem countTokensBody_paired {cfg : AdapterConfig}
    (hextra : ∀ v, ("messages", v) ∉ cfg.extraBody) {ids : ℕ} {messages : List Message}
    {tools : List Json} {body : List (String × Json)}
    (hbody : countTokensBody cfg ids messages tools = some body)
    (h : WirePaired (toAnthropicMessages ids messages).2) : WirePaired (bodyMessages body) := by
  obtain ⟨fields, hfields, rfl⟩ := Option.map_eq_some_iff.mp hbody
  have hpaired := buildBody_paired hextra hfields h
  unfold bodyMessages
  rw [lookup_filter fun _ ↦ rfl]
  exact hpaired

/-! ## Replies -/

/-- The id of a tool-use block, which may be missing. -/
def Block.useId? : Block → Option (Option String)
  | .toolUse id _ _ _ => some id
  | _ => none

def ApiMessage.useIds (m : ApiMessage) : List (Option String) := m.content.filterMap Block.useId?

/-- A reply that may be sent back: its tool uses have ids, all different, and if it
is refused it has none or is the final answer; and the guards give the calls they
recover from it ids, all different. -/
structure Replayable (guards : List (History → String → Verdict)) (h : History)
    (m : ApiMessage) : Prop where
  ids : none ∉ m.useIds
  distinct : m.useIds.Nodup
  refusal : m.refused = true → m.useIds = [] ∨ runGuards h m.text guards = none
  recovered : ∀ r, runGuards h m.text guards = some r →
    (r.calls.map ToolCall.callId).Nodup ∧ "" ∉ r.calls.map ToolCall.callId

theorem idsOf_json {l : List Block} (h : none ∉ l.filterMap Block.useId?) :
    idsOf "tool_use" "id" (l.map Block.json) = l.filterMap Block.useId? := by
  induction l with
  | nil => rfl
  | cons b l ih =>
      rw [List.map_cons, idsOf_cons]
      cases b with
      | text content rest =>
          rw [ih h]
          rfl
      | other type rest htype =>
          have htype : ofType "tool_use" (Block.json (.other type rest htype)) = false :=
            decide_eq_false htype.2
          rw [htype, ih h]
          rfl
      | toolUse id name input rest =>
          change none ∉ id :: l.filterMap Block.useId? at h
          obtain ⟨hid, hids⟩ := List.ne_and_not_mem_of_not_mem_cons h
          rw [ih hids]
          cases id with
          | none => exact absurd rfl hid
          | some id => rfl

theorem calls_useIds {blocks : List Block} (h : none ∉ blocks.filterMap Block.useId?) :
    (blocks.filterMap Block.call?).map (fun c ↦ some c.callId) =
      blocks.filterMap Block.useId? := by
  induction blocks with
  | nil => rfl
  | cons b blocks ih =>
      cases b with
      | text | other => exact ih h
      | toolUse id name input rest =>
          change none ∉ id :: blocks.filterMap Block.useId? at h
          obtain ⟨hid, hids⟩ := List.ne_and_not_mem_of_not_mem_cons h
          change some (id.getD "") :: (blocks.filterMap Block.call?).map _ = _
          rw [ih hids]
          cases id with
          | none => exact absurd rfl hid
          | some id => rfl

theorem nodup_callIds {calls : List ToolCall}
    (h : (calls.map fun c ↦ some c.callId).Nodup) : (calls.map ToolCall.callId).Nodup := by
  have hmap : (calls.map fun c ↦ some c.callId) = (calls.map ToolCall.callId).map some :=
    (List.map_map ..).symm
  rw [hmap] at h
  exact h.of_map some

theorem idsOf_toolUseBlocks (calls : List ToolCall) :
    idsOf "tool_use" "id" (calls.map toolUseBlock) = calls.map fun c ↦ some c.callId := by
  induction calls with
  | nil => rfl
  | cons c cs ih =>
      rw [List.map_cons, ← List.singleton_append, idsOf_append, toolUseBlock_use, ih]
      rfl

theorem callBlocks_uses {calls : List ToolCall} (h : "" ∉ calls.map ToolCall.callId) (ids : ℕ) :
    idsOf "tool_use" "id" (callBlocks ids calls).1 = calls.map fun c ↦ some c.callId := by
  induction calls generalizing ids with
  | nil => rfl
  | cons c cs ih =>
      rw [List.map_cons] at h
      obtain ⟨hc, hcs⟩ := List.ne_and_not_mem_of_not_mem_cons h
      unfold callBlocks
      rw [if_neg (Ne.symm hc)]
      dsimp only
      rw [← List.singleton_append, idsOf_append, toolUseBlock_use, ih hcs]
      rfl

/-- A message without blocks is given one that uses nothing. -/
theorem idsOf_orText (blocks : List Json) :
    idsOf "tool_use" "id" (if blocks.isEmpty then [textBlock "(no content)"] else blocks) =
      idsOf "tool_use" "id" blocks := by
  split
  · rename_i hempty
    rw [textBlock_use, List.isEmpty_iff.mp hempty]
    rfl
  · rfl

/-- Blocks that are rebuilt from the calls. -/
theorem assistantBlocks_rebuilt {l : List ToolCall} (h : "" ∉ l.map ToolCall.callId)
    (ids : ℕ) (content : String) :
    idsOf "tool_use" "id" (assistantBlocks ids content l none).1 =
      l.map fun c ↦ some c.callId := by
  have huses := callBlocks_uses h ids
  unfold assistantBlocks
  dsimp only
  generalize callBlocks ids l = built at huses ⊢
  rw [idsOf_orText, idsOf_append, huses]
  split
  · rfl
  · rfl

/-- The provider's own blocks use the ids of the reply. -/
theorem assistantBlocks_parsed {m : ApiMessage} (hids : none ∉ m.useIds)
    (ids : ℕ) :
    idsOf "tool_use" "id" (assistantBlocks ids (parseApiMessage m).text
      (parseApiMessage m).toolCalls (parseApiMessage m).rawContent).1 = m.useIds := by
  have huses := idsOf_json (l := m.content) hids
  unfold ApiMessage.useIds at hids ⊢
  unfold parseApiMessage
  dsimp only
  cases hcontent : m.content with
  | nil =>
      have hrebuilt := assistantBlocks_rebuilt (l := []) List.not_mem_nil ids m.text
      split
      · exact hrebuilt
      · exact hrebuilt
  | cons b bs =>
      rw [hcontent] at huses
      exact huses

theorem parse_calls {m : ApiMessage} (hids : none ∉ m.useIds)
    (hrefused : m.refused = true → m.useIds = []) :
    ((parseApiMessage m).toolCalls.map fun c ↦ some c.callId) = m.useIds := by
  unfold parseApiMessage
  dsimp only
  split
  · rename_i h
    rw [hrefused h]
    rfl
  · exact calls_useIds hids

theorem parse_onWire {m : ApiMessage} (hids : none ∉ m.useIds) (hdistinct : m.useIds.Nodup)
    (hrefused : m.refused = true → m.useIds = []) :
    (assistantEntry (parseApiMessage m)).msg.OnWire := by
  have hcalls := parse_calls hids hrefused
  refine ⟨fun ids ↦ ?_, nodup_callIds ?_⟩
  · rw [hcalls]
    exact assistantBlocks_parsed hids ids
  · rw [hcalls]
    exact hdistinct

/-- A turn without tool uses that gains the calls a guard has recovered. -/
theorem recover_onWire {m : ApiMessage} (hnone : m.useIds = []) {calls : List ToolCall}
    (hdistinct : (calls.map ToolCall.callId).Nodup) (hids : "" ∉ calls.map ToolCall.callId) :
    (assistantEntry ((parseApiMessage m).recover calls)).msg.OnWire := by
  refine ⟨fun ids ↦ ?_, hdistinct⟩
  have hmissing : none ∉ m.useIds := by
    rw [hnone]
    exact List.not_mem_nil
  have huses := idsOf_json (l := m.content) hmissing
  unfold ApiMessage.useIds at hnone
  rw [hnone] at huses
  unfold Turn.recover parseApiMessage
  dsimp only
  cases hcontent : m.content with
  | nil => exact assistantBlocks_rebuilt hids ids m.text
  | cons b bs =>
      rw [hcontent] at huses
      change idsOf "tool_use" "id" ((b :: bs).map Block.json ++ calls.map toolUseBlock) = _
      rw [idsOf_append, huses, idsOf_toolUseBlocks]
      rfl

/-! ## Replies read back from a file -/

theorem get?_sortKeys (key : String) (block : Json) :
    block.sortKeys.get? key = (block.get? key).map Json.sortKeys := by
  cases block with
  | obj fields => exact lookup_sortKeys key fields
  | null | bool | num | str | arr => rfl

theorem ofType_sortKeys (type : String) (block : Json) :
    ofType type block.sortKeys = ofType type block := by
  unfold ofType
  rw [get?_sortKeys]
  cases block.get? "type" with
  | none => rfl
  | some x =>
      cases x with
      | null | bool | num | str | arr | obj => rfl

theorem blockId_sortKeys (key : String) (block : Json) :
    blockId key block.sortKeys = blockId key block := by
  unfold blockId
  rw [get?_sortKeys]
  cases block.get? key with
  | none => rfl
  | some x =>
      cases x with
      | null | bool | num | str | arr | obj => rfl

theorem idsOf_sortItems (type key : String) (blocks : List Json) :
    idsOf type key (sortItems blocks) = idsOf type key blocks := by
  induction blocks with
  | nil => rfl
  | cons b bs ih =>
      rw [sortItems, idsOf_cons, idsOf_cons, ofType_sortKeys, blockId_sortKeys, ih]

theorem callBlocks_sortKeys (calls : List ToolCall) (ids : ℕ) :
    idsOf "tool_use" "id" (callBlocks ids (calls.map ToolCall.sortKeys)).1 =
      idsOf "tool_use" "id" (callBlocks ids calls).1 := by
  induction calls generalizing ids with
  | nil => rfl
  | cons c cs ih =>
      have hid : c.sortKeys.callId = c.callId := rfl
      rw [List.map_cons, callBlocks, callBlocks, hid]
      split
      · exact congrArg (some s!"toolu_{ids + 1}" :: ·) (ih (ids + 1))
      · exact congrArg (some c.callId :: ·) (ih ids)

theorem assistantBlocks_sortKeys (ids : ℕ) (content : String) (toolCalls : List ToolCall)
    (rawContent : Option (List Json)) :
    idsOf "tool_use" "id" (assistantBlocks ids content (toolCalls.map ToolCall.sortKeys)
      (rawContent.map sortItems)).1 =
      idsOf "tool_use" "id" (assistantBlocks ids content toolCalls rawContent).1 := by
  have hrebuilt : idsOf "tool_use" "id" (assistantBlocks ids content
      (toolCalls.map ToolCall.sortKeys) none).1 =
      idsOf "tool_use" "id" (assistantBlocks ids content toolCalls none).1 := by
    unfold assistantBlocks
    dsimp only
    rw [idsOf_orText, idsOf_orText, idsOf_append, idsOf_append, callBlocks_sortKeys]
  cases rawContent with
  | none => exact hrebuilt
  | some blocks =>
      cases blocks with
      | nil => exact hrebuilt
      | cons b bs => exact idsOf_sortItems "tool_use" "id" (b :: bs)

theorem Message.OnWire.sortKeys {m : Message} (h : m.OnWire) : m.sortKeys.OnWire := by
  cases m with
  | assistant content toolCalls rawContent =>
      have hids : (toolCalls.map ToolCall.sortKeys).map ToolCall.callId =
          toolCalls.map ToolCall.callId := by
        rw [List.map_map]
        rfl
      constructor
      · intro ids
        rw [assistantBlocks_sortKeys, h.1 ids, List.map_map]
        rfl
      · rw [hids]
        exact h.2
  | system | user | tool => trivial

/-! ## Runs over the API -/

section Runs

variable (w : World) (api : History → ApiOutcome) (l : Launch)

/-- The replies to the requests after the first `n` events may be sent back. -/
def RepliesReplayable (n : ℕ) (h : History) : Prop :=
  ∀ pre messages tools post m, h = pre ++ .request messages tools :: post → n ≤ pre.length →
    api (pre ++ [.request messages tools]) = .message m →
    Replayable l.config.guards (pre ++ [.request messages tools]) m

/-- The messages use on the wire the ids of their calls. -/
def OnWire (messages : List Entry) : Prop := ∀ e ∈ messages, e.msg.OnWire

variable {w api l}

theorem OnWire.append {ms ms' : List Entry} (h : OnWire ms) (h' : OnWire ms') :
    OnWire (ms ++ ms') :=
  List.forall_mem_append.mpr ⟨h, h'⟩

theorem onWire_single {e : Entry} (h : e.msg.OnWire) : OnWire [e] :=
  List.forall_mem_singleton.mpr h

theorem onWire_answers {answers : List Entry} {keys : List (String × String)}
    (h : answers.map Entry.answers = keys.map some) : OnWire answers := by
  intro e he
  have hmem : e.answers ∈ keys.map some := by
    rw [← h]
    exact List.mem_map_of_mem he
  obtain ⟨k, -, hk⟩ := List.mem_map.mp hmem
  obtain ⟨msg, chars⟩ := e
  cases msg with
  | tool | system | user => trivial
  | assistant => contradiction

theorem OnWire.map {ms : List Entry} (h : OnWire ms) {f : Entry → Entry}
    (hf : ∀ e, (f e).msg = e.msg) : OnWire (ms.map f) := by
  intro e he
  obtain ⟨e, hmem, rfl⟩ := List.mem_map.mp he
  rw [hf]
  exact h e hmem

theorem OnWire.compact {ms : List Entry} (h : OnWire ms) (budget : ContextBudget)
    (est : Estimator) (tools : List Json) :
    OnWire (AgentLoop.compact ms budget est tools).1 := by
  refine compact_forall (P := fun e ↦ e.msg.OnWire) ?_ (fun _ _ ↦ trivial) (fun _ he ↦ he) h
    budget est tools
  intro e he
  obtain ⟨msg, chars⟩ := e
  cases msg with
  | tool => trivial
  | system | user | assistant => exact he

/-- The reply behind a turn may be sent back. -/
theorem Replies.replayable {n : ℕ} {h : History} {t : Turn}
    (ht : Replies (w.overApi api) n h t) (hC : RepliesReplayable api l n h) :
    ∃ m, t = parseApiMessage m ∧ Replayable l.config.guards h m := by
  obtain ⟨hlength, ⟨messages, tools, hlast⟩, hturn⟩ := ht
  have hsplit : h = h.dropLast ++ [.request messages tools] := by
    have hne : h ≠ [] := fun hnil ↦ by simp [hnil] at hlast
    rw [List.getLast?_eq_some_getLast hne] at hlast
    have hconcat := List.dropLast_concat_getLast hne
    rw [Option.some.inj hlast] at hconcat
    exact hconcat.symm
  change (api h).completion = .turn t at hturn
  cases hapi : api h with
  | message m =>
      rw [hapi] at hturn
      have hreplay := hC h.dropLast messages tools [] m hsplit
        (by rw [List.length_dropLast]; omega) (by rw [← hsplit]; exact hapi)
      rw [← hsplit] at hreplay
      exact ⟨m, (Completion.turn.inj hturn).symm, hreplay⟩
  | llmError e =>
      rw [hapi] at hturn
      contradiction
  | raises repr =>
      rw [hapi] at hturn
      contradiction

/-- A turn without calls that is not the final answer uses no tool. -/
theorem Replayable.no_uses {guards : List (History → String → Verdict)} {h : History}
    {m : ApiMessage} {r : Rejection} (hm : Replayable guards h m)
    (hcalls : (parseApiMessage m).toolCalls = [])
    (hguards : runGuards h (parseApiMessage m).text guards = some r) : m.useIds = [] := by
  cases hrefused : m.refused with
  | true =>
      rcases hm.refusal hrefused with hnone | haccepted
      · exact hnone
      · have htext : runGuards h m.text guards = some r := hguards
        rw [haccepted] at htext
        contradiction
  | false =>
      have huses := parse_calls hm.ids fun h ↦ absurd (hrefused.symm.trans h) Bool.false_ne_true
      rw [hcalls] at huses
      exact huses.symm

theorem onWire_upheld (w : World) (api : History → ApiOutcome) (l : Launch) (n : ℕ) :
    Upholds (w.overApi api) l n (RepliesReplayable api l n) OnWire fun _ ↦ True where
  shrinks := by
    intro h ev hC pre messages tools post m hsplit
    refine hC pre messages tools (post ++ [ev]) m ?_
    rw [hsplit, List.append_assoc, List.cons_append]
  fresh := fun _ ↦ List.forall_mem_cons.mpr ⟨trivial, onWire_single trivial⟩
  cached := fun _ h ↦ h.map fun _ ↦ rfl
  strip := fun _ h ↦ h.map fun _ ↦ rfl
  dumped := by
    intro ms h e he
    obtain ⟨e, hmem, rfl⟩ := List.mem_map.mp he
    exact (h e hmem).sortKeys
  dumpedDone := fun _ _ ↦ trivial
  compact := fun _ budget est h ↦ h.compact budget est l.config.toolSpecs
  completed := fun _ _ _ _ _ _ _ _ ↦ trivial
  sentBack := by
    intro h t r ms hC ht hcalls hguards _ hms
    obtain ⟨m, rfl, hm⟩ := ht.replayable hC
    have hnone := hm.no_uses hcalls hguards
    refine (hms.append (onWire_single ?_)).append (onWire_single trivial)
    exact parse_onWire hm.ids hm.distinct fun _ ↦ hnone
  called := by
    intro h t ms answers hC ht hcalls hms hanswers _
    obtain ⟨m, rfl, hm⟩ := ht.replayable hC
    have hrefused : m.refused = true → m.useIds = [] := by
      intro hrefused
      unfold parseApiMessage at hcalls
      dsimp only at hcalls
      rw [if_pos hrefused] at hcalls
      contradiction
    have hturn := parse_onWire hm.ids hm.distinct hrefused
    have hmap : answers.map Entry.answers =
        ((parseApiMessage m).toolCalls.map fun c ↦ (c.callId, c.name)).map some := by
      rw [hanswers, List.map_map]
      rfl
    exact hms.append (List.forall_mem_cons.mpr ⟨hturn, onWire_answers hmap⟩)
  recovered := by
    intro h t r ms answers hC ht hcalls hguards _ hms hanswers _
    obtain ⟨m, rfl, hm⟩ := ht.replayable hC
    have hnone := hm.no_uses hcalls hguards
    obtain ⟨hdistinct, hids⟩ := hm.recovered r hguards
    have hturn := recover_onWire hnone hdistinct hids
    have hmap : answers.map Entry.answers = (r.calls.map fun c ↦ (c.callId, c.name)).map some := by
      rw [hanswers, List.map_map]
      rfl
    exact hms.append (List.forall_mem_cons.mpr ⟨hturn, onWire_answers hmap⟩)
  asked := fun _ h ↦ h.append (onWire_single trivial)
  wrappedUp := by
    intro ms text h
    refine h.append (onWire_single ⟨fun ids ↦ ?_, List.nodup_nil⟩)
    exact assistantBlocks_rebuilt List.not_mem_nil ids text

/-- The replies of a campaign may be sent back. -/
def CampaignReplayable (w : World) (api : History → ApiOutcome) (launches : List Launch) : Prop :=
  ∀ before l after, launches = before ++ l :: after →
    RepliesReplayable api l (campaign (w.overApi api) before).history.length
      (campaign (w.overApi api) (before ++ [l])).history

theorem campaign_concat (w : World) (launches : List Launch) (l : Launch) :
    campaign w (launches ++ [l]) = (run w l (campaign w launches)).2 :=
  List.foldl_concat ..

theorem campaign_onWire {launches : List Launch} (h : CampaignReplayable w api launches) :
    Carried OnWire (fun _ ↦ True) (campaign (w.overApi api) launches) := by
  induction launches using List.reverseRecOn with
  | nil => exact ⟨fun ev hev ↦ absurd hev List.not_mem_nil, fun c hc ↦ by contradiction⟩
  | append_singleton launches l ih =>
      have hbefore : CampaignReplayable w api launches := by
        intro before l' after hsplit
        refine h before l' (after ++ [l]) ?_
        rw [hsplit, List.append_assoc, List.cons_append]
      have hrun := h launches l [] rfl
      rw [campaign_concat] at hrun ⊢
      exact (onWire_upheld w api l _).run_carried (le_refl _) (ih hbefore) hrun

/-- Every body of a campaign, for a completion or a count of tokens, is paired. -/
theorem bodies_wirePaired (w : World) (api : History → ApiOutcome) (launches : List Launch)
    (hreplies : CampaignReplayable w api launches) (cfg : AdapterConfig)
    (hextra : ∀ v, ("messages", v) ∉ cfg.extraBody) (messages : List Entry) (tools : List Json)
    (ids : ℕ) (body : List (String × Json)) :
    (.request messages tools ∈ (campaign (w.overApi api) launches).history →
      completeBody cfg ids (messages.map Entry.msg) tools = some body →
        WirePaired (bodyMessages body)) ∧
    (.countTokens messages tools ∈ (campaign (w.overApi api) launches).history →
      countTokensBody cfg ids (messages.map Entry.msg) tools = some body →
        WirePaired (bodyMessages body)) := by
  have hcarried := campaign_onWire hreplies
  have hpaired := (conversations_wellPaired (w.overApi api) launches).1
  constructor
  · intro hmem hbody
    exact completeBody_paired hextra hbody
      (toAnthropicMessages_paired (hpaired _ hmem) (hcarried.events _ hmem) ids)
  · intro hmem hbody
    exact countTokensBody_paired hextra hbody
      (toAnthropicMessages_paired (hpaired _ hmem) (hcarried.events _ hmem) ids)

end Runs

/-! ## A refused turn that is sent back -/

def deskWorld : World where
  complete := fun _ ↦ .raises ""
  countTokens := none
  dispatch := fun _ _ _ ↦ ⟨true, "found", {}⟩
  notes := fun _ ↦ none
  checkpointState := none
  restoresState := false
  dies := fun _ ↦ false
  repr := id
  fixed4 := fun _ ↦ ""

/-- A reply with a tool use, and a text. -/
def deskReplies (stopReason : String) (h : History) : ApiOutcome :=
  if h.length = 2 then
    .message ⟨[.text "Let me look." [], .toolUse (some "toolu_a") "look" none []], stopReason,
      "cyber", {}⟩
  else .message ⟨[.text "done" []], "end_turn", "", {}⟩

/-- A guard that wants the answer to be `done`. -/
def wantDone (_ : History) (text : String) : Verdict :=
  if text = "done" then .accepts else .rejects ⟨"want_done", "text", "Say done.", []⟩

def deskLaunch (guards : List (History → String → Verdict)) : Launch where
  config :=
    { systemPrompt := "p", maxSteps := 3, maxObservationChars := 80, maxAttempts := 1
      contextBudget := none, parallelTools := false, maxParallel := 1
      maxTotalTokens := none, maxCostUsd := none, model := "", writeTtl := "5m"
      exactTokenCheck := false, exactTokenMargin := 0, wrapUpOnMaxSteps := false
      wrapUpPrompt := "", maxGuardRetries := 2, guards := guards, toolSpecs := []
      parallelSafe := fun _ ↦ false }
  task := "t"
  checkpointed := false
  estimator := {}

def deskConfig : AdapterConfig where
  model := "claude"
  maxTokens := 16000
  effort := ""
  thinking := none
  extraBody := []
  stream := false
  cache := [("type", .str "ephemeral")]
  fallbacks := none
  serverCompaction := false

/-- Some event is a request, and a property holds of the messages of its body. -/
def anyBody (p : List Json → Bool) (ev : Event) : Bool :=
  match ev with
  | .request messages tools =>
      (completeBody deskConfig 0 (messages.map Entry.msg) tools).any fun body ↦
        p (bodyMessages body)
  | _ => false

theorem exists_body {p : List Json → Bool} {evs : List Event}
    (h : evs.any (anyBody p) = true) :
    ∃ messages tools body, .request messages tools ∈ evs ∧
      completeBody deskConfig 0 (messages.map Entry.msg) tools = some body ∧
      p (bodyMessages body) = true := by
  obtain ⟨ev, hmem, hev⟩ := List.any_eq_true.mp h
  cases ev with
  | request messages tools =>
      cases hbody : completeBody deskConfig 0 (messages.map Entry.msg) tools with
      | none =>
          simp [anyBody, hbody] at hev
      | some body =>
          exact ⟨messages, tools, body, hmem, hbody, by simpa [anyBody, hbody] using hev⟩
  | launched | restored | countTokens | dispatched | ran | saved => contradiction

/-- A tool use that is answered: the second body has three messages, and is paired. -/
theorem desk_wirePaired :
    ∃ messages tools body,
      .request messages tools ∈ (campaign (deskWorld.overApi (deskReplies "tool_use"))
        [deskLaunch []]).history ∧
      completeBody deskConfig 0 (messages.map Entry.msg) tools = some body ∧
      (bodyMessages body).length = 3 ∧ WirePaired (bodyMessages body) := by
  have hany : (campaign (deskWorld.overApi (deskReplies "tool_use"))
      [deskLaunch []]).history.any (anyBody fun ms ↦ decide (ms.length = 3)) = true := by
    decide +kernel
  have hreplies : CampaignReplayable deskWorld (deskReplies "tool_use") [deskLaunch []] := by
    intro before l after hsplit pre messages tools post m _ _ hm
    have hl : l = deskLaunch [] := by
      have hmem : l ∈ [deskLaunch []] := by
        rw [hsplit]
        exact List.mem_append_right before List.mem_cons_self
      exact List.mem_singleton.mp hmem
    subst hl
    unfold deskReplies at hm
    split at hm
    · obtain rfl := ApiOutcome.message.inj hm
      exact ⟨by decide, by decide, fun h ↦ absurd h (by decide), fun r hr ↦ by contradiction⟩
    · obtain rfl := ApiOutcome.message.inj hm
      exact ⟨by decide, by decide, fun h ↦ absurd h (by decide), fun r hr ↦ by contradiction⟩
  obtain ⟨messages, tools, body, hmem, hbody, hlength⟩ := exists_body hany
  refine ⟨messages, tools, body, hmem, hbody, of_decide_eq_true hlength, ?_⟩
  exact (bodies_wirePaired deskWorld (deskReplies "tool_use") [deskLaunch []] hreplies deskConfig
    (fun v hv ↦ by contradiction) messages tools 0 body).1 hmem hbody

/-- The guard sends a refused turn back: its tool use goes unanswered. -/
theorem desk_unpaired :
    ¬ ∀ messages tools body,
      .request messages tools ∈ (campaign (deskWorld.overApi (deskReplies "refusal"))
        [deskLaunch [wantDone]]).history →
      completeBody deskConfig 0 (messages.map Entry.msg) tools = some body →
      WirePaired (bodyMessages body) := by
  have hany : (campaign (deskWorld.overApi (deskReplies "refusal"))
      [deskLaunch [wantDone]]).history.any (anyBody fun ms ↦ decide (¬ WirePaired ms)) = true := by
    decide +kernel
  obtain ⟨messages, tools, body, hmem, hbody, hunpaired⟩ := exists_body hany
  exact fun h ↦ of_decide_eq_true hunpaired (h messages tools body hmem hbody)

end NucLlm.AgentLoop
