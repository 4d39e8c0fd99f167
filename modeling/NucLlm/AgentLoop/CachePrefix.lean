import NucLlm.AgentLoop.WirePairing

/-!
# The cached front of a conversation

The prompt cache matches the front of a request.  The messages of a body are,
but for the cache markers, the front of those of a longer conversation, if no
call has to be given an id: an id that is made up is another one in every body.
-/

namespace NucLlm.AgentLoop

/-! ## Messages without their markers -/

def unmarkedBlock : Json → Json
  | .obj fields => .obj (fields.filter fun f ↦ f.1 ≠ "cache_control")
  | b => b

/-- A message without the cache markers on its blocks. -/
def unmarked (m : Json) : Json :=
  match m, m.get? "content" with
  | .obj fields, some (.arr blocks) =>
      .obj (setField "content" (.arr (blocks.map unmarkedBlock)) fields)
  | _, _ => m

theorem filter_setField {key : String} {p : String × Json → Bool} (h : ∀ v, p (key, v) = false)
    (value : Json) (fields : List (String × Json)) :
    (setField key value fields).filter p = fields.filter p := by
  induction fields with
  | nil => simp [setField, h]
  | cons f fields ih =>
      obtain ⟨k, v⟩ := f
      unfold setField
      split
      · rename_i hk
        subst hk
        simp [h]
      · rw [List.filter_cons, List.filter_cons, ih]

theorem unmarkedBlock_markBlock (cache : List (String × Json)) (b : Json) :
    unmarkedBlock (markBlock cache b) = unmarkedBlock b := by
  cases b with
  | obj fields =>
      have hmarker (v : Json) :
        (decide (("cache_control", v).1 ≠ "cache_control")) = false := by simp
      exact congrArg Json.obj (filter_setField hmarker (.obj cache) fields)
  | null | bool | num | str | arr => rfl

theorem setField_setField (key : String) (value value' : Json) (fields : List (String × Json)) :
    setField key value (setField key value' fields) = setField key value fields := by
  induction fields with
  | nil => simp [setField]
  | cons f fields ih =>
      obtain ⟨k, v⟩ := f
      by_cases hk : k = key
      · simp [setField, hk]
      · simp [setField, hk, ih]

theorem map_modify_of_same {α β : Type} {f : α → β} {g : α → α} (h : ∀ a, f (g a) = f a)
    (xs : List α) (i : ℕ) : (xs.modify i g).map f = xs.map f := by
  induction xs generalizing i with
  | nil => simp
  | cons a xs ih =>
      cases i with
      | zero => rw [List.modify_zero_cons, List.map_cons, List.map_cons, h]
      | succ i => rw [List.modify_succ_cons, List.map_cons, List.map_cons, ih]

theorem unmarked_markMessage (cache : List (String × Json)) (m : Json) :
    unmarked (markMessage cache m) = unmarked m := by
  unfold markMessage
  split
  · rename_i fields blocks hcontent
    have hmarked : (Json.obj (setField "content"
        (.arr (blocks.modify (blocks.length - 1) (markBlock cache))) fields)).get? "content" =
        some (.arr (blocks.modify (blocks.length - 1) (markBlock cache))) :=
      lookup_setField_self _ _ _
    unfold unmarked
    rw [hmarked, hcontent]
    dsimp only
    rw [setField_setField, map_modify_of_same (unmarkedBlock_markBlock cache)]
  · rfl

theorem map_unmarked_markUsers (cache : List (String × Json)) (ms : List Json) :
    ∀ n, (markUsers cache n ms).map unmarked = ms.map unmarked := by
  induction ms with
  | nil => exact fun n ↦ by cases n <;> rfl
  | cons m ms ih =>
      intro n
      cases n with
      | zero => rfl
      | succ n =>
          unfold markUsers
          split
          · rw [List.map_cons, List.map_cons, unmarked_markMessage, ih]
          · rw [List.map_cons, List.map_cons, ih]

/-- Markers apart, each message is shaped by itself. -/
theorem map_unmarked_markMessages (cache : List (String × Json)) (ms : List Json) :
    (markMessages cache ms).map unmarked = ms.map fun m ↦ unmarked (shapeUser m) := by
  unfold markMessages
  rw [List.map_reverse, map_unmarked_markUsers, ← List.map_reverse, List.reverse_reverse,
    List.map_map]
  rfl

theorem idsOf_unmarkedBlock (type : String) {key : String} (hkey : key ≠ "cache_control")
    (blocks : List Json) :
    idsOf type key (blocks.map unmarkedBlock) = idsOf type key blocks := by
  have hget {k : String} (hk : k ≠ "cache_control") (b : Json) :
      (unmarkedBlock b).get? k = b.get? k := by
    cases b with
    | obj fields => exact lookup_filter (fun v ↦ by simpa using hk) fields
    | null | bool | num | str | arr => rfl
  induction blocks with
  | nil => rfl
  | cons b blocks ih =>
      have htype : ofType type (unmarkedBlock b) = ofType type b := by
        unfold ofType
        rw [hget (by decide)]
      have hid : blockId key (unmarkedBlock b) = blockId key b := by
        unfold blockId
        rw [hget hkey]
      rw [List.map_cons, idsOf_cons, idsOf_cons, ih, htype, hid]

theorem toolUses_unmarked (m : Json) : toolUses (unmarked m) = toolUses m := by
  have hreading : reading (unmarked m) = reading m := by
    unfold unmarked
    split
    · rename_i fields blocks hcontent
      have hblocks : wireBlocks (.obj fields) = blocks := by
        unfold wireBlocks
        rw [hcontent]
      refine reading_setContent ?_ ?_
      · rw [idsOf_unmarkedBlock _ (by decide), hblocks]
      · rw [idsOf_unmarkedBlock _ (by decide), hblocks]
    · rfl
  exact congrArg Prod.fst hreading

/-! ## Calls that have their ids -/

/-- The blocks of the message are rebuilt, and one of its calls has no id. -/
def Message.Unidentified : Message → Prop
  | .assistant _ toolCalls rawContent =>
      (rawContent.getD []).isEmpty = true ∧ "" ∈ toolCalls.map ToolCall.callId
  | _ => False

instance : DecidablePred Message.Unidentified
  | .assistant _ toolCalls rawContent =>
      inferInstanceAs (Decidable
        ((rawContent.getD []).isEmpty = true ∧ "" ∈ toolCalls.map ToolCall.callId))
  | .system _ | .user _ _ | .tool _ _ _ _ _ => inferInstanceAs (Decidable False)

/-- No message needs an id to be made. -/
def Identified (messages : List Message) : Prop := ∀ m ∈ messages, ¬ m.Unidentified

theorem callBlocks_identified {calls : List ToolCall} (h : "" ∉ calls.map ToolCall.callId)
    (ids : ℕ) : callBlocks ids calls = (calls.map toolUseBlock, ids) := by
  induction calls generalizing ids with
  | nil => rfl
  | cons c cs ih =>
      rw [List.map_cons] at h
      obtain ⟨hc, hcs⟩ := List.ne_and_not_mem_of_not_mem_cons h
      unfold callBlocks
      rw [if_neg (Ne.symm hc), ih hcs]
      rfl

theorem assistantBlocks_identified {content : String} {toolCalls : List ToolCall}
    {rawContent : Option (List Json)}
    (h : ¬ (Message.assistant content toolCalls rawContent).Unidentified) (ids ids' : ℕ) :
    assistantBlocks ids content toolCalls rawContent =
      ((assistantBlocks ids' content toolCalls rawContent).1, ids) := by
  have hrebuilt (hempty : (rawContent.getD []).isEmpty = true) :
      "" ∉ toolCalls.map ToolCall.callId := fun hmem ↦ h ⟨hempty, hmem⟩
  match rawContent with
  | some (b :: bs) => rfl
  | some [] | none =>
      have hcalls := callBlocks_identified (hrebuilt rfl)
      simp only [assistantBlocks, hcalls]

/-- Without an id, the counter moves on. -/
theorem callBlocks_ids (calls : List ToolCall) (ids : ℕ) :
    ids ≤ (callBlocks ids calls).2 ∧
      ("" ∈ calls.map ToolCall.callId → ids < (callBlocks ids calls).2) := by
  induction calls generalizing ids with
  | nil => exact ⟨le_rfl, by simp⟩
  | cons c cs ih =>
      unfold callBlocks
      split
      · have hle := (ih (ids + 1)).1
        exact ⟨Nat.le_of_succ_le hle, fun _ ↦ hle⟩
      · rename_i hc
        refine ⟨(ih ids).1, fun hmem ↦ (ih ids).2 ?_⟩
        rw [List.map_cons, List.mem_cons] at hmem
        exact hmem.resolve_left (Ne.symm hc)

theorem toolu_injective {i j : ℕ} (h : s!"toolu_{i + 1}" = s!"toolu_{j + 1}") : i = j := by
  have hlist := congrArg String.toList h
  simp only [toString, String.toList_append] at hlist
  have hdigits := String.toList_injective (List.append_cancel_left hlist)
  have hnat := Nat.repr_injective hdigits
  omega

theorem idsOf_toolUse_cons (c : ToolCall) (blocks : List Json) :
    idsOf "tool_use" "id" (toolUseBlock c :: blocks) =
      some c.callId :: idsOf "tool_use" "id" blocks := by
  rw [← List.singleton_append, idsOf_append, toolUseBlock_use]
  rfl

/-- Blocks built from two counters use the same ids only if no id was made. -/
theorem callBlocks_same {calls : List ToolCall} {i j : ℕ} (hij : i < j)
    (h : idsOf "tool_use" "id" (callBlocks i calls).1 =
      idsOf "tool_use" "id" (callBlocks j calls).1) :
    "" ∉ calls.map ToolCall.callId := by
  induction calls with
  | nil => simp
  | cons c cs ih =>
      unfold callBlocks at h
      split at h
      · dsimp only at h
        rw [idsOf_toolUse_cons, idsOf_toolUse_cons] at h
        have hfirst := toolu_injective (Option.some.inj (List.cons.inj h).1)
        omega
      · rename_i hc
        dsimp only at h
        rw [idsOf_toolUse_cons, idsOf_toolUse_cons] at h
        rw [List.map_cons, List.mem_cons, not_or]
        exact ⟨Ne.symm hc, ih (List.cons.inj h).2⟩

theorem rebuilt_uses (content : String) (calls : List Json) :
    idsOf "tool_use" "id"
      (if ((if content = "" then [] else [textBlock content]) ++ calls).isEmpty then
        [textBlock "(no content)"]
      else (if content = "" then [] else [textBlock content]) ++ calls) =
      idsOf "tool_use" "id" calls := by
  have htext : idsOf "tool_use" "id" ((if content = "" then [] else [textBlock content]) ++ calls) =
      idsOf "tool_use" "id" calls := by
    rw [idsOf_append]
    split
    · rfl
    · rfl
  generalize (if content = "" then [] else [textBlock content]) ++ calls = blocks at htext ⊢
  split
  · rename_i hempty
    rw [← htext, List.isEmpty_iff.mp hempty]
    rfl
  · exact htext

theorem assistantBlocks_same {content : String} {toolCalls : List ToolCall}
    {rawContent : Option (List Json)} {i j : ℕ} (hij : i < j)
    (h : idsOf "tool_use" "id" (assistantBlocks i content toolCalls rawContent).1 =
      idsOf "tool_use" "id" (assistantBlocks j content toolCalls rawContent).1) :
    ¬ (Message.assistant content toolCalls rawContent).Unidentified := by
  rintro ⟨hempty, hmem⟩
  have huses (ids : ℕ) :
    idsOf "tool_use" "id" (assistantBlocks ids content toolCalls rawContent).1 =
      idsOf "tool_use" "id" (callBlocks ids toolCalls).1 := by
    match rawContent with
    | none | some [] => exact rebuilt_uses content (callBlocks ids toolCalls).1
  rw [huses, huses] at h
  exact callBlocks_same hij h hmem

namespace Rendering

/-! ## Two renderings of one history -/

theorem flush_withIds (r : Rendering) (ids : ℕ) :
    flush { r with ids := ids } = { r.flush with ids := ids } := by
  unfold flush
  dsimp only
  split
  · rfl
  · rfl

theorem flush_ids (r : Rendering) : r.flush.ids = r.ids := by
  unfold flush
  split
  · rfl
  · rfl

theorem add_identified {m : Message} (h : ¬ m.Unidentified) (r : Rendering) (ids : ℕ) :
    add { r with ids := ids } m = { r.add m with ids := ids } ∧ (r.add m).ids = r.ids := by
  cases m with
  | system content => exact ⟨rfl, rfl⟩
  | tool content toolCallId toolName ok elidedChars => exact ⟨rfl, rfl⟩
  | user content droppedSteps =>
      rw [add_user, add_user, flush_withIds]
      exact ⟨rfl, flush_ids r⟩
  | assistant content toolCalls rawContent =>
      rw [add_assistant, add_assistant, flush_withIds]
      dsimp only
      have hsame := assistantBlocks_identified h
      constructor
      · rw [hsame ids r.flush.ids]
      · rw [hsame r.flush.ids 0]
        exact flush_ids r

theorem foldl_identified {ms : List Message} (h : Identified ms) (r : Rendering) (ids : ℕ) :
    ms.foldl add { r with ids := ids } = { ms.foldl add r with ids := ids } := by
  induction ms generalizing r with
  | nil => rfl
  | cons m ms ih =>
      obtain ⟨hm, hms⟩ := List.forall_mem_cons.mp h
      rw [List.foldl_cons, List.foldl_cons, (add_identified hm r ids).1, ih hms]

/-! ## Renderings grow -/

theorem out_flush (r : Rendering) : r.out <+: r.flush.out := by
  unfold flush
  split
  · exact List.prefix_rfl
  · exact List.prefix_append _ _

theorem out_add (r : Rendering) (m : Message) : r.out <+: (r.add m).out := by
  cases m with
  | system content => exact List.prefix_rfl
  | tool content toolCallId toolName ok elidedChars => exact List.prefix_rfl
  | user content droppedSteps =>
      rw [add_user]
      exact (out_flush r).trans (List.prefix_append _ _)
  | assistant content toolCalls rawContent =>
      rw [add_assistant]
      exact (out_flush r).trans (List.prefix_append _ _)

theorem out_foldl (ms : List Message) (r : Rendering) : r.out <+: (ms.foldl add r).out := by
  induction ms generalizing r with
  | nil => exact List.prefix_rfl
  | cons m ms ih => exact (out_add r m).trans (ih (r.add m))

/-- Complete steps leave the messages before them, and the results that were due, as they are. -/
theorem flush_foldl {steps : List Entry} (h : WellPaired steps) (r : Rendering) :
    r.flush.out <+: ((steps.map Entry.msg).foldl add r).flush.out := by
  induction h generalizing r with
  | nil => exact List.prefix_rfl
  | turn a results rest hfirst hresults _ ih =>
      rw [List.map_cons, List.map_append, List.foldl_cons, List.foldl_append]
      obtain ⟨msg, chars⟩ := a
      cases msg with
      | tool => contradiction
      | system content =>
          obtain rfl := List.map_eq_nil_iff.mp hresults
          have hflush := flush_systemParts r (r.systemParts ++ [content])
          refine List.IsPrefix.trans ?_ (ih (r.add (.system content)))
          change r.flush.out <+: (flush { r with systemParts := r.systemParts ++ [content] }).out
          rw [hflush]
      | user content droppedSteps =>
          have hgrown : r.flush.out <+: (r.add (.user content droppedSteps)).out := by
            rw [add_user]
            exact List.prefix_append _ _
          exact hgrown.trans ((out_foldl _ _).trans ((out_foldl _ _).trans (out_flush _)))
      | assistant content toolCalls rawContent =>
          have hgrown : r.flush.out <+: (r.add (.assistant content toolCalls rawContent)).out := by
            rw [add_assistant]
            exact List.prefix_append _ _
          exact hgrown.trans ((out_foldl _ _).trans ((out_foldl _ _).trans (out_flush _)))

/-! ## Ids that are made -/

theorem add_ids (r : Rendering) (m : Message) :
    r.ids ≤ (r.add m).ids ∧ (m.Unidentified → r.ids < (r.add m).ids) := by
  cases m with
  | system content => exact ⟨le_rfl, False.elim⟩
  | tool content toolCallId toolName ok elidedChars => exact ⟨le_rfl, False.elim⟩
  | user content droppedSteps =>
      rw [add_user]
      exact ⟨(flush_ids r).ge, False.elim⟩
  | assistant content toolCalls rawContent =>
      rw [add_assistant]
      dsimp only
      rw [flush_ids]
      match rawContent with
      | some (b :: bs) =>
          refine ⟨le_rfl, ?_⟩
          rintro ⟨hempty, -⟩
          contradiction
      | some [] | none =>
          have hids := callBlocks_ids toolCalls r.ids
          exact ⟨hids.1, fun h ↦ hids.2 h.2⟩

theorem foldl_ids (ms : List Message) (r : Rendering) :
    r.ids ≤ (ms.foldl add r).ids ∧ (¬ Identified ms → r.ids < (ms.foldl add r).ids) := by
  induction ms generalizing r with
  | nil => exact ⟨le_rfl, fun h ↦ absurd (by simp [Identified]) h⟩
  | cons m ms ih =>
      obtain ⟨hle, hlt⟩ := add_ids r m
      obtain ⟨hle', hlt'⟩ := ih (r.add m)
      rw [List.foldl_cons]
      refine ⟨hle.trans hle', fun h ↦ ?_⟩
      by_cases hm : m.Unidentified
      · exact (hlt hm).trans_le hle'
      · refine hle.trans_lt (hlt' fun hms ↦ h ?_)
        exact List.forall_mem_cons.mpr ⟨hm, hms⟩

theorem flush_uses {r r' : Rendering} (hout : r.out.map toolUses = r'.out.map toolUses)
    (hpending : r.pendingResults = r'.pendingResults) :
    r.flush.out.map toolUses = r'.flush.out.map toolUses := by
  unfold flush
  rw [← hpending]
  split
  · exact hout
  · rw [List.map_append, List.map_append, hout]

/-- The counter does not show in the number of messages, nor in the results that are due. -/
theorem add_shape {r r' : Rendering} (hlength : r.out.length = r'.out.length)
    (hpending : r.pendingResults = r'.pendingResults) (m : Message) :
    (r.add m).out.length = (r'.add m).out.length ∧
      (r.add m).pendingResults = (r'.add m).pendingResults := by
  have hflush : r.flush.out.length = r'.flush.out.length := by
    unfold flush
    rw [← hpending]
    split
    · exact hlength
    · rw [List.length_append, List.length_append, hlength]
  cases m with
  | system content => exact ⟨hlength, hpending⟩
  | tool content toolCallId toolName ok elidedChars =>
      exact ⟨hlength, congrArg (· ++ [toolResultBlock content toolCallId ok]) hpending⟩
  | user content droppedSteps =>
      rw [add_user, add_user]
      exact ⟨by simp [hflush], rfl⟩
  | assistant content toolCalls rawContent =>
      rw [add_assistant, add_assistant]
      exact ⟨by simp [hflush], rfl⟩

theorem foldl_shape {r r' : Rendering} (hlength : r.out.length = r'.out.length)
    (hpending : r.pendingResults = r'.pendingResults) (ms : List Message) :
    (ms.foldl add r).out.length = (ms.foldl add r').out.length := by
  induction ms generalizing r r' with
  | nil => exact hlength
  | cons m ms ih =>
      obtain ⟨hlength, hpending⟩ := add_shape hlength hpending m
      exact ih hlength hpending

/-- Two counters give the same ids only if no id was made. -/
theorem identified_of_same {ms : List Message} {r r' : Rendering} (hids : r.ids < r'.ids)
    (hout : r.out.map toolUses = r'.out.map toolUses)
    (hpending : r.pendingResults = r'.pendingResults)
    (h : (ms.foldl add r).out.map toolUses = (ms.foldl add r').out.map toolUses) :
    Identified ms := by
  induction ms generalizing r r' with
  | nil => simp [Identified]
  | cons m ms ih =>
      rw [List.foldl_cons, List.foldl_cons] at h
      have hflush := flush_uses hout hpending
      have hlen : r.out.length = r'.out.length := by
        have hlen := congrArg List.length hout
        rwa [List.length_map, List.length_map] at hlen
      obtain ⟨hlength, hpending'⟩ := add_shape hlen hpending m
      have hadd : (r.add m).out.map toolUses = (r'.add m).out.map toolUses := by
        have hleft := (out_foldl ms (r.add m)).map toolUses
        have hright := (out_foldl ms (r'.add m)).map toolUses
        rw [← h] at hright
        refine List.IsPrefix.eq_of_length (List.prefix_of_prefix_length_le hleft hright ?_) ?_
        · simp [hlength]
        · simp [hlength]
      have hm : ¬ m.Unidentified := by
        cases m with
        | system content => exact id
        | tool content toolCallId toolName ok elidedChars => exact id
        | user content droppedSteps => exact id
        | assistant content toolCalls rawContent =>
            rw [add_assistant, add_assistant, List.map_append, List.map_append, hflush] at hadd
            have hlast := List.append_cancel_left hadd
            rw [List.map_singleton, List.map_singleton, toolUses_wireMessage,
              toolUses_wireMessage] at hlast
            refine assistantBlocks_same ?_ (List.cons.inj hlast).1
            rw [flush_ids, flush_ids]
            exact hids
      have hrest : Identified ms := by
        refine ih ?_ hadd hpending' h
        rw [(add_identified hm r r.ids).2, (add_identified hm r' r'.ids).2]
        exact hids
      exact List.forall_mem_cons.mpr ⟨hm, hrest⟩

end Rendering

/-- Messages that are the front of longer ones: they are identified. -/
theorem toAnthropicMessages_front {history : List Message} (h : Identified history)
    {steps : List Entry} (hsteps : WellPaired steps) (ids ids' : ℕ) :
    (toAnthropicMessages ids history).2 <+:
      (toAnthropicMessages ids' (history ++ steps.map Entry.msg)).2 := by
  change ((history.foldl Rendering.add ⟨[], [], [], ids⟩).flush).out <+:
    (((history ++ steps.map Entry.msg).foldl Rendering.add ⟨[], [], [], ids'⟩).flush).out
  have hsame := Rendering.foldl_identified h ⟨[], [], [], ids'⟩ ids
  dsimp only at hsame
  rw [List.foldl_append, hsame, Rendering.flush_withIds]
  exact Rendering.flush_foldl hsteps _

theorem identified_of_front {history : List Message} {steps : List Entry}
    (hsteps : WellPaired steps) {ids ids' : ℕ} (hids : (rendering ids history).ids ≤ ids')
    (h : (toAnthropicMessages ids history).2.map toolUses <+:
      (toAnthropicMessages ids' (history ++ steps.map Entry.msg)).2.map toolUses) :
    Identified history := by
  by_contra hnot
  have hlt := (Rendering.foldl_ids history ⟨[], [], [], ids⟩).2 hnot
  rw [rendering, Rendering.flush_ids] at hids
  let first := history.foldl Rendering.add ⟨[], [], [], ids⟩
  let second := history.foldl Rendering.add ⟨[], [], [], ids'⟩
  have hlength : first.out.length = second.out.length :=
    @Rendering.foldl_shape ⟨[], [], [], ids⟩ ⟨[], [], [], ids'⟩ rfl rfl history
  have hleft : first.out.map toolUses <+:
      (toAnthropicMessages ids' (history ++ steps.map Entry.msg)).2.map toolUses :=
    ((Rendering.out_flush first).map toolUses).trans h
  have hright : second.out.map toolUses <+:
      (toAnthropicMessages ids' (history ++ steps.map Entry.msg)).2.map toolUses := by
    refine ((Rendering.out_flush second).trans ?_).map toolUses
    change second.flush.out <+:
      (((history ++ steps.map Entry.msg).foldl Rendering.add ⟨[], [], [], ids'⟩).flush).out
    rw [List.foldl_append]
    exact Rendering.flush_foldl hsteps second
  have hsame : first.out.map toolUses = second.out.map toolUses := by
    refine List.IsPrefix.eq_of_length (List.prefix_of_prefix_length_le hleft hright ?_) ?_
    · simp [hlength]
    · simp [hlength]
  exact hnot (@Rendering.identified_of_same history ⟨[], [], [], ids⟩ ⟨[], [], [], ids'⟩
    (hlt.trans_le hids) rfl rfl hsame)

/-! ## Bodies -/

/-- How a body shows a message, its markers apart. -/
def AdapterConfig.shown (cfg : AdapterConfig) (m : Json) : Json :=
  unmarked (if cfg.cache.isEmpty then m else shapeUser m)

theorem toolUses_shown (cfg : AdapterConfig) (m : Json) : toolUses (cfg.shown m) = toolUses m := by
  unfold AdapterConfig.shown
  rw [toolUses_unmarked]
  split
  · rfl
  · exact congrArg Prod.fst (reading_shapeUser m)

theorem bodyMessages_setField_ne {key : String} (h : "messages" ≠ key) (value : Json)
    (fields : List (String × Json)) :
    bodyMessages (setField key value fields) = bodyMessages fields := by
  unfold bodyMessages
  rw [lookup_setField_ne h]

theorem bodyMessages_markTools (cache : List (String × Json)) (tools : Option Json)
    (fields : List (String × Json)) :
    bodyMessages (applyCacheMarkers.markTools cache tools fields) = bodyMessages fields := by
  unfold applyCacheMarkers.markTools
  split
  · exact bodyMessages_setField_ne (by decide) _ _
  · rfl

theorem bodyMessages_marked (cache : List (String × Json)) {fields body : List (String × Json)}
    (h : bodyMessages body = bodyMessages fields) :
    bodyMessages (match body.lookup "messages" with
      | some (.arr ms) => setField "messages" (.arr (markMessages cache ms)) body
      | _ => body) = markMessages cache (bodyMessages fields) := by
  rw [← h]
  cases hlookup : body.lookup "messages" with
  | none => simp [bodyMessages, hlookup, markMessages, markUsers]
  | some v =>
      cases v with
      | arr ms => simp [bodyMessages, hlookup, lookup_setField_self]
      | null | bool | num | str | obj => simp [bodyMessages, hlookup, markMessages, markUsers]

theorem bodyMessages_applyCacheMarkers (cache fields : List (String × Json)) :
    bodyMessages (applyCacheMarkers cache fields) = markMessages cache (bodyMessages fields) := by
  unfold applyCacheMarkers
  apply bodyMessages_marked
  split
  · split
    · exact bodyMessages_setField_ne (by decide) _ _
    · exact bodyMessages_markTools _ _ _
  · exact bodyMessages_markTools _ _ _

/-- `extra_body` brings messages of its own. -/
def AdapterConfig.OwnMessages (cfg : AdapterConfig) : Prop := ∃ v, ("messages", v) ∈ cfg.extraBody

theorem lookup_updateFields_same {key : String} {other : List (String × Json)}
    (h : ∃ v, (key, v) ∈ other) (fields fields' : List (String × Json)) :
    (updateFields fields other).lookup key = (updateFields fields' other).lookup key := by
  induction other generalizing fields fields' with
  | nil => simp at h
  | cons f other ih =>
      change (updateFields (setField f.1 f.2 fields) other).lookup key =
        (updateFields (setField f.1 f.2 fields') other).lookup key
      by_cases hrest : ∃ v, (key, v) ∈ other
      · exact ih hrest _ _
      · have hnone : ∀ v, (key, v) ∉ other := fun v hv ↦ hrest ⟨v, hv⟩
        obtain ⟨v, hv⟩ := h
        rcases List.mem_cons.mp hv with rfl | hv
        · rw [lookup_updateFields hnone, lookup_updateFields hnone, lookup_setField_self,
            lookup_setField_self]
        · exact absurd hv (hnone v)

theorem map_shown_bodyMessages {cfg : AdapterConfig} {ids : ℕ} {messages : List Message}
    {tools : List Json} {body : List (String × Json)}
    (hbody : buildBody cfg ids messages tools = some body) :
    ∃ specs, (bodyMessages body).map unmarked =
      (bodyMessages (updateFields (baseFields cfg (toAnthropicMessages ids messages).1
        (toAnthropicMessages ids messages).2 specs) cfg.extraBody)).map cfg.shown := by
  unfold buildBody at hbody
  simp only [Option.bind_eq_bind, Option.bind_eq_some_iff, Option.pure_def,
    Option.some.injEq] at hbody
  obtain ⟨specs, -, rfl⟩ := hbody
  refine ⟨specs, ?_⟩
  cases hcache : cfg.cache.isEmpty with
  | true =>
      have hshown : cfg.shown = unmarked := by
        funext m
        simp [AdapterConfig.shown, hcache]
      rw [hshown]
      rfl
  | false =>
      have hshown : cfg.shown = fun m ↦ unmarked (shapeUser m) := by
        funext m
        simp [AdapterConfig.shown, hcache]
      rw [hshown, if_neg (by simp), bodyMessages_applyCacheMarkers, map_unmarked_markMessages]

theorem bodyMessages_own {cfg : AdapterConfig} (h : ¬ cfg.OwnMessages) (system : String)
    (ms specs : List Json) :
    bodyMessages (updateFields (baseFields cfg system ms specs) cfg.extraBody) = ms := by
  unfold bodyMessages
  rw [lookup_updateFields fun v hv ↦ h ⟨v, hv⟩]
  rfl

/-- The messages of a body, markers apart, are the front of those of a longer conversation exactly
if no id had to be made for them, or `extra_body` replaces them all. -/
theorem body_front_iff {cfg : AdapterConfig} {ids ids' : ℕ} {history : List Message}
    {steps : List Entry} {tools tools' : List Json} {body body' : List (String × Json)}
    (hsteps : WellPaired steps) (hids : (rendering ids history).ids ≤ ids')
    (hbody : buildBody cfg ids history tools = some body)
    (hbody' : buildBody cfg ids' (history ++ steps.map Entry.msg) tools' = some body') :
    (bodyMessages body).map unmarked <+: (bodyMessages body').map unmarked ↔
      Identified history ∨ cfg.OwnMessages := by
  obtain ⟨specs, hshown⟩ := map_shown_bodyMessages hbody
  obtain ⟨specs', hshown'⟩ := map_shown_bodyMessages hbody'
  rw [hshown, hshown']
  by_cases hown : cfg.OwnMessages
  · refine iff_of_true ?_ (.inr hown)
    have hsame := lookup_updateFields_same hown
      (baseFields cfg (toAnthropicMessages ids history).1 (toAnthropicMessages ids history).2 specs)
      (baseFields cfg (toAnthropicMessages ids' (history ++ steps.map Entry.msg)).1
        (toAnthropicMessages ids' (history ++ steps.map Entry.msg)).2 specs')
    unfold bodyMessages
    rw [hsame]
  · rw [bodyMessages_own hown, bodyMessages_own hown, or_iff_left hown]
    constructor
    · intro h
      have huses := h.map toolUses
      rw [List.map_map, List.map_map] at huses
      have hview : toolUses ∘ cfg.shown = toolUses := funext (toolUses_shown cfg)
      rw [hview] at huses
      exact identified_of_front hsteps hids huses
    · exact fun h ↦ (toAnthropicMessages_front h hsteps ids ids').map cfg.shown

end NucLlm.AgentLoop
