import NucLlm.Lib.Arena
import NucLlm.AgentLoop.CachePrefix

/-!
# Shared blocks

The blocks of a message are dictionaries that are referred to, and a replayed
turn brings those that are stored in the history.  The cache markers are written
into dictionaries in place; they must be written into no stored one.
-/

namespace NucLlm.AgentLoop

open Arena

/-! ## Messages that refer to blocks -/

/-- A message of the history; the raw content of a turn is a list of dictionaries, by address. -/
inductive StoredMessage where
  | system (content : String)
  | user (content : String) (droppedSteps : Option ℕ)
  | assistant (content : String) (toolCalls : List ToolCall) (rawContent : Option (List ℕ))
  | tool (content toolCallId toolName : String) (ok : Bool) (elidedChars : Option ℕ)

namespace StoredMessage

/-- The message, read from the store. -/
def message (store : List Json) : StoredMessage → Message
  | system content => .system content
  | user content droppedSteps => .user content droppedSteps
  | assistant content toolCalls rawContent =>
      .assistant content toolCalls (rawContent.map (read store))
  | tool content toolCallId toolName ok elidedChars =>
      .tool content toolCallId toolName ok elidedChars

def refs : StoredMessage → List ℕ
  | assistant _ _ rawContent => rawContent.getD []
  | _ => []

end StoredMessage

/-- A message of a body before it is encoded: its list of blocks is its own, not the blocks. -/
inductive SharedMessage where
  | userText (content : String)
  | userBlocks (refs : List ℕ)
  | assistant (refs : List ℕ)

namespace SharedMessage

def refs : SharedMessage → List ℕ
  | userText _ => []
  | userBlocks refs => refs
  | assistant refs => refs

def isUser : SharedMessage → Bool
  | assistant _ => false
  | _ => true

/-- The message as it is encoded. -/
def wire (store : List Json) : SharedMessage → Json
  | userText content => wireMessage "user" (.str content)
  | userBlocks refs => wireMessage "user" (.arr (read store refs))
  | assistant refs => wireMessage "assistant" (.arr (read store refs))

/-- The block that takes the marker. -/
def lastBlock : SharedMessage → Option ℕ
  | userBlocks refs => refs.getLast?
  | _ => none

end SharedMessage

/-- The variables of `to_anthropic_messages`, with the dictionaries. -/
structure SharedRendering where
  store : List Json
  systemParts : List String
  out : List SharedMessage
  pendingResults : List ℕ
  ids : ℕ

namespace SharedRendering

def flush (r : SharedRendering) : SharedRendering :=
  if r.pendingResults.isEmpty then r
  else { r with out := r.out ++ [.userBlocks r.pendingResults], pendingResults := [] }

/-- A turn is replayed with the stored dictionaries; all the others are new. -/
def add (r : SharedRendering) : StoredMessage → SharedRendering
  | .system content => { r with systemParts := r.systemParts ++ [content] }
  | .tool content toolCallId _ ok _ => { r with
      store := r.store ++ [toolResultBlock content toolCallId ok]
      pendingResults := r.pendingResults ++ [r.store.length] }
  | .user content _ =>
      let r := r.flush
      { r with out := r.out ++ [.userText content] }
  | .assistant content toolCalls rawContent =>
      let r := r.flush
      match rawContent with
      | some (b :: bs) => { r with out := r.out ++ [.assistant (b :: bs)] }
      | _ =>
          let (blocks, ids) := assistantBlocks r.ids content toolCalls none
          { r with
            store := r.store ++ blocks
            out := r.out ++ [.assistant (List.range' r.store.length blocks.length)]
            ids := ids }

/-- The rendering that is read. -/
def view (r : SharedRendering) : Rendering :=
  ⟨r.systemParts, r.out.map (SharedMessage.wire r.store), read r.store r.pendingResults, r.ids⟩

end SharedRendering

def sharedRendering (store : List Json) (ids : ℕ) (history : List StoredMessage) :
    SharedRendering :=
  (history.foldl SharedRendering.add ⟨store, [], [], [], ids⟩).flush

/-! ## Cache markers in place -/

/-- User texts become blocks, in new dictionaries. -/
def shapeShared : List Json → List SharedMessage → List Json × List SharedMessage
  | store, [] => (store, [])
  | store, .userText content :: ms =>
      if content = "" then
        let (store', ms') := shapeShared store ms
        (store', .userText content :: ms')
      else
        let (store', ms') := shapeShared (store ++ [textBlock content]) ms
        (store', .userBlocks [store.length] :: ms')
  | store, m :: ms =>
      let (store', ms') := shapeShared store ms
      (store', m :: ms')

/-- The blocks that take a marker: `user_msgs[-CACHE_MOVING_BREAKPOINTS:]`, the last
block of each. -/
def markedBlocks (ms : List SharedMessage) : List ℕ :=
  let users := ms.filter SharedMessage.isUser
  (users.drop (users.length - cacheMovingBreakpoints)).filterMap SharedMessage.lastBlock

/-- The messages of a body with the dictionaries they refer to, after the cache markers.  Messages
that come with `extra_body` have dictionaries of their own, and take the markers. -/
def sharedBody (cfg : AdapterConfig) (store : List Json) (ids : ℕ) (history : List StoredMessage) :
    List Json × List SharedMessage :=
  let r := sharedRendering store ids history
  if cfg.cache.isEmpty ∨ cfg.extraBody.any (fun f ↦ f.1 = "messages") then (r.store, r.out)
  else
    let (store, ms) := shapeShared r.store r.out
    (updateAll (markBlock cfg.cache) store (markedBlocks ms), ms)

def cacheMaxBreakpoints : ℕ := 4

/-- The number that `apply_cache_markers` returns. -/
def markersIn (fields : List (String × Json)) : ℕ :=
  let hasBlocks (m : Json) : Bool :=
    match m.get? "content" with
    | some (.arr blocks) => !blocks.isEmpty
    | _ => false
  let users := ((bodyMessages fields).filter isUser).map shapeUser
  (if ((fields.lookup "system").getD .null).truthy then 1
    else if ((fields.lookup "tools").getD .null).truthy then 1 else 0) +
    ((users.drop (users.length - cacheMovingBreakpoints)).filter hasBlocks).length

/-- The number of markers that `build_body` places. -/
def markersPlaced (cfg : AdapterConfig) (ids : ℕ) (messages : List Message) (tools : List Json) :
    Option ℕ := do
  let (system, ms) := toAnthropicMessages ids messages
  let specs ← tools.mapM toolSpec
  pure (if cfg.cache.isEmpty then 0
    else markersIn (updateFields (baseFields cfg system ms specs) cfg.extraBody))

/-! ## New blocks have one place each -/

/-- The blocks of user messages are not among the first `n`, and each is in one place. -/
structure Separate (n bound : ℕ) (ms : List SharedMessage) : Prop where
  bounded : ∀ m ∈ ms, ∀ i ∈ m.refs, i < bound
  fresh : ∀ m ∈ ms, m.isUser = true → ∀ i ∈ m.refs, n ≤ i
  nodup : ∀ m ∈ ms, m.isUser = true → m.refs.Nodup
  apart : ms.Pairwise fun a b ↦ a.isUser = true ∨ b.isUser = true → a.refs.Disjoint b.refs

namespace Separate

variable {n bound : ℕ} {ms : List SharedMessage}

theorem nil (n bound : ℕ) : Separate n bound [] where
  bounded := by simp
  fresh := by simp
  nodup := by simp
  apart := List.Pairwise.nil

theorem perm {ms' : List SharedMessage} (h : Separate n bound ms) (hperm : ms.Perm ms') :
    Separate n bound ms' where
  bounded m hm := h.bounded m (hperm.mem_iff.mpr hm)
  fresh m hm := h.fresh m (hperm.mem_iff.mpr hm)
  nodup m hm := h.nodup m (hperm.mem_iff.mpr hm)
  apart := by
    refine (hperm.pairwise_iff ?_).mp h.apart
    intro a b hab huser
    exact (hab huser.symm).symm

theorem cons_iff {m : SharedMessage} :
    Separate n bound (m :: ms) ↔ Separate n bound ms ∧ (∀ i ∈ m.refs, i < bound) ∧
      (m.isUser = true → (∀ i ∈ m.refs, n ≤ i) ∧ m.refs.Nodup) ∧
      ∀ b ∈ ms, m.isUser = true ∨ b.isUser = true → m.refs.Disjoint b.refs := by
  constructor
  · intro h
    obtain ⟨hm, hms⟩ := List.pairwise_cons.mp h.apart
    refine ⟨⟨?_, ?_, ?_, hms⟩, h.bounded m (by simp), ?_, hm⟩
    · exact fun b hb ↦ h.bounded b (by simp [hb])
    · exact fun b hb ↦ h.fresh b (by simp [hb])
    · exact fun b hb ↦ h.nodup b (by simp [hb])
    · exact fun huser ↦ ⟨h.fresh m (by simp) huser, h.nodup m (by simp) huser⟩
  · rintro ⟨h, hbounded, hnew, hapart⟩
    refine ⟨?_, ?_, ?_, List.pairwise_cons.mpr ⟨hapart, h.apart⟩⟩
    · exact List.forall_mem_cons.mpr ⟨hbounded, h.bounded⟩
    · exact List.forall_mem_cons.mpr ⟨fun huser ↦ (hnew huser).1, h.fresh⟩
    · exact List.forall_mem_cons.mpr ⟨fun huser ↦ (hnew huser).2, h.nodup⟩

theorem mono {bound' : ℕ} (h : Separate n bound ms) (hle : bound ≤ bound') :
    Separate n bound' ms :=
  ⟨fun m hm i hi ↦ (h.bounded m hm i hi).trans_le hle, h.fresh, h.nodup, h.apart⟩

theorem concat_iff {m : SharedMessage} :
    Separate n bound (ms ++ [m]) ↔ Separate n bound (m :: ms) :=
  ⟨fun h ↦ h.perm (List.perm_append_singleton m ms),
    fun h ↦ h.perm (List.perm_append_singleton m ms).symm⟩

/-- A message without blocks may be added. -/
theorem concat_empty {m : SharedMessage} (h : Separate n bound ms) (hm : m.refs = []) :
    Separate n bound (ms ++ [m]) := by
  rw [concat_iff, cons_iff, hm]
  exact ⟨h, by simp, by simp, by simp⟩

/-- A user message may get a block that is new. -/
theorem extend {front rest : List SharedMessage} {m : SharedMessage}
    (h : Separate n bound (front ++ m :: rest)) (hm : m.isUser = true) (hn : n ≤ bound) :
    Separate n (bound + 1) (front ++ .userBlocks (m.refs ++ [bound]) :: rest) := by
  have hmiddle := h.perm List.perm_middle
  obtain ⟨hothers, hbounded, hnew, hapart⟩ := cons_iff.mp hmiddle
  obtain ⟨hfresh, hnodup⟩ := hnew hm
  have hcons : Separate n (bound + 1) (.userBlocks (m.refs ++ [bound]) :: (front ++ rest)) := by
    rw [cons_iff]
    refine ⟨hothers.mono (Nat.le_succ _), ?_, fun _ ↦ ⟨?_, ?_⟩, ?_⟩
    · intro i hi
      rcases List.mem_append.mp hi with hi | hi
      · exact (hbounded i hi).trans (Nat.lt_succ_self _)
      · rw [List.mem_singleton.mp hi]
        exact Nat.lt_succ_self _
    · intro i hi
      rcases List.mem_append.mp hi with hi | hi
      · exact hfresh i hi
      · rw [List.mem_singleton.mp hi]
        exact hn
    · refine List.nodup_append'.mpr ⟨hnodup, List.nodup_singleton _, ?_⟩
      intro i hi hbound
      exact (hbounded i hi).ne (List.mem_singleton.mp hbound)
    · intro b hb _ i hi hib
      rcases List.mem_append.mp hi with hi | hi
      · exact hapart b hb (.inl hm) hi hib
      · exact (hothers.bounded b hb i hib).ne (List.mem_singleton.mp hi)
  exact hcons.perm List.perm_middle.symm

end Separate

namespace SharedRendering

/-- What holds while the messages are rendered, `store` being the dictionaries of the history. -/
structure Kept (store : List Json) (r : SharedRendering) : Prop where
  grows : store <+: r.store
  separate : Separate store.length r.store.length (r.out ++ [.userBlocks r.pendingResults])

variable {store : List Json} {r : SharedRendering}

theorem Kept.le (h : r.Kept store) : store.length ≤ r.store.length := h.grows.length_le

theorem Kept.flush (h : r.Kept store) :
    store <+: r.flush.store ∧ Separate store.length r.flush.store.length r.flush.out ∧
      r.flush.pendingResults = [] := by
  unfold SharedRendering.flush
  split
  · rename_i hempty
    have hsep := Separate.concat_iff.mp h.separate
    exact ⟨h.grows, (Separate.cons_iff.mp hsep).1, List.isEmpty_iff.mp hempty⟩
  · exact ⟨h.grows, h.separate, rfl⟩

theorem wire_of_grows {store' : List Json} (hgrows : store <+: store') {m : SharedMessage}
    (h : ∀ i ∈ m.refs, i < store.length) : m.wire store' = m.wire store := by
  cases m with
  | userText content => rfl
  | userBlocks refs =>
      exact congrArg (fun bs ↦ wireMessage "user" (.arr bs)) (read_of_grows hgrows h)
  | assistant refs =>
      exact congrArg (fun bs ↦ wireMessage "assistant" (.arr bs)) (read_of_grows hgrows h)

theorem map_wire_of_grows {store' : List Json} (hgrows : store <+: store')
    {ms : List SharedMessage} (h : ∀ m ∈ ms, ∀ i ∈ m.refs, i < store.length) :
    ms.map (SharedMessage.wire store') = ms.map (SharedMessage.wire store) :=
  List.map_congr_left fun m hm ↦ wire_of_grows hgrows (h m hm)

theorem Kept.view_flush (h : r.Kept store) : r.flush.view = r.view.flush := by
  have hlength : (read r.store r.pendingResults).length = r.pendingResults.length :=
    length_read (h.separate.bounded (.userBlocks r.pendingResults) (by simp))
  unfold SharedRendering.flush Rendering.flush view
  cases hpending : r.pendingResults with
  | nil => simp [hpending]
  | cons i refs =>
      rw [hpending] at hlength
      cases hread : read r.store (i :: refs) with
      | nil => simp [hread] at hlength
      | cons b bs => simp [SharedMessage.wire, hread]

/-- A turn of new blocks is apart from all messages. -/
theorem Kept.rebuilt (h : r.Kept store) (blocks : List Json) (ids : ℕ) :
    Kept store { r.flush with
      store := r.flush.store ++ blocks
      out := r.flush.out ++ [.assistant (List.range' r.flush.store.length blocks.length)]
      ids := ids } := by
  obtain ⟨hgrows, hseparate, hpending⟩ := h.flush
  refine ⟨hgrows.trans (List.prefix_append _ _), ?_⟩
  dsimp only
  rw [hpending]
  refine Separate.concat_empty ?_ rfl
  rw [Separate.concat_iff, Separate.cons_iff]
  refine ⟨hseparate.mono ?_, ?_, nofun, ?_⟩
  · simp
  · simp [SharedMessage.refs, List.mem_range'_1]
  · intro m hmem _ i hi hi'
    have hlt := hseparate.bounded m hmem i hi'
    have hle : r.flush.store.length ≤ i := by
      simp only [SharedMessage.refs, List.mem_range'_1] at hi
      exact hi.1
    exact hle.not_gt hlt

theorem Kept.add (h : r.Kept store) {m : StoredMessage} (hm : ∀ i ∈ m.refs, i < store.length) :
    (r.add m).Kept store := by
  obtain ⟨hgrows, hseparate, hpending⟩ := h.flush
  cases m with
  | system content => exact ⟨h.grows, h.separate⟩
  | tool content toolCallId toolName ok elidedChars =>
      refine ⟨h.grows.trans (List.prefix_append _ _), ?_⟩
      have hextend := h.separate.extend rfl h.le
      change Separate _ (r.store ++ [_]).length _
      rw [List.length_append, List.length_singleton]
      exact hextend
  | user content droppedSteps =>
      refine ⟨hgrows, ?_⟩
      change Separate _ _ (r.flush.out ++ [_] ++ [.userBlocks r.flush.pendingResults])
      rw [hpending]
      exact (hseparate.concat_empty rfl).concat_empty rfl
  | assistant content toolCalls rawContent =>
      match rawContent, hm with
      | some (b :: bs), hm =>
          refine ⟨hgrows, ?_⟩
          change Separate _ _ (r.flush.out ++ [_] ++ [.userBlocks r.flush.pendingResults])
          rw [hpending]
          refine Separate.concat_empty ?_ rfl
          rw [Separate.concat_iff, Separate.cons_iff]
          refine ⟨hseparate, fun i hi ↦ (hm i hi).trans_le hgrows.length_le, nofun, ?_⟩
          · intro m hmem huser i hi hi'
            have hfresh :=
              hseparate.fresh m hmem (by simpa [SharedMessage.isUser] using huser) i hi'
            exact hfresh.not_gt (hm i hi)
      | some [], _ | none, _ => exact h.rebuilt _ _

theorem Kept.view_rebuilt (h : r.Kept store) (content : String) (toolCalls : List ToolCall) :
    (r.add (.assistant content toolCalls none)).view =
      r.view.add (.assistant content toolCalls none) := by
  obtain ⟨hgrows, hseparate, hpending⟩ := h.flush
  have hids : r.flush.view.ids = r.flush.ids := rfl
  simp only [Rendering.add, ← h.view_flush, hids]
  simp only [SharedRendering.add]
  generalize assistantBlocks r.flush.ids content toolCalls none = made
  have hout := map_wire_of_grows (List.prefix_append r.flush.store made.1) hseparate.bounded
  simp only [view, List.map_append, List.map_singleton, SharedMessage.wire, read_new, hpending,
    hout, read_nil]

theorem Kept.view_add (h : r.Kept store) {m : StoredMessage} (hm : ∀ i ∈ m.refs, i < store.length) :
    (r.add m).view = r.view.add (m.message store) := by
  obtain ⟨hgrows, hseparate, hpending⟩ := h.flush
  have hview := h.view_flush
  cases m with
  | system content => rfl
  | tool content toolCallId toolName ok elidedChars =>
      have hbounded := h.separate.bounded
      have hold : ∀ m ∈ r.out, ∀ i ∈ m.refs, i < r.store.length :=
        fun m hmem ↦ hbounded m (by simp [hmem])
      have hout := map_wire_of_grows
        (List.prefix_append r.store [toolResultBlock content toolCallId ok]) hold
      have hread := read_grown (hbounded (.userBlocks r.pendingResults) (by simp))
        [toolResultBlock content toolCallId ok]
      simp only [SharedMessage.refs] at hread
      simp only [SharedRendering.add, view, StoredMessage.message, Rendering.add, hout, read_append,
        hread, read_singleton]
  | user content droppedSteps =>
      simp only [StoredMessage.message, Rendering.add, ← hview]
      simp only [SharedRendering.add, view, List.map_append, List.map_singleton]
      rfl
  | assistant content toolCalls rawContent =>
      match rawContent, hm with
      | some (b :: bs), hm =>
          have hsame := read_of_grows hgrows hm
          have hlength := length_read hm
          simp only [StoredMessage.refs, Option.getD_some] at hsame hlength
          cases hread : read store (b :: bs) with
          | nil => simp [hread] at hlength
          | cons x xs =>
              rw [hread] at hsame
              simp only [StoredMessage.message, Rendering.add, ← hview, Option.map_some, hread,
                assistantBlocks]
              simp only [SharedRendering.add, view, List.map_append, List.map_singleton,
                SharedMessage.wire, hsame]
      | some [], _ | none, _ => exact h.view_rebuilt content toolCalls

theorem Kept.foldl {history : List StoredMessage} (h : r.Kept store)
    (hrefs : ∀ m ∈ history, ∀ i ∈ m.refs, i < store.length) :
    (history.foldl SharedRendering.add r).Kept store ∧
      (history.foldl SharedRendering.add r).view =
        (history.map (StoredMessage.message store)).foldl Rendering.add r.view := by
  induction history generalizing r with
  | nil => exact ⟨h, rfl⟩
  | cons m history ih =>
      obtain ⟨hm, hhistory⟩ := List.forall_mem_cons.mp hrefs
      obtain ⟨hkept, hview⟩ := ih (h.add hm) hhistory
      rw [List.foldl_cons, List.map_cons, List.foldl_cons, ← h.view_add hm]
      exact ⟨hkept, hview⟩

end SharedRendering

/-- Rendering over shared dictionaries: the stored ones are kept, and the messages read as rendered
ones. -/
theorem sharedRendering_spec {store : List Json} (ids : ℕ) {history : List StoredMessage}
    (hrefs : ∀ m ∈ history, ∀ i ∈ m.refs, i < store.length) :
    store <+: (sharedRendering store ids history).store ∧
      Separate store.length (sharedRendering store ids history).store.length
        (sharedRendering store ids history).out ∧
      (sharedRendering store ids history).out.map
        (SharedMessage.wire (sharedRendering store ids history).store) =
          (toAnthropicMessages ids (history.map (StoredMessage.message store))).2 := by
  have hstart : SharedRendering.Kept store ⟨store, [], [], [], ids⟩ :=
    ⟨List.prefix_rfl, (Separate.nil _ _).concat_empty rfl⟩
  obtain ⟨hkept, hview⟩ := hstart.foldl hrefs
  obtain ⟨hgrows, hseparate, -⟩ := hkept.flush
  refine ⟨hgrows, hseparate, ?_⟩
  have hflush := hkept.view_flush
  rw [hview] at hflush
  exact congrArg Rendering.out hflush

/-! ## Shapes and markers -/

theorem shapeUser_wire {store : List Json} {m : SharedMessage}
    (h : ∀ content, m = .userText content → content = "") :
    shapeUser (m.wire store) = m.wire store := by
  cases m with
  | userText content =>
      obtain rfl := h content rfl
      rfl
  | userBlocks refs => rfl
  | assistant refs => rfl

theorem shapeUser_text {content : String} (h : content ≠ "") :
    shapeUser (wireMessage "user" (.str content)) =
      wireMessage "user" (.arr [textBlock content]) := by
  simp [shapeUser, wireMessage, Json.get?, isUser, setField, List.lookup_cons, h]

theorem shapeShared_spec (n : ℕ) (ms : List SharedMessage) :
    ∀ (store : List Json) (front : List SharedMessage),
      n ≤ store.length → Separate n store.length (front ++ ms) →
        store <+: (shapeShared store ms).1 ∧
        Separate n (shapeShared store ms).1.length (front ++ (shapeShared store ms).2) ∧
        (shapeShared store ms).2.map (SharedMessage.wire (shapeShared store ms).1) =
          (ms.map (SharedMessage.wire store)).map shapeUser := by
  induction ms with
  | nil => exact fun store front _ h ↦ ⟨List.prefix_rfl, h, rfl⟩
  | cons m ms ih =>
      intro store front hn h
      have hkeep (hm : ∀ content, m = .userText content → content = "")
          (hshape : shapeShared store (m :: ms) =
            ((shapeShared store ms).1, m :: (shapeShared store ms).2)) :
          store <+: (shapeShared store (m :: ms)).1 ∧
          Separate n (shapeShared store (m :: ms)).1.length
            (front ++ (shapeShared store (m :: ms)).2) ∧
          (shapeShared store (m :: ms)).2.map (SharedMessage.wire (shapeShared store (m :: ms)).1) =
            ((m :: ms).map (SharedMessage.wire store)).map shapeUser := by
        obtain ⟨hgrows, hseparate, hread⟩ := ih store (front ++ [m]) hn (by simpa using h)
        rw [hshape]
        refine ⟨hgrows, by simpa using hseparate, ?_⟩
        have hwire := SharedRendering.wire_of_grows hgrows (h.bounded m (by simp))
        rw [List.map_cons, List.map_cons, List.map_cons, hread, shapeUser_wire hm, hwire]
      cases m with
      | assistant refs => exact hkeep nofun rfl
      | userBlocks refs => exact hkeep nofun rfl
      | userText content =>
          by_cases hcontent : content = ""
          · refine hkeep ?_ ?_
            · rintro _ ⟨⟩
              exact hcontent
            · simp [shapeShared, hcontent]
          · have hextend := h.extend rfl hn
            simp only [SharedMessage.refs, List.nil_append] at hextend
            have hlength : (store ++ [textBlock content]).length = store.length + 1 := by simp
            obtain ⟨hgrows, hseparate, hread⟩ := ih (store ++ [textBlock content])
              (front ++ [.userBlocks [store.length]]) (by omega) (by simpa [hlength] using hextend)
            have hshape : shapeShared store (.userText content :: ms) =
                ((shapeShared (store ++ [textBlock content]) ms).1,
                  .userBlocks [store.length] ::
                    (shapeShared (store ++ [textBlock content]) ms).2) := by
              simp [shapeShared, hcontent]
            rw [hshape]
            refine ⟨(List.prefix_append _ _).trans hgrows, by simpa using hseparate, ?_⟩
            have hfirst : SharedMessage.wire (shapeShared (store ++ [textBlock content]) ms).1
                (.userBlocks [store.length]) =
                  wireMessage "user" (.arr [textBlock content]) := by
              refine (SharedRendering.wire_of_grows hgrows ?_).trans ?_
              · simp [SharedMessage.refs]
              · exact congrArg (fun bs ↦ wireMessage "user" (.arr bs)) (read_singleton _ _)
            have hold : ms.map (SharedMessage.wire (store ++ [textBlock content])) =
                ms.map (SharedMessage.wire store) :=
              SharedRendering.map_wire_of_grows (List.prefix_append _ _) fun m hm ↦
                h.bounded m (by simp [hm])
            rw [List.map_cons, List.map_cons, List.map_cons, hread, hfirst, hold]
            exact congrArg (· :: _) (shapeUser_text hcontent).symm

theorem isUser_wire (store : List Json) (m : SharedMessage) :
    AgentLoop.isUser (m.wire store) = m.isUser := by
  cases m with
  | userText content => rfl
  | userBlocks refs => rfl
  | assistant refs => rfl

theorem mem_refs_of_lastBlock {m : SharedMessage} {i : ℕ} (h : m.lastBlock = some i) :
    i ∈ m.refs := by
  cases m with
  | userBlocks refs => exact List.mem_of_getLast? h
  | userText | assistant => cases h

theorem wire_apart {f : Json → Json} {m : SharedMessage} {targets : List ℕ}
    (h : m.refs.Disjoint targets) (store : List Json) :
    m.wire (updateAll f store targets) = m.wire store := by
  cases m with
  | userText content => rfl
  | userBlocks refs =>
      exact congrArg (fun bs ↦ wireMessage "user" (.arr bs)) (read_updateAll_apart h store)
  | assistant refs =>
      exact congrArg (fun bs ↦ wireMessage "assistant" (.arr bs)) (read_updateAll_apart h store)

theorem markBlock_markBlock (cache : List (String × Json)) (b : Json) :
    markBlock cache (markBlock cache b) = markBlock cache b := by
  cases b with
  | obj fields => exact congrArg Json.obj (setField_setField _ _ _ _)
  | null | bool | num | str | arr => rfl

/-- A user message whose last block is the only one of its blocks that is marked. -/
theorem wire_marked {cache : List (String × Json)} {store : List Json} {m : SharedMessage}
    {targets : List ℕ} (huser : m.isUser = true) (hnodup : m.refs.Nodup)
    (hbounded : ∀ i ∈ m.refs, i < store.length)
    (htargets : ∀ i ∈ m.refs, i ∈ targets ↔ m.lastBlock = some i) :
    m.wire (updateAll (markBlock cache) store targets) = markMessage cache (m.wire store) := by
  cases m with
  | assistant refs => cases huser
  | userText content => rfl
  | userBlocks refs =>
      have hmark (blocks : List Json) : markMessage cache (wireMessage "user" (.arr blocks)) =
          wireMessage "user" (.arr (blocks.modify (blocks.length - 1) (markBlock cache))) := by
        simp [markMessage, wireMessage, Json.get?, setField, List.lookup_cons]
      simp only [SharedMessage.wire, hmark]
      rcases List.eq_nil_or_concat' refs with rfl | ⟨init, i, rfl⟩
      · rfl
      · simp only [SharedMessage.refs, SharedMessage.lastBlock, List.getLast?_concat,
          Option.some.injEq] at hnodup hbounded htargets
        have hi : i ∈ targets := (htargets i (by simp)).mpr rfl
        have hapart : init.Disjoint targets := by
          intro j hj hmem
          obtain rfl := (htargets j (by simp [hj])).mp hmem
          exact (List.nodup_append'.mp hnodup).2.2 hj (by simp)
        have hread := read_updateAll_last (markBlock_markBlock cache) hapart hi
          (hbounded i (by simp))
        rw [hread]

/-- The last blocks of the first `count` user messages. -/
def newestBlocks (count : ℕ) (ms : List SharedMessage) : List ℕ :=
  ((ms.filter SharedMessage.isUser).take count).filterMap SharedMessage.lastBlock

theorem mem_newestBlocks {count : ℕ} {ms : List SharedMessage} {i : ℕ}
    (h : i ∈ newestBlocks count ms) : ∃ m ∈ ms, m.isUser = true ∧ i ∈ m.refs := by
  obtain ⟨m, hm, hlast⟩ := List.mem_filterMap.mp h
  obtain ⟨hmem, huser⟩ := List.mem_filter.mp (List.mem_of_mem_take hm)
  exact ⟨m, hmem, huser, mem_refs_of_lastBlock hlast⟩

/-- Marking in place reads as marking, the newest messages first. -/
theorem map_wire_marked (cache : List (String × Json)) {n : ℕ} {store : List Json}
    {targets : List ℕ} {ms : List SharedMessage} (h : Separate n store.length ms) (count : ℕ)
    (htargets : ∀ m ∈ ms, ∀ i ∈ m.refs, i ∈ targets ↔ i ∈ newestBlocks count ms) :
    ms.map (SharedMessage.wire (updateAll (markBlock cache) store targets)) =
      markUsers cache count (ms.map (SharedMessage.wire store)) := by
  induction ms generalizing count with
  | nil => cases count <;> rfl
  | cons m ms ih =>
      obtain ⟨hms, hbounded, hnew, hapart⟩ := Separate.cons_iff.mp h
      have hdisjoint (count' : ℕ) (i : ℕ) (hi : i ∈ m.refs) : i ∉ newestBlocks count' ms := by
        intro hmem
        obtain ⟨b, hb, huser, hib⟩ := mem_newestBlocks hmem
        exact hapart b hb (.inr huser) hi hib
      rw [List.map_cons, List.map_cons]
      cases count with
      | zero =>
          have hnone (b : SharedMessage) (hb : b ∈ m :: ms) : b.refs.Disjoint targets := by
            intro i hi hmem
            have hnewest := (htargets b hb i hi).mp hmem
            simp [newestBlocks] at hnewest
          have hrest : ms.map (SharedMessage.wire (updateAll (markBlock cache) store targets)) =
              ms.map (SharedMessage.wire store) :=
            List.map_congr_left fun b hb ↦ wire_apart (hnone b (by simp [hb])) store
          rw [hrest, wire_apart (hnone m (by simp))]
          rfl
      | succ count =>
          unfold markUsers
          rw [isUser_wire]
          cases huser : m.isUser with
          | false =>
              have hsame : newestBlocks (count + 1) (m :: ms) = newestBlocks (count + 1) ms := by
                simp [newestBlocks, huser]
              rw [hsame] at htargets
              have hm : m.refs.Disjoint targets := fun i hi hmem ↦
                hdisjoint _ i hi ((htargets m (by simp) i hi).mp hmem)
              rw [wire_apart hm, ih hms (count + 1) fun b hb ↦ htargets b (by simp [hb])]
              rfl
          | true =>
              have hsplit (i : ℕ) : i ∈ newestBlocks (count + 1) (m :: ms) ↔
                  m.lastBlock = some i ∨ i ∈ newestBlocks count ms := by
                simp only [newestBlocks, List.filter_cons_of_pos huser, List.take_succ_cons,
                  List.mem_filterMap, List.mem_cons, exists_eq_or_imp]
              have hm (i : ℕ) (hi : i ∈ m.refs) : i ∈ targets ↔ m.lastBlock = some i := by
                rw [htargets m (by simp) i hi, hsplit, or_iff_left (hdisjoint _ i hi)]
              have hrest (b : SharedMessage) (hb : b ∈ ms) (i : ℕ) (hi : i ∈ b.refs) :
                  i ∈ targets ↔ i ∈ newestBlocks count ms := by
                rw [htargets b (by simp [hb]) i hi, hsplit, or_iff_right]
                exact fun hlast ↦ hapart b hb (.inl huser) (mem_refs_of_lastBlock hlast) hi
              rw [wire_marked huser (hnew huser).2 hbounded hm, ih hms count hrest]
              rfl

theorem mem_markedBlocks {ms : List SharedMessage} {i : ℕ} :
    i ∈ markedBlocks ms ↔ i ∈ newestBlocks cacheMovingBreakpoints ms.reverse := by
  unfold newestBlocks
  rw [List.filter_reverse, List.take_reverse, List.filterMap_reverse, List.mem_reverse]
  rfl

/-- The markers are read off the store as `apply_cache_markers` places them. -/
theorem map_wire_markedBlocks (cache : List (String × Json)) {n : ℕ} {store : List Json}
    {ms : List SharedMessage} (h : Separate n store.length ms) :
    ms.map (SharedMessage.wire (updateAll (markBlock cache) store (markedBlocks ms))) =
      (markUsers cache cacheMovingBreakpoints
        (ms.map (SharedMessage.wire store)).reverse).reverse := by
  have hreverse := h.perm (List.reverse_perm ms).symm
  have hmarked := map_wire_marked cache hreverse cacheMovingBreakpoints
    fun m _ i _ ↦ mem_markedBlocks
  rw [List.map_reverse, List.map_reverse] at hmarked
  rw [← hmarked, List.reverse_reverse]

theorem fresh_markedBlocks {n bound : ℕ} {ms : List SharedMessage} (h : Separate n bound ms) :
    ∀ i ∈ markedBlocks ms, n ≤ i := by
  intro i hi
  obtain ⟨m, hm, huser, hrefs⟩ := mem_newestBlocks (mem_markedBlocks.mp hi)
  exact h.fresh m (List.mem_reverse.mp hm) huser i hrefs

/-! ## Bodies -/

/-- No dictionary of the history is changed. -/
theorem sharedBody_keeps (cfg : AdapterConfig) {store : List Json} (ids : ℕ)
    {history : List StoredMessage} (hrefs : ∀ m ∈ history, ∀ i ∈ m.refs, i < store.length) :
    store <+: (sharedBody cfg store ids history).1 := by
  obtain ⟨hgrows, hseparate, -⟩ := sharedRendering_spec ids hrefs
  obtain ⟨hshaped, hseparate', -⟩ :=
    shapeShared_spec store.length _ _ [] hgrows.length_le hseparate
  unfold sharedBody
  split
  · exact hgrows
  · have hkept := take_updateAll (f := markBlock cfg.cache) (fresh_markedBlocks hseparate')
      (shapeShared (sharedRendering store ids history).store
        (sharedRendering store ids history).out).1
    rw [List.prefix_iff_eq_take]
    exact (List.prefix_iff_eq_take.mp (hgrows.trans hshaped)).trans hkept.symm

/-- The messages of the body, read from the dictionaries, are those of `build_body`. -/
theorem sharedBody_reads {cfg : AdapterConfig} (hown : ¬ cfg.OwnMessages) {store : List Json}
    {ids : ℕ} {history : List StoredMessage}
    (hrefs : ∀ m ∈ history, ∀ i ∈ m.refs, i < store.length) {tools : List Json}
    {body : List (String × Json)}
    (hbody : buildBody cfg ids (history.map (StoredMessage.message store)) tools = some body) :
    (sharedBody cfg store ids history).2.map
      (SharedMessage.wire (sharedBody cfg store ids history).1) = bodyMessages body := by
  obtain ⟨hgrows, hseparate, hread⟩ := sharedRendering_spec ids hrefs
  obtain ⟨-, hseparate', hshaped⟩ :=
    shapeShared_spec store.length _ _ [] hgrows.length_le hseparate
  have hnone : cfg.extraBody.any (fun f ↦ f.1 = "messages") = false := by
    rw [List.any_eq_false]
    rintro ⟨key, v⟩ hmem hkey
    obtain rfl := of_decide_eq_true hkey
    exact hown ⟨v, hmem⟩
  unfold buildBody at hbody
  simp only [Option.bind_eq_bind, Option.bind_eq_some_iff, Option.pure_def,
    Option.some.injEq] at hbody
  obtain ⟨specs, -, rfl⟩ := hbody
  unfold sharedBody
  cases hcache : cfg.cache.isEmpty with
  | true =>
      rw [if_pos (.inl rfl), if_pos rfl, bodyMessages_own hown]
      exact hread
  | false =>
      rw [if_neg (by simp [hnone]), if_neg (by simp), bodyMessages_applyCacheMarkers,
        bodyMessages_own hown]
      have hmarked := map_wire_markedBlocks cfg.cache hseparate'
      rw [List.nil_append, hshaped, hread] at hmarked
      exact hmarked

theorem markersIn_le (fields : List (String × Json)) : markersIn fields ≤ 3 := by
  unfold markersIn
  have hfirst : (if ((fields.lookup "system").getD .null).truthy then 1
      else if ((fields.lookup "tools").getD .null).truthy then 1 else 0) ≤ 1 := by
    split
    · exact le_rfl
    · split
      · exact le_rfl
      · exact Nat.zero_le 1
  apply (Nat.add_le_add hfirst (List.length_filter_le _ _)).trans
  rw [List.length_drop, cacheMovingBreakpoints]
  omega

theorem markersPlaced_le (cfg : AdapterConfig) (ids : ℕ) (messages : List Message)
    (tools : List Json) : ∀ n ∈ markersPlaced cfg ids messages tools, n ≤ cacheMaxBreakpoints := by
  intro n hn
  unfold markersPlaced at hn
  simp only [Option.bind_eq_bind, Option.mem_def, Option.bind_eq_some_iff, Option.pure_def,
    Option.some.injEq] at hn
  obtain ⟨specs, -, rfl⟩ := hn
  split
  · exact Nat.zero_le _
  · exact (markersIn_le _).trans (by decide)

/-- The cached front of a conversation: exactly if no call was without an id (or `extra_body` brings
all the messages) the messages of a body are, but for the markers, the front of those of every
longer conversation, with at most four markers and no stored dictionary changed. -/
theorem cached_front_iff {cfg : AdapterConfig} {ids ids' : ℕ} {store : List Json}
    {history : List StoredMessage} {steps : List Entry} {tools tools' : List Json}
    {body body' : List (String × Json)} (hsteps : WellPaired steps)
    (hrefs : ∀ m ∈ history, ∀ i ∈ m.refs, i < store.length)
    (hids : (rendering ids (history.map (StoredMessage.message store))).ids ≤ ids')
    (hbody : buildBody cfg ids (history.map (StoredMessage.message store)) tools = some body)
    (hbody' : buildBody cfg ids' (history.map (StoredMessage.message store) ++ steps.map Entry.msg)
      tools' = some body') :
    ((bodyMessages body).map unmarked <+: (bodyMessages body').map unmarked ∧
      (∀ n ∈ markersPlaced cfg ids (history.map (StoredMessage.message store)) tools,
        n ≤ cacheMaxBreakpoints) ∧
      store <+: (sharedBody cfg store ids history).1) ↔
        Identified (history.map (StoredMessage.message store)) ∨ cfg.OwnMessages := by
  have hfront := body_front_iff hsteps hids hbody hbody'
  constructor
  · exact fun h ↦ hfront.mp h.1
  · intro h
    exact ⟨hfront.mpr h, markersPlaced_le cfg ids _ tools, sharedBody_keeps cfg ids hrefs⟩

def ephemeral : AdapterConfig :=
  ⟨"claude-opus-5", 16000, "", none, [], false, [("type", .str "ephemeral")], none, false⟩

def rawCall : List Json := [toolUseBlock ⟨"bash", [("cmd", .str "ls")], "toolu_a"⟩]

def replayedCall : List StoredMessage :=
  [.user "list the files" none,
    .assistant "" [⟨"bash", [("cmd", .str "ls")], "toolu_a"⟩] (some [0]),
    .tool "a.txt" "toolu_a" "bash" true none]

def goOn : List Entry := [⟨.user "go on" none, none⟩]

theorem goOn_paired : WellPaired goOn := Paired.turn _ [] [] rfl rfl Paired.nil

theorem replayedCall_front :
    ∃ body body',
      buildBody ephemeral 0 (replayedCall.map (StoredMessage.message rawCall)) [] = some body ∧
      buildBody ephemeral 0 (replayedCall.map (StoredMessage.message rawCall) ++
        goOn.map Entry.msg) [] = some body' ∧
      (bodyMessages body).map unmarked <+: (bodyMessages body').map unmarked := by
  obtain ⟨body, hbody⟩ : ∃ body,
    buildBody ephemeral 0 (replayedCall.map (StoredMessage.message rawCall)) [] = some body :=
      ⟨_, rfl⟩
  obtain ⟨body', hbody'⟩ : ∃ body,
    buildBody ephemeral 0 (replayedCall.map (StoredMessage.message rawCall) ++
      goOn.map Entry.msg) [] = some body := ⟨_, rfl⟩
  refine ⟨body, body', hbody, hbody', ?_⟩
  refine ((cached_front_iff goOn_paired ?_ ?_ hbody hbody').mpr (.inl ?_)).1
  · decide
  · exact Nat.le_refl 0
  · simp [Identified, replayedCall, StoredMessage.message, Message.Unidentified, rawCall,
      Arena.read]

theorem replayedCall_reads :
    ∃ body,
      buildBody ephemeral 0 (replayedCall.map (StoredMessage.message rawCall)) [] = some body ∧
      (sharedBody ephemeral rawCall 0 replayedCall).2.map
        (SharedMessage.wire (sharedBody ephemeral rawCall 0 replayedCall).1) =
          bodyMessages body := by
  obtain ⟨body, hbody⟩ : ∃ body,
    buildBody ephemeral 0 (replayedCall.map (StoredMessage.message rawCall)) [] = some body :=
      ⟨_, rfl⟩
  have hown : ¬ ephemeral.OwnMessages := by
    rintro ⟨v, hv⟩
    cases hv
  exact ⟨body, hbody, sharedBody_reads hown (by decide) hbody⟩

def idlessCall : List Message :=
  [.user "list the files" none, .assistant "" [⟨"bash", [("cmd", .str "ls")], ""⟩] none,
    .tool "a.txt" "" "bash" true none]

/-- A call without an id, in a turn without raw content: each body makes another id for it. -/
theorem made_id_moves :
    ∃ body body', buildBody ephemeral 0 idlessCall [] = some body ∧
      buildBody ephemeral 1 (idlessCall ++ goOn.map Entry.msg) [] = some body' ∧
      ¬ (bodyMessages body).map unmarked <+: (bodyMessages body').map unmarked := by
  obtain ⟨body, hbody⟩ : ∃ body, buildBody ephemeral 0 idlessCall [] = some body := ⟨_, rfl⟩
  obtain ⟨body', hbody'⟩ : ∃ body,
    buildBody ephemeral 1 (idlessCall ++ goOn.map Entry.msg) [] = some body := ⟨_, rfl⟩
  refine ⟨body, body', hbody, hbody', fun h ↦ ?_⟩
  rcases (body_front_iff goOn_paired (Nat.le_refl 1) hbody hbody').mp h with hids | ⟨v, hv⟩
  · exact hids (.assistant "" [⟨"bash", [("cmd", .str "ls")], ""⟩] none) (by simp [idlessCall])
      (by simp [Message.Unidentified])
  · cases hv

end NucLlm.AgentLoop
