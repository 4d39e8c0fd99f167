import Mathlib
import NucLlm.AgentLoop.Streams
import NucLlm.Lib.Lists

/-!
# Streamed responses

A response and the streams that serve it: the pieces of different blocks in any order, with
comments anywhere between the lines.  What is accumulated from a stream is the response up to the
order of its fields, if the response has only the top-level fields that are copied.
-/

namespace NucLlm.AgentLoop

open Interleaved

/-! ## Top-level changes -/

namespace MessageDelta

/-- The counts that a change reports. -/
def counts (c : MessageDelta) : Fields :=
  c.usage.filter fun f ↦ match f.2 with
    | .null => false
    | _ => true

end MessageDelta

/-- The last value among the changes. -/
def lastOf (f : MessageDelta → Option Json) (changes : List MessageDelta) : Option Json :=
  (changes.filterMap f).getLast?

theorem lastOf_cons (f : MessageDelta → Option Json) (c : MessageDelta)
    (changes : List MessageDelta) (x : Option Json) :
    (lastOf f (c :: changes)).or x = (lastOf f changes).or ((f c).or x) := by
  unfold lastOf
  cases hc : f c with
  | none =>
      rw [List.filterMap_cons_none hc]
      rfl
  | some v =>
      rw [List.filterMap_cons_some hc, ← List.singleton_append, List.getLast?_append,
        List.getLast?_singleton, Option.or_assoc]

/-- What a run of top-level changes leaves. -/
theorem change_run (loads : String → Option Json) (changes : List MessageDelta)
    (hdecoded : ∀ c ∈ changes, (c.usage.map Prod.fst).Nodup) (s : Fields × Fields) :
    ∃ s' : Fields × Fields,
      (changes.map StreamEvent.messageDelta).foldlM (StreamEvent.stepAt loads .message) s =
        some s' ∧
      (∀ key, s'.1.lookup key = if key ∈ ["stop_reason", "stop_sequence"] then
        (lastOf (fun c ↦ c.delta.lookup key) changes).or (s.1.lookup key) else s.1.lookup key) ∧
      ∀ key, s'.2.lookup key =
        (lastOf (fun c ↦ c.counts.lookup key) changes).or (s.2.lookup key) := by
  induction changes generalizing s with
  | nil =>
      refine ⟨s, rfl, fun key ↦ ?_, fun key ↦ rfl⟩
      split
      · rfl
      · rfl
  | cons c changes ih =>
      obtain ⟨s', hrun, hmessage, husage⟩ := ih
        (fun e he ↦ hdecoded e (List.mem_cons_of_mem _ he)) (Accumulator.changeMessage c s)
      have hnodup : (c.counts.map Prod.fst).Nodup :=
        (List.filter_sublist.map Prod.fst).nodup (hdecoded c List.mem_cons_self)
      refine ⟨s', hrun, ?_, ?_⟩
      · intro key
        have hchange : (Accumulator.changeMessage c s).1.lookup key =
            if key ∈ ["stop_reason", "stop_sequence"] then
              (c.delta.lookup key).or (s.1.lookup key) else s.1.lookup key :=
          lookup_copyFields key _ c.delta s.1
        rw [hmessage key, hchange]
        split
        · rw [lastOf_cons]
        · rfl
      · intro key
        have hchange : (Accumulator.changeMessage c s).2.lookup key =
            (c.counts.lookup key).or (s.2.lookup key) := lookup_update key hnodup s.2
        rw [husage key, hchange, lastOf_cons]

/-! ## Responses -/

/-- A response whose content is texts, thoughts and tool calls. -/
structure ApiResponse where
  header : Fields
  blocks : List ReplyBlock
  stopReason : Json
  stopSequence : Option Json
  usage : Fields
  /-- The other top-level fields. -/
  extra : Fields
  hheader : ∀ f ∈ header, f.1 ∈ ["id", "model", "role", "type"]
  hextra : ∀ f ∈ extra, f.1 ∉ ["id", "model", "role", "type", "content", "stop_reason",
    "stop_sequence", "usage"]

/-- The response in one piece. -/
def ApiResponse.dict (m : ApiResponse) : Fields :=
  [("content", .arr (m.blocks.map fun b ↦ .obj b.dict)), ("usage", .obj m.usage),
    ("stop_reason", m.stopReason)] ++ (m.stopSequence.toList.map fun j ↦ ("stop_sequence", j)) ++
    m.header ++ m.extra

/-- The top-level events, in their order, come to the response. -/
structure ApiResponse.Framed (m : ApiResponse) (message : Fields) (changes : List MessageDelta) :
    Prop where
  header : ∀ key ∈ ["id", "model", "role", "type"], message.lookup key = m.header.lookup key
  stopReason : lastOf (fun c ↦ c.delta.lookup "stop_reason") changes = some m.stopReason
  stopSequence : lastOf (fun c ↦ c.delta.lookup "stop_sequence") changes = m.stopSequence
  usage : ∃ usage, dictAt "usage" message = some usage ∧ ∀ key, m.usage.lookup key =
    (lastOf (fun c ↦ c.counts.lookup key) changes).or (usage.lookup key)
  decoded : ∀ c ∈ changes, (c.usage.map Prod.fst).Nodup
  extra : ∀ f ∈ m.extra, message.lookup f.1 = some f.2 ∨
    ∃ c ∈ changes, c.delta.lookup f.1 = some f.2

/-- The events of every block, and those around the blocks, are in order; they may be interleaved
in any way, with other events between them. -/
structure ApiResponse.Serialised (loads : String → Option Json) (m : ApiResponse)
    (events : List StreamEvent) : Prop where
  message : ∃ message changes, project StreamEvent.part .message events =
    .messageStart message :: changes.map .messageDelta ∧ m.Framed message changes
  block : ∀ i b, m.blocks[i]? = some b → ∃ body start deltas,
    project StreamEvent.part (.block i) events =
      .blockStart i start :: (deltas.map (.blockDelta i) ++ [.blockStop i]) ∧
    StreamedAs loads b.body body deltas ∧ SameFields start (body.dict ++ b.rest)
  beyond : ∀ i, m.blocks.length ≤ i → project StreamEvent.part (.block i) events = []

/-! ## Runs of the parts -/

section Runs

variable {loads : String → Option Json}

theorem delta_run (i : ℕ) (deltas : List Delta) {block block' : Fields}
    (h : deltas.foldlM Delta.apply block = some block') :
    (deltas.map (StreamEvent.blockDelta i)).foldlM (StreamEvent.stepAt loads (.block i))
      (some block : Option Fields) = some (some block') := by
  induction deltas generalizing block with
  | nil =>
      obtain rfl := Option.some.inj h
      rfl
  | cons d deltas ih =>
      rw [List.foldlM_cons] at h
      obtain ⟨block₁, hd, hrest⟩ := Option.bind_eq_some_iff.mp h
      have hstep : StreamEvent.stepAt loads (.block i) (some block : Option Fields)
          (.blockDelta i d) = some (some block₁) := congrArg (Option.map some) hd
      rw [List.map_cons, List.foldlM_cons, hstep]
      exact ih hrest

/-- The events of a block make the block. -/
theorem block_run (i : ℕ) {b : ReplyBlock} {body : BlockBody} {start : Fields}
    {deltas : List Delta} (h : StreamedAs loads b.body body deltas)
    (hstart : SameFields start (body.dict ++ b.rest)) :
    ∃ block, (StreamEvent.blockStart i start ::
        (deltas.map (StreamEvent.blockDelta i) ++ [.blockStop i])).foldlM
        (StreamEvent.stepAt loads (.block i)) (none : Option Fields) = some (some block) ∧
      SameFields block b.dict := by
  obtain ⟨block, block', hrun, hstop, hsame⟩ := streamed_block h hstart
  refine ⟨block', ?_, hsame⟩
  have hfirst : StreamEvent.stepAt loads (.block i) (none : Option Fields)
      (.blockStart i start) = some (some (withType start)) := rfl
  have hlast : StreamEvent.stepAt loads (.block i) (some block : Option Fields)
      (.blockStop i) = some (some block') := congrArg (Option.map some) hstop
  rw [List.foldlM_cons, hfirst]
  change List.foldlM (StreamEvent.stepAt loads (.block i)) (some (withType start) : Option Fields)
    (deltas.map (StreamEvent.blockDelta i) ++ [.blockStop i]) = some (some block')
  rw [List.foldlM_append, delta_run i deltas hrun]
  change List.foldlM (StreamEvent.stepAt loads (.block i)) (some block : Option Fields)
    [.blockStop i] = some (some block')
  rw [List.foldlM_cons, hlast]
  rfl

variable (loads) in
/-- The events around the blocks leave the top-level fields that are copied, and the usage. -/
theorem message_run {m : ApiResponse} {message : Fields} {changes : List MessageDelta}
    (h : m.Framed message changes) :
    ∃ s : Fields × Fields, (StreamEvent.messageStart message ::
        changes.map StreamEvent.messageDelta).foldlM (StreamEvent.stepAt loads .message)
        (([("stop_reason", Json.null)], []) : Fields × Fields) = some s ∧
      (∀ key, s.1.lookup key = if key = "stop_reason" then some m.stopReason
        else if key = "stop_sequence" then m.stopSequence
        else if key ∈ ["id", "model", "role", "type"] then m.header.lookup key else none) ∧
      SameFields s.2 m.usage := by
  obtain ⟨usage, husage, hsum⟩ := h.usage
  generalize hm : copyFields ["id", "model", "role", "type"] message
    [("stop_reason", Json.null)] = copied
  have hfirst : StreamEvent.stepAt loads .message
      (([("stop_reason", Json.null)], []) : Fields × Fields) (.messageStart message) =
      some ((copied, usage) : Fields × Fields) := by
    change Accumulator.startMessage message _ = _
    unfold Accumulator.startMessage
    rw [husage, ← hm]
    rfl
  obtain ⟨s, hrun, hmessage, hcounts⟩ := change_run loads changes h.decoded (copied, usage)
  refine ⟨s, ?_, ?_, ?_⟩
  · rw [List.foldlM_cons, hfirst]
    exact hrun
  · intro key
    have hcopied := lookup_copyFields key ["id", "model", "role", "type"] message
      [("stop_reason", Json.null)]
    rw [hm] at hcopied
    rw [hmessage key]
    by_cases hreason : key = "stop_reason"
    · subst hreason
      rw [if_pos (by decide), if_pos rfl, h.stopReason]
      rfl
    · by_cases hsequence : key = "stop_sequence"
      · subst hsequence
        rw [if_pos (by decide), if_neg (by decide), if_pos rfl, h.stopSequence, hcopied]
        exact Option.or_none
      · rw [if_neg (by simp [hreason, hsequence]), if_neg hreason, if_neg hsequence, hcopied]
        have hnone : List.lookup key [("stop_reason", Json.null)] = none := by
          have hne : (key == "stop_reason") = false := beq_eq_false_iff_ne.mpr hreason
          rw [List.lookup_cons, hne]
          rfl
        rw [hnone]
        split
        · rename_i hkey
          rw [Option.or_none, h.header key hkey]
        · rfl
  · intro key
    rw [hcounts key, hsum key]

/-- Any interleaving accumulates the top-level fields that are copied, the usage and the blocks. -/
theorem events_run {m : ApiResponse} {events : List StreamEvent} (h : m.Serialised loads events) :
    ∃ acc : Accumulator, events.foldlM (Accumulator.take loads) {} = some acc ∧
      (∀ key, acc.message.lookup key = if key = "stop_reason" then some m.stopReason
        else if key = "stop_sequence" then m.stopSequence
        else if key ∈ ["id", "model", "role", "type"] then m.header.lookup key else none) ∧
      SameFields acc.usage m.usage ∧
      List.Forall₂ SameFields acc.blocks.reduceOption (m.blocks.map ReplyBlock.dict) := by
  obtain ⟨message, changes, hproject, hframed⟩ := h.message
  obtain ⟨s, hmessage, hcopied, husage⟩ := message_run loads hframed
  rw [← hproject] at hmessage
  have hblocks : ∀ i, ∃ v : Option Fields,
      (project StreamEvent.part (.block i) events).foldlM (StreamEvent.stepAt loads (.block i))
        (none : Option Fields) = some v ∧
      Option.Rel SameFields v (m.blocks.map ReplyBlock.dict)[i]? := by
    intro i
    cases hb : m.blocks[i]? with
    | none =>
        refine ⟨none, ?_, ?_⟩
        · rw [h.beyond i (List.getElem?_eq_none_iff.mp hb)]
          rfl
        · rw [List.getElem?_map, hb]
          exact .none
    | some b =>
        obtain ⟨body, start, deltas, hevents, hstreamed, hstart⟩ := h.block i b hb
        obtain ⟨block, hrun, hsame⟩ := block_run i hstreamed hstart
        refine ⟨some block, ?_, ?_⟩
        · rw [hevents, hrun]
        · rw [List.getElem?_map, hb]
          exact .some hsame
  choose v hv hrel using hblocks
  obtain ⟨acc, hrun, hview⟩ := Accumulator.take_local.run events ({} : Accumulator)
    (Part.states s v) (by
    intro p
    cases p with
    | message => exact hmessage
    | block i => exact hv i)
  have hparts : (acc.message, acc.usage) = s := hview .message
  refine ⟨acc, hrun, ?_, ?_, ?_⟩
  · intro key
    rw [← hcopied key, ← hparts]
  · rw [← hparts] at husage
    exact husage
  · apply Lists.forall₂_reduceOption
    intro i
    have hi : acc.blocks[i]?.join = v i := hview (.block i)
    rw [hi]
    exact hrel i

theorem accumulateStream_eq (acc : Accumulator) {events : List StreamEvent}
    {pairs : List (String × Json)} (h : List.Forall₂ StreamEvent.Carried events pairs) :
    accumulateStream loads acc pairs =
      (events.foldlM (Accumulator.take loads) acc).map fun acc ↦ (acc.finish, none) := by
  induction h generalizing acc with
  | nil => rfl
  | @cons e p events pairs hcarried htail ih =>
      have herror : p.1 ≠ "error" := by
        cases hcarried with
        | other h =>
            rintro rfl
            exact h (by decide)
        | _ => simp
      obtain ⟨eventType, data⟩ := p
      rw [accumulateStream, if_neg herror, List.foldlM_cons,
        show acc.step loads eventType data = _ from acc.step_eq_take hcarried]
      cases acc.take loads e with
      | none => rfl
      | some acc' => exact ih acc'

end Runs

/-! ## Lines -/

inductive SseLine where
  | comment (s : String)
  | event (s : String)
  | data (s : String)

namespace SseLine

def text : SseLine → String
  | comment s => ":" ++ s
  | event s => "event:" ++ s
  | data s => "data:" ++ s

def event? : SseLine → Option String
  | event s => some (pyStrip s)
  | _ => none

def data? : SseLine → Option String
  | data s => some (pyStrip s)
  | _ => none

theorem text_ne_empty (l : SseLine) : l.text ≠ "" := by
  cases l <;> simp [text]

end SseLine

theorem after_append (start s : String) : after start (start ++ s) = some s := by
  unfold after
  rw [String.toList_append, if_pos (by simp), List.drop_left, String.ofList_toList]

theorem after_eq_none {start line : String} (h : ¬start.toList.isPrefixOf line.toList) :
    after start line = none := if_neg h

/-- What a line does to the event under way. -/
theorem Frame.line_text (f : Frame) (l : SseLine) : f.line l.text =
    ⟨l.event?.or f.eventType, f.dataLines ++ l.data?.toList⟩ := by
  cases l with
  | comment s =>
      unfold Frame.line
      simp only [SseLine.text, after_append, SseLine.event?, SseLine.data?, Option.none_or,
        Option.toList_none, List.append_nil]
  | event s =>
      have hcomment : after ":" ("event:" ++ s) = none :=
        after_eq_none (by simp)
      unfold Frame.line
      simp only [SseLine.text, hcomment, after_append, SseLine.event?, SseLine.data?,
        Option.some_or, Option.toList_none, List.append_nil]
  | data s =>
      have hcomment : after ":" ("data:" ++ s) = none :=
        after_eq_none (by simp)
      have hevent : after "event:" ("data:" ++ s) = none :=
        after_eq_none (by simp)
      unfold Frame.line
      simp only [SseLine.text, hcomment, hevent, after_append, SseLine.event?, SseLine.data?,
        Option.none_or, Option.toList_some]

theorem Frame.foldl_text (f : Frame) (ls : List SseLine) :
    (ls.map SseLine.text).foldl Frame.line f =
      ⟨(ls.filterMap SseLine.event?).getLast?.or f.eventType,
        f.dataLines ++ ls.filterMap SseLine.data?⟩ := by
  induction ls generalizing f with
  | nil => simp
  | cons l ls ih =>
      rw [List.map_cons, List.foldl_cons, f.line_text, ih]
      cases l with
      | comment s => simp [List.filterMap_cons, SseLine.event?, SseLine.data?]
      | event s =>
          have hlast : (pyStrip s :: ls.filterMap SseLine.event?).getLast? =
              (ls.filterMap SseLine.event?).getLast?.or (some (pyStrip s)) := by
            rw [← List.singleton_append, List.getLast?_append, List.getLast?_singleton]
          simp [List.filterMap_cons, SseLine.event?, SseLine.data?, hlast]
      | data s => simp [SseLine.event?, SseLine.data?]

variable (loads : String → Option Json)

/-- The lines hold an event of a type, or data that names its own, and the data decodes. -/
structure FrameOf (ls : List SseLine) (eventType : String) (data : Json) : Prop where
  held : ls.filterMap SseLine.data? ≠ []
  decodes : loads ("\n".intercalate (ls.filterMap SseLine.data?)) = some data
  named : ((ls.filterMap SseLine.event?).getLast? = some eventType ∧ eventType ≠ "") ∨
    (ls.filterMap SseLine.event? = [] ∧ data.get? "type" = some (.str eventType))

/-- The lines of a stream hold the events, with comments anywhere. -/
inductive Rendered : List String → List (String × Json) → Prop
  | silentEnd {ls : List SseLine} (h : ls.filterMap SseLine.data? = []) :
      Rendered (ls.map SseLine.text) []
  | frameEnd {ls : List SseLine} {eventType : String} {data : Json}
      (h : FrameOf loads ls eventType data) : Rendered (ls.map SseLine.text) [(eventType, data)]
  | silent {ls : List SseLine} {lines : List String} {events : List (String × Json)}
      (h : ls.filterMap SseLine.data? = []) (hlines : Rendered lines events) :
      Rendered (ls.map SseLine.text ++ "" :: lines) events
  | frame {ls : List SseLine} {eventType : String} {data : Json} {lines : List String}
      {events : List (String × Json)} (h : FrameOf loads ls eventType data)
      (hlines : Rendered lines events) :
      Rendered (ls.map SseLine.text ++ "" :: lines) ((eventType, data) :: events)

variable {loads}

theorem flush_silent {ls : List SseLine} (h : ls.filterMap SseLine.data? = []) :
    ((ls.map SseLine.text).foldl Frame.line {}).flush loads = some [] := by
  rw [Frame.foldl_text, h]
  rfl

theorem flush_frame {ls : List SseLine} {eventType : String} {data : Json}
    (h : FrameOf loads ls eventType data) :
    ((ls.map SseLine.text).foldl Frame.line {}).flush loads = some [(eventType, data)] := by
  have hempty : (ls.filterMap SseLine.data?).isEmpty = false := by
    rw [List.isEmpty_eq_false_iff]
    exact h.held
  rw [Frame.foldl_text]
  unfold Frame.flush
  simp only [List.nil_append, hempty, h.decodes, Option.getD_some, Option.or_none]
  rw [if_neg (by decide)]
  rcases h.named with ⟨htype, hne⟩ | ⟨htype, hdata⟩
  · rw [htype, Option.filter_some_pos (by simpa using hne)]
  · rw [htype]
    cases data with
    | obj fields =>
        have hlookup : fields.lookup "type" = some (.str eventType) := hdata
        simp only [List.getLast?_nil, Option.filter_none, hlookup, Option.bind_some, Json.str?,
          Option.getD_some]
    | _ => cases hdata

theorem parse_text (f : Frame) (ls : List SseLine) (rest : List String) :
    parseSseEvents loads f (ls.map SseLine.text ++ rest) =
      parseSseEvents loads ((ls.map SseLine.text).foldl Frame.line f) rest := by
  induction ls generalizing f with
  | nil => rfl
  | cons l ls ih =>
      rw [List.map_cons, List.cons_append, parseSseEvents, if_neg l.text_ne_empty, ih]
      rfl

/-- The events are found in the lines. -/
theorem parse_rendered {lines : List String} {events : List (String × Json)}
    (h : Rendered loads lines events) : parseSseEvents loads {} lines = some events := by
  induction h with
  | @silentEnd ls h =>
      rw [← List.append_nil (ls.map SseLine.text), parse_text, parseSseEvents, flush_silent h]
  | @frameEnd ls eventType data h =>
      rw [← List.append_nil (ls.map SseLine.text), parse_text, parseSseEvents, flush_frame h]
  | silent h hlines ih =>
      rw [parse_text, parseSseEvents, if_pos rfl, flush_silent h, ih]
      rfl
  | frame h hlines ih =>
      rw [parse_text, parseSseEvents, if_pos rfl, flush_frame h, ih]
      rfl

/-! ## The same response -/

/-- The same objects one by one, up to the order of their fields. -/
def SameBlocks (xs ys : List Json) : Prop :=
  List.Forall₂ (fun x y ↦ ∃ d d', x = .obj d ∧ y = .obj d' ∧ SameFields d d') xs ys

/-- The same message, up to the order of fields. -/
structure SameMessage (d d' : Fields) : Prop where
  fields : ∀ key, key ≠ "content" → key ≠ "usage" → d.lookup key = d'.lookup key
  content : ∃ xs ys, d.lookup "content" = some (.arr xs) ∧ d'.lookup "content" = some (.arr ys) ∧
    SameBlocks xs ys
  usage : ∃ u u', d.lookup "usage" = some (.obj u) ∧ d'.lookup "usage" = some (.obj u') ∧
    SameFields u u'

structure SameTurn (t t' : Turn) : Prop where
  text : t.text = t'.text
  toolCalls : t.toolCalls = t'.toolCalls
  usage : t.usage = t'.usage
  rawContent : Option.Rel SameBlocks t.rawContent t'.rawContent

section Congruence

variable {key : String} {d d' : Fields}

theorem textAt_congr (h : d.lookup key = d'.lookup key) : textAt key d = textAt key d' := by
  unfold textAt
  rw [h]

theorem dictAt_congr (h : d.lookup key = d'.lookup key) : dictAt key d = dictAt key d' := by
  unfold dictAt
  rw [h]

theorem countAt_congr (h : d.lookup key = d'.lookup key) : countAt key d = countAt key d' := by
  unfold countAt
  rw [h]

theorem stringOr_congr (default : String) (h : d.lookup key = d'.lookup key) :
    stringOr default key d = stringOr default key d' := by
  unfold stringOr
  rw [h]

theorem usageOf_congr (h : SameFields d d') : usageOf d = usageOf d' := by
  unfold usageOf
  rw [dictAt_congr (h _), countAt_congr (h "input_tokens"), countAt_congr (h "output_tokens"),
    countAt_congr (h "cache_read_input_tokens"), countAt_congr (h "cache_creation_input_tokens")]

end Congruence

theorem readBlocks_congr {xs ys : List Json} (h : SameBlocks xs ys) :
    readBlocks xs = readBlocks ys := by
  induction h with
  | nil => rfl
  | cons hxy htail ih =>
      obtain ⟨d, d', rfl, rfl, hsame⟩ := hxy
      simp only [readBlocks, ih, hsame "type", hsame "name", hsame "input",
        textAt_congr (hsame "text"), textAt_congr (hsame "id")]

/-- The same message is the same turn. -/
theorem parseResponse_congr {d d' : Fields} (h : SameMessage d d') :
    Option.Rel SameTurn (parseResponse d) (parseResponse d') := by
  obtain ⟨xs, ys, hxs, hys, hblocks⟩ := h.content
  obtain ⟨u, u', hu, hu', husage⟩ := h.usage
  have hlist : listAt "content" d = some xs := by
    unfold listAt
    rw [hxs]
  have hlist' : listAt "content" d' = some ys := by
    unfold listAt
    rw [hys]
  have hdict : dictAt "usage" d = some u := by
    unfold dictAt
    rw [hu]
  have hdict' : dictAt "usage" d' = some u' := by
    unfold dictAt
    rw [hu']
  have hraw : Option.Rel SameBlocks (if xs.isEmpty then none else some xs)
      (if ys.isEmpty then none else some ys) := by
    cases hblocks with
    | nil => exact .none
    | cons hxy htail => exact .some (.cons hxy htail)
  unfold parseResponse
  simp only [hlist, hlist', hdict, hdict', Option.bind_eq_bind, Option.bind_some,
    readBlocks_congr hblocks, usageOf_congr husage,
    stringOr_congr "" (h.fields "stop_reason" (by decide) (by decide)),
    dictAt_congr (h.fields "stop_details" (by decide) (by decide))]
  cases readBlocks ys with
  | none => exact .none
  | some read =>
      cases stringOr "" "stop_reason" d' with
      | none => exact .none
      | some stop =>
          cases usageOf u' with
          | none => exact .none
          | some usage =>
              simp only [Option.bind_some]
              split
              · cases dictAt "stop_details" d' with
                | none => exact .none
                | some details =>
                    simp only [Option.bind_some]
                    cases stringOr "unspecified" "category" details with
                    | none => exact .none
                    | some category => exact .some ⟨rfl, rfl, rfl, hraw⟩
              · exact .some ⟨rfl, rfl, rfl, hraw⟩

theorem ApiResponse.header_none (m : ApiResponse) {key : String}
    (h : key ∉ ["id", "model", "role", "type"]) : m.header.lookup key = none := by
  rw [List.lookup_eq_none_iff]
  intro f hf
  have hne : key ≠ f.1 := by
    rintro rfl
    exact h (m.hheader f hf)
  simpa using hne

/-- The top-level fields of a response. -/
theorem ApiResponse.lookup_dict (m : ApiResponse) {key : String} (hcontent : key ≠ "content")
    (husage : key ≠ "usage") : m.dict.lookup key =
      (if key = "stop_reason" then some m.stopReason
        else if key = "stop_sequence" then m.stopSequence
        else if key ∈ ["id", "model", "role", "type"] then m.header.lookup key else none).or
      (m.extra.lookup key) := by
  have hc : (key == "content") = false := beq_eq_false_iff_ne.mpr hcontent
  have hu : (key == "usage") = false := beq_eq_false_iff_ne.mpr husage
  unfold ApiResponse.dict
  rw [lookup_or_append, lookup_or_append, lookup_or_append]
  simp only [List.lookup_cons, hc, hu, List.lookup_nil]
  by_cases hreason : key = "stop_reason"
  · subst hreason
    rfl
  · have hr : (key == "stop_reason") = false := beq_eq_false_iff_ne.mpr hreason
    simp only [hr, if_neg hreason, Option.none_or]
    by_cases hsequence : key = "stop_sequence"
    · subst hsequence
      rw [m.header_none (by decide), if_pos rfl, Option.or_none]
      cases m.stopSequence <;> rfl
    · have hs : (key == "stop_sequence") = false := beq_eq_false_iff_ne.mpr hsequence
      have hnone : List.lookup key (m.stopSequence.toList.map fun j ↦ ("stop_sequence", j)) =
          none := by
        cases m.stopSequence with
        | none => rfl
        | some j =>
            simp only [Option.toList_some, List.map_cons, List.lookup_cons, hs, List.map_nil,
              List.lookup_nil]
      rw [hnone, if_neg hsequence, Option.none_or]
      by_cases hkey : key ∈ ["id", "model", "role", "type"]
      · rw [if_pos hkey]
      · rw [if_neg hkey, m.header_none hkey]

/-! ## Streams of a response -/

/-- The lines serve the response. -/
def ApiResponse.StreamedIn (loads : String → Option Json) (m : ApiResponse)
    (lines : List String) : Prop :=
  ∃ events pairs, m.Serialised loads events ∧ List.Forall₂ StreamEvent.Carried events pairs ∧
    Rendered loads lines pairs

/-- What a stream of a response comes to. -/
theorem stream_run {m : ApiResponse} {lines : List String} (h : m.StreamedIn loads lines) :
    ∃ acc : Accumulator, streamResponse loads lines = some (acc.finish, none) ∧
      (∀ key, acc.message.lookup key = if key = "stop_reason" then some m.stopReason
        else if key = "stop_sequence" then m.stopSequence
        else if key ∈ ["id", "model", "role", "type"] then m.header.lookup key else none) ∧
      SameFields acc.usage m.usage ∧
      List.Forall₂ SameFields acc.blocks.reduceOption (m.blocks.map ReplyBlock.dict) := by
  obtain ⟨events, pairs, hserialised, hcarried, hrendered⟩ := h
  obtain ⟨acc, hrun, hrest⟩ := events_run hserialised
  refine ⟨acc, ?_, hrest⟩
  unfold streamResponse
  rw [parse_rendered hrendered]
  change accumulateStream loads {} pairs = _
  rw [accumulateStream_eq {} hcarried, hrun]
  rfl

theorem Accumulator.lookup_finish (acc : Accumulator) {key : String} (hcontent : key ≠ "content")
    (husage : key ≠ "usage") : acc.finish.lookup key = acc.message.lookup key := by
  have hc : (key == "content") = false := beq_eq_false_iff_ne.mpr hcontent
  have hu : (key == "usage") = false := beq_eq_false_iff_ne.mpr husage
  unfold Accumulator.finish
  rw [List.lookup_cons, hc, List.lookup_cons, hu]

theorem sameBlocks_map {xs ys : List Fields} (h : List.Forall₂ SameFields xs ys) :
    SameBlocks (xs.map .obj) (ys.map .obj) := by
  induction h with
  | nil => exact .nil
  | cons hxy htail ih => exact .cons ⟨_, _, rfl, rfl, hxy⟩ ih

/-- A field that is not copied is lost. -/
theorem extra_lost {m : ApiResponse} {acc : Accumulator}
    (hmessage : ∀ key, acc.message.lookup key = if key = "stop_reason" then some m.stopReason
      else if key = "stop_sequence" then m.stopSequence
      else if key ∈ ["id", "model", "role", "type"] then m.header.lookup key else none)
    (hsame : SameMessage acc.finish m.dict) : m.extra = [] := by
  cases hextra : m.extra with
  | nil => rfl
  | cons f extra =>
      exfalso
      have hf := m.hextra f (hextra ▸ List.mem_cons_self)
      simp only [List.mem_cons, List.not_mem_nil, or_false, not_or] at hf
      obtain ⟨hid, hmodel, hrole, htype, hcontent, hreason, hsequence, husage⟩ := hf
      have hlookup := hsame.fields f.1 hcontent husage
      rw [acc.lookup_finish hcontent husage, hmessage, m.lookup_dict hcontent husage,
        if_neg hreason, if_neg hsequence, if_neg (by simp [hid, hmodel, hrole, htype]),
        Option.none_or, hextra, List.lookup_cons, beq_self_eq_true] at hlookup
      cases hlookup

/-- A stream comes to the response, and to its turn, if the response has no field that is not
copied, and only then. -/
theorem stream_agrees_iff (loads : String → Option Json) (m : ApiResponse) (lines : List String)
    (h : m.StreamedIn loads lines) :
    (∃ d, streamResponse loads lines = some (d, none) ∧ SameMessage d m.dict ∧
      Option.Rel SameTurn (parseResponse d) (parseResponse m.dict)) ↔ m.extra = [] := by
  obtain ⟨acc, hrun, hmessage, husage, hblocks⟩ := stream_run h
  constructor
  · rintro ⟨d, hd, hsame, _⟩
    obtain rfl : acc.finish = d := congrArg Prod.fst (Option.some.inj (hrun.symm.trans hd))
    exact extra_lost hmessage hsame
  · intro hextra
    have hsame : SameMessage acc.finish m.dict := by
      refine ⟨?_, ?_, ?_⟩
      · intro key hcontent hkey
        rw [acc.lookup_finish hcontent hkey, hmessage, m.lookup_dict hcontent hkey, hextra]
        exact Option.or_none.symm
      · refine ⟨_, _, rfl, rfl, ?_⟩
        have hall := sameBlocks_map hblocks
        rw [List.map_map] at hall
        exact hall
      · exact ⟨_, _, rfl, rfl, husage⟩
    exact ⟨acc.finish, hrun, hsame, parseResponse_congr hsame⟩

/-! ### A refused reply -/

theorem lookup_of_mem {l : Fields} (hnodup : (l.map Prod.fst).Nodup) {f : String × Json}
    (hf : f ∈ l) : l.lookup f.1 = some f.2 := by
  induction l with
  | nil => cases hf
  | cons g l ih =>
      obtain ⟨k, v⟩ := g
      rw [List.map_cons, List.nodup_cons] at hnodup
      rcases List.mem_cons.mp hf with rfl | htail
      · exact List.lookup_cons_self
      · have hne : (f.1 == k) = false := by
          apply beq_eq_false_iff_ne.mpr
          rintro rfl
          exact hnodup.1 (List.mem_map.mpr ⟨f, htail, rfl⟩)
        rw [List.lookup_cons, hne]
        exact ih hnodup.2 htail

/-- Events with one data line each are held by their lines. -/
theorem rendered_frames (frames : List (String × String × Json))
    (h : ∀ f ∈ frames, pyStrip f.1 ≠ "" ∧ loads (pyStrip f.2.1) = some f.2.2) :
    Rendered loads (frames.flatMap fun f ↦ ["event:" ++ f.1, "data:" ++ f.2.1, ""])
      (frames.map fun f ↦ (pyStrip f.1, f.2.2)) := by
  induction frames with
  | nil => exact @Rendered.silentEnd loads [] rfl
  | cons f frames ih =>
      obtain ⟨hname, hdata⟩ := h f List.mem_cons_self
      have hframe : FrameOf loads [.event f.1, .data f.2.1] (pyStrip f.1) f.2.2 :=
        ⟨List.cons_ne_nil _ _, hdata, Or.inl ⟨rfl, hname⟩⟩
      exact Rendered.frame hframe (ih fun g hg ↦ h g (List.mem_cons_of_mem _ hg))

/-- A refused reply, with the fields that the API adds to it. -/
def refusedReply (extra : Fields) (hextra : ∀ f ∈ extra, f.1 = "stop_details") : ApiResponse where
  header := [("id", .str "m")]
  blocks := [⟨.text "No.", [], rfl⟩]
  stopReason := .str "refusal"
  stopSequence := none
  usage := []
  extra := extra
  hheader := by decide
  hextra := by
    intro f hf
    rw [hextra f hf]
    decide

def refusalDetails : Fields := [("stop_details", .obj [("category", .str "cyber")])]

/-- The text of an object. -/
def braced (s : String) : String := "\x7b" ++ s ++ "\x7d"

theorem pyStrip_braced (s : String) : pyStrip (braced s) = braced s := by
  have hopen : isSpace '\x7b' = false := by decide
  have hclose : isSpace '\x7d' = false := by decide
  unfold pyStrip braced
  rw [← String.toList_inj]
  simp [hopen, hclose]

/-- The frames of the reply: the names of the events, their texts and what these decode to. -/
def refusalFrames : List (String × String × Json) :=
  [("message_start", braced ("\"message\": " ++ braced "\"id\": \"m\""),
      .obj [("message", .obj [("id", .str "m")])]),
    ("content_block_start", braced ("\"index\": 0, \"content_block\": " ++
      braced "\"type\": \"text\", \"text\": \"\""),
      .obj [("index", .num "0"),
        ("content_block", .obj [("type", .str "text"), ("text", .str "")])]),
    ("content_block_delta", braced ("\"index\": 0, \"delta\": " ++
      braced "\"type\": \"text_delta\", \"text\": \"No.\""),
      .obj [("index", .num "0"), ("delta", .obj [("type", .str "text_delta"),
        ("text", .str "No.")])]),
    ("content_block_stop", braced "\"index\": 0", .obj [("index", .num "0")]),
    ("message_delta", braced ("\"delta\": " ++ braced ("\"stop_reason\": \"refusal\", " ++
      "\"stop_details\": " ++ braced "\"category\": \"cyber\"")),
      .obj [("delta", .obj (("stop_reason", .str "refusal") :: refusalDetails))])]

/-- A decoder that knows the texts of the reply. -/
def refusalLoads (text : String) : Option Json := (refusalFrames.map Prod.snd).lookup text

def refusalLines : List String :=
  refusalFrames.flatMap fun f ↦ ["event:" ++ f.1, "data:" ++ f.2.1, ""]

def refusalEvents : List StreamEvent :=
  [.messageStart [("id", .str "m")],
    .blockStart 0 [("type", .str "text"), ("text", .str "")],
    .blockDelta 0 ⟨.text, "No."⟩, .blockStop 0,
    .messageDelta ⟨("stop_reason", .str "refusal") :: refusalDetails, []⟩]

theorem refusal_framed (extra : Fields) (hextra : ∀ f ∈ extra, f.1 = "stop_details")
    (hsub : ∀ f ∈ extra, f ∈ refusalDetails) : (refusedReply extra hextra).Framed
      [("id", .str "m")] [⟨("stop_reason", .str "refusal") :: refusalDetails, []⟩] where
  header := by
    intro key hkey
    simp only [List.mem_cons, List.not_mem_nil, or_false] at hkey
    rcases hkey with rfl | rfl | rfl | rfl <;> rfl
  stopReason := rfl
  stopSequence := rfl
  usage := ⟨[], rfl, fun _ ↦ rfl⟩
  decoded := by
    intro c hc
    rw [List.mem_singleton] at hc
    subst hc
    decide
  extra := by
    intro f hf
    obtain rfl : f = ("stop_details", .obj [("category", .str "cyber")]) :=
      List.mem_singleton.mp (hsub f hf)
    exact Or.inr ⟨_, List.mem_cons_self, rfl⟩

theorem refusal_streamedIn (extra : Fields) (hextra : ∀ f ∈ extra, f.1 = "stop_details")
    (hsub : ∀ f ∈ extra, f ∈ refusalDetails) :
    (refusedReply extra hextra).StreamedIn refusalLoads refusalLines := by
  refine ⟨refusalEvents, refusalFrames.map fun f ↦ (pyStrip f.1, f.2.2), ?_, ?_, ?_⟩
  · refine ⟨⟨_, [_], rfl, refusal_framed extra hextra hsub⟩, ?_, ?_⟩
    · intro i b hb
      cases i with
      | zero =>
          obtain rfl := Option.some.inj hb
          refine ⟨.text "", _, [⟨.text, "No."⟩], rfl, .text (by decide) rfl, ?_⟩
          intro key
          rfl
      | succ i => cases hb
    · intro i hi
      cases i with
      | zero => cases hi
      | succ i => rfl
  · have hindex : ∀ data, IndexAt 0 (("index", .num "0") :: data) :=
      fun data ↦ ⟨"0", rfl, by cbv⟩
    refine .cons ?_ (.cons ?_ (.cons ?_ (.cons ?_ (.cons ?_ .nil))))
    · exact .messageStart rfl
    · exact .blockStart (hindex _) rfl
    · exact .blockDelta (hindex _) rfl rfl rfl
    · exact .blockStop (hindex _)
    · exact .messageDelta rfl rfl
  · apply rendered_frames
    intro f hf
    have hnames : ∀ name ∈ refusalFrames.map Prod.fst, pyStrip name ≠ "" := by decide +kernel
    have htext : pyStrip f.2.1 = f.2.1 := by
      simp only [refusalFrames, List.mem_cons, List.not_mem_nil, or_false] at hf
      rcases hf with rfl | rfl | rfl | rfl | rfl <;> exact pyStrip_braced _
    have hnodup : ((refusalFrames.map Prod.snd).map Prod.fst).Nodup := by decide +kernel
    refine ⟨hnames f.1 (List.mem_map_of_mem hf), ?_⟩
    rw [htext]
    exact lookup_of_mem hnodup (List.mem_map_of_mem hf)

theorem stream_agrees_without_details :
    ∃ d, streamResponse refusalLoads refusalLines = some (d, none) ∧
      SameMessage d (refusedReply [] (by simp)).dict ∧
      Option.Rel SameTurn (parseResponse d) (parseResponse (refusedReply [] (by simp)).dict) :=
  (stream_agrees_iff refusalLoads (refusedReply [] (by simp)) refusalLines
    (refusal_streamedIn [] (by simp) (by simp))).mpr rfl

/-- The category of a refusal is lost. -/
theorem refusal_details_lost :
    (refusedReply refusalDetails (by simp [refusalDetails])).StreamedIn refusalLoads
        refusalLines ∧
      ¬∃ d, streamResponse refusalLoads refusalLines = some (d, none) ∧
        SameMessage d (refusedReply refusalDetails (by simp [refusalDetails])).dict ∧
        Option.Rel SameTurn (parseResponse d)
          (parseResponse (refusedReply refusalDetails (by simp [refusalDetails])).dict) := by
  have hstream := refusal_streamedIn refusalDetails (by simp [refusalDetails]) fun _ hf ↦ hf
  refine ⟨hstream, ?_⟩
  rintro ⟨d, hd, hsame, _⟩
  obtain ⟨acc, hrun, hmessage, _, _⟩ := stream_run hstream
  obtain rfl : acc.finish = d := congrArg Prod.fst (Option.some.inj (hrun.symm.trans hd))
  have hempty : refusalDetails = [] := extra_lost hmessage hsame
  cases hempty

end NucLlm.AgentLoop
