import NucLlm.AgentLoop.Streaming
import NucLlm.AgentLoop.WirePairing
import NucLlm.Lib.Interleaved

/-!
# Streamed pieces

The pieces of the blocks of a reply, and events that carry them.  An event changes its own part of
what is accumulated, so the events of a block make the block in any interleaving.
-/

namespace NucLlm.AgentLoop

open Interleaved

/-! ## Fields -/

/-- Objects with the same fields, in any order. -/
def SameFields (d d' : Fields) : Prop := ∀ key, d.lookup key = d'.lookup key

theorem lookup_or_append (key : String) (d d' : Fields) :
    (d ++ d').lookup key = (d.lookup key).or (d'.lookup key) := by
  induction d with
  | nil => rfl
  | cons f d ih =>
      obtain ⟨k, v⟩ := f
      rw [List.cons_append, List.lookup_cons, List.lookup_cons, ih]
      split
      · rfl
      · rfl

theorem lookup_copyFields (key : String) (names : List String) (other fields : Fields) :
    (copyFields names other fields).lookup key =
      if key ∈ names then (other.lookup key).or (fields.lookup key) else fields.lookup key := by
  induction names generalizing fields with
  | nil => rfl
  | cons name names ih =>
      rw [copyFields, List.foldl_cons, ← copyFields, ih]
      by_cases hkey : key = name
      · subst hkey
        cases hother : other.lookup key with
        | none => simp
        | some value => simp [lookup_setField_self]
      · cases hother : other.lookup name with
        | none => simp [hkey]
        | some value => simp [hkey, lookup_setField_ne hkey]

theorem lookup_update (key : String) {other : Fields} (h : (other.map Prod.fst).Nodup)
    (fields : Fields) :
    (updateFields fields other).lookup key = (other.lookup key).or (fields.lookup key) := by
  unfold updateFields
  induction other generalizing fields with
  | nil => rfl
  | cons f other ih =>
      obtain ⟨k, v⟩ := f
      rw [List.map_cons, List.nodup_cons] at h
      rw [List.foldl_cons, ih h.2, List.lookup_cons]
      by_cases hkey : key = k
      · subst hkey
        have hnone : other.lookup key = none := by
          rw [List.lookup_eq_none_iff]
          intro p hp
          have hne : p.1 ≠ key := fun heq ↦ h.1 (List.mem_map.mpr ⟨p, hp, heq⟩)
          simpa using Ne.symm hne
        rw [hnone, lookup_setField_self, beq_self_eq_true]
        rfl
      · have hne : (key == k) = false := beq_eq_false_iff_ne.mpr hkey
        rw [lookup_setField_ne hkey, hne]

theorem lookup_filter_ne {key key' : String} (h : key ≠ key') (d : Fields) :
    (d.filter fun f ↦ f.1 ≠ key').lookup key = d.lookup key := by
  induction d with
  | nil => rfl
  | cons f d ih =>
      obtain ⟨k, v⟩ := f
      by_cases hk : k = key'
      · have hne : (key == k) = false := beq_eq_false_iff_ne.mpr (hk ▸ h)
        rw [List.filter_cons_of_neg (by simp [hk]), List.lookup_cons, hne, ih]
      · rw [List.filter_cons_of_pos (by simp [hk]), List.lookup_cons, List.lookup_cons, ih]

theorem lookup_filter_self (key : String) (d : Fields) :
    (d.filter fun f ↦ f.1 ≠ key).lookup key = none := by
  rw [List.lookup_eq_none_iff]
  intro p hp
  have hne : p.1 ≠ key := by simpa using (List.mem_filter.mp hp).2
  simpa using Ne.symm hne

/-! ## Pieces of blocks -/

/-- What a content block of a reply holds. -/
inductive BlockBody where
  | text (content : String)
  | thinking (content signature : String)
  | toolUse (id name : String) (input : Json)

def BlockBody.dict : BlockBody → Fields
  | .text content => [("type", .str "text"), ("text", .str content)]
  | .thinking content signature =>
      [("type", .str "thinking"), ("thinking", .str content), ("signature", .str signature)]
  | .toolUse id name input =>
      [("type", .str "tool_use"), ("id", .str id), ("name", .str name), ("input", input)]

/-- A content block of a reply, with what else the provider put in it. -/
structure ReplyBlock where
  body : BlockBody
  rest : Fields
  hrest : rest.lookup "_partial_json" = none

def ReplyBlock.dict (b : ReplyBlock) : Fields := b.body.dict ++ b.rest

inductive DeltaKind where
  | text
  | thinking
  | signature
  | inputJson
deriving DecidableEq

namespace DeltaKind

def type : DeltaKind → String
  | text => "text_delta"
  | thinking => "thinking_delta"
  | signature => "signature_delta"
  | inputJson => "input_json_delta"

/-- The field of a delta that holds its text. -/
def key : DeltaKind → String
  | text => "text"
  | thinking => "thinking"
  | signature => "signature"
  | inputJson => "partial_json"

/-- The field of a block that the texts are appended to. -/
def field : DeltaKind → String
  | inputJson => "_partial_json"
  | kind => kind.key

theorem field_inj {k k' : DeltaKind} (h : k.field = k'.field) : k = k' := by
  cases k <;> cases k' <;> first | rfl | exact absurd h (by decide)

end DeltaKind

/-- A piece of a block. -/
structure Delta where
  kind : DeltaKind
  text : String

/-- The texts of one kind in a row. -/
def joined (kind : DeltaKind) (deltas : List Delta) : String :=
  String.join ((deltas.filter fun d ↦ d.kind = kind).map Delta.text)

theorem joined_cons_self (d : Delta) (deltas : List Delta) :
    joined d.kind (d :: deltas) = d.text ++ joined d.kind deltas := by
  unfold joined
  rw [List.filter_cons_of_pos (by simp), List.map_cons, String.join_cons]

theorem joined_cons_ne {d : Delta} {kind : DeltaKind} (h : d.kind ≠ kind) (deltas : List Delta) :
    joined kind (d :: deltas) = joined kind deltas := by
  unfold joined
  rw [List.filter_cons_of_neg (by simpa using h)]

theorem joined_of_forall_ne {kind : DeltaKind} {deltas : List Delta}
    (h : ∀ d ∈ deltas, d.kind ≠ kind) : joined kind deltas = "" := by
  unfold joined
  rw [List.filter_eq_nil_iff.mpr fun d hd ↦ by simpa using h d hd]
  rfl

def Delta.apply (block : Fields) (d : Delta) : Option Fields :=
  appendText d.kind.field d.text block

theorem appendText_eq {key s : String} {block : Fields} (h : textAt key block = some s)
    (text : String) : appendText key text block = some (setField key (.str (s ++ text)) block) := by
  unfold appendText
  rw [h]
  rfl

theorem textAt_of_lookup {key s : String} {d : Fields} (h : d.lookup key = some (.str s)) :
    textAt key d = some s := by
  unfold textAt
  rw [h]

/-- What the texts of the deltas make of a block. -/
theorem apply_deltas (deltas : List Delta) (block : Fields)
    (hblock : ∀ d ∈ deltas, (textAt d.kind.field block).isSome) :
    ∃ block', deltas.foldlM Delta.apply block = some block' ∧
      (∀ key, (∀ d ∈ deltas, d.kind.field ≠ key) → block'.lookup key = block.lookup key) ∧
      ∀ kind s, textAt kind.field block = some s → (∃ d ∈ deltas, d.kind = kind) →
        block'.lookup kind.field = some (.str (s ++ joined kind deltas)) := by
  induction deltas generalizing block with
  | nil => exact ⟨block, rfl, fun key _ ↦ rfl, fun kind s _ ⟨d, hd, _⟩ ↦ by simp at hd⟩
  | cons d deltas ih =>
      obtain ⟨s₀, hs₀⟩ := Option.isSome_iff_exists.mp (hblock d List.mem_cons_self)
      have hstep : d.apply block = some (setField d.kind.field (.str (s₀ ++ d.text)) block) :=
        appendText_eq hs₀ d.text
      generalize hblock₁ : setField d.kind.field (.str (s₀ ++ d.text)) block = block₁ at hstep
      have hself : block₁.lookup d.kind.field = some (.str (s₀ ++ d.text)) := by
        rw [← hblock₁, lookup_setField_self]
      have hothers : ∀ key, key ≠ d.kind.field → block₁.lookup key = block.lookup key := by
        intro key hkey
        rw [← hblock₁, lookup_setField_ne hkey]
      have hblock' : ∀ e ∈ deltas, (textAt e.kind.field block₁).isSome := by
        intro e he
        by_cases hkind : e.kind = d.kind
        · rw [hkind, textAt_of_lookup hself]
          rfl
        · have hfield : e.kind.field ≠ d.kind.field := fun h ↦ hkind (DeltaKind.field_inj h)
          have hsome := hblock e (List.mem_cons_of_mem _ he)
          unfold textAt at hsome ⊢
          rw [hothers _ hfield]
          exact hsome
      obtain ⟨block', hrun, hkeep, hjoin⟩ := ih block₁ hblock'
      refine ⟨block', ?_, ?_, ?_⟩
      · rw [List.foldlM_cons, hstep]
        exact hrun
      · intro key hkey
        rw [hkeep key fun e he ↦ hkey e (List.mem_cons_of_mem _ he),
          hothers key (hkey d List.mem_cons_self).symm]
      · intro kind s hs hmem
        by_cases hkind : d.kind = kind
        · subst hkind
          obtain rfl : s₀ = s := Option.some.inj (hs₀.symm.trans hs)
          rw [joined_cons_self, ← String.append_assoc]
          by_cases hrest : ∃ e ∈ deltas, e.kind = d.kind
          · exact hjoin d.kind _ (textAt_of_lookup hself) hrest
          · push Not at hrest
            rw [joined_of_forall_ne hrest, String.append_empty, ← hself]
            apply hkeep
            intro e he hfield
            exact hrest e he (DeltaKind.field_inj hfield)
        · rw [joined_cons_ne hkind]
          apply hjoin kind s
          · unfold textAt at hs ⊢
            rw [hothers _ fun h ↦ hkind (DeltaKind.field_inj h).symm]
            exact hs
          · obtain ⟨e, he, hke⟩ := hmem
            rcases List.mem_cons.mp he with rfl | he
            · exact absurd hke hkind
            · exact ⟨e, he, hke⟩

/-- Where a block holds a text of the kind, the pieces are appended to it. -/
theorem lookup_of_apply {deltas : List Delta} {block block' : Fields} {s : String}
    (kind : DeltaKind)
    (hkeep : ∀ key, (∀ d ∈ deltas, d.kind.field ≠ key) → block'.lookup key = block.lookup key)
    (hjoin : ∀ kind s, textAt kind.field block = some s → (∃ d ∈ deltas, d.kind = kind) →
      block'.lookup kind.field = some (.str (s ++ joined kind deltas)))
    (hs : block.lookup kind.field = some (.str s)) :
    block'.lookup kind.field = some (.str (s ++ joined kind deltas)) := by
  by_cases hmem : ∃ d ∈ deltas, d.kind = kind
  · exact hjoin kind s (textAt_of_lookup hs) hmem
  · push Not at hmem
    rw [joined_of_forall_ne hmem, String.append_empty, ← hs]
    apply hkeep
    intro d hd hfield
    exact hmem d hd (DeltaKind.field_inj hfield)

section Streams

variable (loads : String → Option Json)

/-- A text that decodes to an input; there may be none for an empty one. -/
def InputText (raw : String) (input : Json) : Prop :=
  (pyStrip raw = "" ∧ input = .obj []) ∨ (pyStrip raw ≠ "" ∧ loads raw = some input)

/-- A block can be sent as a block to start with and pieces. -/
inductive StreamedAs : BlockBody → BlockBody → List Delta → Prop
  | text {content start : String} {deltas : List Delta} (hkind : ∀ d ∈ deltas, d.kind = .text)
      (hcontent : start ++ joined .text deltas = content) :
      StreamedAs (.text content) (.text start) deltas
  | thinking {content signature start startSignature : String} {deltas : List Delta}
      (hkind : ∀ d ∈ deltas, d.kind = .thinking ∨ d.kind = .signature)
      (hcontent : start ++ joined .thinking deltas = content)
      (hsignature : startSignature ++ joined .signature deltas = signature) :
      StreamedAs (.thinking content signature) (.thinking start startSignature) deltas
  | toolUse {id name : String} {input : Json} {deltas : List Delta}
      (hkind : ∀ d ∈ deltas, d.kind = .inputJson)
      (hinput : InputText loads (joined .inputJson deltas) input) :
      StreamedAs (.toolUse id name input) (.toolUse id name (.obj [])) deltas

variable {loads}

theorem streamedInput_eq {raw : String} {input : Json} (h : InputText loads raw input) :
    streamedInput loads raw = input := by
  unfold streamedInput
  rcases h with ⟨hempty, rfl⟩ | ⟨hraw, hloads⟩
  · rw [if_pos hempty]
  · rw [if_neg hraw, hloads]
    rfl

theorem withType_of_type {block : Fields} (h : (block.lookup "type").isSome) :
    withType block = block := if_pos h

theorem stopBlock_of_none {block : Fields} (h : block.lookup "_partial_json" = none) :
    stopBlock loads block = some block := by
  unfold stopBlock
  rw [h]

theorem ReplyBlock.lookup_partial (b : ReplyBlock) : b.dict.lookup "_partial_json" = none := by
  unfold ReplyBlock.dict
  rw [lookup_or_append, b.hrest]
  cases b.body <;> rfl

theorem lookup_text_ne {key : String} (h : key ≠ "text") (c c' : String) :
    (BlockBody.text c).dict.lookup key = (BlockBody.text c').dict.lookup key := by
  have hne : (key == "text") = false := beq_eq_false_iff_ne.mpr h
  simp only [BlockBody.dict, List.lookup_cons, hne]

theorem lookup_thinking_ne {key : String} (h : key ≠ "thinking") (h' : key ≠ "signature")
    (c c' s s' : String) :
    (BlockBody.thinking c s).dict.lookup key = (BlockBody.thinking c' s').dict.lookup key := by
  have hne : (key == "thinking") = false := beq_eq_false_iff_ne.mpr h
  have hne' : (key == "signature") = false := beq_eq_false_iff_ne.mpr h'
  simp only [BlockBody.dict, List.lookup_cons, hne, hne']

theorem lookup_toolUse_ne {key : String} (h : key ≠ "input") (id name : String) (j j' : Json) :
    (BlockBody.toolUse id name j).dict.lookup key =
      (BlockBody.toolUse id name j').dict.lookup key := by
  have hne : (key == "input") = false := beq_eq_false_iff_ne.mpr h
  simp only [BlockBody.dict, List.lookup_cons, hne]

/-- The pieces and the end of a block make this one of the block's start. -/
def Rebuilds (loads : String → Option Json) (deltas : List Delta) (start target : Fields) : Prop :=
  ∃ block block', deltas.foldlM Delta.apply start = some block ∧
    stopBlock loads block = some block' ∧ SameFields block' target

section Blocks

variable {rest start : Fields} {deltas : List Delta}

/-- Where no piece is of an input, the end of the block changes nothing. -/
theorem rebuilds_of_sameFields {block : Fields} {b : ReplyBlock}
    (hrun : deltas.foldlM Delta.apply start = some block) (hsame : SameFields block b.dict) :
    Rebuilds loads deltas start b.dict :=
  ⟨block, block, hrun, stopBlock_of_none ((hsame _).trans b.lookup_partial), hsame⟩

theorem streamed_text {content first : String} (hrest : rest.lookup "_partial_json" = none)
    (hkind : ∀ d ∈ deltas, d.kind = .text) (hcontent : first ++ joined .text deltas = content)
    (hstart : SameFields start ((BlockBody.text first).dict ++ rest)) :
    Rebuilds loads deltas start (ReplyBlock.dict ⟨.text content, rest, hrest⟩) := by
  have hfirst : start.lookup "text" = some (.str first) := hstart "text"
  obtain ⟨block, hrun, hkeep, hjoin⟩ := apply_deltas deltas start fun d hd ↦ by
    rw [hkind d hd]
    exact Option.isSome_iff_exists.mpr ⟨first, textAt_of_lookup hfirst⟩
  apply rebuilds_of_sameFields hrun
  intro key
  by_cases hkey : key = "text"
  · subst hkey
    have htext := lookup_of_apply .text hkeep hjoin hfirst
    rw [hcontent] at htext
    exact htext
  · rw [hkeep key fun d hd ↦ by rw [hkind d hd]; exact Ne.symm hkey, hstart key,
      lookup_or_append, lookup_text_ne hkey first content, ← lookup_or_append]
    rfl

theorem streamed_thinking {content signature first firstSignature : String}
    (hrest : rest.lookup "_partial_json" = none)
    (hkind : ∀ d ∈ deltas, d.kind = .thinking ∨ d.kind = .signature)
    (hcontent : first ++ joined .thinking deltas = content)
    (hsignature : firstSignature ++ joined .signature deltas = signature)
    (hstart : SameFields start ((BlockBody.thinking first firstSignature).dict ++ rest)) :
    Rebuilds loads deltas start (ReplyBlock.dict ⟨.thinking content signature, rest, hrest⟩) := by
  have hfirst : start.lookup "thinking" = some (.str first) := hstart "thinking"
  have hfirstSignature : start.lookup "signature" = some (.str firstSignature) :=
    hstart "signature"
  obtain ⟨block, hrun, hkeep, hjoin⟩ := apply_deltas deltas start fun d hd ↦ by
    rcases hkind d hd with hk | hk
    · rw [hk]
      exact Option.isSome_iff_exists.mpr ⟨first, textAt_of_lookup hfirst⟩
    · rw [hk]
      exact Option.isSome_iff_exists.mpr ⟨firstSignature, textAt_of_lookup hfirstSignature⟩
  apply rebuilds_of_sameFields hrun
  intro key
  by_cases hkey : key = "thinking"
  · subst hkey
    have htext := lookup_of_apply .thinking hkeep hjoin hfirst
    rw [hcontent] at htext
    exact htext
  · by_cases hkey' : key = "signature"
    · subst hkey'
      have htext := lookup_of_apply .signature hkeep hjoin hfirstSignature
      rw [hsignature] at htext
      exact htext
    · have hfields : ∀ d ∈ deltas, d.kind.field ≠ key := by
        intro d hd
        rcases hkind d hd with hk | hk
        · rw [hk]
          exact Ne.symm hkey
        · rw [hk]
          exact Ne.symm hkey'
      rw [hkeep key hfields, hstart key, lookup_or_append,
        lookup_thinking_ne hkey hkey' first content firstSignature signature, ← lookup_or_append]
      rfl

theorem streamed_toolUse {id name : String} {input : Json}
    (hrest : rest.lookup "_partial_json" = none) (hkind : ∀ d ∈ deltas, d.kind = .inputJson)
    (hinput : InputText loads (joined .inputJson deltas) input)
    (hstart : SameFields start ((BlockBody.toolUse id name (.obj [])).dict ++ rest)) :
    Rebuilds loads deltas start (ReplyBlock.dict ⟨.toolUse id name input, rest, hrest⟩) := by
  have hstartPartial : start.lookup "_partial_json" = none := by
    rw [hstart, lookup_or_append, hrest]
    rfl
  have hnone : textAt "_partial_json" start = some "" := by
    unfold textAt
    rw [hstartPartial]
  obtain ⟨block, hrun, hkeep, hjoin⟩ := apply_deltas deltas start fun d hd ↦ by
    rw [hkind d hd]
    exact Option.isSome_iff_exists.mpr ⟨"", hnone⟩
  cases deltas with
  | nil =>
      -- nothing was sent, so the input is empty as it was at the start
      have hempty : input = .obj [] := by
        rw [← streamedInput_eq hinput]
        rfl
      subst hempty
      apply rebuilds_of_sameFields hrun
      intro key
      exact (hkeep key (by simp)).trans (hstart key)
  | cons d deltas =>
      have hraw := hjoin .inputJson "" hnone ⟨d, List.mem_cons_self, hkind d List.mem_cons_self⟩
      rw [String.empty_append] at hraw
      generalize joined .inputJson (d :: deltas) = raw at hraw hinput
      have hstop : stopBlock loads block = some (setField "input" input
          (block.filter fun f ↦ f.1 ≠ "_partial_json")) := by
        unfold stopBlock
        rw [show block.lookup "_partial_json" = some (.str raw) from hraw]
        simp only [streamedInput_eq hinput]
      refine ⟨block, _, hrun, hstop, ?_⟩
      intro key
      by_cases hkey : key = "input"
      · subst hkey
        rw [lookup_setField_self]
        rfl
      · rw [lookup_setField_ne hkey]
        by_cases hkey' : key = "_partial_json"
        · subst hkey'
          rw [lookup_filter_self, ReplyBlock.lookup_partial]
        · rw [lookup_filter_ne hkey',
            hkeep key fun e he ↦ by rw [hkind e he]; exact Ne.symm hkey', hstart key,
            lookup_or_append, lookup_toolUse_ne hkey id name _ input, ← lookup_or_append]
          rfl

end Blocks

/-- The pieces of a block make the block. -/
theorem streamed_block {b : ReplyBlock} {body : BlockBody} {start : Fields} {deltas : List Delta}
    (h : StreamedAs loads b.body body deltas) (hstart : SameFields start (body.dict ++ b.rest)) :
    Rebuilds loads deltas (withType start) b.dict := by
  have htype : (start.lookup "type").isSome := by
    rw [hstart, lookup_or_append]
    cases body <;> rfl
  rw [withType_of_type htype]
  obtain ⟨b, rest, hrest⟩ := b
  cases h with
  | text hkind hcontent => exact streamed_text hrest hkind hcontent hstart
  | thinking hkind hcontent hsignature =>
      exact streamed_thinking hrest hkind hcontent hsignature hstart
  | toolUse hkind hinput => exact streamed_toolUse hrest hkind hinput hstart

/-! ## Events of a stream -/

/-- A top-level change. -/
structure MessageDelta where
  delta : Fields
  usage : Fields

inductive StreamEvent where
  | messageStart (message : Fields)
  | blockStart (i : ℕ) (block : Fields)
  | blockDelta (i : ℕ) (delta : Delta)
  | blockStop (i : ℕ)
  | messageDelta (change : MessageDelta)
  | other

def IndexAt (i : ℕ) (data : Fields) : Prop :=
  ∃ text, data.lookup "index" = some (.num text) ∧ text.toInt? = some (i : ℤ)

/-- The event is the one of a type, with decoded data. -/
inductive StreamEvent.Carried : StreamEvent → String × Json → Prop
  | messageStart {data message : Fields} (h : data.lookup "message" = some (.obj message)) :
      Carried (.messageStart message) ("message_start", .obj data)
  | blockStart {i : ℕ} {data block : Fields} (hi : IndexAt i data)
      (h : data.lookup "content_block" = some (.obj block)) :
      Carried (.blockStart i block) ("content_block_start", .obj data)
  | blockDelta {i : ℕ} {data delta : Fields} {d : Delta} (hi : IndexAt i data)
      (h : data.lookup "delta" = some (.obj delta))
      (htype : delta.lookup "type" = some (.str d.kind.type))
      (htext : delta.lookup d.kind.key = some (.str d.text)) :
      Carried (.blockDelta i d) ("content_block_delta", .obj data)
  | blockStop {i : ℕ} {data : Fields} (hi : IndexAt i data) :
      Carried (.blockStop i) ("content_block_stop", .obj data)
  | messageDelta {data : Fields} {change : MessageDelta}
      (h : dictAt "delta" data = some change.delta)
      (husage : dictAt "usage" data = some change.usage) :
      Carried (.messageDelta change) ("message_delta", .obj data)
  | other {eventType : String} {data : Json}
      (h : eventType ∉ ["message_start", "content_block_start", "content_block_delta",
        "content_block_stop", "message_delta", "error"]) :
      Carried .other (eventType, data)

namespace Accumulator

def putBlock (acc : Accumulator) (i : ℕ) (block : Fields) : Accumulator :=
  { acc with blocks :=
      (acc.blocks ++ List.replicate (i + 1 - acc.blocks.length) none).set i (some block) }

def changeBlock (acc : Accumulator) (i : ℕ) (f : Fields → Option Fields) : Option Accumulator :=
  match acc.blocks[i]?.join with
  | some block => (f block).map fun block ↦ { acc with blocks := acc.blocks.set i (some block) }
  | none => some acc

/-- The start of a message, for its top-level fields and its usage. -/
def startMessage (message : Fields) (s : Fields × Fields) : Option (Fields × Fields) :=
  (dictAt "usage" message).map fun usage ↦
    (copyFields ["id", "model", "role", "type"] message s.1, usage)

def changeMessage (change : MessageDelta) (s : Fields × Fields) : Fields × Fields :=
  (copyFields ["stop_reason", "stop_sequence"] change.delta s.1,
    updateFields s.2 (change.usage.filter fun f ↦ match f.2 with
      | .null => false
      | _ => true))

variable (loads) in
/-- The step at an event. -/
def take (acc : Accumulator) : StreamEvent → Option Accumulator
  | .messageStart message => (startMessage message (acc.message, acc.usage)).map fun s ↦
      { acc with message := s.1, usage := s.2 }
  | .blockStart i block => some (acc.putBlock i (withType block))
  | .blockDelta i delta => acc.changeBlock i fun block ↦ delta.apply block
  | .blockStop i => acc.changeBlock i (stopBlock loads)
  | .messageDelta change =>
      let s := changeMessage change (acc.message, acc.usage)
      some { acc with message := s.1, usage := s.2 }
  | .other => some acc

theorem onBlock_eq (acc : Accumulator) {i : ℕ} {data : Fields} (hi : IndexAt i data)
    (f : Fields → Option Fields) : acc.onBlock data f = acc.changeBlock i f := by
  obtain ⟨text, hindex, htext⟩ := hi
  unfold onBlock changeBlock
  rw [hindex]
  simp only [htext, Option.bind_eq_bind, Option.bind_some]
  by_cases hlen : acc.blocks.length ≤ i
  · rw [if_pos (by omega), List.getElem?_eq_none hlen]
    rfl
  · have hpy : pyIndex acc.blocks.length i = some i := by
      unfold pyIndex
      rw [if_pos (by omega), if_pos (by omega)]
      rfl
    rw [if_neg (by omega), hpy, Option.bind_some]
    cases hblock : acc.blocks[i]? with
    | none => rfl
    | some block =>
        cases block with
        | none => rfl
        | some block => cases hf : f block <;> simp [hf]

theorem blockStart_eq (acc : Accumulator) {i : ℕ} {data block : Fields} (hi : IndexAt i data)
    (h : data.lookup "content_block" = some (.obj block)) :
    acc.blockStart data = some (acc.putBlock i (withType block)) := by
  obtain ⟨text, hindex, htext⟩ := hi
  unfold blockStart putBlock dictAt
  rw [hindex, h]
  have hlen : ((i : ℤ) + 1 - acc.blocks.length).toNat = i + 1 - acc.blocks.length := by omega
  have hpy : pyIndex (acc.blocks ++ List.replicate (i + 1 - acc.blocks.length) none).length i =
      some i := by
    unfold pyIndex
    rw [if_pos (by omega), if_pos (by rw [List.length_append, List.length_replicate]; omega)]
    rfl
  simp only [htext, Option.bind_eq_bind, Option.bind_some, hlen, hpy]
  rfl

theorem applyDelta_eq {delta : Fields} {d : Delta}
    (htype : delta.lookup "type" = some (.str d.kind.type))
    (htext : delta.lookup d.kind.key = some (.str d.text)) (block : Fields) :
    applyDelta delta block = d.apply block := by
  obtain ⟨kind, text⟩ := d
  have hread : textAt kind.key delta = some text := textAt_of_lookup htext
  unfold applyDelta Delta.apply
  rw [htype]
  cases kind <;> simp_all only [DeltaKind.type, DeltaKind.key] <;> rfl

theorem step_eq_take (acc : Accumulator) {e : StreamEvent} {p : String × Json} (h : e.Carried p) :
    acc.step loads p.1 p.2 = acc.take loads e := by
  cases h with
  | @messageStart data message h =>
      have hmessage : dictAt "message" data = some message := by
        unfold dictAt
        rw [h]
      simp only [step, messageStart, take, startMessage, hmessage, Option.bind_eq_bind,
        Option.bind_some]
      cases dictAt "usage" message <;> rfl
  | blockStart hi h => exact blockStart_eq acc hi h
  | blockDelta hi h htype htext =>
      simp only [step, take]
      rw [onBlock_eq acc hi]
      congr 1
      funext block
      simp only [dictAt, h]
      exact applyDelta_eq htype htext block
  | blockStop hi => exact onBlock_eq acc hi _
  | messageDelta h husage =>
      simp only [step, messageDelta, take, changeMessage, h, husage]
      rfl
  | other h =>
      simp only [List.mem_cons, List.not_mem_nil, not_or] at h
      unfold step
      split <;> simp_all [take]

/-! ## Parts -/

end Accumulator

/-- What an event is about: a block, or the message around the blocks. -/
inductive Part where
  | message
  | block (i : ℕ)
deriving DecidableEq

abbrev Part.State : Part → Type
  | .message => Fields × Fields
  | .block _ => Option Fields

/-- The states of all parts. -/
def Part.states (message : Fields × Fields) (block : ℕ → Option Fields) : (p : Part) → p.State
  | .message => message
  | .block i => block i

def StreamEvent.part : StreamEvent → Option Part
  | .messageStart _ | .messageDelta _ => some .message
  | .blockStart i _ | .blockDelta i _ | .blockStop i => some (.block i)
  | .other => none

def Accumulator.view : (p : Part) → Accumulator → p.State
  | .message, acc => (acc.message, acc.usage)
  | .block i, acc => acc.blocks[i]?.join

variable (loads) in
/-- The step of one part. -/
def StreamEvent.stepAt : (p : Part) → p.State → StreamEvent → Option p.State
  | .message, s, .messageStart message => Accumulator.startMessage message s
  | .message, s, .messageDelta change => some (Accumulator.changeMessage change s)
  | .block _, _, .blockStart _ block => some (some (withType block))
  | .block _, some block, .blockDelta _ delta => (delta.apply block).map some
  | .block _, some block, .blockStop _ => (stopBlock loads block).map some
  | _, s, _ => some s

namespace Accumulator

theorem putBlock_self (acc : Accumulator) (i : ℕ) (block : Fields) :
    (acc.putBlock i block).blocks[i]?.join = some block := by
  have hi : i < (acc.blocks ++ List.replicate (i + 1 - acc.blocks.length) none).length := by
    rw [List.length_append, List.length_replicate]
    omega
  unfold putBlock
  rw [List.getElem?_set_self hi]
  rfl

theorem putBlock_ne (acc : Accumulator) {i j : ℕ} (h : j ≠ i) (block : Fields) :
    (acc.putBlock i block).blocks[j]?.join = acc.blocks[j]?.join := by
  unfold putBlock
  rw [List.getElem?_set_ne (Ne.symm h)]
  by_cases hj : j < acc.blocks.length
  · rw [List.getElem?_append_left hj]
  · rw [List.getElem?_append_right (by omega), List.getElem?_replicate,
      List.getElem?_eq_none (by omega)]
    split
    · rfl
    · rfl

/-- A change of one block, where it is there and where it is not. -/
theorem changeBlock_local (acc : Accumulator) {i : ℕ} {f : Fields → Option Fields}
    {v : Option Fields}
    (h : (match acc.blocks[i]?.join with
      | some block => (f block).map some
      | none => some none) = some v) :
    ∃ acc', acc.changeBlock i f = some acc' ∧ acc'.view (.block i) = v ∧
      ∀ p, p ≠ .block i → acc'.view p = acc.view p := by
  unfold changeBlock
  cases hblock : acc.blocks[i]?.join with
  | none =>
      rw [hblock] at h
      obtain rfl := Option.some.inj h
      exact ⟨acc, rfl, hblock, fun p _ ↦ rfl⟩
  | some block =>
      rw [hblock] at h
      obtain ⟨block', hf, rfl⟩ := Option.map_eq_some_iff.mp h
      have hi : i < acc.blocks.length := by
        by_contra hlen
        rw [List.getElem?_eq_none (by omega)] at hblock
        cases hblock
      refine ⟨{ acc with blocks := acc.blocks.set i (some block') }, ?_, ?_, ?_⟩
      · simp only [hf]
        rfl
      · have hself : (acc.blocks.set i (some block'))[i]? = some (some block') :=
          List.getElem?_set_self hi
        exact congrArg Option.join hself
      · intro p hp
        cases p with
        | message => rfl
        | block j =>
            have hne : (acc.blocks.set i (some block'))[j]? = acc.blocks[j]? :=
              List.getElem?_set_ne fun h ↦ hp (congrArg Part.block h.symm)
            exact congrArg Option.join hne

/-- An event changes its own part only. -/
theorem take_local : Local (take loads) StreamEvent.part view (StreamEvent.stepAt loads) where
  idle := by
    intro acc e hpart
    cases e with
    | other => exact ⟨acc, rfl, fun p ↦ rfl⟩
    | _ => cases hpart
  moves := by
    intro acc e p v hpart hstep
    cases e with
    | messageStart message =>
        obtain rfl := Option.some.inj hpart
        obtain ⟨m, u⟩ := v
        have hstart : startMessage message (acc.message, acc.usage) = some (m, u) := hstep
        refine ⟨{ acc with message := m, usage := u }, ?_, rfl, ?_⟩
        · simp only [take, hstart]
          rfl
        · intro p hp
          cases p with
          | message => exact absurd rfl hp
          | block i => rfl
    | blockStart i block =>
        obtain rfl := Option.some.inj hpart
        obtain rfl := Option.some.inj hstep
        refine ⟨acc.putBlock i (withType block), rfl, acc.putBlock_self i _, ?_⟩
        intro p hp
        cases p with
        | message => rfl
        | block j => exact acc.putBlock_ne (fun h ↦ hp (congrArg Part.block h)) _
    | blockDelta i delta =>
        obtain rfl := Option.some.inj hpart
        exact acc.changeBlock_local (Eq.trans (by
          change _ = StreamEvent.stepAt loads (.block i) acc.blocks[i]?.join (.blockDelta i delta)
          cases acc.blocks[i]?.join <;> rfl) hstep)
    | blockStop i =>
        obtain rfl := Option.some.inj hpart
        exact acc.changeBlock_local (Eq.trans (by
          change _ = StreamEvent.stepAt loads (.block i) acc.blocks[i]?.join (.blockStop i)
          cases acc.blocks[i]?.join <;> rfl) hstep)
    | messageDelta change =>
        obtain rfl := Option.some.inj hpart
        obtain rfl := Option.some.inj hstep
        refine ⟨_, rfl, rfl, ?_⟩
        intro p hp
        cases p with
        | message => exact absurd rfl hp
        | block i => rfl
    | other => cases hpart

end Accumulator

end Streams

end NucLlm.AgentLoop
