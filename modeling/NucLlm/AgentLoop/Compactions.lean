import NucLlm.AgentLoop.Compaction
import Mathlib.Data.List.TakeWhile

/-!
# Compaction again and again

A history grows and is compacted, any number of times.  The drop stubs stay in front of the
first step, and what they count adds up to all that has been dropped.
-/

namespace NucLlm.AgentLoop

/-- The dropped steps that a message counts. -/
def Message.dropped (m : Message) : ℕ := m.droppedSteps.getD 0

/-- The dropped steps that the stubs of a history count. -/
def droppedOf (ms : List Message) : ℕ := (ms.map Message.dropped).sum

/-- A history that has been compacted any number of times, and the steps dropped so far.  Only
compaction makes drop stubs. -/
inductive Grown : List Entry → ℕ → Prop where
  | start {messages : List Entry} : WellPaired messages →
      (∀ e ∈ messages, e.Valid ∧ e.msg.dropped = 0) → Grown messages 0
  | extend {messages more : List Entry} {n : ℕ} : Grown messages n → WellPaired (messages ++ more) →
      (∀ e ∈ more, e.Valid ∧ e.msg.dropped = 0) → Grown (messages ++ more) n
  | recache {messages messages' : List Entry} {n : ℕ} : Grown messages n →
      messages'.map Entry.msg = messages.map Entry.msg → (∀ e ∈ messages', e.Valid) →
      Grown messages' n
  | compact {messages : List Entry} {n : ℕ} (budget : ContextBudget) (est : Estimator)
      (tools : List Json) : Grown messages n → 0 < est.charsPerToken →
      Grown (compact messages budget est tools).1
        (n + (compact messages budget est tools).2.droppedSteps)

/-- The stubs are in front of the first step. -/
def StubsFirst (ms : List Message) : Prop :=
  ms.Pairwise fun m m' ↦ m.isAssistant = true → m'.dropped = 0

/-- What holds of every history. -/
structure WellGrown (messages : List Entry) (n : ℕ) : Prop where
  paired : WellPaired messages
  valid : ∀ e ∈ messages, e.Valid
  stubbed : ∀ e ∈ messages, e.Stubbed
  stubsFirst : StubsFirst (messages.map Entry.msg)
  counted : droppedOf (messages.map Entry.msg) = n

theorem droppedOf_append (ms ms' : List Message) :
    droppedOf (ms ++ ms') = droppedOf ms + droppedOf ms' := by
  simp [droppedOf]

theorem droppedOf_cons (m : Message) (ms : List Message) :
    droppedOf (m :: ms) = m.dropped + droppedOf ms := by
  simp [droppedOf]

theorem droppedOf_eq_zero {ms : List Message} (h : ∀ m ∈ ms, m.dropped = 0) : droppedOf ms = 0 := by
  unfold droppedOf
  rw [List.sum_eq_zero]
  intro n hn
  obtain ⟨m, hm, rfl⟩ := List.mem_map.mp hn
  exact h m hm

theorem Message.dropped_dropStub (n : ℕ) (tools : List String) :
    (dropStub n tools).msg.dropped = n := rfl

theorem dropped_elided (m : Message) : m.elided.dropped = m.dropped := by
  unfold Message.dropped
  rw [droppedSteps_elided]

theorem map_elideAt {α : Type} (f : Message → α) (h : ∀ m, f m.elided = f m) (is : List ℕ)
    (ms : List Message) : (elideAt is ms).map f = ms.map f := by
  apply List.ext_getElem?
  intro i
  rw [List.getElem?_map, getElem?_elideAt, List.getElem?_map, Option.map_map]
  congr 1
  funext m
  simp only [Function.comp_apply]
  split
  · exact h m
  · rfl

theorem droppedOf_elideAt (is : List ℕ) (ms : List Message) :
    droppedOf (elideAt is ms) = droppedOf ms := by
  unfold droppedOf
  rw [map_elideAt _ dropped_elided]

/-! ## In front of the first step -/

/-- The index of the first assistant message. -/
def firstStep (messages : List Entry) : ℕ :=
  (messages.takeWhile fun e ↦ !e.msg.isAssistant).length

theorem start_eq_firstStep {messages : List Entry} {start : ℕ}
    (h : (steps messages).head?.map Prod.fst = some start) : start = firstStep messages := by
  have hhead := (stepsFrom_spec 0 messages).1
  unfold steps at h
  rw [h] at hhead
  split at hhead
  · rw [Option.some.injEq] at hhead
    rw [hhead, Nat.zero_add]
    rfl
  · contradiction

/-- Nothing is answered in front of the first step. -/
theorem isTool_of_mem_front {messages : List Entry} (h : WellPaired messages) :
    ∀ e ∈ messages.takeWhile fun e ↦ !e.msg.isAssistant, e.msg.isTool = false := by
  induction h with
  | nil => simp
  | turn a results rest hfirst hresults hrest ih =>
      cases hassistant : a.msg.isAssistant with
      | true => simp [hassistant]
      | false =>
          have hcalls : a.callKeys = [] := by
            obtain ⟨msg, chars⟩ := a
            cases msg <;> first
              | contradiction
              | rfl
          have hnil : results = [] := by
            rw [hcalls, List.map_nil, List.map_eq_nil_iff] at hresults
            exact hresults
          subst hnil
          rw [List.takeWhile_cons_of_pos (by simp [hassistant])]
          exact List.forall_mem_cons.mpr ⟨(Entry.answers_eq_none a).mp hfirst, ih⟩

theorem firstStep_le_of_fullAt {messages : List Entry} (h : WellPaired messages) {i : ℕ}
    (hi : FullAt messages i) : firstStep messages ≤ i := by
  obtain ⟨e, he, hfull⟩ := hi
  by_contra hlt
  have hfront : (messages.takeWhile fun e ↦ !e.msg.isAssistant)[i]? = some e := by
    have hfront' := List.takeWhile_prefix (l := messages) fun e ↦ !e.msg.isAssistant
    have hget := List.getElem?_eq_getElem (not_le.mp hlt)
    exact hget.trans ((Lists.getElem?_of_begins hfront' hget).symm.trans he)
  have htool := isTool_of_mem_front h e (List.mem_of_getElem? hfront)
  obtain ⟨msg, chars⟩ := e
  cases msg <;> simp_all [Message.isFullObservation, Message.isTool]

/-- Only what is behind the first of the elided messages has changed. -/
theorem take_elideAt {is : List ℕ} {k : ℕ} (h : ∀ i ∈ is, k ≤ i) (ms : List Message) :
    (elideAt is ms).take k = ms.take k := by
  apply List.ext_getElem?
  intro i
  rw [List.getElem?_take, List.getElem?_take]
  split
  · rename_i hi
    have hnot : i ∉ is := fun hmem ↦ absurd (h i hmem) (not_le.mpr hi)
    rw [getElem?_elideAt]
    simp [hnot]
  · rfl

theorem dropped_of_isAssistant {m : Message} (h : m.isAssistant = true) : m.dropped = 0 := by
  cases m <;> first
    | contradiction
    | rfl

theorem isAssistant_firstStep (messages : List Entry) (h : firstStep messages < messages.length) :
    messages[firstStep messages].msg.isAssistant = true := by
  have hdrop := Lists.drop_length_takeWhile (fun e : Entry ↦ !e.msg.isAssistant) messages
  have hhead := List.head?_dropWhile_not (fun e : Entry ↦ !e.msg.isAssistant) messages
  change messages.drop (firstStep messages) = _ at hdrop
  rw [← hdrop, List.head?_drop, List.getElem?_eq_getElem h] at hhead
  simpa using hhead

/-- Nothing from the first step on counts dropped steps. -/
theorem StubsFirst.dropped_eq_zero {messages : List Entry}
    (h : StubsFirst (messages.map Entry.msg)) (elided : List ℕ) {k : ℕ}
    (hk : firstStep messages ≤ k) :
    ∀ m ∈ (elideAt elided (messages.map Entry.msg)).drop k, m.dropped = 0 := by
  intro m hm
  obtain ⟨j, hj⟩ := List.mem_iff_getElem?.mp hm
  rw [List.getElem?_drop, getElem?_elideAt, List.getElem?_map, Option.map_map] at hj
  obtain ⟨e, he, rfl⟩ := Option.map_eq_some_iff.mp hj
  obtain ⟨hlt, rfl⟩ := List.getElem?_eq_some_iff.mp he
  have hassistant := isAssistant_firstStep messages (by omega)
  have hzero : messages[k + j].msg.dropped = 0 := by
    rcases Nat.eq_or_lt_of_le (hk.trans (Nat.le_add_right k j)) with heq | hafter
    · simp only [← heq]
      exact dropped_of_isAssistant hassistant
    · have hpair := List.pairwise_iff_getElem.mp h (firstStep messages) (k + j)
        (by rw [List.length_map]; omega) (by rw [List.length_map]; omega) hafter
      rw [List.getElem_map, List.getElem_map] at hpair
      exact hpair hassistant
  simp only [Function.comp_apply]
  split
  · rw [dropped_elided, hzero]
  · exact hzero

/-! ## One compaction -/

/-- What `compact` keeps to. -/
structure Contract (messages : List Entry) (budget : ContextBudget) (est : Estimator)
    (tools : List Json) (c : List Entry × CompactionReport) (elided : List ℕ) (dropped : ℕ) :
    Prop where
  /-- The messages in front of the first step are unchanged, but for a drop stub at their end. -/
  front : ∃ kept stubs, (messages.takeWhile fun e ↦ !e.msg.isAssistant).map Entry.msg =
    kept ++ stubs ∧ (stubs = [] ∨ ∃ stub, stubs = [stub] ∧ stub.dropped ≠ 0) ∧
    kept <+: c.1.map Entry.msg
  /-- None of the newest observations is elided. -/
  recent : ∀ i ∈ elided, FullAt messages i ∧
    budget.keepRecentResults ≤ (messages.drop (i + 1)).countP fun e ↦ e.msg.isTool
  /-- None of the newest steps is dropped. -/
  newest : ∀ step ∈ (steps messages).drop ((steps messages).length - budget.minStepsKept),
    (elideAt elided (messages.map Entry.msg)).drop step.1 <:+ c.1.map Entry.msg
  /-- What is dropped is one run of messages, from the first step to the end of another. -/
  run : ∃ dropAt, Ran budget messages elided dropped (c.1.map Entry.msg) dropAt
  reported : c.2.elidedResults = elided.length ∧ elided.Nodup ∧ c.2.droppedSteps = dropped
  /-- The stubs count what has been dropped. -/
  counts : droppedOf (c.1.map Entry.msg) = droppedOf (messages.map Entry.msg) + dropped
  /-- Nothing in front of the first changed index has changed. -/
  untouched : ∀ k, (∀ i, c.2.firstChangedIndex = some i → k ≤ i) →
    (c.1.map Entry.msg).take k = (messages.map Entry.msg).take k
  /-- If it does not fit, nothing more could be elided or dropped. -/
  floor : c.2.fits = false → (∀ i, EligibleAt budget messages i → i ∈ elided) ∧
    dropped = (steps messages).length - budget.minStepsKept
  /-- The size that is kept while observations are elided is the size. -/
  running : ∀ is, is <+: candidates budget (messages.map Entry.cached) →
    let el := elideLoop est budget.target is
      { messages := messages.map Entry.cached, chars := charsOf (messages.map Entry.cached) tools }
    el.chars = charsOf el.messages tools

theorem map_takeWhile_msg (messages : List Entry) :
    (messages.takeWhile fun e ↦ !e.msg.isAssistant).map Entry.msg =
      (messages.map Entry.msg).take (firstStep messages) := by
  have htake := List.prefix_iff_eq_take.mp
    (List.takeWhile_prefix (l := messages) fun e ↦ !e.msg.isAssistant)
  rw [← List.map_take]
  exact congrArg _ htake

theorem front_of_ran {budget : ContextBudget} {messages : List Entry} {elided : List ℕ}
    {dropped : ℕ} {result : List Message} {dropAt : Option ℕ}
    (h : Ran budget messages elided dropped result dropAt)
    (helided : ∀ i ∈ elided, firstStep messages ≤ i) :
    ∃ kept stubs, (messages.takeWhile fun e ↦ !e.msg.isAssistant).map Entry.msg = kept ++ stubs ∧
      (stubs = [] ∨ ∃ stub, stubs = [stub] ∧ stub.dropped ≠ 0) ∧ kept <+: result := by
  have htake := take_elideAt helided (messages.map Entry.msg)
  rw [map_takeWhile_msg, ← htake]
  cases h with
  | kept => exact ⟨_, [], (List.append_nil _).symm, .inl rfl, List.take_prefix _ _⟩
  | cut _ _ hstart _ hcut =>
      obtain rfl := start_eq_firstStep hstart
      cases hcut with
      | alone tools _ => exact ⟨_, [], (List.append_nil _).symm, .inl rfl, List.prefix_append _ _⟩
      | merged tools heq hprev =>
          exact ⟨_, _, heq, .inr ⟨_, rfl, hprev⟩, List.prefix_append _ _⟩

theorem newest_of_ran {budget : ContextBudget} {messages : List Entry} {elided : List ℕ}
    {dropped : ℕ} {result : List Message} {dropAt : Option ℕ}
    (h : Ran budget messages elided dropped result dropAt) :
    ∀ step ∈ (steps messages).drop ((steps messages).length - budget.minStepsKept),
      (elideAt elided (messages.map Entry.msg)).drop step.1 <:+ result := by
  intro step hstep
  cases h with
  | kept => exact List.drop_suffix _ _
  | @cut _ start stop at_ _ hpos hkept hstart hstop hcut =>
      obtain ⟨j, hj⟩ := List.mem_iff_getElem?.mp hstep
      rw [List.getElem?_drop] at hj
      obtain ⟨last, hlast, rfl⟩ := Option.map_eq_some_iff.mp hstop
      obtain ⟨hi, rfl⟩ := List.getElem?_eq_some_iff.mp hlast
      obtain ⟨hj', rfl⟩ := List.getElem?_eq_some_iff.mp hj
      have hle := List.pairwise_iff_getElem.mp (stepsFrom_spec 0 messages).2.1 _ _ hi hj' (by omega)
      have hsuffix : (elideAt elided (messages.map Entry.msg)).drop
          ((steps messages)[(steps messages).length - budget.minStepsKept + j]).1 <:+
          (elideAt elided (messages.map Entry.msg)).drop ((steps messages)[dropped - 1]).2 :=
        List.drop_suffix_drop_left _ hle
      refine hsuffix.trans ?_
      cases hcut with
      | alone tools _ => exact (List.suffix_cons _ _).trans (List.suffix_append _ _)
      | merged tools _ _ => exact (List.suffix_cons _ _).trans (List.suffix_append _ _)

theorem droppedOf_of_ran {budget : ContextBudget} {messages : List Entry} {elided : List ℕ}
    {dropped : ℕ} {result : List Message} {dropAt : Option ℕ}
    (h : Ran budget messages elided dropped result dropAt)
    (hstubs : StubsFirst (messages.map Entry.msg)) :
    droppedOf result = droppedOf (messages.map Entry.msg) + dropped := by
  rw [← droppedOf_elideAt elided (messages.map Entry.msg)]
  cases h with
  | kept => rfl
  | @cut _ start stop at_ _ hpos hkept hstart hstop hcut =>
      obtain rfl := start_eq_firstStep hstart
      have hsplit := List.take_append_drop (firstStep messages)
        (elideAt elided (messages.map Entry.msg))
      have hbehind : droppedOf
          ((elideAt elided (messages.map Entry.msg)).drop (firstStep messages)) = 0 :=
        droppedOf_eq_zero (hstubs.dropped_eq_zero elided le_rfl)
      have hstop' : firstStep messages ≤ stop := by
        obtain ⟨step, hstep, rfl⟩ := Option.map_eq_some_iff.mp hstop
        obtain ⟨first, hfirst, hstart'⟩ := Option.map_eq_some_iff.mp hstart
        obtain ⟨-, hpairwise, hbounds⟩ := stepsFrom_spec 0 messages
        have hmem := List.mem_of_getElem? hstep
        have hlt := (hbounds step hmem).2.1
        have hsteps : steps messages = first :: (steps messages).tail :=
          List.eq_cons_of_mem_head? hfirst
        have hle : first.1 ≤ step.1 := by
          unfold steps at hsteps hmem
          rw [hsteps] at hmem hpairwise hbounds
          rcases List.mem_cons.mp hmem with rfl | hmem
          · exact le_rfl
          · have hfirst' := (hbounds first List.mem_cons_self).2.1
            exact hfirst'.le.trans ((List.pairwise_cons.mp hpairwise).1 step hmem)
        omega
      have hrest : droppedOf ((elideAt elided (messages.map Entry.msg)).drop stop) = 0 :=
        droppedOf_eq_zero (hstubs.dropped_eq_zero elided hstop')
      have hfront := congrArg droppedOf hsplit
      rw [droppedOf_append, hbehind, Nat.add_zero] at hfront
      rw [← hfront]
      cases hcut with
      | alone tools _ =>
          rw [droppedOf_append, droppedOf_cons, hrest]
          rfl
      | merged tools heq hprev =>
          rw [heq, droppedOf_append, droppedOf_append, droppedOf_cons, droppedOf_cons, hrest,
            Message.dropped_dropStub, Nat.add_zero, ← Nat.add_assoc]
          rfl

theorem take_of_ran {budget : ContextBudget} {messages : List Entry} {elided : List ℕ}
    {dropped : ℕ} {result : List Message} {dropAt : Option ℕ}
    (h : Ran budget messages elided dropped result dropAt) {k : ℕ} (helided : ∀ i ∈ elided, k ≤ i)
    (hdropAt : ∀ i, dropAt = some i → k ≤ i) :
    result.take k = (messages.map Entry.msg).take k := by
  rw [← take_elideAt helided (messages.map Entry.msg)]
  cases h with
  | kept => rfl
  | @cut _ start stop at_ _ hpos hkept hstart hstop hcut =>
      have hk := hdropAt at_ rfl
      have hprefix : ∀ (front : List Message) rest, k ≤ front.length →
          front <+: elideAt elided (messages.map Entry.msg) →
          (front ++ rest).take k = (elideAt elided (messages.map Entry.msg)).take k := by
        rintro front rest hlength ⟨behind, hbehind⟩
        rw [← hbehind, List.take_append_of_le_length hlength, List.take_append_of_le_length hlength]
      cases hcut with
      | alone tools _ =>
          refine hprefix _ _ ?_ (List.take_prefix _ _)
          obtain ⟨step, hstep, rfl⟩ := Option.map_eq_some_iff.mp hstart
          obtain ⟨-, -, hbounds⟩ := stepsFrom_spec 0 messages
          have hbound := hbounds step (List.mem_of_mem_head? hstep)
          rw [List.length_take, length_elideAt, List.length_map]
          omega
      | @merged tools front prev heq _ =>
          have hfront : front <+: (elideAt elided (messages.map Entry.msg)).take start := by
            rw [heq]
            exact List.prefix_append _ _
          exact hprefix _ _ hk (hfront.trans (List.take_prefix _ _))

theorem le_of_minIndex {first dropAt : Option ℕ} {k : ℕ}
    (h : ∀ i, minIndex first dropAt = some i → k ≤ i) :
    (∀ i, first = some i → k ≤ i) ∧ ∀ i, dropAt = some i → k ≤ i := by
  unfold minIndex at h
  constructor
  · rintro i rfl
    cases dropAt with
    | none => exact h i rfl
    | some j => exact (h _ rfl).trans (Nat.min_le_left i j)
  · rintro j rfl
    cases first with
    | none => exact h j rfl
    | some i => exact (h _ rfl).trans (Nat.min_le_right i j)

theorem countP_mono_tool (messages : List Entry) :
    messages.countP (fun e ↦ e.msg.isFullObservation) ≤ messages.countP fun e ↦ e.msg.isTool := by
  apply List.countP_mono_left
  intro e _ hfull
  obtain ⟨msg, chars⟩ := e
  cases msg <;> simp_all [Message.isFullObservation, Message.isTool]

/-- `compact` keeps to its contract. -/
theorem contract_of_wellGrown {messages : List Entry} {n : ℕ} (h : WellGrown messages n)
    (budget : ContextBudget) (est : Estimator) (tools : List Json) (hpos : 0 < est.charsPerToken) :
    ∃ elided dropped,
      Contract messages budget est tools (compact messages budget est tools) elided dropped := by
  obtain ⟨elided, dropped, first, dropAt, hout⟩ :=
    compact_outcome budget est tools h.valid h.stubbed hpos
  have helided : ∀ i ∈ elided, firstStep messages ≤ i :=
    fun i hi ↦ firstStep_le_of_fullAt h.paired (hout.eligible i hi).1
  refine ⟨elided, dropped, front_of_ran hout.ran helided, ?_, newest_of_ran hout.ran,
    ⟨dropAt, hout.ran⟩, ⟨hout.elidedResults, hout.nodup, hout.droppedSteps⟩,
    droppedOf_of_ran hout.ran h.stubsFirst, ?_, hout.floor, ?_⟩
  · intro i hi
    obtain ⟨hfull, hcount⟩ := hout.eligible i hi
    exact ⟨hfull, hcount.trans (countP_mono_tool _)⟩
  · intro k hk
    rw [hout.firstChangedIndex] at hk
    obtain ⟨hfirst, hdropAt⟩ := le_of_minIndex hk
    refine take_of_ran hout.ran (fun j hj ↦ ?_) hdropAt
    cases hsome : first with
    | none => simp [hout.first_none hsome] at hj
    | some i => exact (hfirst i hsome).trans (hout.first_le i hsome j hj)
  · rintro is ⟨rest, hrest⟩
    have hvalid := valid_map_cached h.valid
    have hnodup : is.Nodup := by
      have hall := nodup_candidates budget (messages.map Entry.cached)
      rw [← hrest] at hall
      exact (List.nodup_append.mp hall).1
    have hfull : ∀ i ∈ is, FullAt (messages.map Entry.cached) i := by
      intro i hi
      have hmem : i ∈ candidates budget (messages.map Entry.cached) :=
        hrest ▸ List.mem_append_left _ hi
      exact ((mem_candidates budget _ i).mp hmem).1
    obtain ⟨k, -, hel, -, -⟩ := elideLoop_elided est budget.target is [] _
      (elided_start _ tools hvalid) (by simpa using hnodup) hfull
    exact hel.chars_eq

/-! ## Any number of compactions -/

theorem mem_of_ran {budget : ContextBudget} {messages : List Entry} {elided : List ℕ}
    {dropped : ℕ} {result : List Message} {dropAt : Option ℕ}
    (h : Ran budget messages elided dropped result dropAt) {m : Message} (hm : m ∈ result) :
    m ∈ elideAt elided (messages.map Entry.msg) ∨ ∃ n tools, m = (dropStub n tools).msg := by
  cases h with
  | kept => exact .inl hm
  | cut _ _ _ _ hcut =>
      cases hcut with
      | alone tools _ =>
          rcases List.mem_append.mp hm with hm | hm
          · exact .inl (List.mem_of_mem_take hm)
          · rcases List.mem_cons.mp hm with rfl | hm
            · exact .inr ⟨_, _, rfl⟩
            · exact .inl (List.mem_of_mem_drop hm)
      | merged tools heq _ =>
          rcases List.mem_append.mp hm with hm | hm
          · left
            apply List.mem_of_mem_take
            rw [heq]
            exact List.mem_append_left _ hm
          · rcases List.mem_cons.mp hm with rfl | hm
            · exact .inr ⟨_, _, rfl⟩
            · exact .inl (List.mem_of_mem_drop hm)

theorem stubbed_of_ran {budget : ContextBudget} {messages : List Entry} {elided : List ℕ}
    {dropped : ℕ} {result : List Entry} {dropAt : Option ℕ}
    (h : Ran budget messages elided dropped (result.map Entry.msg) dropAt)
    (hstubbed : ∀ e ∈ messages, e.Stubbed) : ∀ e ∈ result, e.Stubbed := by
  intro e he hdropped
  rcases mem_of_ran h (List.mem_map_of_mem he) with hmem | hstub
  · obtain ⟨i, hi⟩ := List.mem_iff_getElem?.mp hmem
    rw [getElem?_elideAt, List.getElem?_map, Option.map_map] at hi
    obtain ⟨e', he', heq⟩ := Option.map_eq_some_iff.mp hi
    simp only [Function.comp_apply] at heq
    have hdropped' : e'.dropped ≠ 0 := by
      change e'.msg.dropped ≠ 0
      change e.msg.dropped ≠ 0 at hdropped
      rw [← heq] at hdropped
      split at hdropped
      · rwa [dropped_elided] at hdropped
      · exact hdropped
    obtain ⟨n, tools, hmsg⟩ := hstubbed e' (List.mem_of_getElem? he') hdropped'
    refine ⟨n, tools, ?_⟩
    rw [← heq, hmsg]
    split
    · rfl
    · rfl
  · exact hstub

theorem StubsFirst.elideAt {ms : List Message} (h : StubsFirst ms) (elided : List ℕ) :
    StubsFirst (elideAt elided ms) := by
  have hpairs : ∀ ms : List Message, StubsFirst ms ↔
      (ms.map fun m ↦ (m.isAssistant, m.dropped)).Pairwise fun p p' ↦ p.1 = true → p'.2 = 0 := by
    intro ms
    rw [List.pairwise_map]
    rfl
  rw [hpairs, map_elideAt _ fun m ↦ by
    rw [dropped_elided, show m.elided.isAssistant =
      m.isAssistant from congrArg Prod.fst (role_elided m)]]
  exact (hpairs ms).mp h

theorem stubsFirst_of_ran {budget : ContextBudget} {messages : List Entry} {elided : List ℕ}
    {dropped : ℕ} {result : List Message} {dropAt : Option ℕ}
    (h : Ran budget messages elided dropped result dropAt)
    (hstubs : StubsFirst (messages.map Entry.msg)) : StubsFirst result := by
  have helided := hstubs.elideAt elided
  cases h with
  | kept => exact helided
  | @cut _ start stop at_ _ _ _ hstart _ hcut =>
      obtain rfl := start_eq_firstStep hstart
      have hfront : ∀ m ∈ (NucLlm.AgentLoop.elideAt elided (messages.map Entry.msg)).take
          (firstStep messages), m.isAssistant = false := by
        intro m hm
        have hroles : ((NucLlm.AgentLoop.elideAt elided (messages.map Entry.msg)).take
            (firstStep messages)).map Message.role =
              (messages.takeWhile fun e ↦ !e.msg.isAssistant).map fun e ↦ e.msg.role := by
          rw [List.map_take, map_elideAt _ role_elided, ← List.map_take, ← map_takeWhile_msg,
            List.map_map]
          rfl
        have hmem : m.role ∈
            (messages.takeWhile fun e ↦ !e.msg.isAssistant).map fun e ↦ e.msg.role := by
          rw [← hroles]
          exact List.mem_map_of_mem hm
        obtain ⟨e, he, heq⟩ := List.mem_map.mp hmem
        have hnot := List.mem_takeWhile_imp he
        have hsame : e.msg.isAssistant = m.isAssistant := congrArg Prod.fst heq
        rw [← hsame]
        simpa using hnot
      have hjoin : ∀ (front : List Message) (stub : Message),
          (∀ m ∈ front, m.isAssistant = false) → stub.isAssistant = false →
          StubsFirst (front ++ stub ::
            (NucLlm.AgentLoop.elideAt elided (messages.map Entry.msg)).drop stop) := by
        intro front stub hfront hstub
        refine List.pairwise_append.mpr ⟨?_, List.pairwise_cons.mpr ⟨?_, ?_⟩, ?_⟩
        · exact List.pairwise_of_forall_mem_list fun m hm m' _ h ↦ by simp [hfront m hm] at h
        · intro m _ h
          simp [hstub] at h
        · exact helided.sublist (List.drop_sublist _ _)
        · intro m hm m' _ h
          simp [hfront m hm] at h
      cases hcut with
      | alone tools _ => exact hjoin _ _ hfront rfl
      | merged tools heq _ =>
          refine hjoin _ _ (fun m hm ↦ hfront m ?_) rfl
          rw [heq]
          exact List.mem_append_left _ hm

theorem stubsFirst_append {ms ms' : List Message} (h : StubsFirst ms)
    (hmore : ∀ m ∈ ms', m.dropped = 0) : StubsFirst (ms ++ ms') := by
  refine List.pairwise_append.mpr ⟨h, ?_, fun m _ m' hm' _ ↦ hmore m' hm'⟩
  exact List.pairwise_of_forall_mem_list fun m _ m' hm' _ ↦ hmore m' hm'

theorem WellGrown.compact {messages : List Entry} {n : ℕ} (h : WellGrown messages n)
    (budget : ContextBudget) (est : Estimator) (tools : List Json) (hpos : 0 < est.charsPerToken) :
    WellGrown (compact messages budget est tools).1
      (n + (compact messages budget est tools).2.droppedSteps) := by
  obtain ⟨elided, dropped, first, dropAt, hout⟩ :=
    compact_outcome budget est tools h.valid h.stubbed hpos
  constructor
  · exact compact_wellPaired budget est tools h.paired
  · exact hout.valid
  · exact stubbed_of_ran hout.ran h.stubbed
  · exact stubsFirst_of_ran hout.ran h.stubsFirst
  · rw [droppedOf_of_ran hout.ran h.stubsFirst, h.counted, hout.droppedSteps]

theorem Grown.wellGrown {messages : List Entry} {n : ℕ} (h : Grown messages n) :
    WellGrown messages n := by
  have hmap : ∀ {more : List Entry}, (∀ e ∈ more, e.Valid ∧ e.msg.dropped = 0) →
      ∀ m ∈ more.map Entry.msg, m.dropped = 0 := by
    intro more hmore m hm
    obtain ⟨e, he, rfl⟩ := List.mem_map.mp hm
    exact (hmore e he).2
  induction h with
  | start hpaired hmessages =>
      constructor
      · exact hpaired
      · exact fun e he ↦ (hmessages e he).1
      · exact fun e he hdropped ↦ absurd (hmessages e he).2 hdropped
      · exact stubsFirst_append .nil (hmap hmessages)
      · exact droppedOf_eq_zero (hmap hmessages)
  | extend _ hpaired hmore ih =>
      constructor
      · exact hpaired
      · exact List.forall_mem_append.mpr ⟨ih.valid, fun e he ↦ (hmore e he).1⟩
      · exact List.forall_mem_append.mpr
          ⟨ih.stubbed, fun e he hdropped ↦ absurd (hmore e he).2 hdropped⟩
      · rw [List.map_append]
        exact stubsFirst_append ih.stubsFirst (hmap hmore)
      · rw [List.map_append, droppedOf_append, ih.counted, droppedOf_eq_zero (hmap hmore),
          Nat.add_zero]
  | recache _ hsame hvalid ih =>
      constructor
      · refine ih.paired.congr ?_
        have hkeys := congrArg (List.map fun m : Message ↦ (m.callKeys, m.answers)) hsame
        rw [List.map_map, List.map_map] at hkeys
        exact hkeys
      · exact hvalid
      · intro e he hdropped
        obtain ⟨e', he', hmsg⟩ := List.mem_map.mp (hsame ▸ List.mem_map_of_mem he)
        obtain ⟨n, tools, hstub⟩ := ih.stubbed e' he' (by
          unfold Entry.dropped
          rw [hmsg]
          exact hdropped)
        exact ⟨n, tools, hmsg.symm.trans hstub⟩
      · rw [hsame]
        exact ih.stubsFirst
      · rw [hsame]
        exact ih.counted
  | compact budget est tools _ hpos ih => exact ih.compact budget est tools hpos

/-- However often a history has been compacted, `compact` keeps to its contract, and the stubs
count all the steps that have been dropped so far. -/
theorem compact_keeps {messages : List Entry} {n : ℕ} (h : Grown messages n)
    (budget : ContextBudget) (est : Estimator) (tools : List Json) (hpos : 0 < est.charsPerToken) :
    ∃ elided dropped,
      Contract messages budget est tools (compact messages budget est tools) elided dropped ∧
      droppedOf ((compact messages budget est tools).1.map Entry.msg) = n + dropped := by
  obtain ⟨elided, dropped, hcontract⟩ := contract_of_wellGrown h.wellGrown budget est tools hpos
  refine ⟨elided, dropped, hcontract, ?_⟩
  rw [hcontract.counts, h.wellGrown.counted]

/-! ## What it does not keep to -/

/-- The newest steps are left as they are. -/
def NewestIntact (messages : List Entry) (budget : ContextBudget) (result : List Entry) : Prop :=
  ∀ step ∈ (steps messages).drop ((steps messages).length - budget.minStepsKept),
    (messages.map Entry.msg).drop step.1 <:+ result.map Entry.msg

/-- Of what is not in a step, only drop stubs go. -/
def OnlyStepsGo (messages : List Entry) (result : List Entry) : Prop :=
  ∀ i e, messages[i]? = some e → (∀ step ∈ steps messages, ¬(step.1 ≤ i ∧ i < step.2)) →
    e.msg.dropped = 0 → e.msg ∈ result.map Entry.msg

def tightBudget : ContextBudget where
  maxInputTokens := 1
  keepRecentResults := 1
  maxInputTokens_pos := by decide
  reserveTokens_lt := by decide

/-- One step with two observations. -/
def readTwice : List Entry :=
  [⟨.user "task" none, none⟩,
    ⟨.assistant "" [⟨"read", [], "1"⟩, ⟨"read", [], "2"⟩] none, none⟩,
    ⟨.tool "first" "1" "read" true none, none⟩, ⟨.tool "second" "2" "read" true none, none⟩]

/-- Three steps, and a guard's message behind the first. -/
def nudged : List Entry :=
  [⟨.user "task" none, none⟩, ⟨.assistant "a" [] none, none⟩, ⟨.user "not yet" none, none⟩,
    ⟨.assistant "b" [] none, none⟩, ⟨.assistant "c" [] none, none⟩]

theorem grown_readTwice : Grown readTwice 0 := by
  refine .start (.turn _ [] _ rfl rfl (.turn _ [_, _] _ rfl rfl .nil)) ?_
  simp [readTwice, Entry.valid_uncached, Message.dropped, Message.droppedSteps]

theorem grown_nudged : Grown nudged 0 := by
  refine .start (.turn _ [] _ rfl rfl (.turn _ [] _ rfl rfl (.turn _ [] _ rfl rfl
    (.turn _ [] _ rfl rfl (.turn _ [] _ rfl rfl .nil))))) ?_
  simp [nudged, Entry.valid_uncached, Message.dropped, Message.droppedSteps]

theorem compact_keeps_readTwice : ∃ elided dropped,
    Contract readTwice tightBudget {} [] (compact readTwice tightBudget {} []) elided dropped ∧
    droppedOf ((compact readTwice tightBudget {} []).1.map Entry.msg) = 0 + dropped :=
  compact_keeps grown_readTwice tightBudget {} [] (by norm_num)

/-- The older observation of the newest step is elided, and the guard's message goes with the
steps around it. -/
theorem newest_and_nudge_changed :
    (Grown readTwice 0 ∧
      ¬NewestIntact readTwice tightBudget (compact readTwice tightBudget {} []).1) ∧
    Grown nudged 0 ∧ ¬OnlyStepsGo nudged (compact nudged tightBudget {} []).1 := by
  constructor
  · refine ⟨grown_readTwice, fun hintact ↦ ?_⟩
    have hsteps : (steps readTwice).drop ((steps readTwice).length - tightBudget.minStepsKept) =
        [(1, 4)] := by decide +kernel
    have hsuffix := hintact (1, 4) (by rw [hsteps]; exact List.mem_singleton_self _)
    have hcontents := hsuffix.map Message.content
    rw [List.map_map] at hcontents
    revert hcontents
    decide +kernel
  · refine ⟨grown_nudged, fun honly ↦ ?_⟩
    have hsteps : steps nudged = [(1, 2), (3, 4), (4, 5)] := by decide +kernel
    have hmem := honly 2 _ rfl (by rw [hsteps]; decide) rfl
    have hcontent : "not yet" ∈ (compact nudged tightBudget {} []).1.map (·.msg.content) := by
      obtain ⟨e, he, hmsg⟩ := List.mem_map.mp hmem
      exact List.mem_map.mpr ⟨e, he, congrArg Message.content hmsg⟩
    revert hcontent
    decide +kernel

end NucLlm.AgentLoop
