import NucLlm.AgentLoop.Compactions

/-!
# Whether compaction shrinks a history

A stub can be longer than what it stands for.  The first stage makes no observation longer if
each that it reaches is as long as its stub, and the second stage can only make the history bigger
where nothing gets it to fit.
-/

namespace NucLlm.AgentLoop

/-! ## What compaction goes through -/

/-- The messages with the first of the candidates elided. -/
def elideFirst (messages : List Entry) (budget : ContextBudget) (k : ℕ) : List Message :=
  elideAt ((candidates budget messages).take k) (messages.map Entry.msg)

/-- The messages with all of the candidates elided. -/
def elideAll (messages : List Entry) (budget : ContextBudget) : List Message :=
  elideAt (candidates budget messages) (messages.map Entry.msg)

/-- The tools that the first `d` steps call. -/
def dropNames (messages : List Entry) (d : ℕ) : List String :=
  stepNames messages ((steps messages).take d)

/-- What the first `d` steps and the messages between them cost when they are elided. -/
def runCost (messages : List Entry) (budget : ContextBudget) (d : ℕ) : ℕ :=
  costOf (((elideAll messages budget).take (stepsStop messages d)).drop (stepsStart messages))

/-- What the stub adds that is put behind some messages and merged with a stub at their end. -/
def stubCost (front : List Entry) (d : ℕ) (names : List String) : ℤ :=
  match front.getLast? with
  | some prev =>
      if prev.dropped ≠ 0 then
        ((dropStub (prev.dropped + d) (Lists.sortedSet (stubTools prev.msg.content ++
          stubTools (dropStub d names).msg.content))).msg.chars : ℤ) - prev.msg.chars
      else (dropStub d names).msg.chars
  | none => (dropStub d names).msg.chars

/-- The messages after elision, with the first `d` steps dropped for a stub. -/
def dropTrial (messages : List Entry) (budget : ContextBudget) (d : ℕ) : List Message :=
  (elideAll messages budget).take (stepsStart messages) ++
    (dropStub d (dropNames messages d)).msg ::
      (elideAll messages budget).drop (stepsStop messages d)

/-- Every observation that the first stage gets to is as long as its stub. -/
def ObservationsPay (messages : List Entry) (budget : ContextBudget) (est : Estimator)
    (tools : List Json) : Prop :=
  ∀ k i e, (candidates budget messages)[k]? = some i → messages[i]? = some e →
    (∀ j ≤ k, budget.target < est.tokensOf tools (elideFirst messages budget j)) →
    0 ≤ elideSaved e

/-- Where nothing gets the history to fit, the stub of the steps costs no more tokens than elision
and the dropped steps free. -/
def StepsPay (messages : List Entry) (budget : ContextBudget) (est : Estimator)
    (tools : List Json) : Prop :=
  budget.minStepsKept < (steps messages).length →
    (∀ k ≤ (candidates budget messages).length,
      budget.target < est.tokensOf tools (elideFirst messages budget k)) →
    (∀ d, 0 < d → d + budget.minStepsKept ≤ (steps messages).length →
      budget.target < est.tokensOf tools (dropTrial messages budget d)) →
    let d := (steps messages).length - budget.minStepsKept
    est.tokensForChars (costOf (elideAll messages budget) + toolsChars tools
      - runCost messages budget d
      + stubCost (messages.take (stepsStart messages)) d (dropNames messages d)) ≤
      est.estimate messages tools

/-- The messages behind the first stage. -/
def stageOne (messages : List Entry) (budget : ContextBudget) (est : Estimator)
    (tools : List Json) : List Entry :=
  if est.estimate messages tools ≤ budget.target then messages
  else (elision messages budget est tools).messages

/-- Compaction makes neither the history nor an observation bigger. -/
structure NeverBigger (messages : List Entry) (budget : ContextBudget) (est : Estimator)
    (tools : List Json) : Prop where
  size : est.estimate (compact messages budget est tools).1 tools ≤ est.estimate messages tools
  observations : ∀ (i : ℕ) (e e' : Entry), messages[i]? = some e →
    (stageOne messages budget est tools)[i]? = some e' →
    e'.msg.content.length ≤ e.msg.content.length

/-! ## The first stage -/

theorem candidates_cached (budget : ContextBudget) (messages : List Entry) :
    candidates budget (messages.map Entry.cached) = candidates budget messages := by
  unfold candidates
  rw [List.findIdxs_map]
  rfl

theorem elision_eq (budget : ContextBudget) (est : Estimator) (tools : List Json)
    (messages : List Entry) :
    elision messages budget est tools = elideLoop est budget.target (candidates budget messages)
      { messages := messages.map Entry.cached
        chars := charsOf (messages.map Entry.cached) tools } := by
  unfold elision
  rw [candidates_cached]

/-- How far the first stage gets. -/
theorem elision_elideFirst (budget : ContextBudget) (est : Estimator) (tools : List Json)
    {messages : List Entry} (hvalid : ∀ e ∈ messages, e.Valid) :
    ∃ k ≤ (candidates budget messages).length,
      (elision messages budget est tools).messages.map Entry.msg = elideFirst messages budget k ∧
      (∀ e ∈ (elision messages budget est tools).messages, e.Valid) ∧
      (k < (candidates budget messages).length →
        est.tokensOf tools (elideFirst messages budget k) ≤ budget.target) ∧
      ∀ j, 0 < j → j < k → budget.target < est.tokensOf tools (elideFirst messages budget j) := by
  have hsame := map_msg_cached messages
  have hnodup := nodup_candidates budget messages
  have hfull : ∀ i ∈ candidates budget messages, FullAt (messages.map Entry.cached) i := by
    intro i hi
    exact (fullAt_congr hsame i).mpr ((mem_candidates budget messages i).mp hi).1
  obtain ⟨k, hk, hel, hfits, hearlier⟩ := elideLoop_elided est budget.target
    (candidates budget messages) [] _ (elided_start _ tools (valid_map_cached hvalid))
    (by simpa using hnodup) hfull
  rw [← elision_eq] at hel hfits
  have htokens := hel.tokens_eq est
  rw [hsame] at htokens hearlier
  refine ⟨k, hk, ?_, hel.valid, ?_, hearlier⟩
  · rw [hel.messages_eq, hsame]
    rfl
  · intro hlt
    have hfit := hfits hlt
    rw [htokens] at hfit
    exact hfit

theorem elideFirst_zero (messages : List Entry) (budget : ContextBudget) :
    elideFirst messages budget 0 = messages.map Entry.msg :=
  elideAt_nil _

theorem elideFirst_length (messages : List Entry) (budget : ContextBudget) :
    elideFirst messages budget (candidates budget messages).length = elideAll messages budget := by
  unfold elideFirst elideAll
  rw [List.take_length]

theorem elideSaved_nonneg_iff (e : Entry) :
    0 ≤ elideSaved e ↔ e.msg.elided.content.length ≤ e.msg.content.length := by
  unfold elideSaved
  rw [msg_elide]
  omega

/-- The first stage makes no observation longer exactly if each it gets to pays. -/
theorem observations_iff (budget : ContextBudget) (est : Estimator) (tools : List Json)
    {messages : List Entry} (hvalid : ∀ e ∈ messages, e.Valid)
    (hover : budget.target < est.estimate messages tools) :
    (∀ (i : ℕ) (e e' : Entry), messages[i]? = some e →
      (elision messages budget est tools).messages[i]? = some e' →
      e'.msg.content.length ≤ e.msg.content.length) ↔
      ObservationsPay messages budget est tools := by
  obtain ⟨k, hk, hmsgs, -, hfits, hearlier⟩ := elision_elideFirst budget est tools hvalid
  have hget : ∀ i, (elision messages budget est tools).messages[i]?.map Entry.msg =
      (messages[i]?.map Entry.msg).map fun m ↦
        if i ∈ (candidates budget messages).take k then m.elided else m := by
    intro i
    rw [← List.getElem?_map, hmsgs, ← List.getElem?_map]
    exact getElem?_elideAt _ _ _
  constructor
  · intro hshort k' i e hi he hreached
    have hlt : k' < k := by
      by_contra hle
      have hover' := hreached k (not_lt.mp hle)
      obtain ⟨hk', -⟩ := List.getElem?_eq_some_iff.mp hi
      exact absurd (hfits (by omega)) (not_le.mpr hover')
    have hmem : i ∈ (candidates budget messages).take k := by
      apply List.mem_of_getElem? (i := k')
      rw [List.getElem?_take_of_lt hlt]
      exact hi
    have hi' := hget i
    rw [he] at hi'
    obtain ⟨e', he', hmsg⟩ := Option.map_eq_some_iff.mp hi'
    have hlength := hshort i e e' he he'
    rw [hmsg] at hlength
    dsimp only at hlength
    rw [if_pos hmem] at hlength
    exact (elideSaved_nonneg_iff e).mpr hlength
  · intro hpay i e e' he he'
    have hi' := hget i
    rw [he, he'] at hi'
    rw [Option.some.inj hi']
    split
    · rename_i hmem
      obtain ⟨k', hk'⟩ := List.mem_iff_getElem?.mp hmem
      have hlt : k' < k := by
        have hbound := (List.getElem?_eq_some_iff.mp hk').1
        rw [List.length_take] at hbound
        omega
      rw [List.getElem?_take_of_lt hlt] at hk'
      refine (elideSaved_nonneg_iff e).mp (hpay k' i e hk' he fun j hj ↦ ?_)
      rcases Nat.eq_zero_or_pos j with rfl | hpos
      · rw [elideFirst_zero, ← estimate_eq hvalid]
        exact hover
      · exact hearlier j hpos (by omega)
    · exact le_rfl

/-! ## The second stage -/

/-- What a merged stub costs more than the one in front of it, and not more than alone. -/
theorem costOf_mergeDropStubs (front rest : List Entry) {d : ℕ} (hd : d ≠ 0) (names : List String)
    (hfront : ∀ e ∈ front, e.Stubbed) :
    (costOf ((mergeDropStubs (front ++ dropStub d names :: rest) front.length).map Entry.msg) : ℤ) =
      costOf (front.map Entry.msg) + stubCost front d names + costOf (rest.map Entry.msg) ∧
    stubCost front d names ≤ (dropStub d names).msg.chars := by
  rcases mergeDropStubs_spec front (dropStub d names) rest hd with
    ⟨hmerge, halone⟩ | ⟨front, prev, rfl, hprev, hmerge⟩
  · have hcost : stubCost front d names = (dropStub d names).msg.chars := by
      unfold stubCost
      split
      · rename_i prev hlast
        rw [if_neg (not_not.mpr (halone prev hlast))]
      · rfl
    rw [hmerge, hcost]
    refine ⟨?_, le_rfl⟩
    rw [List.map_append, List.map_cons, costOf_append, costOf_cons]
    push_cast
    omega
  · have hcost : stubCost (front ++ [prev]) d names = ((dropStub (prev.dropped + d)
        (Lists.sortedSet (stubTools prev.msg.content ++
          stubTools (dropStub d names).msg.content))).msg.chars : ℤ) - prev.msg.chars := by
      unfold stubCost
      rw [List.getLast?_append, List.getLast?_singleton]
      dsimp only [Option.some_or]
      rw [if_pos hprev]
    rw [hmerge, hcost]
    constructor
    · simp only [List.map_append, List.map_cons, List.map_nil, costOf_append, costOf_cons,
        dropped_dropStub]
      have hnil : costOf [] = 0 := rfl
      push_cast
      omega
    · obtain ⟨n, names', hn⟩ := hfront prev (List.mem_append_right _ List.mem_cons_self) hprev
      have hdropped : prev.dropped = n := by
        unfold Entry.dropped
        rw [hn]
        rfl
      have hmerged := chars_merged_le n d names' names
      rw [hdropped, hn]
      omega

theorem dropped_of_msg {e e' : Entry} (h : e'.msg = e.msg ∨ e'.msg = e.msg.elided) :
    e'.dropped = e.dropped := by
  unfold Entry.dropped
  rcases h with h | h
  · rw [h]
  · rw [h, droppedSteps_elided]

/-- A stub costs the same behind messages that have been elided. -/
theorem stubCost_congr {front front' : List Entry} {is : List ℕ}
    (h : front'.map Entry.msg = elideAt is (front.map Entry.msg)) (d : ℕ) (names : List String) :
    stubCost front' d names = stubCost front d names := by
  have hlength : front'.length = front.length := by
    have := congrArg List.length h
    rwa [List.length_map, length_elideAt, List.length_map] at this
  have hlast : front'.getLast?.map Entry.msg = (front.getLast?.map Entry.msg).map fun m ↦
      if front.length - 1 ∈ is then m.elided else m := by
    have hget := congrArg (·[front.length - 1]?) h
    simp only [getElem?_elideAt, List.getElem?_map] at hget
    rw [List.getLast?_eq_getElem?, List.getLast?_eq_getElem?, hlength, hget]
  unfold stubCost
  cases hfront : front.getLast? with
  | none =>
      rw [hfront] at hlast
      rw [Option.map_eq_none_iff.mp hlast]
  | some prev =>
      rw [hfront] at hlast
      obtain ⟨prev', hprev', hmsg⟩ := Option.map_eq_some_iff.mp hlast
      rw [hprev']
      dsimp only at hmsg ⊢
      have hdropped : prev'.dropped = prev.dropped := by
        apply dropped_of_msg
        rw [hmsg]
        split
        · exact .inr rfl
        · exact .inl rfl
      rw [hdropped]
      split
      · rename_i hne
        -- What counts dropped steps is no observation.
        have hsame : prev'.msg = prev.msg := by
          rw [hmsg]
          split
          · obtain ⟨msg, chars⟩ := prev
            cases msg <;> first
              | rfl
              | exact absurd rfl hne
          · rfl
        rw [hsame]
      · rfl

section SecondStage

variable {messages sized : List Entry} {budget : ContextBudget}

theorem steps_sized (h : sized.map Entry.msg = elideAll messages budget) :
    steps sized = steps messages :=
  steps_congr (map_role_of_elideAt h)

theorem stepNames_sized (h : sized.map Entry.msg = elideAll messages budget)
    (ss : List (ℕ × ℕ)) : stepNames sized ss = stepNames messages ss := by
  unfold stepNames
  congr 1
  funext step
  have hget := congrArg (·[step.1]?.map Message.toolCalls) h
  simp only [elideAll, getElem?_elideAt, List.getElem?_map, Option.map_map] at hget
  have hcalls : sized[step.1]?.map (fun e ↦ e.msg.toolCalls) =
      messages[step.1]?.map fun e ↦ e.msg.toolCalls := by
    refine hget.trans ?_
    congr 1
    funext e
    simp only [Function.comp_apply]
    split
    · exact toolCalls_elided e.msg
    · rfl
  have hnames := congrArg (Option.map (List.map ToolCall.name)) hcalls
  rw [Option.map_map, Option.map_map] at hnames
  exact congrArg (Option.getD · []) hnames

theorem stepsStart_sized (h : sized.map Entry.msg = elideAll messages budget) :
    stepsStart sized = stepsStart messages := by
  unfold stepsStart
  rw [steps_sized h]

theorem dropFirst_sized (h : sized.map Entry.msg = elideAll messages budget) (d : ℕ) :
    (dropFirst sized d).map Entry.msg = dropTrial messages budget d := by
  unfold dropFirst dropTrial dropNames
  rw [List.map_append, List.map_cons, List.map_take, List.map_drop, h, stepsStart_sized h,
    steps_sized h, stepNames_sized h]
  unfold stepsStop
  rw [steps_sized h]

theorem valid_dropFirst (h : ∀ e ∈ sized, e.Valid) (d : ℕ) : ∀ e ∈ dropFirst sized d, e.Valid := by
  refine List.forall_mem_append.mpr ⟨fun e he ↦ h e (List.mem_of_mem_take he), ?_⟩
  exact List.forall_mem_cons.mpr ⟨valid_dropStub _ _, fun e he ↦ h e (List.mem_of_mem_drop he)⟩

/-- Where the steps start and where those that are dropped end. -/
theorem steps_within {d : ℕ} (hd : 0 < d) (hle : d ≤ (steps messages).length) :
    stepsStart messages ≤ stepsStop messages d ∧ stepsStop messages d ≤ messages.length := by
  obtain ⟨-, hpairwise, hbounds⟩ := stepsFrom_spec 0 messages
  have hfirst : (steps messages).head? = some (steps messages)[0] :=
    List.head?_eq_getElem? ▸ List.getElem?_eq_getElem (by omega)
  have hstart : stepsStart messages = (steps messages)[0].1 := by
    unfold stepsStart
    rw [hfirst]
    rfl
  have hlast : (steps messages)[d - 1]? = some (steps messages)[d - 1] :=
    List.getElem?_eq_getElem (by omega)
  have hstop : stepsStop messages d = (steps messages)[d - 1].2 := by
    unfold stepsStop
    rw [hlast]
    rfl
  have hboundFirst := hbounds _ (List.mem_of_mem_head? hfirst)
  have hboundLast := hbounds _ (List.mem_of_getElem? hlast)
  rcases Nat.eq_zero_or_pos (d - 1) with hzero | hpos
  · simp only [hzero] at hstop hboundLast
    omega
  · have hle' := List.pairwise_iff_getElem.mp hpairwise 0 (d - 1) (by unfold steps at hle; omega)
      (by unfold steps at hle; omega) hpos
    change (steps messages)[0].2 ≤ (steps messages)[d - 1].1 at hle'
    omega

/-- What the second stage leaves costs what it does not drop and the stub. -/
theorem costOf_dropFirst (h : sized.map Entry.msg = elideAll messages budget)
    (hstubbed : ∀ e ∈ sized, e.Stubbed) {d : ℕ} (hd : 0 < d) (hle : d ≤ (steps messages).length) :
    (costOf ((mergeDropStubs (dropFirst sized d) (stepsStart sized)).map Entry.msg) : ℤ) =
      costOf (elideAll messages budget) - runCost messages budget d +
        stubCost (messages.take (stepsStart messages)) d (dropNames messages d) ∧
    costOf ((mergeDropStubs (dropFirst sized d) (stepsStart sized)).map Entry.msg) ≤
      costOf (dropTrial messages budget d) := by
  obtain ⟨hstart, hstop⟩ := steps_within hd hle
  have hsizedLength : sized.length = messages.length := by
    have hlength := congrArg List.length h
    rwa [elideAll, List.length_map, length_elideAt, List.length_map] at hlength
  have hlength : (sized.take (stepsStart sized)).length = stepsStart sized := by
    rw [List.length_take, stepsStart_sized h]
    omega
  obtain ⟨hcost, hstub⟩ := costOf_mergeDropStubs (sized.take (stepsStart sized))
    (sized.drop (stepsStop sized d)) hd.ne' (stepNames sized ((steps sized).take d))
    fun e he ↦ hstubbed e (List.mem_of_mem_take he)
  rw [hlength] at hcost
  have hstubEq : stubCost (sized.take (stepsStart sized)) d
      (stepNames sized ((steps sized).take d)) =
        stubCost (messages.take (stepsStart messages)) d (dropNames messages d) := by
    have hfront : (sized.take (stepsStart sized)).map Entry.msg = elideAt
        (candidates budget messages) ((messages.take (stepsStart messages)).map Entry.msg) := by
      rw [List.map_take, h, stepsStart_sized h, List.map_take]
      apply List.ext_getElem?
      intro i
      rw [elideAll, getElem?_elideAt, List.getElem?_take, List.getElem?_take, getElem?_elideAt]
      split <;> rfl
    rw [stubCost_congr hfront, stepNames_sized h, steps_sized h]
    rfl
  have hparts : costOf (elideAll messages budget) =
      costOf ((elideAll messages budget).take (stepsStart messages)) +
        runCost messages budget d +
        costOf ((elideAll messages budget).drop (stepsStop messages d)) := by
    unfold runCost
    rw [← costOf_append, ← costOf_append]
    congr 1
    conv_lhs => rw [← List.take_append_drop (stepsStop messages d) (elideAll messages budget),
      ← List.take_append_drop (stepsStart messages)
        ((elideAll messages budget).take (stepsStop messages d))]
    rw [List.take_take, Nat.min_eq_left hstart]
  have htrial := congrArg costOf (dropFirst_sized h d)
  have hstopEq : stepsStop sized d = stepsStop messages d := by
    unfold stepsStop
    rw [steps_sized h]
  unfold dropFirst at htrial ⊢
  rw [List.map_append, List.map_cons, costOf_append, costOf_cons] at htrial
  rw [hstubEq, List.map_take, List.map_drop, h, stepsStart_sized h, hstopEq] at hcost
  rw [List.map_take, List.map_drop, h, stepsStart_sized h, hstopEq] at htrial
  rw [hstubEq] at hstub
  rw [stepsStart_sized h, hstopEq]
  omega

end SecondStage

/-! ## Both stages -/

theorem estimate_cached (est : Estimator) (messages : List Entry) (tools : List Json) :
    est.estimate (messages.map Entry.cached) tools = est.estimate messages tools := by
  unfold Estimator.estimate
  rw [charsOf_cached]

theorem costOf_elideAt_le {is : List ℕ} {ms : List Message}
    (h : ∀ i m, i ∈ is → ms[i]? = some m → m.elided.chars ≤ m.chars) :
    costOf (elideAt is ms) ≤ costOf ms := by
  unfold costOf
  apply List.Forall₂.sum_le_sum
  rw [List.forall₂_iff_get]
  refine ⟨by simp [length_elideAt], fun i hi hi' ↦ ?_⟩
  rw [List.length_map] at hi'
  have hget := getElem?_elideAt is ms i
  rw [List.getElem?_eq_getElem hi', List.getElem?_eq_getElem (by simpa using hi)] at hget
  simp only [List.get_eq_getElem, List.getElem_map]
  rw [Option.some.inj hget]
  split
  · rename_i hmem
    exact h i _ hmem (List.getElem?_eq_getElem hi')
  · exact le_rfl

/-- Elision costs nothing where every observation pays. -/
theorem costOf_elideAll_le {messages : List Entry} {budget : ContextBudget} {est : Estimator}
    {tools : List Json} (hpay : ObservationsPay messages budget est tools)
    (hover : ∀ k ≤ (candidates budget messages).length,
      budget.target < est.tokensOf tools (elideFirst messages budget k)) :
    costOf (elideAll messages budget) ≤ costOf (messages.map Entry.msg) := by
  apply costOf_elideAt_le
  intro i m hi hm
  rw [List.getElem?_map] at hm
  obtain ⟨e, he, rfl⟩ := Option.map_eq_some_iff.mp hm
  obtain ⟨e', he', hfull⟩ := ((mem_candidates budget messages i).mp hi).1
  obtain rfl := Option.some.inj (he.symm.trans he')
  obtain ⟨k, hk⟩ := List.mem_iff_getElem?.mp hi
  obtain ⟨hlt, -⟩ := List.getElem?_eq_some_iff.mp hk
  have hsaved := (elideSaved_nonneg_iff e).mp
    (hpay k i e hk he fun j hj ↦ hover j (by omega))
  have hcost := chars_elided hfull
  omega

theorem Estimator.tokensOf_mono {est : Estimator} (hpos : 0 < est.charsPerToken)
    (tools : List Json) {ms ms' : List Message} (h : costOf ms ≤ costOf ms') :
    est.tokensOf tools ms ≤ est.tokensOf tools ms' :=
  est.tokensForChars_mono hpos (by exact_mod_cast Nat.add_le_add_right h _)

section Fits

variable {messages sized : List Entry} {budget : ContextBudget} {est : Estimator}
  {tools : List Json}

/-- No step may be dropped. -/
theorem dropStage_few (h : sized.map Entry.msg = elideAll messages budget)
    (hfew : (steps messages).length ≤ budget.minStepsKept) :
    (dropStage budget est tools sized).1 = sized := by
  unfold dropStage
  dsimp only
  rw [steps_sized h, Nat.sub_eq_zero_of_le hfew, List.take_zero]

variable (est tools) in
/-- How many steps the second stage drops, and what it leaves. -/
theorem dropStage_sized (h : sized.map Entry.msg = elideAll messages budget)
    (hvalid : ∀ e ∈ sized, e.Valid) (hmore : budget.minStepsKept < (steps messages).length) :
    ∃ d, 0 < d ∧ d + budget.minStepsKept ≤ (steps messages).length ∧
      est.estimate (dropStage budget est tools sized).1 tools = est.tokensOf tools
        ((mergeDropStubs (dropFirst sized d) (stepsStart sized)).map Entry.msg) ∧
      (∀ j, 0 < j → j < d → budget.target < est.tokensOf tools (dropTrial messages budget j)) ∧
      (d + budget.minStepsKept < (steps messages).length →
        est.tokensOf tools (dropTrial messages budget d) ≤ budget.target) := by
  obtain ⟨d, hd, hkept, hstage, hearlier, hfits⟩ :=
    dropStage_dropFirst budget est tools sized (by rw [steps_sized h]; exact hmore)
  rw [steps_sized h] at hkept hfits
  have htrials : ∀ d, est.estimate (dropFirst sized d) tools =
      est.tokensOf tools (dropTrial messages budget d) := by
    intro d
    rw [estimate_eq (valid_dropFirst hvalid d), dropFirst_sized h]
  simp only [htrials] at hearlier hfits
  refine ⟨d, hd, hkept, ?_, hearlier, hfits⟩
  rw [estimate_eq (valid_dropStage budget est tools hvalid), hstage]

/-- Where dropping some of the steps gets the history to fit, the second stage does. -/
theorem dropStage_fits (h : sized.map Entry.msg = elideAll messages budget)
    (hvalid : ∀ e ∈ sized, e.Valid) (hstubbed : ∀ e ∈ sized, e.Stubbed)
    (hpos : 0 < est.charsPerToken) {d : ℕ} (hd : 0 < d)
    (hkept : d + budget.minStepsKept ≤ (steps messages).length)
    (hfit : est.tokensOf tools (dropTrial messages budget d) ≤ budget.target) :
    est.estimate (dropStage budget est tools sized).1 tools ≤ budget.target := by
  obtain ⟨d', hd', hkept', hresult, hearlier, hfits⟩ :=
    dropStage_sized est tools h hvalid (by omega)
  have hfit' : est.tokensOf tools (dropTrial messages budget d') ≤ budget.target := by
    rcases Nat.lt_or_ge (d' + budget.minStepsKept) (steps messages).length with hlt | hge
    · exact hfits hlt
    · rcases Nat.eq_or_lt_of_le (show d ≤ d' by omega) with rfl | hlt
      · exact hfit
      · exact absurd hfit (not_le.mpr (hearlier d hd hlt))
  rw [hresult]
  exact (est.tokensOf_mono hpos tools (costOf_dropFirst h hstubbed hd' (by omega)).2).trans hfit'

/-- Where nothing gets it to fit, the second stage drops all the steps that it may. -/
theorem estimate_dropStage (h : sized.map Entry.msg = elideAll messages budget)
    (hvalid : ∀ e ∈ sized, e.Valid) (hstubbed : ∀ e ∈ sized, e.Stubbed)
    (hmore : budget.minStepsKept < (steps messages).length)
    (hnone : ∀ d, 0 < d → d + budget.minStepsKept ≤ (steps messages).length →
      budget.target < est.tokensOf tools (dropTrial messages budget d)) :
    est.estimate (dropStage budget est tools sized).1 tools =
      est.tokensForChars (costOf (elideAll messages budget) + toolsChars tools
        - runCost messages budget ((steps messages).length - budget.minStepsKept)
        + stubCost (messages.take (stepsStart messages))
          ((steps messages).length - budget.minStepsKept)
          (dropNames messages ((steps messages).length - budget.minStepsKept))) := by
  obtain ⟨d, hd, hkept, hresult, -, hfits⟩ :=
    dropStage_sized est tools h hvalid hmore
  have hdEq : d = (steps messages).length - budget.minStepsKept := by
    by_contra hne
    exact absurd (hfits (by omega)) (not_le.mpr (hnone d hd hkept))
  subst hdEq
  obtain ⟨hcost, -⟩ := costOf_dropFirst h hstubbed hd (by omega)
  rw [hresult]
  unfold Estimator.tokensOf
  congr 1
  push_cast
  omega

/-- What the second stage leaves is no bigger exactly if the steps pay. -/
theorem dropStage_size_iff (h : sized.map Entry.msg = elideAll messages budget)
    (hvalid : ∀ e ∈ messages, e.Valid) (hsizedValid : ∀ e ∈ sized, e.Valid)
    (hstubbed : ∀ e ∈ messages, e.Stubbed) (hpos : 0 < est.charsPerToken)
    (hover : budget.target < est.estimate messages tools)
    (hpay : ObservationsPay messages budget est tools)
    (hall : ∀ k ≤ (candidates budget messages).length,
      budget.target < est.tokensOf tools (elideFirst messages budget k)) :
    est.estimate (dropStage budget est tools sized).1 tools ≤ est.estimate messages tools ↔
      StepsPay messages budget est tools := by
  have hsizedStubbed := stubbed_of_elideAt h hstubbed
  by_cases hmore : budget.minStepsKept < (steps messages).length
  · by_cases hfits : ∃ d, 0 < d ∧ d + budget.minStepsKept ≤ (steps messages).length ∧
        est.tokensOf tools (dropTrial messages budget d) ≤ budget.target
    · obtain ⟨d, hd, hkept, hfit⟩ := hfits
      constructor
      · intro _ _ _ hnone
        exact absurd (hnone d hd hkept) (not_lt.mpr hfit)
      · intro _
        exact (dropStage_fits h hsizedValid hsizedStubbed hpos hd hkept hfit).trans hover.le
    · have hnone : ∀ d, 0 < d → d + budget.minStepsKept ≤ (steps messages).length →
          budget.target < est.tokensOf tools (dropTrial messages budget d) := by
        intro d hd hkept
        by_contra hle
        exact hfits ⟨d, hd, hkept, not_lt.mp hle⟩
      rw [estimate_dropStage h hsizedValid hsizedStubbed hmore hnone]
      constructor
      · intro hsize _ _ _
        exact hsize
      · intro hsteps
        exact hsteps hmore hall hnone
  · rw [dropStage_few h (not_lt.mp hmore), estimate_eq hsizedValid, h, estimate_eq hvalid]
    constructor
    · intro _ hmore'
      exact absurd hmore' hmore
    · intro _
      exact est.tokensOf_mono hpos tools (costOf_elideAll_le hpay hall)

end Fits

/-- If no observation is made longer, the history gets no bigger exactly if the steps pay. -/
theorem size_iff (budget : ContextBudget) (est : Estimator) (tools : List Json)
    {messages : List Entry} (hvalid : ∀ e ∈ messages, e.Valid)
    (hstubbed : ∀ e ∈ messages, e.Stubbed) (hpos : 0 < est.charsPerToken)
    (hover : budget.target < est.estimate messages tools)
    (hpay : ObservationsPay messages budget est tools) :
    est.estimate (compact messages budget est tools).1 tools ≤ est.estimate messages tools ↔
      StepsPay messages budget est tools := by
  obtain ⟨k, hk, hmsgs, hel, hfits, hearlier⟩ := elision_elideFirst budget est tools hvalid
  generalize hsized : (elision messages budget est tools).messages.map Entry.cached = sized
  have hsizedMsgs : sized.map Entry.msg = elideFirst messages budget k := by
    rw [← hsized, map_msg_cached, hmsgs]
  have hsizedValid : ∀ e ∈ sized, e.Valid := hsized ▸ valid_map_cached hel
  have hestimate :
    est.estimate sized tools = est.tokensOf tools (elideFirst messages budget k) := by
    rw [estimate_eq hsizedValid, hsizedMsgs]
  by_cases hfit : est.estimate sized tools ≤ budget.target
  · have heq := compact_of_over (not_le.mpr hover) sized 0 none
      (by rw [hsized, if_neg (not_lt.mpr hfit)])
    rw [heq]
    dsimp only
    rw [estimate_cached]
    constructor
    · intro _ _ hall
      exact absurd (hall k hk) (not_lt.mpr (hestimate ▸ hfit))
    · intro _
      exact hfit.trans hover.le
  · -- the second stage begins behind all of the candidates
    have hkEq : k = (candidates budget messages).length := by
      by_contra hne
      exact hfit (hestimate ▸ hfits (by omega))
    have hall : ∀ j ≤ (candidates budget messages).length,
        budget.target < est.tokensOf tools (elideFirst messages budget j) := by
      intro j hj
      rcases Nat.eq_zero_or_pos j with rfl | hjpos
      · rw [elideFirst_zero, ← estimate_eq hvalid]
        exact hover
      · rcases Nat.eq_or_lt_of_le (hkEq ▸ hj) with rfl | hlt
        · exact hestimate ▸ not_le.mp hfit
        · exact hearlier j hjpos hlt
    rw [hkEq, elideFirst_length] at hsizedMsgs
    have heq := compact_of_over (not_le.mpr hover) (dropStage budget est tools sized).1
      (dropStage budget est tools sized).2.1 (dropStage budget est tools sized).2.2
      (by rw [hsized, if_pos (not_le.mp hfit)])
    rw [heq]
    dsimp only
    rw [estimate_cached]
    exact dropStage_size_iff hsizedMsgs hvalid hsizedValid hstubbed hpos hover hpay hall

end NucLlm.AgentLoop
