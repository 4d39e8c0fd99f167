import NucLlm.AgentLoop.Stubs

/-!
# What compaction keeps

The first stage elides a set of full observations that are not among the newest, and the
size it keeps is the size of the messages.  The second stage drops one run of messages, from
the first step on, and leaves a stub.
-/

namespace NucLlm.AgentLoop

/-! ## Costs -/

/-- The cached cost is the cost. -/
def Entry.Valid (e : Entry) : Prop := ∀ n ∈ e.chars, n = e.msg.chars

def costOf (ms : List Message) : ℕ := (ms.map Message.chars).sum

theorem Entry.Valid.msgChars_eq {e : Entry} (h : e.Valid) : e.msgChars = e.msg.chars := by
  unfold Entry.msgChars
  cases hchars : e.chars with
  | none => rfl
  | some n => exact h n hchars

theorem Entry.valid_uncached (m : Message) : Entry.Valid ⟨m, none⟩ := by
  intro n hn
  contradiction

theorem Entry.Valid.cached {e : Entry} (h : e.Valid) : e.cached.Valid := by
  intro n hn
  obtain rfl := Option.some.inj hn
  exact h.msgChars_eq

theorem valid_elide {e : Entry} (h : e.Valid) : (elide e).Valid := by
  unfold elide
  split
  · exact Entry.valid_uncached _
  · exact h

theorem valid_map_cached {messages : List Entry} (h : ∀ e ∈ messages, e.Valid) :
    ∀ e ∈ messages.map Entry.cached, e.Valid := by
  intro e he
  obtain ⟨e, hmem, rfl⟩ := List.mem_map.mp he
  exact (h e hmem).cached

theorem map_msg_cached (messages : List Entry) :
    (messages.map Entry.cached).map Entry.msg = messages.map Entry.msg := by
  simp [Function.comp_def, Entry.cached]

theorem charsOf_eq {messages : List Entry} (h : ∀ e ∈ messages, e.Valid) (tools : List Json) :
    charsOf messages tools = costOf (messages.map Entry.msg) + toolsChars tools := by
  unfold charsOf costOf
  rw [List.map_map, List.map_congr_left fun e he ↦ (h e he).msgChars_eq]
  rfl

/-! ## The first stage -/

/-- The message after `_elide`. -/
def Message.elided (m : Message) : Message := (elide ⟨m, none⟩).msg

theorem msg_elide (e : Entry) : (elide e).msg = e.msg.elided := by
  obtain ⟨msg, chars⟩ := e
  cases msg <;> rfl

/-- The messages with the observations at some places elided. -/
def elideAt (is : List ℕ) (ms : List Message) : List Message :=
  ms.mapIdx fun i m ↦ if i ∈ is then m.elided else m

theorem getElem?_elideAt (is : List ℕ) (ms : List Message) (i : ℕ) :
    (elideAt is ms)[i]? = ms[i]?.map fun m ↦ if i ∈ is then m.elided else m := by
  simp [elideAt]

theorem length_elideAt (is : List ℕ) (ms : List Message) : (elideAt is ms).length = ms.length := by
  simp [elideAt]

theorem elideAt_nil (ms : List Message) : elideAt [] ms = ms := by
  apply List.ext_getElem?
  intro i
  simp [getElem?_elideAt]

theorem modify_elide {messages : List Entry} {is : List ℕ} {ms : List Message} {i : ℕ}
    (h : messages.map Entry.msg = elideAt is ms) (hi : i ∉ is) :
    (messages.modify i elide).map Entry.msg = elideAt (is ++ [i]) ms := by
  apply List.ext_getElem?
  intro j
  have hj : messages[j]?.map Entry.msg = ms[j]?.map fun m ↦ if j ∈ is then m.elided else m := by
    rw [← getElem?_elideAt, ← h, List.getElem?_map]
  rw [List.getElem?_map, List.getElem?_modify, getElem?_elideAt]
  by_cases hij : i = j
  · subst hij
    simp only [hi, if_false, Option.map_id'] at hj
    simp only [if_true, List.mem_append, List.mem_singleton, or_true]
    rw [← hj]
    cases messages[i]? with
    | none => rfl
    | some e => exact congrArg some (msg_elide e)
  · simp only [hij, if_false, List.mem_append, List.mem_singleton, Ne.symm hij, or_false]
    simpa using hj

/-- What the first stage has done: the observations it has elided, and the size it keeps. -/
structure Elided (messages : List Entry) (tools : List Json) (done : List ℕ) (acc : Elision) :
    Prop where
  messages_eq : acc.messages.map Entry.msg = elideAt done (messages.map Entry.msg)
  valid : ∀ e ∈ acc.messages, e.Valid
  chars_eq : acc.chars = charsOf acc.messages tools
  elided_eq : acc.elided = done.length
  first_none : acc.first = none → done = []
  first_le : ∀ i, acc.first = some i → ∀ j ∈ done, i ≤ j

/-- At the place there is an observation that has not been elided. -/
def FullAt (messages : List Entry) (i : ℕ) : Prop :=
  ∃ e, messages[i]? = some e ∧ e.msg.isFullObservation = true

theorem chars_elided {m : Message} (h : m.isFullObservation = true) :
    (m.elided.chars : ℤ) = m.chars - (m.content.length - m.elided.content.length) := by
  cases m with
  | tool content callId name ok elidedChars =>
      simp only [Message.elided, elide, Message.chars, Message.rawContent, Message.content,
        Message.toolCalls, List.map_nil, List.sum_nil]
      omega
  | _ => simp [Message.isFullObservation] at h

theorem charsOf_modify {messages : List Entry} (h : ∀ e ∈ messages, e.Valid) (tools : List Json)
    {i : ℕ} {e : Entry} (he : messages[i]? = some e) (hfull : e.msg.isFullObservation = true) :
    (charsOf (messages.modify i elide) tools : ℤ) = charsOf messages tools - elideSaved e := by
  have hsum : ∀ (messages : List Entry) (i : ℕ), (∀ e ∈ messages, e.Valid) →
      messages[i]? = some e →
      (((messages.modify i elide).map Entry.msgChars).sum : ℤ) =
        (messages.map Entry.msgChars).sum - elideSaved e := by
    intro messages
    induction messages with
    | nil =>
        intro i _ hi
        simp at hi
    | cons e' messages ih =>
        intro i hvalid hi
        obtain ⟨he', hmessages⟩ := List.forall_mem_cons.mp hvalid
        cases i with
        | zero =>
            obtain rfl : e' = e := by simpa using hi
            have hcost := chars_elided hfull
            have hsaved : elideSaved e' = e'.msg.content.length - e'.msg.elided.content.length := by
              rw [← msg_elide]
              rfl
            simp only [List.modify_zero_cons, List.map_cons, List.sum_cons]
            rw [he'.msgChars_eq, (valid_elide he').msgChars_eq, msg_elide, hsaved]
            push_cast
            omega
        | succ i =>
            have hrest := ih i hmessages (by simpa using hi)
            simp only [List.modify_succ_cons, List.map_cons, List.sum_cons]
            push_cast at hrest ⊢
            omega
  have hsum' := hsum messages i h he
  unfold charsOf
  push_cast at hsum' ⊢
  omega

theorem valid_modify {messages : List Entry} (h : ∀ e ∈ messages, e.Valid) (i : ℕ) :
    ∀ e ∈ messages.modify i elide, e.Valid := by
  have helide : ∀ e : Entry, e.Valid → (elide e).Valid := fun e he ↦ valid_elide he
  exact modify_elide_forall helide h i

/-- Another observation. -/
theorem Elided.step {messages : List Entry} {tools : List Json} {done : List ℕ} {acc : Elision}
    (h : Elided messages tools done acc) {i : ℕ} (hi : FullAt messages i) (hnew : i ∉ done) :
    Elided messages tools (done ++ [i])
      { messages := acc.messages.modify i elide
        chars := acc.chars - (acc.messages[i]?.map elideSaved).getD 0
        elided := acc.elided + 1
        first := some (acc.first.elim i fun j ↦ min i j) } := by
  obtain ⟨e, he, hfull⟩ := hi
  have hmsg : acc.messages[i]?.map Entry.msg = some e.msg := by
    have hget := congrArg (·[i]?) h.messages_eq
    simpa [getElem?_elideAt, he, hnew] using hget
  obtain ⟨e', he', hsame⟩ := Option.map_eq_some_iff.mp hmsg
  constructor
  · exact modify_elide h.messages_eq hnew
  · exact valid_modify h.valid i
  · dsimp only
    rw [he', charsOf_modify h.valid tools he' (by rw [hsame]; exact hfull), h.chars_eq]
    rfl
  · dsimp only
    rw [h.elided_eq, List.length_append, List.length_singleton]
  · intro hnone
    contradiction
  · intro k hk j hj
    obtain rfl := Option.some.inj hk
    cases hfirst : acc.first with
    | none =>
        rw [h.first_none hfirst, List.nil_append, List.mem_singleton] at hj
        exact hj.ge
    | some k =>
        rcases List.mem_append.mp hj with hj | hj
        · exact (Nat.min_le_right i k).trans (h.first_le k hfirst j hj)
        · exact (Nat.min_le_left i k).trans (List.mem_singleton.mp hj).ge

/-- What messages without cached costs cost. -/
def Estimator.tokensOf (est : Estimator) (tools : List Json) (ms : List Message) : ℤ :=
  est.tokensForChars ((costOf ms + toolsChars tools : ℕ) : ℤ)

theorem estimate_eq {messages : List Entry} (h : ∀ e ∈ messages, e.Valid) (est : Estimator)
    (tools : List Json) :
      est.estimate messages tools = est.tokensOf tools (messages.map Entry.msg) := by
  unfold Estimator.estimate Estimator.tokensOf
  rw [charsOf_eq h]

theorem Elided.tokens_eq {messages : List Entry} {tools : List Json} {done : List ℕ} {acc : Elision}
    (h : Elided messages tools done acc) (est : Estimator) :
    est.tokensForChars acc.chars = est.tokensOf tools (elideAt done (messages.map Entry.msg)) := by
  unfold Estimator.tokensOf
  rw [h.chars_eq, charsOf_eq h.valid, h.messages_eq]

/-- The loop elides the first of the candidates: as few of them as get it to fit, and all of them if
they do not. -/
theorem elideLoop_elided (est : Estimator) (target : ℤ) {messages : List Entry} {tools : List Json}
    (is : List ℕ) : ∀ (done : List ℕ) (acc : Elision), Elided messages tools done acc →
      (done ++ is).Nodup → (∀ i ∈ is, FullAt messages i) →
      ∃ k ≤ is.length, Elided messages tools (done ++ is.take k) (elideLoop est target is acc) ∧
        (k < is.length → est.tokensForChars (elideLoop est target is acc).chars ≤ target) ∧
        ∀ j, 0 < j → j < k → target <
          est.tokensOf tools (elideAt (done ++ is.take j) (messages.map Entry.msg)) := by
  induction is with
  | nil =>
      intro done acc h _ _
      refine ⟨0, le_rfl, ?_, fun hk ↦ absurd hk (lt_irrefl 0), fun j _ hj ↦
        absurd hj (Nat.not_lt_zero j)⟩
      rw [List.take_nil, List.append_nil]
      exact h
  | cons i is ih =>
      intro done acc h hnodup hfull
      obtain ⟨hi, his⟩ := List.forall_mem_cons.mp hfull
      have hnew : i ∉ done := by
        intro hmem
        exact (List.nodup_append.mp hnodup).2.2 i hmem i List.mem_cons_self rfl
      have hstep := h.step hi hnew
      have htokens := hstep.tokens_eq est
      unfold elideLoop
      dsimp only at htokens ⊢
      split
      · rename_i hfits
        exact ⟨1, by simp, by simpa using hstep, fun _ ↦ hfits, by omega⟩
      · rename_i hover
        have hnodup' : (done ++ [i] ++ is).Nodup := by simpa using hnodup
        obtain ⟨k, hk, hrest, hfits, hearlier⟩ := ih _ _ hstep hnodup' his
        refine ⟨k + 1, by simpa using hk, by simpa using hrest, fun hlt ↦ hfits ?_, ?_⟩
        · simpa using hlt
        · intro j hpos hj
          obtain ⟨j, rfl⟩ := Nat.exists_eq_succ_of_ne_zero hpos.ne'
          rcases Nat.eq_zero_or_pos j with rfl | hj'
          · rw [htokens] at hover
            simpa using not_le.mp hover
          · have hlater := hearlier j hj' (by omega)
            simpa using hlater

/-- The observation may be elided: it is none of the newest. -/
def EligibleAt (budget : ContextBudget) (messages : List Entry) (i : ℕ) : Prop :=
  FullAt messages i ∧ budget.keepRecentResults ≤
    (messages.drop (i + 1)).countP fun e ↦ e.msg.isFullObservation

theorem mem_take_of_nodup {xs ys : List ℕ} {i : ℕ} (h : (xs ++ i :: ys).Nodup) (n : ℕ) :
    i ∈ (xs ++ i :: ys).take n ↔ xs.length < n := by
  have hnotMem : i ∉ xs := by
    intro hmem
    exact (List.nodup_append.mp h).2.2 i hmem i List.mem_cons_self rfl
  rw [List.take_append, List.mem_append]
  constructor
  · rintro (hmem | hmem)
    · exact absurd (List.mem_of_mem_take hmem) hnotMem
    · by_contra hle
      rw [Nat.sub_eq_zero_of_le (not_lt.mp hle), List.take_zero] at hmem
      contradiction
  · intro hlt
    right
    obtain ⟨k, hk⟩ := Nat.exists_eq_add_of_lt hlt
    rw [show n - xs.length = k + 1 by omega, List.take_succ_cons]
    exact List.mem_cons_self

theorem findIdxs_eq {messages : List Entry} {i : ℕ} {e : Entry} (he : messages[i]? = some e)
    (hfull : e.msg.isFullObservation = true) : ∃ before behind,
      (messages.findIdxs fun e ↦ e.msg.isFullObservation) = before ++ i :: behind ∧
        behind.length = (messages.drop (i + 1)).countP fun e ↦ e.msg.isFullObservation := by
  obtain ⟨hi, rfl⟩ := List.getElem?_eq_some_iff.mp he
  have hsplit : messages = messages.take i ++ messages[i] :: messages.drop (i + 1) := by simp
  refine ⟨(messages.take i).findIdxs fun e ↦ e.msg.isFullObservation,
    (messages.drop (i + 1)).findIdxs (fun e ↦ e.msg.isFullObservation) (i + 1), ?_,
    List.length_findIdxs⟩
  conv_lhs => rw [hsplit]
  rw [List.findIdxs_append, List.findIdxs_cons, if_pos hfull, List.length_take,
    Nat.min_eq_left hi.le, Nat.zero_add]

theorem mem_candidates (budget : ContextBudget) (messages : List Entry) (i : ℕ) :
    i ∈ candidates budget messages ↔ EligibleAt budget messages i := by
  have hall : i ∈ candidates budget messages ↔
      i ∈ (messages.findIdxs fun e ↦ e.msg.isFullObservation).take
        ((messages.findIdxs fun e ↦ e.msg.isFullObservation).length -
          budget.keepRecentResults) := by
    unfold candidates
    dsimp only
    split
    · rfl
    · exact List.mem_reverse
  have hnodup : (messages.findIdxs fun e ↦ e.msg.isFullObservation).Nodup := List.nodup_findIdxs
  have hfull : i ∈ candidates budget messages → FullAt messages i := by
    intro hmem
    obtain ⟨hi, hp⟩ := List.mem_findIdxs_iff_exists_getElem_pos.mp
      (List.mem_of_mem_take (hall.mp hmem))
    exact ⟨_, List.getElem?_eq_getElem hi, hp⟩
  have hcount : FullAt messages i → (i ∈ candidates budget messages ↔ budget.keepRecentResults ≤
      (messages.drop (i + 1)).countP fun e ↦ e.msg.isFullObservation) := by
    rintro ⟨e, he, hp⟩
    obtain ⟨before, behind, heq, hbehind⟩ := findIdxs_eq he hp
    rw [hall, ← hbehind]
    rw [heq] at hnodup ⊢
    rw [mem_take_of_nodup hnodup, List.length_append, List.length_cons]
    omega
  exact ⟨fun hmem ↦ ⟨hfull hmem, (hcount (hfull hmem)).mp hmem⟩, fun h ↦ (hcount h.1).mpr h.2⟩

theorem nodup_candidates (budget : ContextBudget) (messages : List Entry) :
    (candidates budget messages).Nodup := by
  unfold candidates
  dsimp only
  split
  · exact List.nodup_findIdxs.take
  · exact List.nodup_reverse.mpr List.nodup_findIdxs.take

/-! ## Steps -/

/-- What a message is in a step. -/
def Message.role (m : Message) : Bool × Bool := (m.isAssistant, m.isTool)

theorem role_elided (m : Message) : m.elided.role = m.role := by
  cases m <;> rfl

theorem toolCalls_elided (m : Message) : m.elided.toolCalls = m.toolCalls := by
  cases m <;> rfl

theorem droppedSteps_elided (m : Message) : m.elided.droppedSteps = m.droppedSteps := by
  cases m <;> rfl

/-- The steps are found by the roles alone. -/
theorem stepsFrom_congr (i : ℕ) (messages messages' : List Entry)
    (h : messages'.map (·.msg.role) = messages.map (·.msg.role)) :
    stepsFrom i messages' = stepsFrom i messages := by
  induction i, messages using stepsFrom.induct generalizing messages' with
  | case1 i =>
      rw [List.map_eq_nil_iff.mp h]
  | case2 i m ms hassistant k ih =>
      obtain ⟨m', ms', rfl, hm, hms⟩ := List.map_eq_cons_iff.mp h
      have hrole : m'.msg.isAssistant = true := (congrArg Prod.fst hm).trans hassistant
      have htake : (ms'.takeWhile fun e ↦ e.msg.isTool).length = k := by
        have hlength := congrArg (fun roles ↦ (roles.takeWhile Prod.snd).length) hms
        simpa [List.takeWhile_map, Function.comp_def, Message.role] using hlength
      rw [stepsFrom, stepsFrom, if_pos hrole, if_pos hassistant]
      dsimp only
      rw [htake]
      exact congrArg _ (ih (ms'.drop k) (by rw [List.map_drop, List.map_drop, hms]))
  | case3 i m ms hassistant ih =>
      obtain ⟨m', ms', rfl, hm, hms⟩ := List.map_eq_cons_iff.mp h
      have hrole : m'.msg.isAssistant = m.msg.isAssistant := congrArg Prod.fst hm
      rw [stepsFrom, stepsFrom, if_neg hassistant, if_neg (by rw [hrole]; exact hassistant)]
      exact ih ms' hms

/-- The first step starts at the first assistant message, the steps follow each other, and each
ends where there is still something of the messages or nothing more. -/
theorem stepsFrom_spec (i : ℕ) (messages : List Entry) :
    ((stepsFrom i messages).head?.map Prod.fst =
      if messages.any (·.msg.isAssistant) then
        some (i + (messages.takeWhile fun e ↦ !e.msg.isAssistant).length) else none) ∧
    (stepsFrom i messages).Pairwise (fun step step' ↦ step.2 ≤ step'.1) ∧
    ∀ step ∈ stepsFrom i messages,
      i ≤ step.1 ∧ step.1 < step.2 ∧ step.2 ≤ i + messages.length := by
  induction i, messages using stepsFrom.induct with
  | case1 i => simp [stepsFrom]
  | case2 i m ms hassistant k ih =>
      obtain ⟨_, hpairwise, hbounds⟩ := ih
      have hk : k ≤ ms.length := (List.takeWhile_prefix _).length_le
      rw [stepsFrom, if_pos hassistant]
      refine ⟨by simp [hassistant], List.pairwise_cons.mpr ⟨?_, hpairwise⟩, ?_⟩
      · intro step hstep
        exact (hbounds step hstep).1
      · intro step hstep
        rcases List.mem_cons.mp hstep with rfl | hstep
        · change i ≤ i ∧ i < i + 1 + k ∧ i + 1 + k ≤ _
          rw [List.length_cons]
          omega
        · obtain ⟨hlow, hlt, hhigh⟩ := hbounds step hstep
          rw [List.length_drop] at hhigh
          rw [List.length_cons]
          omega
  | case3 i m ms hassistant ih =>
      obtain ⟨hhead, hpairwise, hbounds⟩ := ih
      rw [stepsFrom, if_neg hassistant]
      have hassistant' : m.msg.isAssistant = false := by simpa using hassistant
      refine ⟨?_, hpairwise, ?_⟩
      · rw [hhead, List.any_cons, hassistant', Bool.false_or,
          List.takeWhile_cons_of_pos (by simp [hassistant']), List.length_cons, Nat.add_assoc,
          Nat.add_comm 1]
      · intro step hstep
        obtain ⟨hlow, hlt, hhigh⟩ := hbounds step hstep
        rw [List.length_cons]
        omega

/-- The tools that steps call. -/
def stepNames (messages : List Entry) (ss : List (ℕ × ℕ)) : List String :=
  ss.flatMap fun step ↦
    (messages[step.1]?.map fun m ↦ m.msg.toolCalls.map ToolCall.name).getD []

/-- What the second stage has decided to drop: the first of the droppable steps, as few of them as
get it to fit, and all of them if they do not. -/
theorem dropLoop_spec (est : Estimator) (tools : List Json) (target : ℤ) (messages : List Entry)
    (start : ℕ) (droppable : List (ℕ × ℕ)) : ∀ acc : Dropped, droppable ≠ [] → ∃ k step,
      droppable[k]? = some step ∧
      dropLoop est tools target messages start droppable acc = ⟨acc.count + (k + 1),
        acc.tools ++ stepNames messages (droppable.take (k + 1)), step.2⟩ ∧
      (∀ j step', j < k → droppable[j]? = some step' → target < est.estimate (messages.take start ++
        dropStub (acc.count + (j + 1)) (acc.tools ++ stepNames messages (droppable.take (j + 1))) ::
          messages.drop step'.2) tools) ∧
      (k + 1 < droppable.length → est.estimate (messages.take start ++
        dropStub (acc.count + (k + 1)) (acc.tools ++ stepNames messages (droppable.take (k + 1))) ::
          messages.drop step.2) tools ≤ target) := by
  induction droppable with
  | nil =>
      intro acc h
      contradiction
  | cons step rest ih =>
      intro acc _
      obtain ⟨s, e⟩ := step
      have hnames : ∀ n, stepNames messages (((s, e) :: rest).take (n + 1)) =
          (messages[s]?.map fun m ↦ m.msg.toolCalls.map ToolCall.name).getD [] ++
            stepNames messages (rest.take n) := by
        intro n
        rw [List.take_succ_cons]
        rfl
      have hnil : stepNames messages (rest.take 0) = [] := rfl
      unfold dropLoop
      dsimp only
      split
      · rename_i hfits
        refine ⟨0, (s, e), rfl, ?_, fun j _ hj ↦ absurd hj (Nat.not_lt_zero j), fun _ ↦ ?_⟩
        · rw [hnames, hnil, List.append_nil]
        · rw [hnames, hnil, List.append_nil]
          exact hfits
      · rename_i hover
        cases rest with
        | nil =>
            refine ⟨0, (s, e), rfl, ?_, fun j _ hj ↦ absurd hj (Nat.not_lt_zero j), ?_⟩
            · rw [hnames, hnil, List.append_nil]
              rfl
            · intro hlt
              simp at hlt
        | cons step rest =>
            obtain ⟨k, step', hstep', hloop, hearlier, hfits⟩ := ih
              ⟨acc.count + 1, acc.tools ++
                (messages[s]?.map fun m ↦ m.msg.toolCalls.map ToolCall.name).getD [], e⟩
              (List.cons_ne_nil _ _)
            dsimp only at hloop hearlier hfits
            refine ⟨k + 1, step', hstep', ?_, ?_, ?_⟩
            · rw [hloop, hnames, List.append_assoc, Nat.add_assoc, Nat.add_comm 1]
            · intro j step'' hj hstep''
              cases j with
              | zero =>
                  obtain rfl := Option.some.inj hstep''
                  rw [hnames, hnil, List.append_nil]
                  exact not_le.mp hover
              | succ j =>
                  have hlater := hearlier j step'' (by omega) hstep''
                  rw [List.append_assoc, Nat.add_assoc, Nat.add_comm 1] at hlater
                  rw [hnames]
                  exact hlater
            · intro hlt
              have hlater := hfits (by simpa using hlt)
              rw [List.append_assoc, Nat.add_assoc, Nat.add_comm 1] at hlater
              rw [hnames]
              exact hlater

/-- Where the first step starts. -/
def stepsStart (messages : List Entry) : ℕ := ((steps messages).head?.map Prod.fst).getD 0

/-- Where the first `d` steps end. -/
def stepsStop (messages : List Entry) (d : ℕ) : ℕ := ((steps messages)[d - 1]?.map Prod.snd).getD 0

/-- The messages with the first `d` steps dropped for a stub. -/
def dropFirst (messages : List Entry) (d : ℕ) : List Entry :=
  messages.take (stepsStart messages) ++
    dropStub d (stepNames messages ((steps messages).take d)) ::
      messages.drop (stepsStop messages d)

/-- There is a stub in front of the place. -/
def stubBefore (messages : List Entry) : ℕ → Bool
  | 0 => false
  | p + 1 => messages[p]?.any fun e ↦ decide (e.dropped ≠ 0)

theorem stepsStop_succ {messages : List Entry} {k : ℕ} {step : ℕ × ℕ}
    (h : (steps messages)[k]? = some step) : stepsStop messages (k + 1) = step.2 := by
  unfold stepsStop
  rw [Nat.add_sub_cancel, h]
  rfl

/-- The second stage drops as few steps as get it to fit, and all that it may if they do not. -/
theorem dropStage_dropFirst (budget : ContextBudget) (est : Estimator) (tools : List Json)
    (messages : List Entry) (hmore : budget.minStepsKept < (steps messages).length) :
    ∃ d, 0 < d ∧ d + budget.minStepsKept ≤ (steps messages).length ∧
      dropStage budget est tools messages =
        (mergeDropStubs (dropFirst messages d) (stepsStart messages), d,
          some (if stubBefore (mergeDropStubs (dropFirst messages d) (stepsStart messages))
            (stepsStart messages) then stepsStart messages - 1 else stepsStart messages)) ∧
      (∀ j, 0 < j → j < d → budget.target < est.estimate (dropFirst messages j) tools) ∧
      (d + budget.minStepsKept < (steps messages).length →
        est.estimate (dropFirst messages d) tools ≤ budget.target) := by
  generalize hdroppable : (steps messages).take
    ((steps messages).length - budget.minStepsKept) = droppable
  have hne : droppable ≠ [] := by
    rintro rfl
    have hlength := congrArg List.length hdroppable
    rw [List.length_take, List.length_nil] at hlength
    omega
  have hlength : droppable.length = (steps messages).length - budget.minStepsKept := by
    rw [← hdroppable, List.length_take]
    omega
  have htake : ∀ n ≤ droppable.length, droppable.take n = (steps messages).take n := by
    intro n hn
    rw [← hdroppable, List.take_take, Nat.min_eq_left (hlength ▸ hn)]
  have hget : ∀ n < droppable.length, droppable[n]? = (steps messages)[n]? := by
    intro n hn
    rw [← hdroppable, List.getElem?_take_of_lt (hlength ▸ hn)]
  obtain ⟨k, step, hstep, hloop, hearlier, hfits⟩ := dropLoop_spec est tools budget.target messages
    (stepsStart messages) droppable ⟨0, [], stepsStart messages⟩ hne
  obtain ⟨hk, -⟩ := List.getElem?_eq_some_iff.mp hstep
  simp only [Nat.zero_add, List.nil_append] at hloop hearlier hfits
  have hstop := stepsStop_succ ((hget k hk).symm.trans hstep)
  refine ⟨k + 1, Nat.succ_pos k, by omega, ?_, ?_, ?_⟩
  · obtain ⟨⟨firstStart, stop⟩, rest, hcons⟩ := List.exists_cons_of_ne_nil hne
    have hstart : stepsStart messages = firstStart := by
      have hhead := hget 0 (by omega)
      rw [hcons, List.getElem?_cons_zero, ← List.head?_eq_getElem?] at hhead
      unfold stepsStart
      rw [← hhead]
      rfl
    unfold dropStage
    dsimp only
    rw [hdroppable, hcons]
    dsimp only
    rw [← hcons, ← hstart, hloop, htake _ hk, ← hstop]
    dsimp only
    change (mergeDropStubs (dropFirst messages (k + 1)) (stepsStart messages), k + 1, _) = _
    congr 3
  · intro j hj hlt
    obtain ⟨j, rfl⟩ := Nat.exists_eq_succ_of_ne_zero hj.ne'
    have hj' : j < droppable.length := by omega
    have hearlier' := hearlier j _ (by omega) (List.getElem?_eq_getElem hj')
    have hstop' := stepsStop_succ ((hget j hj').symm.trans (List.getElem?_eq_getElem hj'))
    rw [htake _ hj', ← hstop'] at hearlier'
    exact hearlier'
  · intro hlt
    have hfits' := hfits (by omega)
    rw [htake _ hk, ← hstop] at hfits'
    exact hfits'

/-! ## The second stage -/

/-- Merging takes a stub in front of the new one in, and changes nothing else. -/
theorem mergeDropStubs_spec (front : List Entry) (stub : Entry) (rest : List Entry)
    (hstub : stub.dropped ≠ 0) :
    (mergeDropStubs (front ++ stub :: rest) front.length = front ++ stub :: rest ∧
      ∀ prev, front.getLast? = some prev → prev.dropped = 0) ∨
    ∃ front' prev, front = front' ++ [prev] ∧ prev.dropped ≠ 0 ∧
      mergeDropStubs (front ++ stub :: rest) front.length =
        front' ++ dropStub (prev.dropped + stub.dropped)
          (Lists.sortedSet (stubTools prev.msg.content ++ stubTools stub.msg.content)) :: rest := by
  rcases List.eq_nil_or_concat front with rfl | ⟨front', prev, rfl⟩
  · exact .inl ⟨rfl, by simp⟩
  · rw [List.concat_eq_append]
    have hprev : (front' ++ [prev] ++ stub :: rest)[front'.length]? = some prev := by simp
    have hcur : (front' ++ [prev] ++ stub :: rest)[front'.length + 1]? = some stub := by simp
    rw [List.length_append, List.length_singleton]
    unfold mergeDropStubs
    dsimp only
    rw [hprev, hcur]
    dsimp only
    by_cases hdropped : prev.dropped ≠ 0
    · refine .inr ⟨front', prev, rfl, hdropped, ?_⟩
      rw [if_pos ⟨hdropped, hstub⟩]
      simp
    · refine .inl ⟨if_neg fun h ↦ hdropped h.1, ?_⟩
      intro prev' hprev'
      obtain rfl : prev = prev' := by simpa using hprev'
      simpa using hdropped

/-- The messages behind a cut: a run from `start` to `stop` is gone, and a stub counts its steps,
alone or with those of the stub in front of it. -/
inductive Cut (ms : List Message) (start stop dropped : ℕ) : List Message → ℕ → Prop where
  | alone (tools : List String) : (∀ m ∈ (ms.take start).getLast?, m.droppedSteps.getD 0 = 0) →
      Cut ms start stop dropped (ms.take start ++
        (dropStub dropped tools).msg :: ms.drop stop) start
  | merged (tools : List String) {front : List Message} {prev : Message} :
      ms.take start = front ++ [prev] → prev.droppedSteps.getD 0 ≠ 0 →
      Cut ms start stop dropped
        (front ++ (dropStub (prev.droppedSteps.getD 0 + dropped) tools).msg :: ms.drop stop)
        front.length

theorem dropped_dropStub (n : ℕ) (tools : List String) : (dropStub n tools).dropped = n := rfl

/-- A stub that counts dropped steps is one that compaction has made. -/
def Entry.Stubbed (e : Entry) : Prop := e.dropped ≠ 0 → ∃ n tools, e.msg = (dropStub n tools).msg

theorem pyInt_mono {q r : ℚ} (h : q ≤ r) : pyInt q ≤ pyInt r := by
  unfold pyInt
  split_ifs with hq hr hr
  · exact Int.floor_mono h
  · exact absurd (hq.trans h) hr
  · exact (Int.ceil_le.mpr (by simpa using (not_le.mp hq).le)).trans (Int.floor_nonneg.mpr hr)
  · exact Int.ceil_mono h

/-- More characters are at least as many tokens. -/
theorem Estimator.tokensForChars_mono {est : Estimator} (hpos : 0 < est.charsPerToken) {n m : ℤ}
    (h : n ≤ m) : est.tokensForChars n ≤ est.tokensForChars m := by
  unfold Estimator.tokensForChars
  have hle : (n : ℚ) / est.charsPerToken ≤ m / est.charsPerToken :=
    div_le_div_of_nonneg_right (by exact_mod_cast h) hpos.le
  have := pyInt_mono hle
  omega

theorem estimate_mono {est : Estimator} (hpos : 0 < est.charsPerToken) {ms ms' : List Entry}
    (hvalid : ∀ e ∈ ms, e.Valid) (hvalid' : ∀ e ∈ ms', e.Valid) (tools : List Json)
    (h : costOf (ms.map Entry.msg) ≤ costOf (ms'.map Entry.msg)) :
    est.estimate ms tools ≤ est.estimate ms' tools := by
  unfold Estimator.estimate
  rw [charsOf_eq hvalid, charsOf_eq hvalid']
  exact est.tokensForChars_mono hpos (by push_cast; omega)

theorem costOf_append (ms ms' : List Message) : costOf (ms ++ ms') = costOf ms + costOf ms' := by
  simp [costOf]

theorem costOf_cons (m : Message) (ms : List Message) : costOf (m :: ms) = m.chars + costOf ms := by
  simp [costOf]

theorem valid_dropStub (n : ℕ) (tools : List String) : (dropStub n tools).Valid :=
  Entry.valid_uncached _

/-- Nothing in front of the stub counts dropped steps. -/
theorem stubBefore_alone {messages : List Entry} {start : ℕ} (stub : Entry) (rest : List Entry)
    (hstart : start ≤ messages.length)
    (hprev : ∀ prev, (messages.take start).getLast? = some prev → prev.dropped = 0) :
    stubBefore (messages.take start ++ stub :: rest) start = false := by
  cases start with
  | zero => rfl
  | succ p =>
      have hget : (messages.take (p + 1))[p]? = some messages[p] := by
        rw [List.getElem?_take_of_lt (Nat.lt_succ_self p), List.getElem?_eq_getElem]
      have hlast : (messages.take (p + 1)).getLast? = some messages[p] := by
        rw [List.getLast?_eq_getElem?, List.length_take, Nat.min_eq_left hstart]
        exact hget
      unfold stubBefore
      dsimp only
      rw [List.getElem?_append_left (by rw [List.length_take]; omega), hget]
      simp [hprev _ hlast]

theorem stubBefore_merged (front : List Entry) (stub : Entry) (rest : List Entry)
    (hstub : stub.dropped ≠ 0) : stubBefore (front ++ stub :: rest) (front.length + 1) = true := by
  simp [stubBefore, hstub]

/-- The messages with a run of them gone for a stub. -/
def stubbed (messages : List Entry) (start stop d : ℕ) (names : List String) : List Entry :=
  messages.take start ++ dropStub d names :: messages.drop stop

section Merge

variable {messages : List Entry} {start d : ℕ}

/-- Behind the merge, one stub counts the steps. -/
theorem cut_mergeDropStubs (hstart : start ≤ messages.length) (hd : d ≠ 0) (stop : ℕ)
    (names : List String) :
    Cut (messages.map Entry.msg) start stop d
      ((mergeDropStubs (stubbed messages start stop d names) start).map Entry.msg)
      (if stubBefore (mergeDropStubs (stubbed messages start stop d names) start) start
        then start - 1 else start) := by
  have hlength : (messages.take start).length = start := by
    rw [List.length_take, Nat.min_eq_left hstart]
  have hmerge := mergeDropStubs_spec (messages.take start) (dropStub d names)
    (messages.drop stop) hd
  rw [hlength] at hmerge
  unfold stubbed
  rcases hmerge with ⟨hmerge, hprev⟩ | ⟨front, prev, hfront, hprev, hmerge⟩
  · rw [hmerge, stubBefore_alone _ _ hstart hprev, List.map_append, List.map_cons, List.map_take,
      List.map_drop]
    refine .alone names ?_
    intro m hm
    rw [← List.map_take, List.getLast?_map] at hm
    obtain ⟨e, he, rfl⟩ := Option.map_eq_some_iff.mp hm
    exact hprev e he
  · have hstartEq : start = front.length + 1 := by
      rw [← hlength, hfront, List.length_append, List.length_singleton]
    have hmergedStub : (dropStub (prev.dropped + (dropStub d names).dropped)
        (Lists.sortedSet (stubTools prev.msg.content ++
          stubTools (dropStub d names).msg.content))).dropped ≠ 0 := by
      rw [dropped_dropStub, dropped_dropStub]
      omega
    rw [hmerge, hstartEq, stubBefore_merged _ _ _ hmergedStub]
    have htake : (messages.map Entry.msg).take (front.length + 1) =
        front.map Entry.msg ++ [prev.msg] := by
      rw [← List.map_take, ← hstartEq, hfront, List.map_append]
      rfl
    have hlength' : (front.map Entry.msg).length = front.length := List.length_map _
    rw [if_pos rfl, Nat.add_sub_cancel, List.map_append, List.map_cons, List.map_drop, ← hlength']
    rw [← hlength'] at htake
    exact .merged _ htake hprev

/-- The merge makes nothing bigger. -/
theorem estimate_mergeDropStubs {est : Estimator} (hpos : 0 < est.charsPerToken)
    (hvalid : ∀ e ∈ messages, e.Valid) (hstubbed : ∀ e ∈ messages, e.Stubbed)
    (hstart : start ≤ messages.length) (hd : d ≠ 0) (stop : ℕ) (names : List String)
    (tools : List Json) :
    est.estimate (mergeDropStubs (stubbed messages start stop d names) start) tools ≤
      est.estimate (stubbed messages start stop d names) tools := by
  have hlength : (messages.take start).length = start := by
    rw [List.length_take, Nat.min_eq_left hstart]
  have hfront : ∀ e ∈ messages.take start, e.Valid := fun e he ↦ hvalid e (List.mem_of_mem_take he)
  have hback : ∀ e ∈ messages.drop stop, e.Valid := fun e he ↦ hvalid e (List.mem_of_mem_drop he)
  have htrial : ∀ e ∈ stubbed messages start stop d names, e.Valid :=
    List.forall_mem_append.mpr ⟨hfront, List.forall_mem_cons.mpr ⟨valid_dropStub _ _, hback⟩⟩
  have hmerge := mergeDropStubs_spec (messages.take start) (dropStub d names)
    (messages.drop stop) hd
  rw [hlength] at hmerge
  rcases hmerge with ⟨hmerge, -⟩ | ⟨front, prev, hfrontEq, hprev, hmerge⟩
  · unfold stubbed
    rw [hmerge]
  · have hprevMem : prev ∈ messages := by
      apply List.mem_of_mem_take (i := start)
      rw [hfrontEq]
      simp
    obtain ⟨n, names', hn⟩ := hstubbed prev hprevMem hprev
    have hdropped : prev.dropped = n := by
      unfold Entry.dropped
      rw [hn]
      rfl
    refine estimate_mono hpos ?_ htrial tools ?_
    · unfold stubbed
      rw [hmerge]
      refine List.forall_mem_append.mpr ⟨fun e he ↦ hfront e ?_,
        List.forall_mem_cons.mpr ⟨valid_dropStub _ _, hback⟩⟩
      rw [hfrontEq]
      exact List.mem_append_left _ he
    · -- the two stubs cost at least what the merged one costs
      have hcost := chars_merged_le n d names' names
      unfold stubbed
      rw [hmerge, hfrontEq, hdropped, hn]
      simp only [List.map_append, List.map_cons, List.map_nil, costOf_append, costOf_cons,
        dropped_dropStub, hn] at hcost ⊢
      omega

end Merge

/-- What the second stage does: it drops the first of the steps that may be dropped. -/
theorem dropStage_spec (budget : ContextBudget) (est : Estimator) (tools : List Json)
    (messages : List Entry) (hvalid : ∀ e ∈ messages, e.Valid)
    (hstubbed : ∀ e ∈ messages, e.Stubbed)
    (hpos : 0 < est.charsPerToken) :
    ((steps messages).length ≤ budget.minStepsKept ∧
      dropStage budget est tools messages = (messages, 0, none)) ∨
    ∃ dropped start stop at_, 0 < dropped ∧
      dropped + budget.minStepsKept ≤ (steps messages).length ∧
      (steps messages).head?.map Prod.fst = some start ∧
      (steps messages)[dropped - 1]?.map Prod.snd = some stop ∧
      (dropStage budget est tools messages).2 = (dropped, some at_) ∧
      Cut (messages.map Entry.msg) start stop dropped
        ((dropStage budget est tools messages).1.map Entry.msg) at_ ∧
      (dropped + budget.minStepsKept < (steps messages).length →
        est.estimate (dropStage budget est tools messages).1 tools ≤ budget.target) := by
  rcases Nat.lt_or_ge budget.minStepsKept (steps messages).length with hmore | hfew
  swap
  · left
    refine ⟨hfew, ?_⟩
    unfold dropStage
    dsimp only
    rw [Nat.sub_eq_zero_of_le hfew, List.take_zero]
  · right
    obtain ⟨d, hd, hkept, hstage, -, hfits⟩ :=
      dropStage_dropFirst budget est tools messages hmore
    obtain ⟨-, -, hbounds⟩ := stepsFrom_spec 0 messages
    have hhead : (steps messages).head? = some (steps messages)[0] :=
      List.head?_eq_getElem? ▸ List.getElem?_eq_getElem (by omega)
    have hfirst : (steps messages).head?.map Prod.fst = some (stepsStart messages) := by
      unfold stepsStart
      rw [hhead]
      rfl
    have hstart : stepsStart messages ≤ messages.length := by
      have hbound := hbounds _ (List.mem_of_mem_head? hhead)
      rw [hhead] at hfirst
      have heq := Option.some.inj hfirst
      omega
    have hstop : (steps messages)[d - 1]?.map Prod.snd = some (stepsStop messages d) := by
      unfold stepsStop
      rw [List.getElem?_eq_getElem (by omega)]
      rfl
    rw [hstage]
    refine ⟨d, stepsStart messages, stepsStop messages d, _, hd, hkept, hfirst, hstop, rfl,
      cut_mergeDropStubs hstart hd.ne' _ _, ?_⟩
    intro hlt
    exact (estimate_mergeDropStubs hpos hvalid hstubbed hstart hd.ne' _ _ tools).trans (hfits hlt)

/-! ## Both stages -/

theorem fullAt_congr {messages messages' : List Entry}
    (h : messages'.map Entry.msg = messages.map Entry.msg) (i : ℕ) :
    FullAt messages' i ↔ FullAt messages i := by
  have hi : messages'[i]?.map Entry.msg = messages[i]?.map Entry.msg := by
    rw [← List.getElem?_map, ← List.getElem?_map, h]
  have hfull : ∀ es : List Entry, FullAt es i ↔
      ∃ m, es[i]?.map Entry.msg = some m ∧ m.isFullObservation = true := by
    intro es
    simp [FullAt, Option.map_eq_some_iff]
  rw [hfull, hfull, hi]

theorem eligibleAt_congr (budget : ContextBudget) {messages messages' : List Entry}
    (h : messages'.map Entry.msg = messages.map Entry.msg) (i : ℕ) :
    EligibleAt budget messages' i ↔ EligibleAt budget messages i := by
  have hcount : ∀ es : List Entry, ((es.drop (i + 1)).countP fun e ↦ e.msg.isFullObservation) =
      ((es.map Entry.msg).drop (i + 1)).countP Message.isFullObservation := by
    intro es
    rw [← List.map_drop, List.countP_map]
    rfl
  unfold EligibleAt
  rw [fullAt_congr h, hcount, hcount, h]

theorem steps_congr {messages messages' : List Entry}
    (h : messages'.map (·.msg.role) = messages.map (·.msg.role)) :
      steps messages' = steps messages :=
  stepsFrom_congr 0 messages messages' h

theorem map_role_of_elideAt {messages messages' : List Entry} {is : List ℕ}
    (h : messages'.map Entry.msg = elideAt is (messages.map Entry.msg)) :
    messages'.map (·.msg.role) = messages.map (·.msg.role) := by
  have hrole : ∀ es : List Entry, es.map (·.msg.role) = (es.map Entry.msg).map Message.role := by
    simp [Function.comp_def]
  rw [hrole, hrole, h]
  apply List.ext_getElem?
  intro i
  simp only [List.getElem?_map, getElem?_elideAt, Option.map_map]
  congr 1
  funext e
  simp only [Function.comp_apply]
  split
  · exact role_elided _
  · rfl

theorem stubbed_of_elideAt {messages messages' : List Entry} {is : List ℕ}
    (h : messages'.map Entry.msg = elideAt is (messages.map Entry.msg))
    (hstubbed : ∀ e ∈ messages, e.Stubbed) : ∀ e ∈ messages', e.Stubbed := by
  intro e' he' hdropped
  obtain ⟨i, hi⟩ := List.mem_iff_getElem?.mp he'
  have hmsg := congrArg (·[i]?) h
  simp only [List.getElem?_map, getElem?_elideAt, hi, Option.map_some] at hmsg
  obtain ⟨m, hm, heq⟩ := Option.map_eq_some_iff.mp hmsg.symm
  obtain ⟨e, he, rfl⟩ := Option.map_eq_some_iff.mp hm
  have hsame : e'.dropped = e.dropped := by
    unfold Entry.dropped
    rw [← heq]
    split
    · rw [droppedSteps_elided]
    · rfl
  obtain ⟨n, tools, hstub⟩ := hstubbed e (List.mem_of_getElem? he) (hsame ▸ hdropped)
  refine ⟨n, tools, ?_⟩
  rw [← heq, hstub]
  split
  · rfl
  · rfl

/-- What the second stage leaves of the messages: all of them, or what is in front of a run of
steps and behind it, with a stub between. -/
inductive Ran (budget : ContextBudget) (messages : List Entry) (elided : List ℕ) :
    ℕ → List Message → Option ℕ → Prop where
  | kept : Ran budget messages elided 0 (elideAt elided (messages.map Entry.msg)) none
  | cut {dropped start stop at_ : ℕ} {result : List Message} : 0 < dropped →
      dropped + budget.minStepsKept ≤ (steps messages).length →
      (steps messages).head?.map Prod.fst = some start →
      (steps messages)[dropped - 1]?.map Prod.snd = some stop →
      Cut (elideAt elided (messages.map Entry.msg)) start stop dropped result at_ →
      Ran budget messages elided dropped result (some at_)

/-- What `compact` has done, by its messages and its report. -/
structure Outcome (messages : List Entry) (budget : ContextBudget)
    (c : List Entry × CompactionReport)
    (elided : List ℕ) (dropped : ℕ) (first dropAt : Option ℕ) : Prop where
  nodup : elided.Nodup
  eligible : ∀ i ∈ elided, EligibleAt budget messages i
  elidedResults : c.2.elidedResults = elided.length
  droppedSteps : c.2.droppedSteps = dropped
  ran : Ran budget messages elided dropped (c.1.map Entry.msg) dropAt
  valid : ∀ e ∈ c.1, e.Valid
  firstChangedIndex : c.2.firstChangedIndex = minIndex first dropAt
  first_none : first = none → elided = []
  first_le : ∀ i, first = some i → ∀ j ∈ elided, i ≤ j
  floor : c.2.fits = false → (∀ i, EligibleAt budget messages i → i ∈ elided) ∧
    dropped = (steps messages).length - budget.minStepsKept

theorem elided_start (messages : List Entry) (tools : List Json) (h : ∀ e ∈ messages, e.Valid) :
    Elided messages tools [] { messages := messages, chars := charsOf messages tools } :=
  ⟨(elideAt_nil _).symm, h, rfl, rfl, fun _ ↦ rfl, fun _ _ _ hj ↦ by contradiction⟩

theorem valid_dropStage (budget : ContextBudget) (est : Estimator) (tools : List Json)
    {messages : List Entry} (h : ∀ e ∈ messages, e.Valid) :
    ∀ e ∈ (dropStage budget est tools messages).1, e.Valid :=
  dropStage_forall (P := Entry.Valid) valid_dropStub budget est tools h

/-- The first stage of `compact`, before the sizes are cached again. -/
def elision (messages : List Entry) (budget : ContextBudget) (est : Estimator)
    (tools : List Json) : Elision :=
  elideLoop est budget.target (candidates budget (messages.map Entry.cached))
    { messages := messages.map Entry.cached, chars := charsOf (messages.map Entry.cached) tools }

theorem elision_spec (budget : ContextBudget) (est : Estimator) (tools : List Json)
    {messages : List Entry} (hvalid : ∀ e ∈ messages, e.Valid) :
    ∃ elided, elided.Nodup ∧ (∀ i ∈ elided, EligibleAt budget messages i) ∧
      Elided (messages.map Entry.cached) tools elided (elision messages budget est tools) ∧
      ((∃ i, EligibleAt budget messages i ∧ i ∉ elided) →
        est.tokensForChars (elision messages budget est tools).chars ≤ budget.target) := by
  have hsame := map_msg_cached messages
  have hnodup := nodup_candidates budget (messages.map Entry.cached)
  have hmem := mem_candidates budget (messages.map Entry.cached)
  obtain ⟨k, hk, hel, hfits, -⟩ := elideLoop_elided est budget.target
    (candidates budget (messages.map Entry.cached)) [] _
    (elided_start _ tools (valid_map_cached hvalid)) (by simpa using hnodup)
    (fun i hi ↦ ((hmem i).mp hi).1)
  rw [List.nil_append] at hel
  refine ⟨_, (List.take_sublist k _).nodup hnodup, ?_, hel, ?_⟩
  · intro i hi
    exact (eligibleAt_congr budget hsame i).mp ((hmem i).mp (List.mem_of_mem_take hi))
  · rintro ⟨i, hi, hnot⟩
    apply hfits
    have hmem' := (hmem i).mpr ((eligibleAt_congr budget hsame i).mpr hi)
    by_contra hle
    rw [List.take_of_length_le (not_lt.mp hle)] at hnot
    exact hnot hmem'

theorem compact_of_over {messages : List Entry} {budget : ContextBudget} {est : Estimator}
    {tools : List Json} (hover : ¬est.estimate messages tools ≤ budget.target)
    (result : List Entry) (dropped : ℕ) (dropAt : Option ℕ)
    (h : (if budget.target <
        est.estimate ((elision messages budget est tools).messages.map Entry.cached) tools then
          dropStage budget est tools ((elision messages budget est tools).messages.map Entry.cached)
        else ((elision messages budget est tools).messages.map Entry.cached, 0, none)) =
      (result, dropped, dropAt)) :
    compact messages budget est tools =
      (result.map Entry.cached,
        { beforeTokens := est.estimate messages tools
          afterTokens := est.estimate result tools
          elidedResults := (elision messages budget est tools).elided
          droppedSteps := dropped
          fits := decide (est.estimate result tools ≤ budget.target)
          firstChangedIndex := minIndex (elision messages budget est tools).first dropAt
          invalidatedChars := ((minIndex (elision messages budget est tools).first dropAt).map
            fun i ↦ (((result.map Entry.cached).drop i).map Entry.msgChars).sum).getD 0 }) := by
  unfold compact
  dsimp only
  rw [if_neg hover]
  unfold elision at h
  rw [h]
  rfl

theorem compact_outcome (budget : ContextBudget) (est : Estimator) (tools : List Json)
    {messages : List Entry} (hvalid : ∀ e ∈ messages, e.Valid)
    (hstubbed : ∀ e ∈ messages, e.Stubbed) (hpos : 0 < est.charsPerToken) :
    ∃ elided dropped first dropAt,
      Outcome messages budget (compact messages budget est tools) elided dropped first dropAt := by
  by_cases hover : est.estimate messages tools ≤ budget.target
  · have heq : compact messages budget est tools = (messages.map Entry.cached,
        { beforeTokens := est.estimate messages tools,
          afterTokens := est.estimate messages tools }) := by
      unfold compact
      exact if_pos hover
    have hran : Ran budget messages [] 0 _ none := .kept
    rw [elideAt_nil, ← map_msg_cached] at hran
    rw [heq]
    exact ⟨[], 0, none, none, List.nodup_nil, by simp, rfl, rfl, hran, valid_map_cached hvalid, rfl,
      fun _ ↦ rfl, by simp, by simp⟩
  · obtain ⟨elided, hnodup, heligible, hel, hfits⟩ := elision_spec budget est tools hvalid
    have hmsgs : (elision messages budget est tools).messages.map Entry.msg =
        elideAt elided (messages.map Entry.msg) := by
      rw [hel.messages_eq, map_msg_cached]
    generalize hsized : (elision messages budget est tools).messages.map Entry.cached = sized
    have hsizedMsgs : sized.map Entry.msg = elideAt elided (messages.map Entry.msg) := by
      rw [← hsized, map_msg_cached, hmsgs]
    have hsizedValid : ∀ e ∈ sized, e.Valid := hsized ▸ valid_map_cached hel.valid
    have hsizedStubbed := stubbed_of_elideAt hsizedMsgs hstubbed
    have hsteps : steps sized = steps messages := steps_congr (map_role_of_elideAt hsizedMsgs)
    have hsize : (elision messages budget est tools).chars = charsOf sized tools := by
      rw [hel.chars_eq, ← hsized, charsOf_cached]
    have hall : ¬est.estimate sized tools ≤ budget.target →
        ∀ i, EligibleAt budget messages i → i ∈ elided := by
      intro hsizedOver i hi
      by_contra hnot
      have hfit := hfits ⟨i, hi, hnot⟩
      rw [hsize] at hfit
      exact hsizedOver hfit
    have hresults := hel.elided_eq
    by_cases hsizedOver : est.estimate sized tools ≤ budget.target
    · have heq := compact_of_over hover sized 0 none
        (by rw [hsized, if_neg (not_lt.mpr hsizedOver)])
      have hran : Ran budget messages elided 0 _ none := .kept
      rw [← hsizedMsgs, ← map_msg_cached] at hran
      rw [heq]
      exact ⟨elided, 0, _, none, hnodup, heligible, hresults, rfl, hran,
        valid_map_cached hsizedValid, rfl, hel.first_none, hel.first_le, by simp [hsizedOver]⟩
    · rcases dropStage_spec budget est tools sized hsizedValid hsizedStubbed hpos with
        ⟨hfew, hstage⟩ | ⟨dropped, start, stop, at_, hdropped, hkept, hstart, hstop, hstage, hcut,
          hfloor⟩
      · have heq := compact_of_over hover sized 0 none
          (by rw [hsized, if_pos (not_le.mp hsizedOver), hstage])
        have hran : Ran budget messages elided 0 _ none := .kept
        rw [← hsizedMsgs, ← map_msg_cached] at hran
        rw [heq]
        refine ⟨elided, 0, _, none, hnodup, heligible, hresults, rfl, hran,
          valid_map_cached hsizedValid, rfl, hel.first_none, hel.first_le, fun _ ↦
            ⟨hall hsizedOver, ?_⟩⟩
        rw [← hsteps]
        omega
      · have heq := compact_of_over hover (dropStage budget est tools sized).1 dropped (some at_)
          (by rw [hsized, if_pos (not_le.mp hsizedOver), ← hstage])
        rw [hsteps] at hkept hstart hstop hfloor
        rw [hsizedMsgs] at hcut
        have hran := Ran.cut hdropped hkept hstart hstop hcut
        rw [← map_msg_cached] at hran
        rw [heq]
        refine ⟨elided, dropped, _, some at_, hnodup, heligible, hresults, rfl, hran,
          valid_map_cached (valid_dropStage budget est tools hsizedValid), rfl, hel.first_none,
          hel.first_le, fun hnot ↦ ⟨hall hsizedOver, ?_⟩⟩
        have hover' := of_decide_eq_false hnot
        by_contra hne
        exact hover' (hfloor (by omega))

end NucLlm.AgentLoop
