import NucLlm.KvReuse.Exact

/-!
# Every reply is the one of a cold run

What `step` and the snapshots keep, then the prefill and the decode loop, then
the requests of a process one after the other.
-/

namespace NucLlm.KvReuse

variable {net : Network}

/-! ## Feeding -/

/-- Feeding changes the recurrent state and the rows only. -/
theorem feedChunk_frame (toks : List Token) :
    ∀ (m : Model net) (pos : ℕ) (logits : Option net.Logits),
      (feedChunk m pos toks logits).1 =
        { m with dn := (feedChunk m pos toks logits).1.dn,
                 kv := (feedChunk m pos toks logits).1.kv } := by
  induction toks with
  | nil => exact fun m pos logits ↦ rfl
  | cons tok toks ih =>
      intro m pos logits
      exact (ih (feedToken m pos tok).1 (pos + 1) (some (feedToken m pos tok).2)).trans rfl

/-- A chunk fed behind `fed` leaves the state and the rows of a cold run after
both, and its logits. -/
theorem feedChunk_cold {toks : List Token} :
    ∀ {fed : List Token} {m m' : Model net} {logits logits' : Option net.Logits},
      m.dn = coldState net fed → rowsUpTo m.kv m.kvCap fed.length = coldRows net fed →
      fed.length + toks.length ≤ m.kvCap → feedChunk m fed.length toks logits = (m', logits') →
      m'.dn = coldState net (fed ++ toks) ∧
        rowsUpTo m'.kv m.kvCap (fed ++ toks).length = coldRows net (fed ++ toks) ∧
        (toks ≠ [] → logits' = coldLogits net (fed ++ toks)) := by
  induction toks with
  | nil =>
      intro fed m m' logits logits' hdn hrows _ hfeed
      obtain ⟨rfl, rfl⟩ := Prod.mk.inj hfeed
      rw [List.append_nil]
      exact ⟨hdn, hrows, fun hne ↦ absurd rfl hne⟩
  | cons tok toks ih =>
      intro fed m m' logits logits' hdn hrows hroom hfeed
      rw [List.length_cons] at hroom
      have hlength : (fed ++ [tok]).length = fed.length + 1 := List.length_append
      have happend : fed ++ tok :: toks = fed ++ [tok] ++ toks := by simp
      have hcold : cold net (fed ++ [tok]) = _ := cold_append_singleton fed tok
      rw [← hdn, ← hrows] at hcold
      have hstate : (feedToken m fed.length tok).1.dn = coldState net (fed ++ [tok]) := by
        rw [coldState, hcold]
        rfl
      have hnext : rowsUpTo (feedToken m fed.length tok).1.kv m.kvCap (fed ++ [tok]).length =
          coldRows net (fed ++ [tok]) := by
        rw [coldRows, hcold, hlength]
        exact rowsUpTo_writeRow (by omega) _
      have hlast : coldLogits net (fed ++ [tok]) = some (feedToken m fed.length tok).2 := by
        rw [coldLogits, hcold]
        rfl
      have hfeed : feedChunk (feedToken m fed.length tok).1 (fed ++ [tok]).length toks
          (some (feedToken m fed.length tok).2) = (m', logits') := by
        rw [hlength]
        exact hfeed
      have hfits : (fed ++ [tok]).length + toks.length ≤ m.kvCap := by omega
      rw [happend]
      obtain ⟨hdn', hrows', hlogits'⟩ := ih hstate hnext hfits hfeed
      refine ⟨hdn', hrows', fun _ ↦ ?_⟩
      rcases eq_or_ne toks [] with rfl | hne
      · obtain ⟨-, rfl⟩ := Prod.mk.inj hfeed
        rw [List.append_nil, hlast]
      · exact hlogits' hne

/-- `step` builds the state further and returns the logits of a cold run. -/
theorem step_built {m : Model net} {fed toks : List Token} (h : Built m fed) (htoks : toks ≠ [])
    (hroom : fed.length + toks.length ≤ m.kvCap) :
    Built (step m toks fed.length).1 (fed ++ toks) ∧
      (step m toks fed.length).2 = coldLogits net (fed ++ toks) ∧
      (step m toks fed.length).1.kvCap = m.kvCap := by
  rcases hfeed : feedChunk m fed.length toks none with ⟨m', logits⟩
  obtain ⟨hdn, hrows, hlogits⟩ := feedChunk_cold h.dn h.rows hroom hfeed
  have hframe := feedChunk_frame toks m fed.length none
  rw [hfeed] at hframe
  dsimp only at hframe
  have hstep : step m toks fed.length =
      ({ m with dn := m'.dn, kv := m'.kv, kvLen := fed.length + toks.length,
                kvp := m.kvp.record toks fed.length }, logits) := by
    unfold step
    rw [hfeed]
    dsimp only
    rw [hframe]
  rw [hstep]
  refine ⟨?_, hlogits htoks, rfl⟩
  have hlength : (fed ++ toks).length = fed.length + toks.length := List.length_append
  cases hrecorded : m.kvp.fed with
  | none =>
      have hzero := h.sized.unrecorded hrecorded
      have hnosnap : ∀ s ∈ m.snaps, ¬ 0 < s.pos := by
        intro s hs hpos
        have := h.below s hs hpos
        omega
      rw [KvPrefix.record_none hrecorded]
      refine ⟨⟨⟨h.sized.unrecorded, h.sized.recorded, h.sized.fits⟩, hdn, hrows, ?_, ?_⟩,
        hlength.symm, hlength ▸ hroom, ?_⟩
      · intro hsome
        rw [hrecorded] at hsome
        contradiction
      · exact fun s hs hpos ↦ absurd hpos (hnosnap s hs)
      · exact fun s hs hpos ↦ absurd hpos (hnosnap s hs)
  | some buffer =>
      have hsome : m.kvp.fed.isSome := by
        rw [hrecorded]
        rfl
      have hids := h.record hsome
      have hlen : m.kvp.len = fed.length := by rw [← h.sized.length_ids, hids]
      have hcap := h.sized.recorded hsome
      obtain ⟨hfed, hlen', hids', hcap', _⟩ :=
        KvPrefix.record_end hsome htoks (by rw [hlen, hcap.1]; exact hroom)
      rw [hlen] at hfed hlen' hids' hcap'
      have hbelow : ∀ s ∈ m.snaps, 0 < s.pos → s.pos ≤ fed.length :=
        fun s hs hpos ↦ h.snap_le hs hpos
      have hgrows : fed.length ≤ (m.kvp.record toks fed.length).len := by omega
      refine ⟨⟨⟨?_, fun _ ↦ ⟨hcap'.trans hcap.1, hcap.2⟩, hlen' ▸ hroom⟩, hdn, hrows,
        fun _ ↦ hids'.trans (congrArg (· ++ toks) hids), ?_⟩, hlength.symm, hlength ▸ hroom, ?_⟩
      · intro hnone
        rw [hnone] at hfed
        contradiction
      · intro s hs hpos _
        rw [List.take_append_of_le_length (hbelow s hs hpos)]
        exact h.snaps s hs hpos (hbelow s hs hpos)
      · intro s hs hpos
        exact (hbelow s hs hpos).trans hgrows

/-! ## Snapshots -/

/-- A snapshot that holds the state of the cold run after the first ids. -/
def Snap.Exact (m : Model net) (fed : List Token) (s : Snap net) : Prop :=
  0 < s.pos → s.pos ≤ m.kvp.len ∧ s.dn = some (coldState net (fed.take s.pos))

theorem Built.exact {m : Model net} {fed : List Token} (h : Built m fed) {s : Snap net}
    (hs : s ∈ m.snaps) : s.Exact m fed :=
  fun hpos ↦ ⟨h.below s hs hpos, h.snaps s hs hpos (h.snap_le hs hpos)⟩

theorem Built.withSnaps {m : Model net} {fed : List Token} (h : Built m fed)
    {sys promptEnd : Snap net}
    (hsys : sys.Exact m fed) (hprompt : promptEnd.Exact m fed) :
    Built { m with sys := sys, promptEnd := promptEnd } fed := by
  have hsnap : ∀ s ∈ [sys, promptEnd], s.Exact m fed := by
    simpa using And.intro hsys hprompt
  exact ⟨⟨⟨h.sized.unrecorded, h.sized.recorded, h.sized.fits⟩, h.dn, h.rows, h.record,
    fun s hs hpos _ ↦ (hsnap s hs hpos).2⟩, h.kvLen, h.room, fun s hs hpos ↦ (hsnap s hs hpos).1⟩

/-- A snapshot that is taken holds the state as it stands. -/
theorem snapTake_exact {m : Model net} {fed : List Token} (h : Built m fed) (allocated : Bool)
    (s : Snap net) (pos : ℕ) : (snapTake allocated m s pos).Exact m fed := by
  intro hpos
  unfold snapTake at hpos ⊢
  split at hpos
  · contradiction
  · rename_i hcond
    split at hpos
    · contradiction
    · rename_i halloc
      rw [if_neg hcond, if_neg halloc]
      simp only [not_or, Nat.not_lt, ne_eq, not_not] at hcond
      refine ⟨hcond.2.2.1, ?_⟩
      have hall : fed.length ≤ pos := by rw [← h.kvLen, hcond.2.1]
      rw [List.take_of_length_le hall, h.dn]

theorem Built.takeSys {m : Model net} {fed : List Token} (h : Built m fed) (allocated : Bool)
    (pos : ℕ) : Built (takeSys allocated pos m) fed :=
  h.withSnaps (snapTake_exact h allocated m.sys pos)
    (h.exact (List.mem_cons_of_mem _ List.mem_cons_self))

theorem Built.takePromptEnd {m : Model net} {fed : List Token} (h : Built m fed)
    (allocated : Bool) (pos : ℕ) : Built (takePromptEnd allocated pos m) fed :=
  h.withSnaps (h.exact List.mem_cons_self) (snapTake_exact h allocated m.promptEnd pos)

/-! ## One request -/

/-- Every state passed through is one between two operations. -/
def AllBuilt (visited : List (Model net)) : Prop := ∀ m ∈ visited, ∃ fed, Built m fed

theorem AllBuilt.append {xs ys : List (Model net)} (hxs : AllBuilt xs) (hys : AllBuilt ys) :
    AllBuilt (xs ++ ys) :=
  List.forall_mem_append.mpr ⟨hxs, hys⟩

/-- A prefill under way: the state stands at `upTo` in the prompt. -/
structure Prefilled (ids : List Token) (maxT : ℕ) (p : Prefill net) : Prop where
  lt : p.upTo < ids.length
  built : Built p.model (ids.take p.upTo)
  room : maxT ≤ p.model.kvCap
  visited : AllBuilt p.visited

theorem length_slice {ids : List Token} {a b : ℕ} (hb : b ≤ ids.length) :
    (slice ids a b).length = b - a := by
  simp [slice, hb]

theorem take_append_slice {ids : List Token} {a b : ℕ} (h : a ≤ b) :
    ids.take a ++ slice ids a b = ids.take b := by
  have htake : ids.take a = (ids.take b).take a := by
    rw [List.take_take, Nat.min_eq_left h]
  rw [slice, htake]
  exact List.take_append_drop a (ids.take b)

/-- Feeding the prompt from where the state stands up to `cut`. -/
theorem step_slice {ids : List Token} {maxT upTo cut : ℕ} {m : Model net}
    (hbuilt : Built m (ids.take upTo)) (hroom : maxT ≤ m.kvCap) (hids : ids.length ≤ maxT)
    (hlt : upTo < cut) (hcut : cut ≤ ids.length) :
    Built (step m (slice ids upTo cut) upTo).1 (ids.take cut) ∧
      (step m (slice ids upTo cut) upTo).2 = coldLogits net (ids.take cut) ∧
      (step m (slice ids upTo cut) upTo).1.kvCap = m.kvCap := by
  have hlength : (ids.take upTo).length = upTo := by
    rw [List.length_take, Nat.min_eq_left (hlt.le.trans hcut)]
  have hslice := length_slice (a := upTo) hcut
  have hne : slice ids upTo cut ≠ [] := by
    rw [← List.length_pos_iff, hslice]
    omega
  have hstep := step_built hbuilt hne (by rw [hlength, hslice]; omega)
  rw [hlength, take_append_slice hlt.le] at hstep
  exact hstep

theorem prefillTo_prefilled {ids : List Token} {maxT cut : ℕ} (take : Model net → Model net)
    {p : Prefill net} (h : Prefilled ids maxT p) (hids : ids.length ≤ maxT)
    (hcut : cut < ids.length)
    (htake : ∀ m fed, Built m fed → Built (take m) fed ∧ (take m).kvCap = m.kvCap) :
    Prefilled ids maxT (prefillTo ids cut take p) := by
  unfold prefillTo
  split
  · rename_i hlt
    obtain ⟨hstep, _, hcap⟩ := step_slice h.built h.room hids hlt hcut.le
    obtain ⟨htaken, hcap'⟩ := htake _ _ hstep
    refine ⟨hcut, htaken, ?_, h.visited.append ?_⟩
    · dsimp only
      rw [hcap', hcap]
      exact h.room
    · intro m hm
      simp only [List.mem_cons, List.not_mem_nil, or_false] at hm
      rcases hm with rfl | rfl
      · exact ⟨_, hstep⟩
      · exact ⟨_, htaken⟩
  · exact h

/-- The decode loop feeds what a cold run replies. -/
theorem decode_built (cfg : Config) (sample : ℕ → net.Logits → Token) (np : ℕ) :
    ∀ (turns s : ℕ) (m : Model net) (logits : net.Logits) (fed : List Token), Built m fed →
      coldLogits net fed = some logits → fed.length = np + s → fed.length + turns ≤ m.kvCap →
      (decode cfg sample np turns s m logits).2.1 = coldDecode cfg sample turns s fed ∧
        AllBuilt (decode cfg sample np turns s m logits).2.2 ∧
        ∃ fed', Built (decode cfg sample np turns s m logits).1 fed' := by
  intro turns
  induction turns with
  | zero =>
      intro s m logits fed hbuilt _ _ _
      exact ⟨rfl, fun m hm ↦ by contradiction, fed, hbuilt⟩
  | succ turns ih =>
      intro s m logits fed hbuilt hlogits hlength hroom
      unfold decode coldDecode
      rw [hlogits]
      dsimp only
      split
      · exact ⟨rfl, fun m hm ↦ by contradiction, fed, hbuilt⟩
      · have htoks : [sample s logits] ≠ [] := List.cons_ne_nil _ _
        have hstep := step_built hbuilt htoks (by rw [List.length_singleton]; omega)
        rw [hlength] at hstep
        rcases hresult : step m [sample s logits] (np + s) with ⟨m', logits'⟩
        rw [hresult] at hstep
        obtain ⟨hbuilt', hlogits', hcap⟩ := hstep
        cases logits' with
        | none =>
            -- a cold run that has been fed anything has logits
            rw [coldLogits, cold_append_singleton] at hlogits'
            contradiction
        | some logits' =>
            obtain ⟨hreply, hvisited, hfinal⟩ := ih (s + 1) m' logits' _ hbuilt' hlogits'.symm
              (by rw [List.length_append, List.length_singleton, hlength, Nat.add_assoc])
              (by
                rw [List.length_append, List.length_singleton]
                dsimp only at hcap
                omega)
            refine ⟨?_, ?_, hfinal⟩
            · dsimp only
              rw [hreply]
            · exact List.forall_mem_cons.mpr ⟨⟨_, hbuilt'⟩, hvisited⟩

theorem serveHintTokens_lt (cfg : Config) (payload : List UInt8) (nbytes : ℕ) {ids : List Token}
    (hids : 0 < ids.length) : serveHintTokens cfg payload nbytes ids < ids.length := by
  unfold serveHintTokens
  split
  · exact hids
  · dsimp only
    split
    · rename_i hhint
      exact hhint.2.1
    · exact hids

/-- Both cuts leave a token of the prompt to feed. -/
theorem planCuts_lt (minCut sysPos reuse lcp : ℕ) {np sysHint stableHint : ℕ} (hnp : 0 < np)
    (hsys : sysHint < np) (hstable : stableHint < np) :
    (planCuts minCut sysPos np reuse lcp sysHint stableHint).1 < np ∧
      (planCuts minCut sysPos np reuse lcp sysHint stableHint).2 < np := by
  unfold planCuts
  dsimp only
  constructor
  · split_ifs <;> omega
  · split_ifs <;> omega

theorem requestCuts_lt (cfg : Config) (q : Request net) {ids : List Token}
    (hids : 0 < ids.length) {sysPos reuse lcp cut peCut : ℕ}
    (hcuts : requestCuts cfg q ids sysPos reuse lcp = (cut, peCut)) :
    cut < ids.length ∧ peCut < ids.length := by
  unfold requestCuts at hcuts
  split at hcuts
  · have hlt := planCuts_lt cfg.minCut sysPos reuse lcp hids
      (serveHintTokens_lt cfg q.payload q.prefixBytes hids)
      (serveHintTokens_lt cfg q.payload q.stableBytes hids)
    rw [hcuts] at hlt
    exact hlt
  · obtain ⟨rfl, rfl⟩ := Prod.mk.inj hcuts
    exact ⟨hids, hids⟩

/-- Whatever the cuts, the prefill ends in the state and the logits of a cold
run after the prompt. -/
theorem prefill_built (cfg : Config) (heap : Heap net) {ids : List Token} {maxT : ℕ}
    {prepared : Model net} {reuse cut peCut : ℕ} (h : Prepared ids maxT prepared reuse)
    (hids : ids.length ≤ maxT) (hcut : cut < ids.length) (hpeCut : peCut < ids.length)
    {p : Prefill net} {logits : Option net.Logits}
    (hprefill : prefill cfg heap ids prepared reuse cut peCut = (p, logits)) :
    Built p.model ids ∧ maxT ≤ p.model.kvCap ∧ logits = coldLogits net ids ∧
      AllBuilt p.visited := by
  have hstart : Prefilled ids maxT (Prefill.mk prepared reuse [] [prepared]) :=
    ⟨h.lt, h.built, h.room, by simpa [AllBuilt] using ⟨_, h.built⟩⟩
  have hsys := prefillTo_prefilled (takeSys heap.sys cut) hstart hids hcut
    fun m fed hm ↦ ⟨hm.takeSys heap.sys cut, rfl⟩
  have hprompt := prefillTo_prefilled (takePromptEnd heap.promptEnd peCut) hsys hids
    hpeCut fun m fed hm ↦ ⟨hm.takePromptEnd heap.promptEnd peCut, rfl⟩
  unfold prefill at hprefill
  dsimp only at hprefill
  generalize prefillTo ids peCut (takePromptEnd heap.promptEnd peCut)
    (prefillTo ids cut (takeSys heap.sys cut) ⟨prepared, reuse, [], [prepared]⟩) = p₁
    at hprompt hprefill
  obtain ⟨hlast, hlogits, hcap⟩ := step_slice hprompt.built hprompt.room hids hprompt.lt
    (Nat.le_refl _)
  rw [List.take_length] at hlast hlogits
  obtain ⟨rfl, rfl⟩ := Prod.mk.inj hprefill
  have hroom := hcap ▸ hprompt.room
  have htaken : ∀ m : Model net, Built m ids →
      Built (if peCut = 0 ∧ cfg.enabled = true then
        takePromptEnd heap.promptEnd ids.length m else m) ids := by
    intro m hm
    split
    · exact hm.takePromptEnd _ _
    · exact hm
  refine ⟨htaken _ hlast, ?_, hlogits, hprompt.visited.append ?_⟩
  · dsimp only
    split
    · exact hroom
    · exact hroom
  · intro m hm
    simp only [List.mem_cons, List.not_mem_nil, or_false] at hm
    rcases hm with rfl | rfl
    · exact ⟨_, hlast⟩
    · exact ⟨_, htaken _ hlast⟩

/-- A cold run that has been fed a prompt has logits. -/
theorem coldLogits_ne_none {ids : List Token} (hids : ids ≠ []) : coldLogits net ids ≠ none := by
  obtain ⟨front, tok, rfl⟩ := (List.eq_nil_or_concat ids).resolve_left hids
  rw [List.concat_eq_append, coldLogits, cold_append_singleton]
  exact Option.some_ne_none _

/-- What a request that is served satisfies. -/
structure ServedExactly (cfg : Config) (q : Request net) (s : Served net) : Prop where
  prepared : Prepared s.ids (s.ids.length + q.maxTok) s.prepared s.reuse
  visited : AllBuilt s.visited
  final : ∃ fed, Built s.final fed
  reply : coldReply cfg q = some s.reply

/-- A request is refused as a cold run refuses it, or served exactly. -/
theorem serveOne_exact (cfg : Config) {m : Model net} {fed : List Token} (h : Built m fed)
    (q : Request net) :
    (serveOne cfg m q = none ∧ coldReply cfg q = none) ∨
      ∃ s, serveOne cfg m q = some s ∧ ServedExactly cfg q s := by
  unfold serveOne
  dsimp only
  split
  · rename_i hrefused
    exact Or.inl ⟨rfl, if_pos hrefused⟩
  · rename_i haccepted
    right
    have hpos : 0 < (cfg.encode q.payload).length := by omega
    have hne : cfg.encode q.payload ≠ [] := List.length_pos_iff.mp hpos
    rcases hprepare : prepareRequestState cfg q.heap m (cfg.encode q.payload)
      ((cfg.encode q.payload).length + q.maxTok) with ⟨prepared, reuse, lcp⟩
    have hprepared := prepareRequestState_prepared cfg q.heap h hne (by omega) hprepare
    dsimp only
    rcases hcuts : requestCuts cfg q (cfg.encode q.payload) prepared.sys.pos reuse lcp with
      ⟨cut, peCut⟩
    obtain ⟨hcut, hpeCut⟩ := requestCuts_lt cfg q hpos hcuts
    dsimp only
    rcases hprefill : prefill cfg q.heap (cfg.encode q.payload) prepared reuse cut peCut with
      ⟨p, logits⟩
    obtain ⟨hbuilt, hroom, hlogits, hvisited⟩ := prefill_built cfg q.heap hprepared
      (Nat.le_add_right _ _) hcut hpeCut hprefill
    cases logits with
    | none => exact absurd hlogits.symm (coldLogits_ne_none hne)
    | some logits =>
        obtain ⟨hreply, hdecoded, hfinal⟩ := decode_built cfg q.sample _ q.maxTok 0 p.model
          logits _ hbuilt hlogits.symm rfl hroom
        refine ⟨_, rfl, hprepared, hvisited.append hdecoded, hfinal, ?_⟩
        dsimp only
        rw [hreply]
        exact if_neg haccepted

/-! ## A process -/

theorem built_init (kv : net.Plane → ℕ → net.Cell) : Built (Model.init kv) [] where
  sized := ⟨fun _ ↦ rfl, fun h ↦ by contradiction, Nat.le_refl _⟩
  dn := rfl
  rows := rfl
  record := fun h ↦ by contradiction
  snaps := by
    intro s hs hpos
    simp only [Model.snaps, Model.init, List.mem_cons, List.not_mem_nil, or_false] at hs
    rcases hs with rfl | rfl <;> contradiction
  kvLen := rfl
  room := Nat.le_refl _
  below := by
    intro s hs hpos
    simp only [Model.snaps, Model.init, List.mem_cons, List.not_mem_nil, or_false] at hs
    rcases hs with rfl | rfl <;> contradiction

theorem serveAll_exact (cfg : Config) (qs : List (Request net)) :
    ∀ {m : Model net} {fed : List Token}, Built m fed →
      (serveAll cfg m qs).map (Option.map Served.reply) = qs.map (coldReply cfg) ∧
        ∀ s, some s ∈ serveAll cfg m qs → ∃ q ∈ qs, ServedExactly cfg q s := by
  induction qs with
  | nil =>
      intro m fed _
      exact ⟨rfl, fun s hs ↦ by contradiction⟩
  | cons q qs ih =>
      intro m fed h
      rw [serveAll]
      rcases serveOne_exact cfg h q with ⟨hnone, hcold⟩ | ⟨s, hsome, hserved⟩
      · obtain ⟨hreplies, hall⟩ := ih h
        rw [hnone, List.map_cons, List.map_cons, hreplies, hcold]
        refine ⟨rfl, fun s hs ↦ ?_⟩
        have hs := (List.mem_cons.mp hs).resolve_left (by simp)
        obtain ⟨q', hq', hserved⟩ := hall s hs
        exact ⟨q', List.mem_cons_of_mem _ hq', hserved⟩
      · obtain ⟨fed', hfinal⟩ := hserved.final
        obtain ⟨hreplies, hall⟩ := ih hfinal
        rw [hsome, List.map_cons, List.map_cons, hreplies, hserved.reply]
        refine ⟨rfl, fun s' hs' ↦ ?_⟩
        rcases List.mem_cons.mp hs' with heq | hs'
        · obtain rfl := Option.some.inj heq
          exact ⟨q, List.mem_cons_self, hserved⟩
        · obtain ⟨q', hq', hserved'⟩ := hall s' hs'
          exact ⟨q', List.mem_cons_of_mem _ hq', hserved'⟩

/-- Over any requests: what is reused is exactly the state of a cold run after
that much of the prompt, every snapshot in every state passed through is one of
a cold run after the first recorded ids, and the replies are those of processes
that serve each request first. -/
theorem reuse_exact (cfg : Config) (kv : net.Plane → ℕ → net.Cell) (qs : List (Request net)) :
    (∀ s, some s ∈ serveAll cfg (Model.init kv) qs →
      s.reuse ≤ s.ids.length - 1 ∧
      s.prepared.dn = coldState net (s.ids.take s.reuse) ∧
      rowsUpTo s.prepared.kv s.prepared.kvCap s.reuse = coldRows net (s.ids.take s.reuse) ∧
      s.prepared.kvp.len = s.reuse ∧ s.prepared.kvLen = s.reuse ∧
      ∀ m ∈ s.visited, ∀ snap ∈ [m.sys, m.promptEnd], 0 < snap.pos →
        snap.pos ≤ m.kvp.len ∧ snap.dn = some (coldState net (m.kvp.ids.take snap.pos))) ∧
    (serveAll cfg (Model.init kv) qs).map (Option.map Served.reply) = qs.map (coldReply cfg) := by
  obtain ⟨hreplies, hall⟩ := serveAll_exact cfg qs (built_init kv)
  refine ⟨fun s hs ↦ ?_, hreplies⟩
  obtain ⟨q, _, hserved⟩ := hall s hs
  have hprepared := hserved.prepared
  have hlength := hprepared.length_take
  have hlt := hprepared.lt
  refine ⟨by omega, hprepared.built.dn, ?_, hprepared.len, ?_, ?_⟩
  · have hrows := hprepared.built.rows
    rw [hlength] at hrows
    exact hrows
  · rw [hprepared.built.kvLen, hlength]
  · intro m hm snap hsnap hpos
    obtain ⟨fed, hbuilt⟩ := hserved.visited m hm
    exact hbuilt.snap_exact hsnap hpos

end NucLlm.KvReuse
