import NucLlm.KvReuse.Served
import Mathlib.Data.List.ReduceOption

/-!
# The reference model

`StateModel` replays the decisions of the engine on ids and positions alone.
Request by request it takes the decisions the engine takes.
-/

namespace NucLlm.KvReuse

/-- The ids fed and the position of each snapshot that is held. -/
structure StateModel where
  fed : List Token
  sys : Option ℕ
  promptEnd : Option ℕ
  enabled : Bool

/-- The numbers of one `serve`. -/
structure Turn where
  np : ℕ
  reuse : ℕ
  lcp : ℕ
  prefilled : ℕ
  sysCut : ℕ
  stableCut : ℕ

namespace StateModel

def init (enabled : Bool) : StateModel := ⟨[], none, none, enabled⟩

/-- The loop of `lcp` from `i` on, at most `n` steps. -/
def lcpFrom (fed ids : List Token) : ℕ → ℕ → ℕ
  | i, 0 => i
  | i, n + 1 =>
      match fed[i]?, ids[i]? with
      | some a, some b => if a = b then lcpFrom fed ids (i + 1) n else i
      | _, _ => i

def lcp (sm : StateModel) (ids : List Token) : ℕ :=
  lcpFrom sm.fed ids 0 (min sm.fed.length (ids.length - 1))

def usable (sm : StateModel) (lcp : ℕ) : List ℕ :=
  [sm.sys, sm.promptEnd].reduceOption.filter fun p ↦ 0 < p ∧ p ≤ lcp

/-- The reuse and the common prefix, and the ids kept. -/
def decide (sm : StateModel) (ids : List Token) : StateModel × ℕ × ℕ :=
  if !sm.enabled then (sm, 0, 0)
  else if 0 < sm.fed.length ∧ sm.fed.length < ids.length ∧ ids.take sm.fed.length = sm.fed then
    (sm, sm.fed.length, 0)
  else
    let lcp := sm.lcp ids
    match sm.usable lcp with
    | [] => (sm, 0, lcp)
    | p :: ps =>
        let reuse := ps.foldl max p
        ({ sm with fed := sm.fed.take reuse }, reuse, lcp)

def prepare (sm : StateModel) (ids : List Token) : StateModel × ℕ × ℕ :=
  let (sm, reuse, lcp) := sm.decide ids
  let sm := if reuse = 0 then { sm with fed := [], sys := none, promptEnd := none } else sm
  ({ sm with sys := sm.sys.filter (· ≤ reuse), promptEnd := sm.promptEnd.filter (· ≤ reuse) },
    reuse, lcp)

/-- `feed`, which asserts that the ids go to the end. -/
def feed (sm : StateModel) (ids : List Token) (pos : ℕ) : Option StateModel :=
  if pos = sm.fed.length then some { sm with fed := sm.fed.take pos ++ ids } else none

/-- The position a snapshot is taken at, if it is. -/
def snapAt (sm : StateModel) (pos : ℕ) : Option ℕ :=
  if pos = 0 ∨ pos ≠ sm.fed.length then none else some pos

def snapSys (sm : StateModel) (pos : ℕ) : StateModel := { sm with sys := sm.snapAt pos }

def snapPromptEnd (sm : StateModel) (pos : ℕ) : StateModel :=
  { sm with promptEnd := sm.snapAt pos }

/-- The two cuts of `serve`. -/
def cuts (sm : StateModel) (np reuse lcp sysHint stableHint minCut : ℕ) : ℕ × ℕ :=
  let cut := if sysHint ≠ 0 ∧ minCut ≤ sysHint ∧ sysHint < np ∧ reuse < sysHint then sysHint else 0
  let cut := if cut = 0 ∧ reuse = 0 ∧ minCut ≤ lcp ∧ lcp < np then lcp else cut
  let cut := if sm.sys = some cut then 0 else cut
  (cut, if reuse < stableHint ∧ stableHint < np ∧ cut < stableHint then stableHint else 0)

/-- Feed up to a cut that lies ahead and take the snapshot there. -/
def feedTo (ids : List Token) (cut : ℕ) (snap : StateModel → StateModel) (sm : StateModel)
    (upTo : ℕ) : Option (StateModel × ℕ) :=
  if upTo < cut then (sm.feed (slice ids upTo cut) upTo).map fun sm ↦ (snap sm, cut)
  else some (sm, upTo)

def serve (sm : StateModel) (prompt reply : List Token) (sysHint stableHint minCut : ℕ) :
    Option (StateModel × Turn) := do
  let np := prompt.length
  let (sm, reuse, lcp) := sm.prepare prompt
  let (cut, peCut) :=
    if sm.enabled then sm.cuts np reuse lcp sysHint stableHint minCut else (0, 0)
  let (sm, upTo) ← feedTo prompt cut (·.snapSys cut) sm reuse
  let (sm, upTo) ← feedTo prompt peCut (·.snapPromptEnd peCut) sm upTo
  let sm ← sm.feed (prompt.drop upTo) upTo
  let sm := if sm.enabled ∧ peCut = 0 then sm.snapPromptEnd np else sm
  let sm ← sm.feed reply np
  pure (sm, ⟨np, reuse, lcp, np - reuse, cut, peCut⟩)

end StateModel

variable {net : Network}

/-! ## The decision -/

/-- Where a snapshot stands, if it is held. -/
def Snap.position (s : Snap net) : Option ℕ := if s.pos = 0 then none else some s.pos

theorem position_dropAbove (s : Snap net) (reuse : ℕ) :
    (s.dropAbove reuse).position = s.position.filter (· ≤ reuse) := by
  unfold Snap.dropAbove Snap.position
  split_ifs <;> simp_all [Option.filter_some]

theorem reuse_eq {p : KvPrefix} (hunrecorded : p.fed = none → p.len = 0)
    (htainted : p.tainted = false) (prompt : List Token) :
    p.reuse prompt =
      if 0 < p.ids.length ∧ p.ids.length < prompt.length ∧ prompt.take p.ids.length = p.ids
      then p.ids.length else 0 := by
  rw [KvPrefix.length_ids hunrecorded]
  unfold KvPrefix.reuse
  cases hfed : p.fed with
  | none => simp [hunrecorded hfed]
  | some fed =>
      simp only [htainted, Bool.false_or, Bool.or_eq_true, decide_eq_true_eq]
      split_ifs <;> grind

theorem matchFrom_eq {fed : ℕ → Token} {prompt : List Token} {len : ℕ} :
    ∀ n i, i + n ≤ len → i + n ≤ prompt.length →
      KvPrefix.matchFrom fed prompt i n =
        StateModel.lcpFrom ((List.range len).map fed) prompt i n := by
  intro n
  induction n with
  | zero => exact fun i _ _ ↦ rfl
  | succ n ih =>
      intro i hlen hprompt
      unfold KvPrefix.matchFrom StateModel.lcpFrom
      rw [List.getElem?_map, List.getElem?_range (by omega), List.getElem?_eq_getElem (by omega)]
      simp only [Option.map_some, Option.some.injEq]
      rw [ih (i + 1) (by omega) (by omega)]
      simp only [eq_comm]

theorem lcp_eq {p : KvPrefix} (hunrecorded : p.fed = none → p.len = 0)
    (htainted : p.tainted = false) {prompt : List Token} :
    p.lcp prompt = StateModel.lcpFrom p.ids prompt 0 (min p.ids.length (prompt.length - 1)) := by
  rw [KvPrefix.length_ids hunrecorded]
  unfold KvPrefix.lcp
  cases hfed : p.fed with
  | none =>
      rw [hunrecorded hfed, Nat.zero_min]
      rfl
  | some fed =>
      have hids : p.ids = (List.range p.len).map fed := by
        unfold KvPrefix.ids
        rw [hfed]
      dsimp only
      split
      · rename_i hzero
        have hzero : p.len = 0 := by simpa [htainted] using hzero
        rw [hzero, Nat.zero_min]
        rfl
      · rw [hids]
        exact matchFrom_eq _ _ (by omega) (by omega)

theorem usable_cons (s : Snap net) (lcp : ℕ) (os : List (Option ℕ)) :
    (s.position :: os).reduceOption.filter (fun p ↦ decide (0 < p ∧ p ≤ lcp)) =
      (if 0 < s.pos ∧ s.pos ≤ lcp then [s.pos] else []) ++
        os.reduceOption.filter fun p ↦ decide (0 < p ∧ p ≤ lcp) := by
  unfold Snap.position
  by_cases hzero : s.pos = 0
  · simp [hzero, List.reduceOption_cons_of_none]
  · by_cases hle : s.pos ≤ lcp
    · have hpos : 0 < s.pos := by omega
      simp [hzero, hle, hpos, List.reduceOption_cons_of_some]
    · simp [hzero, hle, List.reduceOption_cons_of_some]

/-- The deepest snapshot is the greatest usable position. -/
theorem bestSnap_usable {sm : StateModel} (lcp : ℕ) {s₁ s₂ : Snap net}
    (hsys : sm.sys = s₁.position) (hprompt : sm.promptEnd = s₂.position) :
    match bestSnap lcp [s₁, s₂], sm.usable lcp with
    | none, usable => usable = []
    | some _, [] => False
    | some best, p :: ps => ps.foldl max p = best.pos := by
  rw [StateModel.usable, hsys, hprompt, usable_cons, usable_cons]
  simp only [bestSnap, List.foldl_cons, List.foldl_nil, betterSnap]
  by_cases h₁ : 0 < s₁.pos ∧ s₁.pos ≤ lcp <;> by_cases h₂ : 0 < s₂.pos ∧ s₂.pos ≤ lcp
  · by_cases hlt : s₁.pos < s₂.pos
    · simp [h₁, h₂, hlt, hlt.le, List.reduceOption]
    · simp [h₁, h₂, hlt, List.reduceOption, Nat.not_lt.mp hlt]
  · have h₂' : ¬ (0 < s₂.pos ∧ s₂.pos ≤ lcp ∧ s₁.pos < s₂.pos) := fun h ↦ h₂ ⟨h.1, h.2.1⟩
    simp [h₁, h₂, h₂', List.reduceOption]
  · simp [h₁, h₂, List.reduceOption]
  · simp [h₁, h₂, List.reduceOption]

/-- A state of the engine and the reference model of it. -/
structure Mirrors (sm : StateModel) (m : Model net) : Prop where
  built : Built m sm.fed
  ids : m.kvp.ids = sm.fed
  recorded : m.allocated = true → m.kvp.fed.isSome
  untainted : m.kvp.tainted = false
  sys : sm.sys = m.sys.position
  promptEnd : sm.promptEnd = m.promptEnd.position

/-- What the two decisions have in common: the numbers, the snapshots, and the
record that is kept. -/
theorem decide_agrees (cfg : Config) {sm : StateModel} {m : Model net} (h : Mirrors sm m)
    (henabled : sm.enabled = cfg.enabled) {ids : List Token} (hids : ids ≠ []) {m' : Model net}
    {reuse lcp : ℕ} (hdecide : decideReuse cfg m ids = (m', reuse, lcp)) :
    ∃ fed, sm.decide ids = ({ sm with fed := fed }, reuse, lcp) ∧
      (reuse ≠ 0 → fed = ids.take reuse ∧ m'.kvp.len = reuse) ∧ m'.sys = m.sys ∧
      m'.promptEnd = m.promptEnd ∧ m'.kvp.fed = m.kvp.fed ∧ m'.allocated = m.allocated ∧
      m'.kvp.tainted = m.kvp.tainted := by
  have hunrecorded := h.built.sized.unrecorded
  unfold decideReuse at hdecide
  unfold StateModel.decide
  rw [← henabled] at hdecide
  split at hdecide
  · rename_i hdisabled
    obtain ⟨rfl, rfl, rfl⟩ := hdecide
    rw [if_pos hdisabled]
    exact ⟨sm.fed, rfl, fun hne ↦ absurd rfl hne, rfl, rfl, rfl, rfl, rfl⟩
  · rename_i hdisabled
    rw [if_neg hdisabled]
    have hreuse := reuse_eq hunrecorded h.untainted ids
    rw [h.ids] at hreuse
    dsimp only at hdecide
    rw [hreuse] at hdecide
    by_cases hstrict : 0 < sm.fed.length ∧ sm.fed.length < ids.length ∧
        ids.take sm.fed.length = sm.fed
    · rw [if_pos hstrict] at hdecide ⊢
      rw [if_pos (Nat.ne_of_gt hstrict.1)] at hdecide
      obtain ⟨rfl, rfl, rfl⟩ := hdecide
      have hlen : m.kvp.len = sm.fed.length := by
        rw [← h.ids, h.built.sized.length_ids]
      exact ⟨sm.fed, rfl, fun _ ↦ ⟨hstrict.2.2.symm, hlen⟩, rfl, rfl, rfl, rfl, rfl⟩
    · rw [if_neg hstrict] at hdecide ⊢
      rw [if_neg (by simp)] at hdecide
      have hlcp : sm.lcp ids = m.kvp.lcp ids := by
        rw [lcp_eq hunrecorded h.untainted, h.ids]
        rfl
      have hbest := bestSnap_usable (m.kvp.lcp ids) h.sys h.promptEnd
      rw [hlcp]
      dsimp only
      split at hdecide
      · rename_i hnone
        obtain ⟨rfl, rfl, rfl⟩ := hdecide
        rw [hnone] at hbest
        rw [hbest]
        exact ⟨sm.fed, rfl, fun hne ↦ absurd rfl hne, rfl, rfl, rfl, rfl, rfl⟩
      · rename_i best hsome
        obtain ⟨rfl, rfl, rfl⟩ := hdecide
        obtain ⟨hmem, hpos, hble⟩ := bestSnap_spec hsome
        obtain ⟨hle, _, hmatch⟩ := KvPrefix.lcp_spec (p := m.kvp) hids
        have hdn := h.built.snaps best hmem hpos (h.built.snap_le hmem hpos)
        have htake : sm.fed.take best.pos = ids.take best.pos := by
          rw [h.ids] at hmatch
          have := congrArg (List.take best.pos) hmatch
          rwa [List.take_take, List.take_take, Nat.min_eq_left hble] at this
        rw [hsome] at hbest
        have hrewind : rewindTo m best = { m with
            dn := coldState net (sm.fed.take best.pos),
            kvp := { m.kvp with len := best.pos } } := by
          rw [rewindTo, snapRestore, hdn]
        rw [hrewind]
        split at hbest
        · contradiction
        · contradiction
        · rename_i p ps heq hcons
          obtain rfl := Option.some.inj heq
          rw [hcons]
          dsimp only
          rw [hbest]
          exact ⟨_, rfl, fun _ ↦ ⟨htake, rfl⟩, rfl, rfl, rfl, rfl, rfl⟩

/-! ## Preparing -/

theorem KvPrefix.growOrClear_true {p : KvPrefix} {cap keep : ℕ} (hcap : 0 < cap)
    (hkeep : keep ≤ p.len) (hfit : keep ≤ cap) :
    p.growOrClear true cap keep =
      { p with fed := some (grown p.fed keep), cap := cap, len := keep } := by
  have hmin : min (min keep p.len) cap = keep := by omega
  unfold KvPrefix.growOrClear KvPrefix.grow
  rw [if_neg (by omega)]
  simp only [Bool.not_true, Bool.false_eq_true, if_false, if_true]
  rw [hmin]

/-- A cache that is sized without an allocation failure keeps its record. -/
theorem ensureKv_recorded {heap : Heap net} (hrecord : heap.record = true) {m : Model net}
    (h : Sized m) (hpos : 0 < m.maxT) (hrecorded : m.allocated = true → m.kvp.fed.isSome) :
    (ensureKv heap m).kvp.fed.isSome ∧ (ensureKv heap m).kvp.len = m.kvp.len ∧
      (ensureKv heap m).kvp.tainted = m.kvp.tainted := by
  unfold ensureKv
  split
  · rename_i hcap
    exact ⟨hrecorded hcap.2, rfl, rfl⟩
  · rename_i hgrow
    have hfit := h.len_le_maxT hgrow
    rw [h.keep_eq, hrecord, KvPrefix.growOrClear_true hpos (Nat.le_refl _) hfit]
    exact ⟨rfl, rfl, rfl⟩

theorem ensureKv_snaps (heap : Heap net) (m : Model net) :
    (ensureKv heap m).sys = m.sys ∧ (ensureKv heap m).promptEnd = m.promptEnd := by
  unfold ensureKv
  split
  · exact ⟨rfl, rfl⟩
  · exact ⟨rfl, rfl⟩

/-- The state between two steps of a request: the cache and its record are
there. -/
structure Follows (sm : StateModel) (m : Model net) : Prop where
  built : Built m sm.fed
  recorded : m.kvp.fed.isSome
  untainted : m.kvp.tainted = false
  sys : sm.sys = m.sys.position
  promptEnd : sm.promptEnd = m.promptEnd.position

theorem Follows.mirrors {sm : StateModel} {m : Model net} (h : Follows sm m) : Mirrors sm m :=
  ⟨h.built, h.built.record h.recorded, fun _ ↦ h.recorded, h.untainted, h.sys, h.promptEnd⟩

theorem Follows.len {sm : StateModel} {m : Model net} (h : Follows sm m) :
    m.kvp.len = sm.fed.length := by
  rw [← h.built.sized.length_ids, h.built.record h.recorded]

/-- Sizing the cache and dropping the snapshots above the kept prefix. -/
theorem settle_follows {heap : Heap net} (hrecord : heap.record = true) {sm : StateModel}
    {m : Model net} {reuse : ℕ} (hsized : Sized m) (hpos : 0 < m.maxT)
    (hrecorded : m.allocated = true → m.kvp.fed.isSome) (htainted : m.kvp.tainted = false)
    (hsys : sm.sys = m.sys.position) (hprompt : sm.promptEnd = m.promptEnd.position)
    (hbuilt : Built (settle (ensureKv heap m) reuse) sm.fed) :
    Follows { sm with sys := sm.sys.filter (· ≤ reuse),
                      promptEnd := sm.promptEnd.filter (· ≤ reuse) }
      (settle (ensureKv heap m) reuse) := by
  obtain ⟨hsome, -, htaint⟩ := ensureKv_recorded hrecord hsized hpos hrecorded
  obtain ⟨hsys', hprompt'⟩ := ensureKv_snaps heap m
  constructor
  · exact hbuilt
  · exact hsome
  · exact htaint.trans htainted
  · rw [settle, position_dropAbove, hsys', hsys]
  · rw [settle, position_dropAbove, hprompt', hprompt]

theorem prepare_agrees (cfg : Config) {heap : Heap net} (hrecord : heap.record = true)
    {sm : StateModel} {m : Model net} (h : Mirrors sm m) (henabled : sm.enabled = cfg.enabled)
    {ids : List Token} (hids : ids ≠ []) {maxT : ℕ} (hmaxT : 0 < maxT) {m' : Model net}
    {reuse lcp : ℕ} (hprepare : prepareRequestState cfg heap m ids maxT = (m', reuse, lcp)) :
    ∃ sm', sm.prepare ids = (sm', reuse, lcp) ∧ Follows sm' m' ∧ sm'.fed = ids.take reuse ∧
      sm'.enabled = cfg.enabled := by
  have hprepared := prepareRequestState_prepared cfg heap h.built hids hmaxT hprepare
  unfold prepareRequestState at hprepare
  rcases hdecide : decideReuse cfg m ids with ⟨m₁, reuse₁, lcp₁⟩
  rw [hdecide] at hprepare
  dsimp only at hprepare
  obtain ⟨fed, hsm, hkept, hsys, hprompt, hfed, hallocated, htainted⟩ :=
    decide_agrees cfg h henabled hids hdecide
  obtain ⟨-, hsized, -⟩ := decideReuse_held cfg h.built hids hdecide
  have hrecorded : m₁.allocated = true → m₁.kvp.fed.isSome := by
    rw [hallocated, hfed]
    exact h.recorded
  unfold StateModel.prepare
  rw [hsm]
  dsimp only
  rcases Nat.eq_zero_or_pos reuse₁ with rfl | hpos
  · -- a cold start
    have hreset : resetUnless 0 m₁ = modelStateReset m₁ := if_pos rfl
    rw [hreset, if_neg (by simp)] at hprepare
    obtain ⟨rfl, rfl, rfl⟩ := hprepare
    have hstart := (hsized.reset.withMaxT maxT).sized
    refine ⟨_, rfl, ?_, rfl, henabled⟩
    exact settle_follows hrecord hstart hmaxT hrecorded rfl rfl rfl hprepared.built
  · have hne : reuse₁ ≠ 0 := by omega
    obtain ⟨rfl, hlen⟩ := hkept hne
    have hreset : resetUnless reuse₁ m₁ = m₁ := if_neg hne
    have hstart : Sized { m₁ with maxT := maxT } :=
      ⟨hsized.unrecorded, hsized.recorded, hsized.fits⟩
    obtain ⟨-, hlen', -⟩ := ensureKv_recorded hrecord hstart hmaxT hrecorded
    rw [hreset, if_neg (fun hlost ↦ hlost.2 (hlen'.trans hlen))] at hprepare
    obtain ⟨rfl, rfl, rfl⟩ := hprepare
    rw [if_neg hne]
    refine ⟨_, rfl, ?_, rfl, henabled⟩
    refine settle_follows hrecord hstart hmaxT hrecorded (htainted.trans h.untainted) ?_ ?_
      hprepared.built
    · exact h.sys.trans (congrArg Snap.position hsys.symm)
    · exact h.promptEnd.trans (congrArg Snap.position hprompt.symm)

/-! ## Feeding -/

/-- `step` records its chunk and leaves the snapshots. -/
theorem step_frame (m : Model net) (toks : List Token) (pos : ℕ) :
    (step m toks pos).1.kvp = m.kvp.record toks pos ∧ (step m toks pos).1.sys = m.sys ∧
      (step m toks pos).1.promptEnd = m.promptEnd := by
  have hframe := feedChunk_frame toks m pos none
  unfold step
  dsimp only
  rw [hframe]
  exact ⟨rfl, rfl, rfl⟩

theorem step_follows {sm : StateModel} {m : Model net} (h : Follows sm m) {toks : List Token}
    (htoks : toks ≠ []) (hroom : sm.fed.length + toks.length ≤ m.kvCap) :
    Follows { sm with fed := sm.fed ++ toks } (step m toks sm.fed.length).1 := by
  obtain ⟨hbuilt, -, -⟩ := step_built h.built htoks hroom
  obtain ⟨hrecord, hsys, hprompt⟩ := step_frame m toks sm.fed.length
  have hcap := h.built.sized.recorded h.recorded
  obtain ⟨hfed, -, -, -, htainted⟩ := KvPrefix.record_end (p := m.kvp) h.recorded htoks
    (by rw [h.len, hcap.1]; exact hroom)
  rw [h.len, ← hrecord] at hfed htainted
  constructor
  · exact hbuilt
  · exact hfed
  · exact htainted.trans h.untainted
  · rw [hsys, h.sys]
  · rw [hprompt, h.promptEnd]

/-- `feed` at the end of what was fed. -/
theorem feed_end (sm : StateModel) (toks : List Token) {pos : ℕ} (hpos : sm.fed.length = pos) :
    sm.feed toks pos = some { sm with fed := sm.fed ++ toks } := by
  unfold StateModel.feed
  rw [if_pos hpos.symm, ← hpos, List.take_length]

/-- A snapshot whose buffers can be allocated is taken where the reference
model takes it. -/
theorem position_snapTake {sm : StateModel} {m : Model net} (h : Follows sm m) (s : Snap net)
    (pos : ℕ) : (snapTake true m s pos).position = sm.snapAt pos := by
  have hkvLen := h.built.kvLen
  have hlen := h.len
  unfold snapTake StateModel.snapAt
  by_cases hcond : pos = 0 ∨ pos ≠ sm.fed.length
  · have hnot : pos = 0 ∨ m.kvLen ≠ pos ∨ m.kvp.len < pos ∨ m.kvp.tainted = true := by omega
    rw [if_pos hcond, if_pos hnot]
    rfl
  · have hnot : ¬ (pos = 0 ∨ m.kvLen ≠ pos ∨ m.kvp.len < pos ∨ m.kvp.tainted = true) := by
      rw [h.untainted]
      simp only [Bool.false_eq_true, or_false]
      omega
    rw [if_neg hcond, if_neg hnot, if_neg (by simp)]
    unfold Snap.position
    rw [if_neg]
    exact fun hzero ↦ hcond (Or.inl hzero)

theorem Follows.snapSys {sm : StateModel} {m : Model net} (h : Follows sm m) (pos : ℕ) :
    Follows (sm.snapSys pos) (takeSys true pos m) :=
  ⟨h.built.takeSys true pos, h.recorded, h.untainted, (position_snapTake h m.sys pos).symm,
    h.promptEnd⟩

theorem Follows.snapPromptEnd {sm : StateModel} {m : Model net} (h : Follows sm m) (pos : ℕ) :
    Follows (sm.snapPromptEnd pos) (takePromptEnd true pos m) :=
  ⟨h.built.takePromptEnd true pos, h.recorded, h.untainted, h.sys,
    (position_snapTake h m.promptEnd pos).symm⟩

/-! ## The prefill -/

/-- A prefill under way from `start`, on both sides. -/
structure Fills (ids : List Token) (maxT start : ℕ) (enabled : Bool) (sm : StateModel)
    (p : Prefill net) : Prop where
  follows : Follows sm p.model
  fed : sm.fed = ids.take p.upTo
  le : p.upTo ≤ ids.length
  room : maxT ≤ p.model.kvCap
  enabled : sm.enabled = enabled
  chunks : start + (p.chunks.map List.length).sum = p.upTo

theorem Fills.length {ids : List Token} {maxT start : ℕ} {enabled : Bool} {sm : StateModel}
    {p : Prefill net} (h : Fills ids maxT start enabled sm p) : sm.fed.length = p.upTo := by
  rw [h.fed, List.length_take, Nat.min_eq_left h.le]

/-- One more chunk of the prompt. -/
theorem Fills.step {ids : List Token} {maxT start : ℕ} {enabled : Bool} {sm : StateModel}
    {p : Prefill net} (h : Fills ids maxT start enabled sm p) (hids : ids.length ≤ maxT)
    {cut : ℕ} (hlt : p.upTo < cut) (hcut : cut ≤ ids.length) :
    sm.feed (slice ids p.upTo cut) p.upTo = some { sm with fed := ids.take cut } ∧
      ∀ visited, Fills ids maxT start enabled { sm with fed := ids.take cut }
        ⟨(step p.model (slice ids p.upTo cut) p.upTo).1, cut,
          p.chunks ++ [slice ids p.upTo cut], visited⟩ := by
  have hslice := length_slice (a := p.upTo) hcut
  have hne : slice ids p.upTo cut ≠ [] := by
    rw [← List.length_pos_iff, hslice]
    omega
  have hroom := h.room
  have htake : sm.fed ++ slice ids p.upTo cut = ids.take cut := by
    rw [h.fed, take_append_slice hlt.le]
  have hfollows := step_follows h.follows hne (by rw [h.length, hslice]; omega)
  rw [h.length, htake] at hfollows
  have hbuilt := h.follows.built
  rw [h.fed] at hbuilt
  obtain ⟨-, -, hcap⟩ := step_slice hbuilt h.room hids hlt hcut
  refine ⟨?_, fun visited ↦ ⟨hfollows, rfl, hcut, hcap ▸ hroom, h.enabled, ?_⟩⟩
  · rw [feed_end sm _ h.length, htake]
  · have hchunks := h.chunks
    simp only [List.map_append, List.sum_append, List.map_cons, List.map_nil, List.sum_cons,
      List.sum_nil, hslice]
    omega

theorem feedTo_agrees {ids : List Token} {maxT start : ℕ} {enabled : Bool} {sm : StateModel}
    {p : Prefill net} (h : Fills ids maxT start enabled sm p) (hids : ids.length ≤ maxT)
    {cut : ℕ} (hcut : cut < ids.length) (hlt : p.upTo < ids.length)
    (snap : StateModel → StateModel) (take : Model net → Model net)
    (hsnap : ∀ sm m, Follows sm m → Follows (snap sm) (take m) ∧ (snap sm).fed = sm.fed ∧
      (snap sm).enabled = sm.enabled ∧ (take m).kvCap = m.kvCap) :
    ∃ sm', StateModel.feedTo ids cut snap sm p.upTo = some (sm', (prefillTo ids cut take p).upTo) ∧
      Fills ids maxT start enabled sm' (prefillTo ids cut take p) ∧
      (prefillTo ids cut take p).upTo < ids.length := by
  unfold StateModel.feedTo prefillTo
  split
  · rename_i hahead
    obtain ⟨hfeed, hfills⟩ := h.step hids hahead hcut.le
    have hfills := hfills p.visited
    obtain ⟨hfollows, hfed, henabled, hcap⟩ := hsnap _ _ hfills.follows
    rw [hfeed]
    refine ⟨_, rfl, ⟨hfollows, hfed, hcut.le, ?_, henabled.trans hfills.enabled,
      hfills.chunks⟩, hcut⟩
    exact hcap ▸ hfills.room
  · exact ⟨sm, rfl, h, hlt⟩

theorem prefill_agrees (cfg : Config) {heap : Heap net} (hsys : heap.sys = true)
    (hprompt : heap.promptEnd = true) {ids : List Token} {maxT start cut peCut : ℕ}
    {sm : StateModel} {prepared : Model net} (h : Follows sm prepared)
    (hfed : sm.fed = ids.take start) (hroom : maxT ≤ prepared.kvCap)
    (henabled : sm.enabled = cfg.enabled) (hlt : start < ids.length) (hids : ids.length ≤ maxT)
    (hcut : cut < ids.length) (hpeCut : peCut < ids.length) {p : Prefill net}
    {logits : Option net.Logits}
    (hprefill : prefill cfg heap ids prepared start cut peCut = (p, logits)) :
    ∃ sm₁ upTo₁ sm₂ upTo₂ sm₃,
      StateModel.feedTo ids cut (·.snapSys cut) sm start = some (sm₁, upTo₁) ∧
      StateModel.feedTo ids peCut (·.snapPromptEnd peCut) sm₁ upTo₁ = some (sm₂, upTo₂) ∧
      sm₂.feed (ids.drop upTo₂) upTo₂ = some sm₃ ∧
      Fills ids maxT start cfg.enabled
        (if sm₃.enabled = true ∧ peCut = 0 then sm₃.snapPromptEnd ids.length else sm₃) p ∧
      p.upTo = ids.length := by
  unfold prefill at hprefill
  rw [hsys, hprompt] at hprefill
  have hstart : Fills ids maxT start cfg.enabled sm ⟨prepared, start, [], [prepared]⟩ :=
    ⟨h, hfed, hlt.le, hroom, henabled, rfl⟩
  obtain ⟨sm₁, hfeed₁, hfills₁, hlt₁⟩ := feedTo_agrees hstart hids hcut hlt
    (fun sm ↦ sm.snapSys cut) (takeSys true cut)
    (fun sm m hm ↦ ⟨hm.snapSys cut, rfl, rfl, rfl⟩)
  obtain ⟨sm₂, hfeed₂, hfills₂, hlt₂⟩ := feedTo_agrees hfills₁ hids hpeCut hlt₁
    (fun sm ↦ sm.snapPromptEnd peCut) (takePromptEnd true peCut)
    (fun sm m hm ↦ ⟨hm.snapPromptEnd peCut, rfl, rfl, rfl⟩)
  dsimp only at hprefill
  generalize prefillTo ids cut (takeSys true cut) ⟨prepared, start, [], [prepared]⟩ = p₁
    at hfeed₁ hfeed₂ hfills₂ hlt₂ hprefill
  generalize prefillTo ids peCut (takePromptEnd true peCut) p₁ = p₂
    at hfeed₂ hfills₂ hlt₂ hprefill
  have hdrop : slice ids p₂.upTo ids.length = ids.drop p₂.upTo := by
    rw [slice, List.take_length]
  obtain ⟨hfeed₃, hfills₃⟩ := hfills₂.step hids hlt₂ (Nat.le_refl _)
  rw [hdrop] at hfeed₃
  obtain ⟨rfl, rfl⟩ := Prod.mk.inj hprefill
  refine ⟨sm₁, p₁.upTo, sm₂, p₂.upTo, _, hfeed₁, hfeed₂, hfeed₃, ?_, rfl⟩
  by_cases hend : peCut = 0 ∧ cfg.enabled = true
  · rw [if_pos hend, if_pos ⟨hfills₂.enabled.trans hend.2, hend.1⟩]
    have hlast := hfills₃ p₂.visited
    exact ⟨hlast.follows.snapPromptEnd ids.length, hlast.fed, Nat.le_refl _, hlast.room,
      hlast.enabled, hlast.chunks⟩
  · have hend' : ¬ (sm₂.enabled = true ∧ peCut = 0) :=
      fun hend' ↦ hend ⟨hend'.2, hfills₂.enabled ▸ hend'.1⟩
    rw [if_neg hend, if_neg hend']
    exact hfills₃ _

theorem cuts_agree {sm : StateModel} {s : Snap net} (hsys : sm.sys = s.position)
    {np reuse lcp sysHint stableHint minCut : ℕ} (hsysHint : sysHint < np)
    (hstable : stableHint < np) :
    sm.cuts np reuse lcp sysHint stableHint minCut =
      planCuts minCut s.pos np reuse lcp sysHint stableHint := by
  have hheld : ∀ cut, sm.sys = some cut ↔ 0 < s.pos ∧ s.pos = cut := by
    intro cut
    rw [hsys, Snap.position]
    split
    · simp
      omega
    · simp
      omega
  have hhint : (if sysHint ≠ 0 ∧ minCut ≤ sysHint ∧ sysHint < np ∧ reuse < sysHint then sysHint
      else 0) = if sysHint < minCut ∨ sysHint ≤ reuse then 0 else sysHint := by
    split_ifs <;> omega
  unfold StateModel.cuts planCuts
  simp only [hhint, hheld]
  generalize (if 0 < s.pos ∧ s.pos = _ then 0 else _ : ℕ) = cut
  refine congrArg (Prod.mk cut) ?_
  split_ifs <;> omega

/-! ## Decoding -/

/-- The decode loop feeds its reply. -/
theorem decode_follows (cfg : Config) (sample : ℕ → net.Logits → Token) (np : ℕ) :
    ∀ (turns s : ℕ) (m : Model net) (logits : net.Logits) (sm : StateModel), Follows sm m →
      sm.fed.length = np + s → sm.fed.length + turns ≤ m.kvCap →
      Follows { sm with fed := sm.fed ++ (decode cfg sample np turns s m logits).2.1 }
        (decode cfg sample np turns s m logits).1 := by
  intro turns
  induction turns with
  | zero =>
      intro s m logits sm h _ _
      rw [decode, List.append_nil]
      exact h
  | succ turns ih =>
      intro s m logits sm h hlength hroom
      unfold decode
      dsimp only
      split
      · rw [List.append_nil]
        exact h
      · have htoks : [sample s logits] ≠ [] := List.cons_ne_nil _ _
        have hnext : sm.fed.length + [sample s logits].length ≤ m.kvCap := by
          rw [List.length_singleton]
          omega
        have hfollows := step_follows h htoks hnext
        obtain ⟨-, -, hcap⟩ := step_built h.built htoks hnext
        rw [hlength] at hfollows hcap
        rcases hresult : step m [sample s logits] (np + s) with ⟨m', _ | logits'⟩
        · rw [hresult] at hfollows
          exact hfollows
        · rw [hresult] at hfollows hcap
          have hnext := ih (s + 1) m' logits' _ hfollows
            (by rw [List.length_append, List.length_singleton, hlength, Nat.add_assoc])
            (by
              rw [List.length_append, List.length_singleton]
              dsimp only at hcap
              omega)
          dsimp only at hnext ⊢
          rw [List.append_assoc] at hnext
          exact hnext

/-! ## Serving -/

/-- The reference model's `serve` for a request that was served: the same
prompt, reply and accepted hints. -/
def StateModel.replay (sm : StateModel) (cfg : Config) (q : Request net) (s : Served net) :
    Option (StateModel × Turn) :=
  sm.serve s.ids s.reply (serveHintTokens cfg q.payload q.prefixBytes s.ids)
    (serveHintTokens cfg q.payload q.stableBytes s.ids) cfg.minCut

/-- The decisions of both sides and what they leave behind. -/
structure SameTurn (s : Served net) (sm : StateModel) (turn : Turn) : Prop where
  np : turn.np = s.ids.length
  reuse : turn.reuse = s.reuse
  lcp : turn.lcp = s.lcp
  sysCut : turn.sysCut = s.cut
  stableCut : turn.stableCut = s.peCut
  prefilled : turn.prefilled = (s.chunks.map List.length).sum
  fed : sm.fed = s.final.kvp.ids
  sys : sm.sys = s.final.sys.position
  promptEnd : sm.promptEnd = s.final.promptEnd.position

/-- The reference model, run beside the engine, agrees with it after every
request; one that is refused leaves both as they were. -/
def AllSame (cfg : Config) : StateModel → List (Request net × Option (Served net)) → Prop
  | _, [] => True
  | sm, (_, none) :: rest => AllSame cfg sm rest
  | sm, (q, some s) :: rest =>
      ∃ sm' turn, sm.replay cfg q s = some (sm', turn) ∧ SameTurn s sm' turn ∧
        AllSame cfg sm' rest

/-- No allocation of a request fails. -/
def Heap.Ample (heap : Heap net) : Prop :=
  heap.record = true ∧ heap.sys = true ∧ heap.promptEnd = true

theorem requestCuts_agree (cfg : Config) (q : Request net) {sm : StateModel} {prepared : Model net}
    (h : Follows sm prepared) (henabled : sm.enabled = cfg.enabled) {ids : List Token}
    (hids : 0 < ids.length) (reuse lcp : ℕ) :
    (if sm.enabled = true then
        sm.cuts ids.length reuse lcp (serveHintTokens cfg q.payload q.prefixBytes ids)
          (serveHintTokens cfg q.payload q.stableBytes ids) cfg.minCut
      else (0, 0)) = requestCuts cfg q ids prepared.sys.pos reuse lcp := by
  unfold requestCuts
  rw [henabled]
  split
  · exact cuts_agree h.sys (serveHintTokens_lt cfg q.payload q.prefixBytes hids)
      (serveHintTokens_lt cfg q.payload q.stableBytes hids)
  · rfl

theorem serveOne_agrees (cfg : Config) {sm : StateModel} {m : Model net} (h : Mirrors sm m)
    (henabled : sm.enabled = cfg.enabled) {q : Request net} (hheap : q.heap.Ample)
    {s : Served net} (hserved : serveOne cfg m q = some s) :
    ∃ sm' turn, sm.replay cfg q s = some (sm', turn) ∧ SameTurn s sm' turn ∧
      Mirrors sm' s.final ∧ sm'.enabled = cfg.enabled := by
  obtain ⟨hrecord, hsys, hprompt⟩ := hheap
  unfold serveOne at hserved
  dsimp only at hserved
  split at hserved
  · contradiction
  · rename_i haccepted
    generalize cfg.encode q.payload = ids at hserved haccepted
    have hpos : 0 < ids.length := by omega
    have hne : ids ≠ [] := List.length_pos_iff.mp hpos
    rcases hprepare : prepareRequestState cfg q.heap m ids (ids.length + q.maxTok) with
      ⟨prepared, reuse, lcp⟩
    have hprepared := prepareRequestState_prepared cfg q.heap h.built hne (by omega) hprepare
    obtain ⟨sm₀, hsm₀, hfollows₀, hfed₀, henabled₀⟩ :=
      prepare_agrees cfg hrecord h henabled hne (by omega) hprepare
    rw [hprepare] at hserved
    dsimp only at hserved
    have hcutsAgree := requestCuts_agree cfg q hfollows₀ henabled₀ hpos reuse lcp
    rcases hcuts : requestCuts cfg q ids prepared.sys.pos reuse lcp with ⟨cut, peCut⟩
    obtain ⟨hcut, hpeCut⟩ := requestCuts_lt cfg q hpos hcuts
    rw [hcuts] at hserved hcutsAgree
    dsimp only at hserved
    rcases hprefill : prefill cfg q.heap ids prepared reuse cut peCut with ⟨p, logits⟩
    obtain ⟨sm₁, upTo₁, sm₂, upTo₂, sm₃, hfeed₁, hfeed₂, hfeed₃, hfills, hend⟩ :=
      prefill_agrees cfg hsys hprompt hfollows₀ hfed₀ hprepared.room henabled₀ hprepared.lt
        (Nat.le_add_right _ _) hcut hpeCut hprefill
    rw [hprefill] at hserved
    cases logits with
    | none => contradiction
    | some logits =>
        obtain rfl := Option.some.inj hserved
        have hlength := hfills.length
        rw [hend] at hlength
        have hroom := hfills.room
        have hdecode := decode_follows cfg q.sample ids.length q.maxTok 0 p.model logits _
          hfills.follows hlength (by omega)
        have hchunks := hfills.chunks
        have hle := hprepared.lt
        generalize hsm₄ : (if sm₃.enabled = true ∧ peCut = 0 then
          sm₃.snapPromptEnd ids.length else sm₃) = sm₄ at hfills hlength hdecode
        refine ⟨{ sm₄ with fed := sm₄.fed ++
          (decode cfg q.sample ids.length q.maxTok 0 p.model logits).2.1 },
          ⟨ids.length, reuse, lcp, ids.length - reuse, cut, peCut⟩, ?_, ?_, hdecode.mirrors,
          hfills.enabled⟩
        · unfold StateModel.replay StateModel.serve
          rw [hsm₀]
          dsimp only
          rw [hcutsAgree]
          dsimp only
          rw [hfeed₁]
          dsimp only [Option.bind_eq_bind, Option.bind_some]
          rw [hfeed₂]
          dsimp only [Option.bind_eq_bind, Option.bind_some]
          rw [hfeed₃]
          dsimp only [Option.bind_eq_bind, Option.bind_some]
          rw [hsm₄, feed_end _ _ hlength]
          rfl
        · constructor
          · rfl
          · rfl
          · rfl
          · rfl
          · rfl
          · change ids.length - reuse = _
            dsimp only
            omega
          · exact hdecode.mirrors.ids.symm
          · exact hdecode.sys
          · exact hdecode.promptEnd

theorem serveAll_agrees (cfg : Config) :
    ∀ (qs : List (Request net)) {sm : StateModel} {m : Model net}, Mirrors sm m →
      sm.enabled = cfg.enabled → (∀ q ∈ qs, q.heap.Ample) →
      AllSame cfg sm (qs.zip (serveAll cfg m qs)) := by
  intro qs
  induction qs with
  | nil => exact fun _ _ _ ↦ trivial
  | cons q qs ih =>
      intro sm m h henabled hheap
      obtain ⟨hq, hqs⟩ := List.forall_mem_cons.mp hheap
      rw [serveAll]
      cases hserved : serveOne cfg m q with
      | none => exact ih h henabled hqs
      | some s =>
          obtain ⟨sm', turn, hreplay, hsame, hmirrors, henabled'⟩ :=
            serveOne_agrees cfg h henabled hq hserved
          exact ⟨sm', turn, hreplay, hsame, ih hmirrors henabled' hqs⟩

theorem mirrors_init (enabled : Bool) (kv : net.Plane → ℕ → net.Cell) :
    Mirrors (StateModel.init enabled) (Model.init kv) :=
  ⟨built_init kv, rfl, fun h ↦ by contradiction, rfl, rfl, rfl⟩

/-- Where no allocation fails, the reference model takes the decisions of the
engine on every sequence of requests. -/
theorem stateModel_agrees (cfg : Config) (kv : net.Plane → ℕ → net.Cell)
    (qs : List (Request net)) (hheap : ∀ q ∈ qs, q.heap.Ample) :
    AllSame cfg (StateModel.init cfg.enabled) (qs.zip (serveAll cfg (Model.init kv) qs)) :=
  serveAll_agrees cfg qs (mirrors_init cfg.enabled kv) rfl hheap

/-- A network without layers that predicts the token it has just seen. -/
def echoNetwork : Network where
  Plane := Empty
  Cell := Unit
  Recurrent := List Token
  Logits := Token
  heads := 0
  width := 0
  zero := []
  next := fun seen _ tok ↦ (seen ++ [tok], fun _ _ _ ↦ (), tok)

def byteConfig : Config := ⟨fun payload ↦ payload.map fun b ↦ (b.toNat : ℤ), true, 8, 64, []⟩

def echoRequest (payload : List UInt8) : Request echoNetwork :=
  ⟨payload, 9, 11, 2, fun _ tok ↦ tok, ⟨true, true, true, fun _ _ ↦ ()⟩⟩

/-- Twelve bytes twice, then ten of them and a new end: a cold start with both
hints, and two that begin at a snapshot. -/
def sharedPrompts : List (Request echoNetwork) :=
  [echoRequest [1, 2, 3, 4, 5, 6, 7, 8, 9, 10, 11, 12],
    echoRequest [1, 2, 3, 4, 5, 6, 7, 8, 9, 10, 11, 12],
    echoRequest [1, 2, 3, 4, 5, 6, 7, 8, 9, 10, 13, 14, 15]]

example : (serveAll byteConfig (Model.init fun _ _ ↦ ()) sharedPrompts).map
    (Option.map fun s ↦ (s.reuse, s.lcp, s.cut, s.peCut)) =
      [some (0, 0, 9, 11), some (11, 11, 0, 0), some (9, 10, 0, 11)] := by
  decide

theorem sharedPrompts_agree :
    AllSame byteConfig (StateModel.init true)
      (sharedPrompts.zip (serveAll byteConfig (Model.init fun _ _ ↦ ()) sharedPrompts)) := by
  refine stateModel_agrees byteConfig _ sharedPrompts fun q hq ↦ ?_
  simp only [sharedPrompts, List.mem_cons, List.not_mem_nil, or_false] at hq
  rcases hq with rfl | rfl | rfl
  · exact ⟨rfl, rfl, rfl⟩
  · exact ⟨rfl, rfl, rfl⟩
  · exact ⟨rfl, rfl, rfl⟩

end NucLlm.KvReuse
