import NucLlm.KvReuse.Engine
import Mathlib.Data.List.Induction
import Mathlib.Tactic.Ring

/-!
# Reuse is exact

`Built m fed`: the state is the one a cold run has after the ids `fed`.  Every
operation of the engine keeps it for the ids it leaves fed, with what the
record and the snapshots say about them.
-/

namespace NucLlm.KvReuse

open Buffer

variable {net : Network}

/-! ## The cold run -/

/-- A run from zero: the recurrent state, the rows and the last logits. -/
def coldFrom (net : Network) (s : net.Recurrent × List net.Row × Option net.Logits)
    (ids : List Token) : net.Recurrent × List net.Row × Option net.Logits :=
  ids.foldl
    (fun s tok ↦
      let (dn, row, logits) := net.next s.1 s.2.1 tok
      (dn, s.2.1 ++ [row], some logits)) s

def cold (net : Network) (ids : List Token) :
    net.Recurrent × List net.Row × Option net.Logits :=
  coldFrom net (net.zero, [], none) ids

def coldState (net : Network) (ids : List Token) : net.Recurrent := (cold net ids).1

def coldRows (net : Network) (ids : List Token) : List net.Row := (cold net ids).2.1

def coldLogits (net : Network) (ids : List Token) : Option net.Logits := (cold net ids).2.2

/-- The decode loop of a cold run that has been fed `fed`. -/
def coldDecode (cfg : Config) (sample : ℕ → net.Logits → Token) :
    ℕ → ℕ → List Token → List Token
  | 0, _, _ => []
  | turns + 1, s, fed =>
      match coldLogits net fed with
      | none => []
      | some logits =>
          let tk := sample s logits
          if tk ∈ cfg.eosIds then [] else tk :: coldDecode cfg sample turns (s + 1) (fed ++ [tk])

/-- The reply of a process that serves this request first. -/
def coldReply (cfg : Config) (q : Request net) : Option (List Token) :=
  let ids := cfg.encode q.payload
  if ids.length < 1 ∨ cfg.maxCtx < ids.length + q.maxTok then none
  else some (coldDecode cfg q.sample q.maxTok 0 ids)

theorem cold_append_singleton (ids : List Token) (tok : Token) :
    cold net (ids ++ [tok]) =
      (let (dn, row, logits) := net.next (coldState net ids) (coldRows net ids) tok
      (dn, coldRows net ids ++ [row], some logits)) := by
  unfold cold coldFrom
  rw [List.foldl_append]
  rfl

@[simp] theorem length_coldRows (ids : List Token) : (coldRows net ids).length = ids.length := by
  induction ids using List.reverseRecOn with
  | nil => rfl
  | append_singleton ids tok ih =>
      rw [coldRows, cold_append_singleton]
      simp [ih]

/-- The rows of a prefix are the first rows. -/
theorem coldRows_take (ids : List Token) (n : ℕ) :
    coldRows net (ids.take n) = (coldRows net ids).take n := by
  induction ids using List.reverseRecOn with
  | nil => simp [coldRows, cold, coldFrom]
  | append_singleton ids tok ih =>
      have hrows : coldRows net (ids ++ [tok]) = coldRows net ids ++
          [(net.next (coldState net ids) (coldRows net ids) tok).2.1] := by
        rw [coldRows, cold_append_singleton]
      rcases Nat.lt_or_ge ids.length n with hlt | hle
      · rw [List.take_of_length_le (by simp; omega), hrows,
          List.take_of_length_le (by simp; omega)]
      · rw [List.take_append_of_le_length hle, ih, hrows,
          List.take_append_of_le_length (by simpa using hle)]

/-! ## Rows in the buffers -/

theorem readRow_writeRow {kv : net.Plane → ℕ → net.Cell} {cap pos : ℕ} (hpos : pos < cap)
    (row : net.Row) : readRow (writeRow kv cap pos row) cap pos = row := by
  have hfit : pos * net.width + net.width ≤ cap * net.width := by
    rw [← Nat.succ_mul]
    exact Nat.mul_le_mul_right _ hpos
  funext p h d
  exact copyBlocks_inside hfit (row p) (kv p) h d

theorem readRow_writeRow_of_ne {kv : net.Plane → ℕ → net.Cell} {cap pos i : ℕ} (hpos : pos < cap)
    (hi : i < cap) (hne : i ≠ pos) (row : net.Row) :
    readRow (writeRow kv cap pos row) cap i = readRow kv cap i := by
  funext p h d
  refine copyBlocks_outside fun k ↦ ?_
  -- both offsets are multiples of the width, and of different positions
  have hpositions : (h : ℕ) * cap + i ≠ k * cap + pos := by
    intro heq
    have hmod := congrArg (· % cap) heq
    simp only [Nat.mul_add_mod', Nat.mod_eq_of_lt hi, Nat.mod_eq_of_lt hpos] at hmod
    exact hne hmod
  have hleft : (h : ℕ) * (cap * net.width) + i * net.width = (h * cap + i) * net.width := by ring
  have hright : (k : ℕ) * (cap * net.width) + pos * net.width = (k * cap + pos) * net.width := by
    ring
  rw [hleft, hright]
  have hfit : 0 + net.width ≤ net.width := Nat.le_of_eq (Nat.zero_add _)
  have := blocks_disjoint hfit hpositions.symm d.isLt
  simpa using this

theorem readRow_regrow {old fresh : net.Plane → ℕ → net.Cell} {oldCap cap keep i : ℕ}
    (hkeep : keep ≤ cap) (hi : i < keep) :
    readRow (regrow old fresh oldCap cap keep) cap i = readRow old oldCap i := by
  have hfit : 0 + keep * net.width ≤ cap * net.width := by
    rw [Nat.zero_add]
    exact Nat.mul_le_mul_right _ hkeep
  funext p h d
  have hcell : i * net.width + d < keep * net.width := by
    have hmul : (i + 1) * net.width ≤ keep * net.width := Nat.mul_le_mul_right _ hi
    rw [Nat.succ_mul] at hmul
    omega
  have hread := copyBlocks_inside hfit
    (fun h (i : Fin (keep * net.width)) ↦ old p (h * (oldCap * net.width) + i)) (fresh p) h
    ⟨i * net.width + d, hcell⟩
  simpa [readRow, regrow, Nat.add_assoc] using hread

theorem rowsUpTo_succ (kv : net.Plane → ℕ → net.Cell) (cap n : ℕ) :
    rowsUpTo kv cap (n + 1) = rowsUpTo kv cap n ++ [readRow kv cap n] := by
  simp [rowsUpTo, List.range_succ]

theorem rowsUpTo_take (kv : net.Plane → ℕ → net.Cell) (cap : ℕ) {n k : ℕ} (h : n ≤ k) :
    rowsUpTo kv cap n = (rowsUpTo kv cap k).take n := by
  rw [rowsUpTo, rowsUpTo, ← List.map_take, List.take_range, Nat.min_eq_left h]

theorem rowsUpTo_congr {kv kv' : net.Plane → ℕ → net.Cell} {cap cap' n : ℕ}
    (h : ∀ i < n, readRow kv cap i = readRow kv' cap' i) :
    rowsUpTo kv cap n = rowsUpTo kv' cap' n :=
  List.map_congr_left fun i hi ↦ h i (List.mem_range.mp hi)

theorem rowsUpTo_writeRow {kv : net.Plane → ℕ → net.Cell} {cap n : ℕ} (hn : n < cap)
    (row : net.Row) : rowsUpTo (writeRow kv cap n row) cap (n + 1) = rowsUpTo kv cap n ++
      [row] := by
  rw [rowsUpTo_succ, readRow_writeRow hn]
  congr 1
  exact rowsUpTo_congr fun i hi ↦ readRow_writeRow_of_ne hn (hi.trans hn) (Nat.ne_of_lt hi) row

/-! ## What every state between two operations satisfies -/

def Model.snaps (m : Model net) : List (Snap net) := [m.sys, m.promptEnd]

/-- The record covers positions of the cache, if it is there at all. -/
structure Sized (m : Model net) : Prop where
  unrecorded : m.kvp.fed = none → m.kvp.len = 0
  recorded : m.kvp.fed.isSome → m.kvp.cap = m.kvCap ∧ m.allocated = true
  fits : m.kvp.len ≤ m.kvCap

/-- The recurrent state and the rows are those of a cold run after `fed`, and
so are the snapshots that do not lie above it. -/
structure Held (m : Model net) (fed : List Token) : Prop where
  sized : Sized m
  dn : m.dn = coldState net fed
  rows : rowsUpTo m.kv m.kvCap fed.length = coldRows net fed
  record : m.kvp.fed.isSome → m.kvp.ids = fed
  snaps : ∀ s ∈ m.snaps, 0 < s.pos → s.pos ≤ fed.length →
    s.dn = some (coldState net (fed.take s.pos))

/-- A state that also stands at the end of `fed`, with no snapshot above the
record. -/
structure Built (m : Model net) (fed : List Token) : Prop extends Held m fed where
  kvLen : m.kvLen = fed.length
  room : fed.length ≤ m.kvCap
  below : ∀ s ∈ m.snaps, 0 < s.pos → s.pos ≤ m.kvp.len

theorem Sized.length_ids {m : Model net} (h : Sized m) : m.kvp.ids.length = m.kvp.len :=
  KvPrefix.length_ids h.unrecorded

theorem Held.recorded_of_pos {m : Model net} {fed : List Token} (h : Held m fed)
    (hpos : 0 < m.kvp.len) : m.kvp.fed.isSome := by
  rw [Option.isSome_iff_ne_none]
  intro hnone
  have := h.sized.unrecorded hnone
  omega

/-- A record that is not empty has the length of what was fed. -/
theorem Held.len_eq {m : Model net} {fed : List Token} (h : Held m fed) (hpos : 0 < m.kvp.len) :
    m.kvp.len = fed.length := by
  rw [← h.sized.length_ids, h.record (h.recorded_of_pos hpos)]

theorem Built.snap_le {m : Model net} {fed : List Token} (h : Built m fed) {s : Snap net}
    (hs : s ∈ m.snaps) (hpos : 0 < s.pos) : s.pos ≤ fed.length := by
  have hle := h.below s hs hpos
  rw [← h.len_eq (hpos.trans_le hle)]
  exact hle

/-- What the snapshots of a state between two operations hold, in terms of the
record. -/
theorem Built.snap_exact {m : Model net} {fed : List Token} (h : Built m fed) {s : Snap net}
    (hs : s ∈ m.snaps) (hpos : 0 < s.pos) :
    s.pos ≤ m.kvp.len ∧ s.dn = some (coldState net (m.kvp.ids.take s.pos)) := by
  have hle := h.below s hs hpos
  rw [h.record (h.recorded_of_pos (hpos.trans_le hle))]
  exact ⟨hle, h.snaps s hs hpos (h.snap_le hs hpos)⟩

/-! ### Reset and restore -/

theorem Sized.reset {m : Model net} (h : Sized m) : Held (modelStateReset m) [] where
  sized := ⟨fun _ ↦ rfl, h.recorded, Nat.zero_le _⟩
  dn := rfl
  rows := rfl
  record := fun _ ↦ KvPrefix.ids_clear _
  snaps := by
    intro s hs hpos
    simp only [Model.snaps, modelStateReset, List.mem_cons, List.not_mem_nil, or_false] at hs
    rcases hs with rfl | rfl <;> contradiction

/-- A snapshot brings the state back to its position. -/
theorem Held.restore {m : Model net} {fed : List Token} (h : Held m fed) {s : Snap net}
    (hs : s ∈ m.snaps) (hpos : 0 < s.pos) (hlen : s.pos ≤ m.kvp.len) :
    Held (rewindTo m s) (fed.take s.pos) := by
  have hfed := h.len_eq (hpos.trans_le hlen)
  have hle : s.pos ≤ fed.length := hfed ▸ hlen
  have hlength : (fed.take s.pos).length = s.pos := by simpa using hle
  have hdn := h.snaps s hs hpos hle
  have hrewind : rewindTo m s =
      { m with dn := coldState net (fed.take s.pos), kvp := { m.kvp with len := s.pos } } := by
    rw [rewindTo, snapRestore, hdn]
  rw [hrewind]
  refine ⟨⟨?_, h.sized.recorded, hlen.trans h.sized.fits⟩, rfl, ?_, ?_, ?_⟩
  · intro hnone
    have := h.sized.unrecorded hnone
    omega
  · rw [hlength, coldRows_take, ← h.rows]
    exact rowsUpTo_take m.kv m.kvCap hle
  · intro hsome
    exact (KvPrefix.ids_truncate hlen).trans (congrArg (List.take s.pos) (h.record hsome))
  · intro s' hs' hpos' hle'
    rw [hlength] at hle'
    rw [List.take_take, Nat.min_eq_left hle']
    exact h.snaps s' hs' hpos' (hle'.trans hle)

/-! ### Growth -/

theorem Sized.keep_eq {m : Model net} (h : Sized m) : m.keep = m.kvp.len := by
  unfold Model.keep
  split
  · rfl
  · rename_i hcond
    by_contra hne
    have hpos : 0 < m.kvp.len := by omega
    have hsome : m.kvp.fed.isSome := by
      rw [Option.isSome_iff_ne_none]
      intro hnone
      have := h.unrecorded hnone
      omega
    exact hcond ⟨(h.recorded hsome).2, hpos, h.fits⟩

/-- A cache that grows has room for what it keeps. -/
theorem Sized.len_le_maxT {m : Model net} (h : Sized m)
    (hgrow : ¬ (m.maxT ≤ m.kvCap ∧ m.allocated = true)) : m.kvp.len ≤ m.maxT := by
  rcases Nat.eq_zero_or_pos m.kvp.len with hzero | hpos
  · omega
  · have hsome : m.kvp.fed.isSome := by
      rw [Option.isSome_iff_ne_none]
      intro hnone
      have := h.unrecorded hnone
      omega
    have hcap : ¬ m.maxT ≤ m.kvCap := fun hle ↦ hgrow ⟨hle, (h.recorded hsome).2⟩
    have := h.fits
    omega

theorem ensureKv_sized (heap : Heap net) {m : Model net} (h : Sized m) (hpos : 0 < m.maxT) :
    Sized (ensureKv heap m) ∧ m.maxT ≤ (ensureKv heap m).kvCap := by
  unfold ensureKv
  split
  · rename_i hcap
    exact ⟨h, hcap.1⟩
  · rename_i hgrow
    refine ⟨?_, Nat.le_refl _⟩
    have hfit := h.len_le_maxT hgrow
    rw [h.keep_eq]
    rcases KvPrefix.growOrClear_eq heap.record hpos (Nat.le_refl m.kvp.len) hfit with heq | heq
    · rw [heq]
      exact ⟨fun _ ↦ rfl, fun hsome ↦ by contradiction, Nat.zero_le _⟩
    · rw [heq]
      exact ⟨fun hnone ↦ by contradiction, fun _ ↦ ⟨rfl, rfl⟩, hfit⟩

/-- What survives growth is what was held, unless the record did not. -/
theorem ensureKv_held (heap : Heap net) {m : Model net} {fed : List Token} (h : Held m fed)
    (hpos : 0 < m.maxT) (hlen : fed = [] ∨ (ensureKv heap m).kvp.len = fed.length) :
    Held (ensureKv heap m) fed := by
  have hsized := (ensureKv_sized heap h.sized hpos).1
  unfold ensureKv at hsized hlen ⊢
  split
  · exact h
  · rename_i hgrow
    rw [if_neg hgrow] at hsized hlen
    have hfit := h.sized.len_le_maxT hgrow
    refine ⟨hsized, h.dn, ?_, ?_, h.snaps⟩
    · rw [h.sized.keep_eq] at hlen ⊢
      rcases fed with _ | ⟨tok, rest⟩
      · rfl
      · have hkept : m.kvp.len = (tok :: rest).length := by
          rcases KvPrefix.growOrClear_eq heap.record hpos (Nat.le_refl m.kvp.len) hfit with
            heq | heq
          · rw [heq] at hlen
            simp [KvPrefix.empty] at hlen
          · rw [heq] at hlen
            simpa using hlen
        have hsome : 0 < m.kvp.len := by simp [hkept]
        dsimp only
        rw [if_pos hsome, ← h.rows]
        refine rowsUpTo_congr fun i hi ↦ ?_
        exact readRow_regrow hfit (hkept ▸ hi)
    · rw [h.sized.keep_eq]
      dsimp only
      intro hsome
      rcases KvPrefix.growOrClear_eq heap.record hpos (Nat.le_refl m.kvp.len) hfit with heq | heq
      · rw [heq] at hsome
        contradiction
      · rw [heq]
        cases hrecorded : m.kvp.fed with
        | some buffer =>
            have hfed : m.kvp.fed.isSome := by rw [hrecorded]; rfl
            have hids := KvPrefix.map_grown (Nat.le_refl m.kvp.len) hfed
            rw [h.record hfed, hrecorded] at hids
            refine hids.trans (List.take_of_length_le ?_)
            rw [← h.record hfed, h.sized.length_ids]
        | none =>
            have hzero := h.sized.unrecorded hrecorded
            rw [h.sized.keep_eq, heq, hzero] at hlen
            have hnil : fed = [] := by
              rcases hlen with hnil | hnil
              · exact hnil
              · exact List.length_eq_zero_iff.mp hnil.symm
            rw [hnil, hzero]
            rfl

/-! ### The decision -/

theorem bestSnap_from {lcp : ℕ} {snaps : List (Snap net)} {b : Snap net} :
    ∀ best, snaps.foldl (betterSnap lcp) best = some b →
      best = some b ∨ b ∈ snaps ∧ 0 < b.pos ∧ b.pos ≤ lcp := by
  induction snaps with
  | nil => exact fun best h ↦ Or.inl h
  | cons s snaps ih =>
      intro best h
      rcases ih _ h with hbest | ⟨hmem, hb⟩
      · unfold betterSnap at hbest
        split at hbest
        · rename_i hcond
          obtain rfl := Option.some.inj hbest
          exact Or.inr ⟨List.mem_cons_self, hcond.1, hcond.2.1⟩
        · exact Or.inl hbest
      · exact Or.inr ⟨List.mem_cons_of_mem _ hmem, hb⟩

theorem bestSnap_spec {lcp : ℕ} {snaps : List (Snap net)} {b : Snap net}
    (h : bestSnap lcp snaps = some b) : b ∈ snaps ∧ 0 < b.pos ∧ b.pos ≤ lcp :=
  (bestSnap_from none h).resolve_left (by simp)

/-- The state to start from is that of the prompt's first `reuse` ids. -/
theorem decideReuse_held (cfg : Config) {m : Model net} {fed ids : List Token} (h : Built m fed)
    (hids : ids ≠ []) {m' : Model net} {reuse lcp : ℕ}
    (hdecide : decideReuse cfg m ids = (m', reuse, lcp)) :
    reuse < ids.length ∧ Sized m' ∧ (reuse ≠ 0 → Held m' (ids.take reuse)) := by
  have hpos : 0 < ids.length := List.length_pos_iff.mpr hids
  unfold decideReuse at hdecide
  split at hdecide
  · obtain ⟨rfl, rfl, -⟩ := hdecide
    exact ⟨hpos, h.sized, fun hne ↦ absurd rfl hne⟩
  · dsimp only at hdecide
    split at hdecide
    · rename_i hreuse
      obtain ⟨rfl, rfl, -⟩ := hdecide
      obtain ⟨hsome, heq, hlt, htake⟩ := KvPrefix.reuse_spec hreuse
      rw [heq, ← htake, h.record hsome]
      exact ⟨hlt, h.sized, fun _ ↦ h.toHeld⟩
    · split at hdecide
      · obtain ⟨rfl, rfl, -⟩ := hdecide
        exact ⟨hpos, h.sized, fun hne ↦ absurd rfl hne⟩
      · rename_i best hbest
        obtain ⟨rfl, rfl, -⟩ := hdecide
        obtain ⟨hmem, hbpos, hble⟩ := bestSnap_spec hbest
        obtain ⟨hlcp, hlt, hmatch⟩ := KvPrefix.lcp_spec (p := m.kvp) hids
        have hlen := hble.trans hlcp
        have hrestored := h.toHeld.restore hmem hbpos hlen
        have hsome := h.recorded_of_pos (hbpos.trans_le hlen)
        have htake : fed.take best.pos = ids.take best.pos := by
          rw [h.record hsome] at hmatch
          have := congrArg (List.take best.pos) hmatch
          rwa [List.take_take, List.take_take, Nat.min_eq_left hble] at this
        rw [htake] at hrestored
        exact ⟨hble.trans_lt hlt, hrestored.sized, fun _ ↦ hrestored⟩

theorem Held.withMaxT {m : Model net} {fed : List Token} (h : Held m fed) (maxT : ℕ) :
    Held { m with maxT := maxT } fed :=
  ⟨⟨h.sized.unrecorded, h.sized.recorded, h.sized.fits⟩, h.dn, h.rows, h.record, h.snaps⟩

/-- A held state becomes one that stands at its end when the snapshots above it
are dropped. -/
theorem Held.stand {m : Model net} {fed : List Token} {reuse : ℕ} (h : Held m fed)
    (hfed : fed.length = reuse) (hlen : m.kvp.len = reuse) :
    Built (settle m reuse) fed := by
  have hdrop : ∀ s ∈ [m.sys.dropAbove reuse, m.promptEnd.dropAbove reuse], 0 < s.pos →
      s ∈ m.snaps ∧ s.pos ≤ reuse := by
    have hkept : ∀ s : Snap net, 0 < (s.dropAbove reuse).pos →
        s.dropAbove reuse = s ∧ s.pos ≤ reuse := by
      intro s hpos
      unfold Snap.dropAbove at hpos ⊢
      split at hpos
      · contradiction
      · rename_i hle
        exact ⟨if_neg hle, Nat.not_lt.mp hle⟩
    intro s hs hpos
    simp only [List.mem_cons, List.not_mem_nil, or_false] at hs
    rcases hs with rfl | rfl
    · obtain ⟨heq, hle⟩ := hkept m.sys hpos
      rw [heq]
      exact ⟨List.mem_cons_self, hle⟩
    · obtain ⟨heq, hle⟩ := hkept m.promptEnd hpos
      rw [heq]
      exact ⟨List.mem_cons_of_mem _ List.mem_cons_self, hle⟩
  refine ⟨⟨⟨h.sized.unrecorded, h.sized.recorded, h.sized.fits⟩, h.dn, h.rows, h.record, ?_⟩,
    hfed.symm, ?_, ?_⟩
  · exact fun s hs hpos hle ↦ h.snaps s (hdrop s hs hpos).1 hpos hle
  · rw [hfed, ← hlen]
    exact h.sized.fits
  · exact fun s hs hpos ↦ hlen ▸ (hdrop s hs hpos).2

/-- What `prepare_request_state` returns. -/
structure Prepared (ids : List Token) (maxT : ℕ) (m : Model net) (reuse : ℕ) : Prop where
  lt : reuse < ids.length
  built : Built m (ids.take reuse)
  len : m.kvp.len = reuse
  room : maxT ≤ m.kvCap

theorem Prepared.length_take {ids : List Token} {maxT : ℕ} {m : Model net} {reuse : ℕ}
    (h : Prepared ids maxT m reuse) : (ids.take reuse).length = reuse := by
  simpa using h.lt.le

theorem prepareRequestState_prepared (cfg : Config) (heap : Heap net) {m : Model net}
    {fed ids : List Token} (h : Built m fed) (hids : ids ≠ []) {maxT : ℕ} (hmaxT : 0 < maxT)
    {m' : Model net} {reuse lcp : ℕ}
    (hprepare : prepareRequestState cfg heap m ids maxT = (m', reuse, lcp)) :
    Prepared ids maxT m' reuse := by
  unfold prepareRequestState at hprepare
  rcases hdecide : decideReuse cfg m ids with ⟨m₁, reuse₁, lcp₁⟩
  rw [hdecide] at hprepare
  dsimp only at hprepare
  obtain ⟨hlt, hsized, hheld⟩ := decideReuse_held cfg h hids hdecide
  have htake : (ids.take reuse₁).length = reuse₁ := by simpa using hlt.le
  -- what is held before growth: nothing, or the reused ids
  have hstart : Held { resetUnless reuse₁ m₁ with maxT := maxT } (ids.take reuse₁) := by
    unfold resetUnless
    split
    · rename_i hzero
      rw [hzero]
      exact hsized.reset.withMaxT maxT
    · rename_i hne
      exact (hheld hne).withMaxT maxT
  obtain ⟨hgrown, hroom⟩ := ensureKv_sized heap hstart.sized hmaxT
  split at hprepare
  · obtain ⟨rfl, rfl, -⟩ := hprepare
    exact ⟨List.length_pos_iff.mpr hids, hgrown.reset.stand rfl rfl, rfl, hroom⟩
  · rename_i hkept
    obtain ⟨rfl, rfl, -⟩ := hprepare
    have hlen : reuse = 0 ∨
        (ensureKv heap { resetUnless reuse m₁ with maxT := maxT }).kvp.len = reuse := by
      by_contra hcon
      rw [not_or] at hcon
      exact hkept hcon
    have hheld := ensureKv_held heap hstart hmaxT (by
      rcases hlen with hzero | hlen
      · left
        rw [hzero]
        rfl
      · exact Or.inr (hlen.trans htake.symm))
    have hlen :
        (ensureKv heap { resetUnless reuse m₁ with maxT := maxT }).kvp.len = reuse := by
      rcases hlen with hzero | hlen
      · by_contra hne
        have hpos := Nat.pos_of_ne_zero fun h ↦ hne (h.trans hzero.symm)
        exact hne ((hheld.len_eq hpos).trans htake)
      · exact hlen
    exact ⟨hlt, hheld.stand htake hlen, hlen, hroom⟩

end NucLlm.KvReuse
