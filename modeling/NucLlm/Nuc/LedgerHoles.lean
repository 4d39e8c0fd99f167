import NucLlm.Nuc.CostLedger
import Mathlib.Algebra.BigOperators.Group.List.Basic

/-!
# Holes between the buckets

A window reaches one interval back from its sample, and not to the sample before it.
Where two samples are further apart than that, the seconds between the windows belong
to no bucket, and a fire there is not charged to the sample that comes after it.
-/

namespace NucLlm.Nuc.Perturbation

open NucLlm.Sorting

namespace SarTable

variable (table : SarTable) (args : LedgerArgs)

/-- The samples come later and later. -/
def Increasing : Prop := table.rows.Pairwise fun a b ↦ a.time.hmsToS < b.time.hmsToS

def valueAt (i : ℕ) : Option ℚ :=
  table.rows[i]?.bind fun r ↦ r.values.lookup args.channel.column

/-- The value that a row is differenced against: the one of the row before it, and of the stitch
for the first row. -/
def predecessor : ℕ → Option ℚ
  | 0 => (stitchApplies args.channel args.stitch).bind fun stitch ↦
      stitch.values.lookup args.channel.column
  | i + 1 => table.valueAt args i

/-- The cost of a bucket: the rate over the interval, or the change of the level since its
predecessor in the same boot. -/
def costAt (i : ℕ) : Option ℤ :=
  table.rows[i]?.bind fun r ↦ (table.valueAt args i).bind fun v ↦
    match args.channel.kind with
    | .rate => some (rateBytes args.channel args.intervalS v)
    | .level =>
      if r.restartBefore then none
      else (table.predecessor args i).map fun p ↦ levelBytes args.channel (v - p)

/-- The sample is the earliest one at or after the second. -/
structure IsEarliest (t : ℤ) (i : ℕ) (row : SarRow) : Prop where
  get : table.rows[i]? = some row
  after : t ≤ row.time.hmsToS
  least : ∀ j r, table.rows[j]? = some r → t ≤ r.time.hmsToS → i ≤ j

def span (name : Clock) : ℤ := bucketSpan table args.intervalS args.stitch args.channel name

/-- The second is after the start of the first window. -/
def Opens (t : ℤ) : Prop :=
  ∃ first, table.rows.head? = some first ∧ first.time.hmsToS - table.span args first.time < t

/-- The second is between the windows, and the bucket of the sample after it has a cost. -/
def InHole (t : ℤ) : Prop :=
  table.Opens args t ∧ ∃ i row, table.IsEarliest t i row ∧ (table.costAt args i).isSome ∧
    t ≤ row.time.hmsToS - table.span args row.time

end SarTable

def LedgerArgs.second (args : LedgerArgs) (f : Event) : ℤ :=
  f.atUtc.clock.hmsToS + args.boundarySlackS

/-- Every fire is charged to the bucket that it falls in. -/
structure Charged (fires : List Event) (table : SarTable) (date : Date) (args : LedgerArgs)
    (l : Ledger) : Prop where
  partition : ∃ placed excluded rest : List Event,
    (placed ++ (excluded ++ rest)).Perm (fires.filter fun f ↦ f.atUtc.date = date) ∧
      l.entries.map (fun e ↦ (e.atUtc, e.unit)) = placed.map (fun f ↦ (f.atUtc, f.label)) ∧
      (∀ f ∈ excluded, f.label ∈ args.excludeUnits) ∧ l.nExcludedFires = excluded.length ∧
      l.unclassified.map (fun u ↦ (u.atUtc, u.unit)) = rest.map (fun f ↦ (f.atUtc, f.label))
  placement : ∀ f ∈ fires, Counts date args f → table.Opens args (args.second f) →
    ∀ i row, table.IsEarliest (args.second f) i row → (table.costAt args i).isSome →
      ∃ e ∈ l.entries, e.atUtc = f.atUtc ∧ e.unit = f.label ∧ e.bucketEnd = row.time
  costs : ∀ e ∈ l.entries, ∃ i row, table.rows[i]? = some row ∧ e.bucketEnd = row.time ∧
    table.costAt args i = some e.bucketBytes
  total : l.totalCostBytes =
    (((List.range table.rows.length).filterMap (table.costAt args)).filter
      fun bytes ↦ l.minBytes ≤ bytes).sum

namespace Fate

def isPlaced : Fate → Bool
  | placed _ => true
  | otherDay => false
  | excluded => false
  | unclassified _ => false

def isUnclassified : Fate → Bool
  | unclassified _ => true
  | otherDay => false
  | excluded => false
  | placed _ => false

end Fate

/-! ## The costs of the rows -/

section

variable {channel : Channel} {intervalS : ℤ} {table : SarTable} {args : LedgerArgs}

/-- The value before a row, from what came before the first one. -/
def prevAt (channel : Channel) (prev : Option ℚ) (rows : List SarRow) : ℕ → Option ℚ
  | 0 => prev
  | i + 1 => rows[i]?.bind fun r ↦ r.values.lookup channel.column

theorem get_ok {r : SarRow} {column : String} {v : ℚ} (h : r.get column = .ok v) :
    r.values.lookup column = some v := by
  unfold SarRow.get at h
  split at h
  · simp at h
  · rename_i w hw
    rw [hw, Except.ok.inj h]

theorem rowCosts_get {prev : Option ℚ} {rows : List SarRow} {costs : List BucketCost}
    (h : rowCosts channel intervalS prev rows = .ok costs) (i : ℕ) :
    costs[i]? = rows[i]?.bind fun r ↦ (r.values.lookup channel.column).map fun v ↦
      ⟨r.time, v, rowCost channel intervalS (prevAt channel prev rows i) r v⟩ := by
  induction rows generalizing prev costs i with
  | nil =>
      obtain rfl := Except.ok.inj h
      simp
  | cons r rows ih =>
      rw [rowCosts] at h
      cases hv : r.get channel.column with
      | error e => simp [hv, Except.bind] at h
      | ok v =>
          rw [hv, Except.bind] at h
          cases hrest : rowCosts channel intervalS (some v) rows with
          | error e => simp [hrest, Except.map] at h
          | ok rest =>
              rw [hrest] at h
              obtain rfl := Except.ok.inj h
              have hlookup := get_ok hv
              cases i with
              | zero => simp [hlookup, prevAt]
              | succ i =>
                  rw [List.getElem?_cons_succ, List.getElem?_cons_succ, ih hrest]
                  cases i with
                  | zero => simp [prevAt, hlookup]
                  | succ i => rfl

theorem rowCosts_defined {prev : Option ℚ} {rows : List SarRow} {costs : List BucketCost}
    (h : rowCosts channel intervalS prev rows = .ok costs) {i : ℕ} {r : SarRow}
    (hr : rows[i]? = some r) : ∃ v, r.values.lookup channel.column = some v := by
  induction rows generalizing prev costs i with
  | nil => simp at hr
  | cons r' rows ih =>
      rw [rowCosts] at h
      cases hv : r'.get channel.column with
      | error e => simp [hv, Except.bind] at h
      | ok v =>
          rw [hv, Except.bind] at h
          cases hrest : rowCosts channel intervalS (some v) rows with
          | error e => simp [hrest, Except.map] at h
          | ok rest =>
              cases i with
              | zero =>
                  obtain rfl := Option.some.inj hr
                  exact ⟨v, get_ok hv⟩
              | succ i => exact ih hrest hr

theorem firstPrev_eq {stitch : Option Stitch} {prev : Option ℚ}
    (h : firstPrev channel stitch = .ok prev) :
    prev = (stitchApplies channel stitch).bind fun st ↦ st.values.lookup channel.column := by
  unfold firstPrev at h
  split at h
  · rename_i hnone
    rw [hnone, ← Except.ok.inj h]
    rfl
  · rename_i st hst
    rw [hst, Option.bind_some]
    split at h
    · simp at h
    · rename_i v hv
      rw [hv, ← Except.ok.inj h]

/-- The bucket of a row has the cost of the row. -/
theorem bucketCosts_get {costs : List BucketCost}
    (h : bucketCosts table args.channel args.intervalS args.stitch = .ok costs) (i : ℕ) :
    costs[i]? = table.rows[i]?.bind fun r ↦ (table.valueAt args i).map fun v ↦
      ⟨r.time, v, table.costAt args i⟩ := by
  unfold bucketCosts at h
  split at h
  · simp at h
  · split at h
    · simp at h
    · cases hprev : firstPrev args.channel args.stitch with
      | error e => simp [hprev, Except.bind] at h
      | ok prev =>
          rw [hprev, Except.bind] at h
          rw [rowCosts_get h]
          cases hr : table.rows[i]? with
          | none => rfl
          | some r =>
              obtain ⟨v, hv⟩ := rowCosts_defined h hr
              have hvalue : table.valueAt args i = some v := by rw [SarTable.valueAt, hr]; exact hv
              have hpred : prevAt args.channel prev table.rows i = table.predecessor args i := by
                cases i with
                | zero => exact firstPrev_eq hprev
                | succ i => rfl
              rw [Option.bind_some, Option.bind_some, hv, hvalue, hpred]
              simp only [Option.map_some, SarTable.costAt, hr, hvalue, Option.bind_some, rowCost]
              cases args.channel.kind with
              | rate => rfl
              | level =>
                  dsimp only
                  cases table.predecessor args i with
                  | none => simp
                  | some p => simp

end

/-! ## The windows -/

section

variable {table : SarTable} {args : LedgerArgs} {costs : List BucketCost} {date : Date}

/-- The window of a stitched first row begins at the last sample of the day before. -/
theorem stitchFrom_ok {prev next : SarTable} {prevDate nextDate : Date} {maxSpanS : ℤ}
    {stitch : Stitch} (h : stitchFrom prev prevDate next nextDate maxSpanS = .ok stitch) :
    ∃ last first, prev.rows.getLast? = some last ∧ next.rows.head? = some first ∧
      first.restartBefore = false ∧ stitch.values = last.values ∧
      first.time.hmsToS - stitch.spanS = last.time.hmsToS - 86400 ∧
      0 < stitch.spanS ∧ stitch.spanS ≤ maxSpanS := by
  unfold stitchFrom at h
  split at h
  · simp at h
  · simp at h
  · rename_i last first rest hlast hrows
    dsimp only at h
    split_ifs at h with hcolumns hgap hrestart hpos hlong
    obtain rfl := Except.ok.inj h
    refine ⟨last, first, hlast, by rw [hrows]; rfl, by simpa using hrestart, rfl, ?_, ?_, ?_⟩
    · dsimp only
      omega
    · exact not_le.mp hpos
    · exact not_lt.mp hlong

theorem increasing_get (h : table.Increasing) {i j : ℕ} {r r' : SarRow}
    (hr : table.rows[i]? = some r) (hr' : table.rows[j]? = some r') (hij : i < j) :
    r.time.hmsToS < r'.time.hmsToS := by
  obtain ⟨hi, rfl⟩ := List.getElem?_eq_some_iff.mp hr
  obtain ⟨hj, rfl⟩ := List.getElem?_eq_some_iff.mp hr'
  exact List.pairwise_iff_getElem.mp h i j hi hj hij

/-- Only the window of the first row has another width. -/
theorem span_later (args : LedgerArgs) (h : table.Increasing) {i : ℕ} {r : SarRow}
    (hr : table.rows[i]? = some r)
    (hi : i ≠ 0) : table.span args r.time = args.intervalS := by
  unfold SarTable.span bucketSpan
  cases hstitch : stitchApplies args.channel args.stitch with
  | none => rfl
  | some stitch =>
      cases hrows : table.rows with
      | nil => rfl
      | cons first rest =>
          have hfirst : table.rows[0]? = some first := by simp [hrows]
          have hlt := increasing_get h hfirst hr (Nat.pos_of_ne_zero hi)
          dsimp only
          rw [if_neg]
          rintro heq
          rw [heq] at hlt
          exact lt_irrefl _ hlt

/-- Where no sample is later than one interval, there are no holes. -/
theorem not_inHole_of_close (hclose : ∀ i r r', table.rows[i]? = some r →
    table.rows[i + 1]? = some r' → r'.time.hmsToS - r.time.hmsToS ≤ args.intervalS)
    (h : table.Increasing) (t : ℤ) : ¬ table.InHole args t := by
  rintro ⟨⟨first, hfirst, hopen⟩, i, row, hrow, -, hstart⟩
  cases i with
  | zero =>
      rw [List.head?_eq_getElem?, hrow.get] at hfirst
      rw [← Option.some.inj hfirst] at hopen
      omega
  | succ j =>
      obtain ⟨hj, -⟩ := List.getElem?_eq_some_iff.mp hrow.get
      obtain ⟨r, hprev⟩ : ∃ r, table.rows[j]? = some r :=
        ⟨_, List.getElem?_eq_getElem (Nat.lt_of_succ_lt hj)⟩
      have hgap := hclose j r row hprev hrow.get
      have hbefore : ¬ t ≤ r.time.hmsToS :=
        fun hle ↦ absurd (hrow.least j r hprev hle) (Nat.not_succ_le_self j)
      rw [span_later args h hrow.get (Nat.succ_ne_zero j)] at hstart
      omega

theorem cost_of_row (h : bucketCosts table args.channel args.intervalS args.stitch = .ok costs)
    {i : ℕ} {r : SarRow} (hr : table.rows[i]? = some r) :
    ∃ v, costs[i]? = some ⟨r.time, v, table.costAt args i⟩ := by
  have hget := bucketCosts_get h i
  have hdefined : ∃ v, table.valueAt args i = some v := by
    unfold bucketCosts at h
    split at h
    · simp at h
    · split at h
      · simp at h
      · cases hprev : firstPrev args.channel args.stitch with
        | error e => simp [hprev, Except.bind] at h
        | ok prev =>
            rw [hprev, Except.bind] at h
            obtain ⟨v, hv⟩ := rowCosts_defined h hr
            exact ⟨v, by rw [SarTable.valueAt, hr]; exact hv⟩
  obtain ⟨v, hv⟩ := hdefined
  rw [hr, hv] at hget
  exact ⟨v, hget⟩

theorem row_of_cost (h : bucketCosts table args.channel args.intervalS args.stitch = .ok costs)
    {i : ℕ} {c : BucketCost} (hc : costs[i]? = some c) :
    ∃ r, table.rows[i]? = some r ∧ c.name = r.time ∧ c.bytes = table.costAt args i := by
  rw [bucketCosts_get h] at hc
  obtain ⟨r, hr, hc⟩ := Option.bind_eq_some_iff.mp hc
  obtain ⟨v, -, rfl⟩ := Option.map_eq_some_iff.mp hc
  exact ⟨r, hr, rfl, rfl⟩

theorem names_nodup (hcosts : bucketCosts table args.channel args.intervalS args.stitch = .ok costs)
    (h : table.Increasing) : (costs.map BucketCost.name).Nodup := by
  rw [List.nodup_iff_pairwise_ne, List.pairwise_map, List.pairwise_iff_getElem]
  intro i j hi hj hij heq
  obtain ⟨r, hr, hname, -⟩ := row_of_cost hcosts (List.getElem?_eq_getElem hi)
  obtain ⟨r', hr', hname', -⟩ := row_of_cost hcosts (List.getElem?_eq_getElem hj)
  have hlt := increasing_get h hr hr' hij
  rw [← hname, ← hname', heq] at hlt
  exact lt_irrefl _ hlt

theorem bytesOf_mem {c : BucketCost} (hnodup : (costs.map BucketCost.name).Nodup)
    (hc : c ∈ costs) : bytesOf costs c.name = c.bytes := by
  have hfind : costs.reverse.find? (fun b ↦ b.name = c.name) = some c := by
    cases hx : costs.reverse.find? (fun b ↦ b.name = c.name) with
    | none =>
        have hnone := List.find?_eq_none.mp hx c (List.mem_reverse.mpr hc)
        simp at hnone
    | some x =>
        have hname := List.find?_some hx
        have hmem := List.mem_reverse.mp (List.mem_of_find?_eq_some hx)
        rw [decide_eq_true_eq] at hname
        rw [List.inj_on_of_nodup_map hnodup hmem hc hname]
  rw [bytesOf, hfind]
  rfl

/-- In an open second, the window that is hit is the one of the earliest sample, if any is. -/
theorem hit_earliest (date : Date)
    (hcosts : bucketCosts table args.channel args.intervalS args.stitch = .ok costs)
    (h : table.Increasing) {t : ℤ} (hopens : table.Opens args t) {i : ℕ} {row : SarRow}
    (hrow : table.IsEarliest t i row) :
    (Buckets.mk table date args costs).hit t =
      if row.time.hmsToS - table.span args row.time < t then costs[i]? else none := by
  have hbefore : ∀ k (hk : k < costs.length), k < i → ¬ t ≤ costs[k].name.hmsToS := by
    intro k hk hki hle
    obtain ⟨r, hr, hname, -⟩ := row_of_cost hcosts (List.getElem?_eq_getElem hk)
    rw [hname] at hle
    exact absurd (hrow.least k r hr hle) (Nat.not_le.mpr hki)
  obtain ⟨v, hv⟩ := cost_of_row hcosts hrow.get
  obtain ⟨hi, hget⟩ := List.getElem?_eq_some_iff.mp hv
  unfold Buckets.hit
  split
  · rename_i hstart
    rw [hv, List.find?_eq_some_iff_getElem]
    refine ⟨decide_eq_true (And.intro hstart hrow.after), i, hi, hget, ?_⟩
    intro k hk
    have hne := hbefore k (Nat.lt_trans hk hi) hk
    simp [hne]
  · rename_i hstart
    rw [List.find?_eq_none]
    intro c hc
    obtain ⟨k, hk, rfl⟩ := List.getElem_of_mem hc
    obtain ⟨r, hr, hname, -⟩ := row_of_cost hcosts (List.getElem?_eq_getElem hk)
    rcases Nat.lt_trichotomy k i with hki | rfl | hik
    · simp [hbefore k hk hki]
    · have hsame : r = row := Option.some.inj (hr.symm.trans hrow.get)
      simp only [decide_eq_true_eq, not_and]
      intro hlt
      rw [hname, hsame] at hlt
      exact absurd hlt hstart
    · simp only [decide_eq_true_eq, not_and]
      intro hlt
      have hlate := increasing_get h hrow.get hr hik
      have hi0 : i ≠ 0 := by
        rintro rfl
        obtain ⟨first, hfirst, hopen⟩ := hopens
        rw [List.head?_eq_getElem?, hrow.get] at hfirst
        rw [← Option.some.inj hfirst] at hopen
        exact hstart hopen
      have hspan := span_later args h hrow.get hi0
      have hspan' := span_later args h hr (Nat.ne_of_gt (Nat.zero_lt_of_lt hik))
      rw [hspan] at hstart
      have hname' : (Buckets.mk table date args costs).span costs[k].name = args.intervalS := by
        rw [hname]
        exact hspan'
      rw [hname', hname] at hlt
      omega

/-! ## The ledger -/

variable {b : Buckets} {fires : List Event}

/-- The fire that was placed, as an entry shows it. -/
theorem map_entries (minBytes : ℤ) (fires : List Event) :
    (b.entries minBytes fires).map (fun e ↦ (e.atUtc, e.unit)) =
      (fires.filter fun f ↦ (b.fate f).isPlaced).map fun f ↦ (f.atUtc, f.label) := by
  unfold Buckets.entries
  rw [List.map_map]
  change (b.placed fires).map (fun p ↦ (p.1.atUtc, p.1.label)) = _
  unfold Buckets.placed
  induction fires with
  | nil => rfl
  | cons f fires ih =>
      rw [List.filterMap_cons, List.filter_cons]
      cases hf : b.fate f with
      | placed c => simp only [Fate.isPlaced, if_true, List.map_cons, ih]
      | otherDay => simpa [Fate.isPlaced] using ih
      | excluded => simpa [Fate.isPlaced] using ih
      | unclassified why => simpa [Fate.isPlaced] using ih

theorem map_unclassified (fires : List Event) :
    (b.unclassified fires).map (fun u ↦ (u.atUtc, u.unit)) =
      (fires.filter fun f ↦ (b.fate f).isUnclassified).map fun f ↦ (f.atUtc, f.label) := by
  unfold Buckets.unclassified
  induction fires with
  | nil => rfl
  | cons f fires ih =>
      rw [List.filterMap_cons, List.filter_cons]
      cases hf : b.fate f with
      | unclassified why => simp only [Fate.isUnclassified, if_true, List.map_cons, ih]
      | otherDay => simpa [Fate.isUnclassified] using ih
      | excluded => simpa [Fate.isUnclassified] using ih
      | placed c => simpa [Fate.isUnclassified] using ih

/-- The fires of the date by what becomes of them. -/
theorem perm_fates (fires : List Event) :
    (fires.filter (fun f ↦ (b.fate f).isPlaced) ++
      (fires.filter (fun f ↦ b.fate f = .excluded) ++
        fires.filter fun f ↦ (b.fate f).isUnclassified)).Perm
      (fires.filter fun f ↦ f.atUtc.date = b.date) := by
  induction fires with
  | nil => rfl
  | cons f fires ih =>
      have hdate := fate_otherDay_iff (b := b) f
      simp only [List.filter_cons]
      cases hf : b.fate f with
      | otherDay =>
          have hne := hdate.mp hf
          simpa [Fate.isPlaced, Fate.isUnclassified, hne] using ih
      | placed c =>
          have heq : f.atUtc.date = b.date :=
            not_not.mp fun hne ↦ by simp [hf] at hdate; exact hne hdate
          simpa [Fate.isPlaced, Fate.isUnclassified, heq] using ih
      | excluded =>
          have heq : f.atUtc.date = b.date :=
            not_not.mp fun hne ↦ by simp [hf] at hdate; exact hne hdate
          simp only [Fate.isPlaced, Fate.isUnclassified, heq, decide_true, if_true]
          exact List.perm_middle.trans (ih.cons f)
      | unclassified why =>
          have heq : f.atUtc.date = b.date :=
            not_not.mp fun hne ↦ by simp [hf] at hdate; exact hne hdate
          simp only [Fate.isPlaced, Fate.isUnclassified, heq, decide_true, if_true]
          rw [← List.append_assoc]
          refine List.perm_middle.trans ?_
          rw [List.append_assoc]
          exact ih.cons f

/-- Each costly bucket is counted once. -/
theorem total_allCostly (minBytes : ℤ) (hnodup : (costs.map BucketCost.name).Nodup) :
    ((allCostly minBytes costs).map fun name ↦ (bytesOf costs name).getD 0).sum =
      ((costs.filterMap BucketCost.bytes).filter fun bytes ↦ minBytes ≤ bytes).sum := by
  have hperm := sortedBy_perm Clock.asText ((bucketNames costs).filter fun name ↦
    (bytesOf costs name).any fun bytes ↦ minBytes ≤ bytes)
  unfold allCostly
  rw [(hperm.map _).sum_eq, bucketNames, hnodup.dedup]
  have hbytes : ∀ c ∈ costs, bytesOf costs c.name = c.bytes := fun c hc ↦ bytesOf_mem hnodup hc
  generalize bytesOf costs = bytes at hbytes
  clear hperm hnodup
  induction costs with
  | nil => rfl
  | cons c costs ih =>
      obtain ⟨hc, hcosts⟩ := List.forall_mem_cons.mp hbytes
      have hrest := ih hcosts
      rw [List.map_cons, List.filter_cons, List.filterMap_cons, hc]
      cases hcb : c.bytes with
      | none => simpa using hrest
      | some n =>
          by_cases hn : minBytes ≤ n
          · simp [hn, hc, hcb, hrest]
          · simp [hn, hrest]

theorem filterMap_bytes (hcosts : bucketCosts table args.channel args.intervalS args.stitch =
    .ok costs) : costs.filterMap BucketCost.bytes =
      (List.range table.rows.length).filterMap (table.costAt args) := by
  have hmap : costs.map BucketCost.bytes =
      (List.range table.rows.length).map (table.costAt args) := by
    apply List.ext_getElem?
    intro i
    rw [List.getElem?_map, List.getElem?_map]
    by_cases hi : i < table.rows.length
    · obtain ⟨v, hv⟩ := cost_of_row hcosts (List.getElem?_eq_getElem hi)
      rw [hv, List.getElem?_range hi]
      rfl
    · rw [bucketCosts_get hcosts, List.getElem?_eq_none (Nat.not_lt.mp hi),
        List.getElem?_eq_none (by simpa using hi)]
      rfl
  have hid := congrArg (List.filterMap id) hmap
  rwa [List.filterMap_map, List.filterMap_map, Function.id_comp, Function.id_comp] at hid

/-- A fire that counts, in an open second, with a cost at its sample. -/
theorem placed_iff (hcosts : bucketCosts table args.channel args.intervalS args.stitch = .ok costs)
    (h : table.Increasing) {f : Event} (hf : Counts date args f)
    (hopens : table.Opens args (args.second f)) {i : ℕ} {row : SarRow}
    (hrow : table.IsEarliest (args.second f) i row) (hcost : (table.costAt args i).isSome) :
    (∃ c, (Buckets.mk table date args costs).fate f = .placed c ∧ c.name = row.time) ↔
      row.time.hmsToS - table.span args row.time < args.second f := by
  have hhit := hit_earliest date hcosts h hopens hrow
  obtain ⟨v, hv⟩ := cost_of_row hcosts hrow.get
  have hbytes := bytesOf_mem (names_nodup hcosts h) (List.mem_of_getElem? hv)
  constructor
  · rintro ⟨c, hfate, -⟩
    obtain ⟨hc, -⟩ := (fate_placed_iff hf c).mp hfate
    by_contra hstart
    rw [if_neg hstart] at hhit
    change (Buckets.mk table date args costs).hit (args.second f) = some c at hc
    rw [hhit] at hc
    simp at hc
  · intro hstart
    rw [if_pos hstart, hv] at hhit
    refine ⟨_, (fate_placed_iff hf _).mpr ⟨hhit, ?_⟩, rfl⟩
    rw [hbytes]
    exact hcost

theorem charged_of_no_hole {l : Ledger} (h : table.Increasing)
    (hl : costLedger fires table date args = .ok l)
    (hholes : ∀ f ∈ fires, Counts date args f → ¬ table.InHole args (args.second f)) :
    Charged fires table date args l := by
  obtain ⟨minBytes, costs, hcosts, rfl⟩ := costLedger_ok hl
  refine ⟨?_, ?_, ?_, ?_⟩
  · exact ⟨_, _, _, perm_fates fires, map_entries minBytes fires,
      fun f hf ↦ fate_excluded (of_decide_eq_true (List.mem_filter.mp hf).2), rfl,
      map_unclassified fires⟩
  · intro f hf hcounts hopens i row hrow hcost
    have hstart : row.time.hmsToS - table.span args row.time < args.second f := by
      by_contra hstart
      exact hholes f hf hcounts ⟨hopens, i, row, hrow, hcost, not_lt.mp hstart⟩
    obtain ⟨c, hfate, hname⟩ := (placed_iff hcosts h hcounts hopens hrow hcost).mpr hstart
    exact ⟨_, entry_of_fate minBytes hf hfate, rfl, rfl, hname⟩
  · intro e he
    obtain ⟨f, -, c, hfate, rfl⟩ := mem_entries he
    have hhit : (Buckets.mk table date args costs).hit (args.second f) = some c ∧
        (bytesOf costs c.name).isSome :=
      (fate_placed_iff (counts_of_placed hfate) c).mp hfate
    obtain ⟨i, hi, hget⟩ := List.getElem_of_mem (List.mem_of_find?_eq_some hhit.1)
    obtain ⟨r, hr, hname, hbytes⟩ := row_of_cost hcosts (hget ▸ List.getElem?_eq_getElem hi)
    refine ⟨i, r, hr, hname, ?_⟩
    have hmem : c ∈ costs := hget ▸ List.getElem_mem hi
    have hbytesOf := bytesOf_mem (names_nodup hcosts h) hmem
    obtain ⟨n, hn⟩ := Option.isSome_iff_exists.mp hhit.2
    change table.costAt args i = some ((bytesOf costs c.name).getD 0)
    rw [hn, Option.getD_some, ← hbytes, ← hbytesOf, hn]
  · rw [← filterMap_bytes hcosts]
    exact total_allCostly minBytes (names_nodup hcosts h)

theorem not_charged_of_hole {l : Ledger} (h : table.Increasing)
    (hl : costLedger fires table date args = .ok l) {f : Event} (hf : f ∈ fires)
    (hcounts : Counts date args f) (hhole : table.InHole args (args.second f)) :
    ¬ Charged fires table date args l := by
  obtain ⟨minBytes, costs, hcosts, rfl⟩ := costLedger_ok hl
  obtain ⟨hopens, i, row, hrow, hcost, hstart⟩ := hhole
  intro hcharged
  obtain ⟨e, he, hat, hunit, hend⟩ := hcharged.placement f hf hcounts hopens i row hrow hcost
  obtain ⟨g, -, c, hfate, rfl⟩ := mem_entries he
  have hsame : (Buckets.mk table date args costs).fate g =
      (Buckets.mk table date args costs).fate f := fate_congr hat hunit
  have hplaced := (placed_iff hcosts h hcounts hopens hrow hcost).mp ⟨c, hsame ▸ hfate, hend⟩
  exact absurd hplaced (not_lt.mpr hstart)

/-- The ledger charges the fires as it should when none of them falls between the windows. -/
theorem charged_iff_no_hole {l : Ledger} (h : table.Increasing)
    (hl : costLedger fires table date args = .ok l) :
    Charged fires table date args l ↔
      ∀ f ∈ fires, Counts date args f → ¬ table.InHole args (args.second f) :=
  ⟨fun hcharged _ hf hcounts hhole ↦ not_charged_of_hole h hl hf hcounts hhole hcharged,
    charged_of_no_hole h hl⟩

end

def swapChannel : Channel := ⟨"swap", "pswpout/s", .rate, 4096, .both, fun _ ↦ rfl⟩

def swapArgs : LedgerArgs := ⟨sarIntervalS, none, ["sysstat-collect"], 5, swapChannel, none⟩

/-- The second sample is three seconds late. -/
def lateTable : SarTable :=
  ⟨["pswpout/s"], [⟨⟨1, 0, 0⟩, [("pswpout/s", 0)], false⟩,
    ⟨⟨1, 10, 3⟩, [("pswpout/s", 27)], false⟩]⟩

def lateDay : Date := ⟨2026, 8, 31⟩

def lateFire : Event := ⟨⟨lateDay, ⟨0, 59, 57⟩, by decide⟩, "fwupd-refresh", "journal"⟩

theorem lateTable_increasing : lateTable.Increasing := by
  unfold SarTable.Increasing
  decide

theorem lateFire_inHole : lateTable.InHole swapArgs (swapArgs.second lateFire) := by
  refine ⟨⟨_, rfl, by decide⟩, 1, _, ⟨rfl, by decide, fun j r hr hle ↦ ?_⟩, rfl, by decide⟩
  cases j with
  | zero =>
      obtain rfl := Option.some.inj hr
      exact absurd hle (by decide)
  | succ j => exact Nat.succ_le_succ (Nat.zero_le j)

theorem charged_iff_late :
    ∃ l, costLedger [lateFire] lateTable lateDay swapArgs = .ok l ∧
      (Charged [lateFire] lateTable lateDay swapArgs l ↔ ∀ f ∈ [lateFire],
        Counts lateDay swapArgs f → ¬ lateTable.InHole swapArgs (swapArgs.second f)) :=
  ⟨_, rfl, charged_iff_no_hole lateTable_increasing rfl⟩

/-- The fire is before the last sample and after the first window, and is in no bucket. -/
theorem late_sample_loses_fire :
    lateTable.Increasing ∧ ∃ l, costLedger [lateFire] lateTable lateDay swapArgs = .ok l ∧
      ¬ Charged [lateFire] lateTable lateDay swapArgs l :=
  ⟨lateTable_increasing, _, rfl, not_charged_of_hole lateTable_increasing rfl List.mem_cons_self
    ⟨rfl, by decide⟩ lateFire_inHole⟩

end NucLlm.Nuc.Perturbation
