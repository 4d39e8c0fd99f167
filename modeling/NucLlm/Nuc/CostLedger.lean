import NucLlm.Lib.Sorting
import NucLlm.Nuc.ExpertCache
import Mathlib.Data.String.Basic

/-!
# The cost ledger

A day of system activity is a table of samples, and each sample ends a bucket.  The
ledger puts every fire of the day into the bucket that it falls in, and leaves out the
fires whose bucket has no defined cost.
-/

namespace NucLlm.Nuc.Perturbation

open NucLlm.Sorting

/-- A stamp `HH:MM:SS`. -/
structure Clock where
  h : ℕ
  m : ℕ
  s : ℕ
deriving DecidableEq

namespace Clock

/-- `_hms_to_s`. -/
def hmsToS (c : Clock) : ℤ := c.h * 3600 + c.m * 60 + c.s

/-- The order of the stamps as texts of two digits each. -/
def asText (c : Clock) : ℕ := (c.h * 100 + c.m) * 100 + c.s

end Clock

structure Date where
  year : ℕ
  month : ℕ
  day : ℕ
deriving DecidableEq

namespace Date

def leap (year : ℕ) : Bool := year % 4 = 0 ∧ (year % 100 ≠ 0 ∨ year % 400 = 0)

/-- `toordinal`. -/
def ordinal (d : Date) : ℤ :=
  let y := d.year - 1
  y * 365 + y / 4 - y / 100 + y / 400 +
    ([0, 31, 59, 90, 120, 151, 181, 212, 243, 273, 304, 334].getD (d.month - 1) 0 : ℕ) +
    (if 2 < d.month ∧ leap d.year then 1 else 0) + d.day

end Date

/-- An instant of a day. -/
structure Instant where
  date : Date
  clock : Clock
  ofDay : clock.h < 24 ∧ clock.m < 60 ∧ clock.s < 60
deriving DecidableEq

structure Event where
  atUtc : Instant
  label : String
  source : String

structure SarRow where
  time : Clock
  values : List (String × ℚ)
  restartBefore : Bool

structure SarTable where
  columns : List String
  rows : List SarRow

inductive ChannelKind where
  | rate
  | level
deriving DecidableEq

inductive Direction where
  | rise
  | fall
  | both
deriving DecidableEq

structure Channel where
  name : String
  column : String
  kind : ChannelKind
  unitBytes : ℚ
  direction : Direction
  unsigned : kind = .rate → direction = .both

structure Stitch where
  prevDate : Date
  prevTime : Clock
  nextDate : Date
  nextTime : Clock
  spanS : ℤ
  values : List (String × ℚ)
deriving DecidableEq

/-- The refusals, with what their messages name. -/
inductive PerturbationError where
  | noRowsFrom (date : Date)
  | noRowsInto (date : Date)
  | differentColumns (prev next : Date)
  | notAdjacent (prev next : Date) (gapDays : ℤ)
  | afterRestart (next : Date) (time : Clock)
  | spanNotPositive (prev next : Clock) (spanS : ℤ)
  | spanTooLong (prev next : Clock) (spanS maxSpanS : ℤ)
  | intervalNotPositive
  | noColumn (channel column : String) (columns : List String)
  | rowWithoutColumn (column : String) (columns : List String)
  | stitchWithoutColumn (column : String) (columns : List String)
  | noThreshold (channel : String)
  | thresholdNegative
  | noPoolableDay
deriving DecidableEq

def SarRow.get (r : SarRow) (column : String) : Except PerturbationError ℚ :=
  match r.values.lookup column with
  | none => .error (.rowWithoutColumn column (r.values.map Prod.fst))
  | some v => .ok v

def sarIntervalS : ℤ := 600

def ledgerBoundarySlackS : ℤ := 5

/-- `stitch_from`. -/
def stitchFrom (prevTable : SarTable) (prevDate : Date) (nextTable : SarTable) (nextDate : Date)
    (maxSpanS : ℤ) : Except PerturbationError Stitch :=
  match prevTable.rows.getLast?, nextTable.rows with
  | none, _ => .error (.noRowsFrom prevDate)
  | some _, [] => .error (.noRowsInto nextDate)
  | some last, first :: _ =>
    if prevTable.columns ≠ nextTable.columns then .error (.differentColumns prevDate nextDate)
    else
      let gapDays := nextDate.ordinal - prevDate.ordinal
      if gapDays ≠ 1 then .error (.notAdjacent prevDate nextDate gapDays)
      else if first.restartBefore then .error (.afterRestart nextDate first.time)
      else
        let spanS := first.time.hmsToS + 86400 - last.time.hmsToS
        if spanS ≤ 0 then .error (.spanNotPositive last.time first.time spanS)
        else if maxSpanS < spanS then .error (.spanTooLong last.time first.time spanS maxSpanS)
        else .ok ⟨prevDate, last.time, nextDate, first.time, spanS, last.values⟩

/-- `stitch_applies`. -/
def stitchApplies (channel : Channel) (stitch : Option Stitch) : Option Stitch :=
  if channel.kind = .level then stitch else none

structure BucketCost where
  name : Clock
  value : ℚ
  bytes : Option ℤ
deriving DecidableEq

/-- `int`, which cuts off the fraction. -/
def truncate (x : ℚ) : ℤ := if 0 ≤ x then x.floor else x.ceil

def rateBytes (channel : Channel) (intervalS : ℤ) (v : ℚ) : ℤ :=
  truncate (round (v * intervalS) * channel.unitBytes)

/-- The change of a level, as the direction of the channel counts it. -/
def levelBytes (channel : Channel) (delta : ℚ) : ℤ :=
  truncate ((match channel.direction with
    | .rise => max delta 0
    | .fall => max (-delta) 0
    | .both => |delta|) * channel.unitBytes)

def rowCost (channel : Channel) (intervalS : ℤ) (prev : Option ℚ) (r : SarRow) (v : ℚ) :
    Option ℤ :=
  match channel.kind with
  | .rate => some (rateBytes channel intervalS v)
  | .level =>
    match prev with
    | none => none
    | some p => if r.restartBefore then none else some (levelBytes channel (v - p))

def rowCosts (channel : Channel) (intervalS : ℤ) :
    Option ℚ → List SarRow → Except PerturbationError (List BucketCost)
  | _, [] => .ok []
  | prev, r :: rows =>
    (r.get channel.column).bind fun v ↦
      (rowCosts channel intervalS (some v) rows).map fun costs ↦
        ⟨r.time, v, rowCost channel intervalS prev r v⟩ :: costs

/-- What the first row is differenced against. -/
def firstPrev (channel : Channel) (stitch : Option Stitch) : Except PerturbationError (Option ℚ) :=
  match stitchApplies channel stitch with
  | none => .ok none
  | some stitch =>
    match stitch.values.lookup channel.column with
    | none => .error (.stitchWithoutColumn channel.column (stitch.values.map Prod.fst))
    | some v => .ok (some v)

/-- `bucket_costs`. -/
def bucketCosts (table : SarTable) (channel : Channel) (intervalS : ℤ) (stitch : Option Stitch) :
    Except PerturbationError (List BucketCost) :=
  if intervalS ≤ 0 then .error .intervalNotPositive
  else if channel.column ∉ table.columns then
    .error (.noColumn channel.name channel.column table.columns)
  else (firstPrev channel stitch).bind fun prev ↦ rowCosts channel intervalS prev table.rows

/-- `bucket_spans`, at a name. -/
def bucketSpan (table : SarTable) (intervalS : ℤ) (stitch : Option Stitch) (channel : Channel)
    (name : Clock) : ℤ :=
  match stitchApplies channel stitch, table.rows with
  | some stitch, first :: _ => if first.time = name then stitch.spanS else intervalS
  | _, _ => intervalS

def pageBytes : ℕ := 4096

/-- The geometric mean of the largest noise and the smallest real event, which were 84 and 16524
pages. -/
def ledgerMinBytes : ℕ := Nat.sqrt (84 * pageBytes * (16524 * pageBytes))

/-- `CHANNEL_MIN_BYTES.get`. -/
def channelMinBytes (name : String) : Option ℤ :=
  if name = "swap" then some ledgerMinBytes else none

/-- The arguments of the ledger beside the fires, the table and its date. -/
structure LedgerArgs where
  intervalS : ℤ
  minBytes : Option ℤ
  excludeUnits : List String
  boundarySlackS : ℤ
  channel : Channel
  stitch : Option Stitch

inductive Why where
  | noBucket
  | undefinedCost (bucket : Clock) (channel : String)
deriving DecidableEq

structure Unclassified where
  atUtc : Instant
  unit : String
  why : Why
deriving DecidableEq

structure LedgerEntry where
  atUtc : Instant
  unit : String
  bucketEnd : Clock
  channel : String
  channelValue : ℚ
  bucketBytes : ℤ
  bucketSharedBy : ℕ
  bucketFires : ℕ
  bucketSpanS : ℤ
  costly : Bool
  soleAttributable : Bool
deriving DecidableEq

structure UnitCounts where
  fires : ℕ
  inCostlyBucket : ℕ
  soleAttributable : ℕ
  soleAttributableBytes : ℤ

structure Ledger where
  date : Date
  channel : String
  channelColumn : String
  channelKind : ChannelKind
  nUndefinedBuckets : ℕ
  stitch : Option Stitch
  stitchApplied : Bool
  nWideBuckets : ℕ
  nFires : ℕ
  nExcludedFires : ℕ
  excludedUnits : List String
  minBytes : ℤ
  boundarySlackS : ℤ
  nFiresInCostlyBucket : ℕ
  nSoleAttributable : ℕ
  nUnclassified : ℕ
  baseRate : Option ℚ
  nBuckets : ℕ
  nCostlyBuckets : ℕ
  nCostlyBucketsWithANamedFire : ℕ
  costlyBucketsWithoutANamedFire : List Clock
  totalCostBytes : ℤ
  byUnit : List (String × UnitCounts)
  entries : List LedgerEntry
  unclassified : List Unclassified

/-- `bucket_bytes`, where a later row of the same name wins. -/
def bytesOf (costs : List BucketCost) (name : Clock) : Option ℤ :=
  (costs.reverse.find? fun b ↦ b.name = name).bind BucketCost.bytes

def bucketNames (costs : List BucketCost) : List Clock := (costs.map BucketCost.name).dedup

/-- The table with its costs, as the loop over the fires reads them. -/
structure Buckets where
  table : SarTable
  date : Date
  args : LedgerArgs
  costs : List BucketCost

namespace Buckets

variable (b : Buckets)

def span (name : Clock) : ℤ := bucketSpan b.table b.args.intervalS b.args.stitch b.args.channel name

/-- The bucket whose window has the second. -/
def hit (t : ℤ) : Option BucketCost :=
  b.costs.find? fun c ↦ decide (c.name.hmsToS - b.span c.name < t ∧ t ≤ c.name.hmsToS)

/-- The second that a fire is looked up at. -/
def second (f : Event) : ℤ := f.atUtc.clock.hmsToS + b.args.boundarySlackS

end Buckets

/-- What becomes of a fire. -/
inductive Fate where
  | otherDay
  | excluded
  | unclassified (why : Why)
  | placed (bucket : BucketCost)
deriving DecidableEq

namespace Buckets

variable (b : Buckets)

def fate (f : Event) : Fate :=
  if f.atUtc.date ≠ b.date then .otherDay
  else if f.label ∈ b.args.excludeUnits then .excluded
  else
    match b.hit (b.second f) with
    | none => .unclassified .noBucket
    | some c =>
      if (bytesOf b.costs c.name).isNone then
        .unclassified (.undefinedCost c.name b.args.channel.name)
      else .placed c

def placed (fires : List Event) : List (Event × BucketCost) :=
  fires.filterMap fun f ↦
    match b.fate f with
    | .placed c => some (f, c)
    | _ => none

def unclassified (fires : List Event) : List Unclassified :=
  fires.filterMap fun f ↦
    match b.fate f with
    | .unclassified why => some ⟨f.atUtc, f.label, why⟩
    | _ => none

def skipped (fires : List Event) : ℕ := (fires.filter fun f ↦ b.fate f = .excluded).length

end Buckets

/-- The distinct units of a bucket. -/
def sharedBy (placed : List (Event × BucketCost)) (name : Clock) : ℕ :=
  ((placed.filter fun p ↦ p.2.name = name).map fun p ↦ p.1.label).dedup.length

def firesIn (placed : List (Event × BucketCost)) (name : Clock) : ℕ :=
  (placed.filter fun p ↦ p.2.name = name).length

def Buckets.entry (b : Buckets) (minBytes : ℤ) (placed : List (Event × BucketCost))
    (p : Event × BucketCost) : LedgerEntry :=
  let bytes := (bytesOf b.costs p.2.name).getD 0
  let costly := decide (minBytes ≤ bytes)
  { atUtc := p.1.atUtc
    unit := p.1.label
    bucketEnd := p.2.name
    channel := b.args.channel.name
    channelValue := p.2.value
    bucketBytes := bytes
    bucketSharedBy := sharedBy placed p.2.name
    bucketFires := firesIn placed p.2.name
    bucketSpanS := b.span p.2.name
    costly
    soleAttributable := costly && sharedBy placed p.2.name = 1 }

def Buckets.entries (b : Buckets) (minBytes : ℤ) (fires : List Event) : List LedgerEntry :=
  (b.placed fires).map (b.entry minBytes (b.placed fires))

def unitCounts (entries : List LedgerEntry) (unit : String) : UnitCounts :=
  let mine := entries.filter fun e ↦ e.unit = unit
  { fires := mine.length
    inCostlyBucket := (mine.filter LedgerEntry.costly).length
    soleAttributable := (mine.filter LedgerEntry.soleAttributable).length
    soleAttributableBytes :=
      ((mine.filter LedgerEntry.soleAttributable).map LedgerEntry.bucketBytes).sum }

/-- The values of a list in the order of their first places. -/
def firstSeen (l : List String) : List String := l.reverse.dedup.reverse

def allCostly (minBytes : ℤ) (costs : List BucketCost) : List Clock :=
  sortedBy Clock.asText ((bucketNames costs).filter fun name ↦
    (bytesOf costs name).any fun bytes ↦ minBytes ≤ bytes)

def costlyBuckets (entries : List LedgerEntry) : List Clock :=
  sortedBy Clock.asText ((entries.filter LedgerEntry.costly).map LedgerEntry.bucketEnd).dedup

def Buckets.ledger (b : Buckets) (minBytes : ℤ) (fires : List Event) : Ledger :=
  let entries := b.entries minBytes fires
  let names := bucketNames b.costs
  let defined := names.filter fun name ↦ (bytesOf b.costs name).isSome
  let costly := entries.filter LedgerEntry.costly
  let all := allCostly minBytes b.costs
  { date := b.date
    channel := b.args.channel.name
    channelColumn := b.args.channel.column
    channelKind := b.args.channel.kind
    nUndefinedBuckets := names.length - defined.length
    stitch := b.args.stitch
    stitchApplied := (stitchApplies b.args.channel b.args.stitch).isSome
    nWideBuckets := (names.filter fun name ↦ b.span name ≠ b.args.intervalS).length
    nFires := entries.length
    nExcludedFires := b.skipped fires
    excludedUnits := sortedBy id b.args.excludeUnits.dedup
    minBytes
    boundarySlackS := b.args.boundarySlackS
    nFiresInCostlyBucket := costly.length
    nSoleAttributable := (entries.filter LedgerEntry.soleAttributable).length
    nUnclassified := (b.unclassified fires).length
    baseRate := if entries = [] then none else some (costly.length / entries.length)
    nBuckets := defined.length
    nCostlyBuckets := all.length
    nCostlyBucketsWithANamedFire := (costlyBuckets entries).length
    costlyBucketsWithoutANamedFire := all.filter fun name ↦ name ∉ costlyBuckets entries
    totalCostBytes := (all.map fun name ↦ (bytesOf b.costs name).getD 0).sum
    byUnit := (firstSeen (entries.map LedgerEntry.unit)).map fun unit ↦
      (unit, unitCounts entries unit)
    entries
    unclassified := b.unclassified fires }

def LedgerArgs.threshold (args : LedgerArgs) : Except PerturbationError ℤ :=
  match args.minBytes with
  | some minBytes => .ok minBytes
  | none =>
    match channelMinBytes args.channel.name with
    | some minBytes => .ok minBytes
    | none => .error (.noThreshold args.channel.name)

/-- `cost_ledger`. -/
def costLedger (fires : List Event) (table : SarTable) (date : Date) (args : LedgerArgs) :
    Except PerturbationError Ledger :=
  if args.intervalS ≤ 0 then .error .intervalNotPositive
  else
    args.threshold.bind fun minBytes ↦
      if minBytes < 0 then .error .thresholdNegative
      else
        (bucketCosts table args.channel args.intervalS args.stitch).map fun costs ↦
          (Buckets.mk table date args costs).ledger minBytes fires

/-- The fire is of the date, and its unit is not left out. -/
def Counts (date : Date) (args : LedgerArgs) (f : Event) : Prop :=
  f.atUtc.date = date ∧ f.label ∉ args.excludeUnits

section

variable {b : Buckets} {fires : List Event} {table : SarTable} {date : Date} {args : LedgerArgs}

theorem fate_otherDay_iff (f : Event) : b.fate f = .otherDay ↔ f.atUtc.date ≠ b.date := by
  unfold Buckets.fate
  by_cases hdate : f.atUtc.date = b.date
  · rw [if_neg (not_not.mpr hdate)]
    simp only [hdate, ne_eq, not_true_eq_false, iff_false]
    split
    · simp
    · split
      · simp
      · split <;> simp
  · simp [hdate]

theorem fate_excluded {f : Event} (h : b.fate f = .excluded) :
    f.label ∈ b.args.excludeUnits := by
  unfold Buckets.fate at h
  split at h
  · simp at h
  · split at h
    · assumption
    · split at h
      · simp at h
      · split at h <;> simp at h

theorem counts_of_placed {f : Event} {c : BucketCost} (h : b.fate f = .placed c) :
    Counts b.date b.args f := by
  unfold Buckets.fate at h
  split at h
  · simp at h
  · rename_i hdate
    split at h
    · simp at h
    · rename_i hlabel
      exact ⟨not_not.mp hdate, hlabel⟩

theorem mem_entries {minBytes : ℤ} {e : LedgerEntry} (h : e ∈ b.entries minBytes fires) :
    ∃ f ∈ fires, ∃ c, b.fate f = .placed c ∧ e = b.entry minBytes (b.placed fires) (f, c) := by
  obtain ⟨⟨f, c⟩, hp, rfl⟩ := List.mem_map.mp h
  obtain ⟨f', hf', hsome⟩ := List.mem_filterMap.mp hp
  cases hfate : b.fate f' with
  | placed c' =>
      rw [hfate] at hsome
      obtain ⟨rfl, rfl⟩ := Prod.mk.inj (Option.some.inj hsome)
      exact ⟨f', hf', c', hfate, rfl⟩
  | otherDay => simp [hfate] at hsome
  | excluded => simp [hfate] at hsome
  | unclassified why => simp [hfate] at hsome

theorem entry_of_fate (minBytes : ℤ) {f : Event} {c : BucketCost} (hf : f ∈ fires)
    (h : b.fate f = .placed c) :
    b.entry minBytes (b.placed fires) (f, c) ∈ b.entries minBytes fires :=
  List.mem_map.mpr ⟨(f, c), List.mem_filterMap.mpr ⟨f, hf, by rw [h]⟩, rfl⟩

/-- A fire that counts is placed if its second hits a bucket with a cost. -/
theorem fate_placed_iff {f : Event} (hf : Counts b.date b.args f) (c : BucketCost) :
    b.fate f = .placed c ↔ b.hit (b.second f) = some c ∧ (bytesOf b.costs c.name).isSome := by
  unfold Buckets.fate
  rw [if_neg (not_not.mpr hf.1), if_neg hf.2]
  cases hhit : b.hit (b.second f) with
  | none => simp
  | some c' =>
      dsimp only
      by_cases hnone : (bytesOf b.costs c'.name).isNone
      · rw [if_pos hnone]
        simp only [reduceCtorEq, Option.some.injEq, false_iff, not_and]
        rintro rfl
        simpa using hnone
      · rw [if_neg hnone]
        simp only [Fate.placed.injEq, Option.some.injEq, iff_self_and]
        rintro rfl
        simpa [Option.isSome_iff_ne_none] using hnone

theorem fate_congr {f g : Event} (hat : f.atUtc = g.atUtc) (hlabel : f.label = g.label) :
    b.fate f = b.fate g := by
  unfold Buckets.fate Buckets.second
  rw [hat, hlabel]

/-- What a ledger that is made is made of. -/
theorem costLedger_ok {l : Ledger} (h : costLedger fires table date args = .ok l) :
    ∃ minBytes costs, bucketCosts table args.channel args.intervalS args.stitch = .ok costs ∧
      l = (Buckets.mk table date args costs).ledger minBytes fires := by
  unfold costLedger at h
  split at h
  · simp at h
  · cases hthreshold : args.threshold with
    | error e => simp [hthreshold, Except.bind] at h
    | ok minBytes =>
        rw [hthreshold, Except.bind] at h
        split at h
        · simp at h
        · cases hcosts : bucketCosts table args.channel args.intervalS args.stitch with
          | error e => simp [hcosts, Except.map] at h
          | ok costs =>
              rw [hcosts] at h
              exact ⟨minBytes, costs, rfl, (Except.ok.inj h).symm⟩

end

end NucLlm.Nuc.Perturbation
