import NucLlm.Lib.Runs
import NucLlm.Nuc.CostLedger
import Mathlib.Algebra.BigOperators.Group.Finset.Basic

/-!
# The bucket map

Every second of the pooled days is put through the ledger once, and the answers are
kept: by the second, and as runs of one bucket for the spans.
-/

namespace NucLlm.Nuc.Perturbation

open NucLlm.Runs

/-- A bucket of a pooled day. -/
abbrev Key := Date × Clock

/-- The arguments of `BucketMap` beside the pooled days. -/
structure MapArgs where
  channel : Channel
  minBytes : Option ℤ
  intervalS : ℤ
  excludeUnits : List String

def MapArgs.ledgerArgs (args : MapArgs) (excludeUnits : List String) : LedgerArgs :=
  ⟨args.intervalS, args.minBytes, excludeUnits, ledgerBoundarySlackS, args.channel, none⟩

def clockOf (s : ℕ) : Clock := ⟨s / 3600, s % 3600 / 60, s % 60⟩

/-- The fire of a second of the day. -/
def probe (date : Date) (s : ℕ) (h : s < 86400) : Event :=
  { atUtc := ⟨date, clockOf s, by unfold clockOf; dsimp only; omega⟩
    label := "__bucketmap_probe__"
    source := "journal" }

def probes (date : Date) : List Event :=
  (List.range 86400).pmap (probe date) fun _ hs ↦ List.mem_range.mp hs

/-- `_hms_to_s` of the clock of an instant. -/
def Instant.secondOfDay (i : Instant) : ℕ := i.clock.h * 3600 + i.clock.m * 60 + i.clock.s

/-- The dictionaries that are filled from the entries, the later keys first. -/
structure Filling where
  map : List ((ℕ × ℕ) × Option Key)
  mapAny : List ((ℕ × ℕ) × Key)
  allBucketBytes : List (Key × ℤ)
  costly : Finset Key
  bucketBytes : List (Key × ℤ)
  minBytes : Option ℤ

def Filling.add (di : ℕ) (date : Date) (st : Filling) (e : LedgerEntry) : Filling :=
  let sod := e.atUtc.secondOfDay
  let key := (date, e.bucketEnd)
  { st with
    map := ((di, sod), if e.costly then some key else none) :: st.map
    mapAny := ((di, sod), key) :: st.mapAny
    allBucketBytes := (key, e.bucketBytes) :: st.allBucketBytes
    costly := if e.costly then insert key st.costly else st.costly
    bucketBytes := if e.costly then (key, e.bucketBytes) :: st.bucketBytes else st.bucketBytes }

/-- The loop over the pooled days, with the number of the next one. -/
def fill (args : MapArgs) :
    ℕ → List (SarTable × Date) → Filling → Except PerturbationError Filling
  | _, [], st => .ok st
  | di, (t, date) :: days, st =>
    (costLedger (probes date) t date (args.ledgerArgs [])).bind fun led ↦
      fill args (di + 1) days
        (led.entries.foldl (Filling.add di date) { st with minBytes := some led.minBytes })

/-- The buckets with a cost, over the days. -/
def countBuckets (args : MapArgs) : List (SarTable × Date) → Except PerturbationError ℕ
  | [] => .ok 0
  | (t, date) :: days =>
    (costLedger [] t date (args.ledgerArgs [])).bind fun led ↦
      (countBuckets args days).map fun n ↦ led.nBuckets + n

structure BucketMap extends Filling where
  tables : List (SarTable × Date)
  args : MapArgs
  nBuckets : ℕ
  runs : List (ℕ × Option Key)

namespace BucketMap

def spanOf (tables : List (SarTable × Date)) : ℕ := tables.length * 86400

/-- `_map_any.get`, at a second of the window. -/
def anyAt (mapAny : List ((ℕ × ℕ) × Key)) (s : ℕ) : Option Key :=
  mapAny.lookup (s / 86400, s % 86400)

/-- `BucketMap.__init__`, from the pooled days. -/
def build (tables : List (SarTable × Date)) (args : MapArgs) :
    Except PerturbationError BucketMap :=
  if tables = [] then .error .noPoolableDay
  else
    (fill args 0 tables ⟨[], [], [], ∅, [], none⟩).bind fun st ↦
      (countBuckets args tables).map fun nBuckets ↦
        { st with tables, args, nBuckets, runs := Runs.runs (anyAt st.mapAny) (spanOf tables) }

variable (m : BucketMap)

def days : List Date := m.tables.map Prod.snd

def spanS : ℕ := spanOf m.tables

/-- `seconds`: the fires of the window, with the exclusions of the ledger. -/
def seconds (fires : List Event) : List ℤ :=
  fires.filterMap fun ev ↦
    if ev.label ∈ m.args.excludeUnits then none
    else if ev.atUtc.date ∉ m.days then none
    else some (m.days.idxOf ev.atUtc.date * 86400 + ev.atUtc.secondOfDay)

/-- The second of the window that a shifted second falls on. -/
def wrap (s shiftS : ℤ) : ℕ := ((s + shiftS) % m.spanS).toNat

def mapAt (s : ℕ) : Option Key := (m.map.lookup (s / 86400, s % 86400)).bind id

def cover (seconds : List ℤ) (shiftS : ℤ) : Finset Key :=
  (seconds.filterMap fun s ↦ m.mapAt (m.wrap s shiftS)).toFinset

/-- `span_buckets`, by the runs. -/
def spanBuckets (a b shiftS : ℤ) : Finset Key :=
  let lo := min a b
  let hi := max a b
  if m.spanS ≤ hi - lo + 1 then (m.runs.filterMap Prod.snd).toFinset
  else
    let first := m.wrap lo shiftS
    let last := first + (hi - lo).toNat
    if last < m.spanS then valuesIn m.runs first last
    else valuesIn m.runs first (m.spanS - 1) ∪ valuesIn m.runs 0 (last - m.spanS)

def bytesAt (key : Key) : ℤ := (m.allBucketBytes.lookup key).getD 0

/-- `span_bytes`. -/
def spanBytes (a b shiftS : ℤ) : ℤ := ∑ key ∈ m.spanBuckets a b shiftS, m.bytesAt key

/-- The scan of `verify_runs`: the bucket of each second of the span. -/
def scan (a b shiftS : ℤ) : Finset Key :=
  ((List.range ((max a b - min a b).toNat + 1)).filterMap fun i : ℕ ↦
    anyAt m.mapAny (m.wrap (min a b + i) shiftS)).toFinset

end BucketMap

/-- The costly buckets that the ledgers of the days name. -/
def namedBuckets (fires : List Event) (tables : List (SarTable × Date)) (args : MapArgs) :
    Except PerturbationError (Finset Key) :=
  match tables with
  | [] => .ok ∅
  | (t, date) :: days =>
    (costLedger fires t date (args.ledgerArgs args.excludeUnits)).bind fun led ↦
      (namedBuckets fires days args).map fun named ↦
        ((led.entries.filter LedgerEntry.costly).map fun e ↦ (date, e.bucketEnd)).toFinset ∪ named

/-! ## What a second of the window lands in -/

/-- The threshold and the costs that a ledger of the table has, whatever the fires. -/
def prepared (t : SarTable) (args : LedgerArgs) : Except PerturbationError (ℤ × List BucketCost) :=
  if args.intervalS ≤ 0 then .error .intervalNotPositive
  else
    args.threshold.bind fun minBytes ↦
      if minBytes < 0 then .error .thresholdNegative
      else
        (bucketCosts t args.channel args.intervalS args.stitch).map fun costs ↦ (minBytes, costs)

theorem costLedger_prepared (fires : List Event) (t : SarTable) (date : Date) (args : LedgerArgs) :
    costLedger fires t date args = (prepared t args).map fun p ↦
      (Buckets.mk t date args p.2).ledger p.1 fires := by
  unfold costLedger prepared
  split
  · rfl
  · cases args.threshold with
    | error e => rfl
    | ok minBytes =>
        change (if minBytes < 0 then _ else _) = Except.map _ (if minBytes < 0 then _ else _)
        split
        · rfl
        · cases bucketCosts t args.channel args.intervalS args.stitch <;> rfl

theorem prepared_exclude (t : SarTable) (args : MapArgs) (units : List String) :
    prepared t (args.ledgerArgs units) = prepared t (args.ledgerArgs []) := rfl

/-- The bucket with a cost that a second falls in. -/
def landing (t : SarTable) (date : Date) (args : MapArgs) (costs : List BucketCost) (s : ℤ) :
    Option BucketCost :=
  ((Buckets.mk t date (args.ledgerArgs []) costs).hit (s + ledgerBoundarySlackS)).filter fun c ↦
    (bytesOf costs c.name).isSome

section

variable {t : SarTable} {date : Date} {args : MapArgs} {costs : List BucketCost} {minBytes : ℤ}
  {fires : List Event}

theorem secondOfDay_eq (i : Instant) : (i.secondOfDay : ℤ) = i.clock.hmsToS := by
  simp [Instant.secondOfDay, Clock.hmsToS]

theorem fate_landing {units : List String} {f : Event} (hdate : f.atUtc.date = date)
    (hlabel : f.label ∉ units) (c : BucketCost) :
    (Buckets.mk t date (args.ledgerArgs units) costs).fate f = .placed c ↔
      landing t date args costs f.atUtc.secondOfDay = some c := by
  rw [fate_placed_iff ⟨hdate, hlabel⟩, landing, Option.filter_eq_some_iff, secondOfDay_eq]
  rfl

/-- The entries of a ledger, by the seconds of its fires. -/
theorem mem_entries_landing {units : List String} {e : LedgerEntry} :
    e ∈ (Buckets.mk t date (args.ledgerArgs units) costs).entries minBytes fires ↔
      ∃ f ∈ fires, f.atUtc.date = date ∧ f.label ∉ units ∧ ∃ c,
        landing t date args costs f.atUtc.secondOfDay = some c ∧
          e = (Buckets.mk t date (args.ledgerArgs units) costs).entry minBytes
            ((Buckets.mk t date (args.ledgerArgs units) costs).placed fires) (f, c) := by
  constructor
  · intro he
    obtain ⟨f, hf, c, hfate, rfl⟩ := mem_entries he
    obtain ⟨hdate, hlabel⟩ := counts_of_placed hfate
    exact ⟨f, hf, hdate, hlabel, c, (fate_landing hdate hlabel c).mp hfate, rfl⟩
  · rintro ⟨f, hf, hdate, hlabel, c, hc, rfl⟩
    exact entry_of_fate minBytes hf ((fate_landing hdate hlabel c).mpr hc)

end

/-- What a second of a day of the window shows: its bucket, the cost of the bucket, and whether it
is costly. -/
structure Landed where
  key : Key
  bytes : ℤ
  costly : Bool

def landed (date : Date) (minBytes : ℤ) (costs : List BucketCost) (c : BucketCost) : Landed :=
  let bytes := (bytesOf costs c.name).getD 0
  ⟨(date, c.name), bytes, decide (minBytes ≤ bytes)⟩

/-- What a second of a day shows. -/
def landOn (args : MapArgs) (t : SarTable) (date : Date) (s : ℕ) : Option Landed :=
  match prepared t (args.ledgerArgs []) with
  | .error _ => none
  | .ok (minBytes, costs) => (landing t date args costs s).map (landed date minBytes costs)

theorem mem_probes {date : Date} {f : Event} :
    f ∈ probes date ↔ ∃ s, ∃ h : s < 86400, f = probe date s h := by
  unfold probes
  rw [List.mem_pmap]
  constructor
  · rintro ⟨s, hs, rfl⟩
    exact ⟨s, List.mem_range.mp hs, rfl⟩
  · rintro ⟨s, h, rfl⟩
    exact ⟨s, List.mem_range.mpr h, rfl⟩

theorem probe_secondOfDay {date : Date} {s : ℕ} (h : s < 86400) :
    (probe date s h).atUtc.secondOfDay = s := by
  unfold probe Instant.secondOfDay clockOf
  dsimp only
  omega

/-- A ledger shows of a fire what its second lands in. -/
theorem exists_entry_iff {t : SarTable} {date : Date} {args : MapArgs} {units : List String}
    {fires : List Event} {led : Ledger}
    (h : costLedger fires t date (args.ledgerArgs units) = .ok led)
    (P : ℕ → Key → ℤ → Bool → Prop) :
    (∃ e ∈ led.entries, P e.atUtc.secondOfDay (date, e.bucketEnd) e.bucketBytes e.costly) ↔
      ∃ f ∈ fires, f.atUtc.date = date ∧ f.label ∉ units ∧ ∃ w,
        landOn args t date f.atUtc.secondOfDay = some w ∧
          P f.atUtc.secondOfDay w.key w.bytes w.costly := by
  rw [costLedger_prepared, prepared_exclude] at h
  unfold landOn
  cases hp : prepared t (args.ledgerArgs []) with
  | error e => simp [hp, Except.map] at h
  | ok p =>
      obtain ⟨minBytes, costs⟩ := p
      rw [hp] at h
      obtain rfl := Except.ok.inj h
      constructor
      · rintro ⟨e, he, hP⟩
        obtain ⟨f, hf, hdate, hlabel, c, hc, rfl⟩ := mem_entries_landing.mp he
        exact ⟨f, hf, hdate, hlabel, landed date minBytes costs c, by simp [hc], hP⟩
      · rintro ⟨f, hf, hdate, hlabel, w, hw, hP⟩
        obtain ⟨c, hc, rfl⟩ := Option.map_eq_some_iff.mp hw
        exact ⟨_, mem_entries_landing.mpr ⟨f, hf, hdate, hlabel, c, hc, rfl⟩, hP⟩

theorem exists_probe_iff {t : SarTable} {date : Date} {args : MapArgs} {led : Ledger}
    (h : costLedger (probes date) t date (args.ledgerArgs []) = .ok led)
    (P : ℕ → Key → ℤ → Bool → Prop) :
    (∃ e ∈ led.entries, P e.atUtc.secondOfDay (date, e.bucketEnd) e.bucketBytes e.costly) ↔
      ∃ s < 86400, ∃ w, landOn args t date s = some w ∧ P s w.key w.bytes w.costly := by
  rw [exists_entry_iff h]
  constructor
  · rintro ⟨f, hf, -, -, w, hw, hP⟩
    obtain ⟨s, hs, rfl⟩ := mem_probes.mp hf
    rw [probe_secondOfDay] at hw hP
    exact ⟨s, hs, w, hw, hP⟩
  · rintro ⟨s, hs, w, hw, hP⟩
    refine ⟨probe date s hs, mem_probes.mpr ⟨s, hs, rfl⟩, rfl, List.not_mem_nil, w, ?_, ?_⟩
    · rwa [probe_secondOfDay]
    · rwa [probe_secondOfDay]

end NucLlm.Nuc.Perturbation
