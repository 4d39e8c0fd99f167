import NucLlm.Nuc.BucketMap

/-!
# The bucket map answers as the ledger

The dictionaries of the map are read back as what each second lands in.  The cover of a
population is then the costly buckets of the ledgers, and a span through the runs is the
scan of its seconds.
-/

namespace NucLlm.Nuc.Perturbation

open NucLlm.Runs

/-! ## The dictionaries -/

section

variable {α β : Type} [BEq α] [LawfulBEq α] {l : List (α × β)} {k : α} {v : β}

theorem lookup_of_unique (hmem : (k, v) ∈ l) (h : ∀ v', (k, v') ∈ l → v' = v) :
    l.lookup k = some v := by
  cases hv : l.lookup k with
  | none => exact absurd (List.lookup_eq_none_iff.mp hv _ hmem) (by simp)
  | some v' =>
      obtain ⟨before, after, heq, -⟩ := List.lookup_eq_some_iff.mp hv
      rw [h v' (heq ▸ by simp)]

theorem lookup_none (h : ∀ v', (k, v') ∉ l) : l.lookup k = none := by
  cases hv : l.lookup k with
  | none => rfl
  | some v' =>
      obtain ⟨before, after, heq, -⟩ := List.lookup_eq_some_iff.mp hv
      exact absurd (heq ▸ by simp) (h v')

end

/-- A dictionary of the filling, with the item that an entry adds to it. -/
structure Dictionary (β : Type) where
  items : Filling → List β
  item : ℕ → ℕ → Landed → β
  add : ∀ di date st (e : LedgerEntry), items (st.add di date e) =
    item di e.atUtc.secondOfDay ⟨(date, e.bucketEnd), e.bucketBytes, e.costly⟩ :: items st
  keep : ∀ st minBytes, items { st with minBytes } = items st

def mapDictionary : Dictionary ((ℕ × ℕ) × Option Key) where
  items st := st.map
  item di s w := ((di, s), if w.costly then some w.key else none)
  add _ _ _ _ := rfl
  keep _ _ := rfl

def anyDictionary : Dictionary ((ℕ × ℕ) × Key) where
  items st := st.mapAny
  item di s w := ((di, s), w.key)
  add _ _ _ _ := rfl
  keep _ _ := rfl

def bytesDictionary : Dictionary (Key × ℤ) where
  items st := st.allBucketBytes
  item _ _ w := (w.key, w.bytes)
  add _ _ _ _ := rfl
  keep _ _ := rfl

section

variable {β : Type} {args : MapArgs}

theorem mem_foldl_add (dict : Dictionary β) {di : ℕ} {date : Date} {es : List LedgerEntry}
    {st : Filling} (x : β) :
    x ∈ dict.items (es.foldl (Filling.add di date) st) ↔ x ∈ dict.items st ∨
      ∃ e ∈ es,
        x = dict.item di e.atUtc.secondOfDay ⟨(date, e.bucketEnd), e.bucketBytes, e.costly⟩ := by
  induction es generalizing st with
  | nil => simp
  | cons e es ih =>
      rw [List.foldl_cons, ih, dict.add, List.mem_cons, List.exists_mem_cons_iff, or_assoc,
        or_left_comm]

/-- After the loop, a dictionary has the items of the seconds of the days. -/
theorem mem_fill (dict : Dictionary β) {di : ℕ} {tables : List (SarTable × Date)}
    {st st' : Filling} (h : fill args di tables st = .ok st') (x : β) :
    x ∈ dict.items st' ↔ x ∈ dict.items st ∨ ∃ j day, tables[j]? = some day ∧ ∃ s < 86400,
      ∃ w, landOn args day.1 day.2 s = some w ∧ x = dict.item (di + j) s w := by
  induction tables generalizing di st with
  | nil =>
      obtain rfl := Except.ok.inj h
      simp
  | cons day tables ih =>
      obtain ⟨t, date⟩ := day
      rw [fill] at h
      cases hled : costLedger (probes date) t date (args.ledgerArgs []) with
      | error e => simp [hled, Except.bind] at h
      | ok led =>
          rw [hled, Except.bind] at h
          rw [ih h, mem_foldl_add, dict.keep,
            exists_probe_iff hled fun s key bytes costly ↦ x = dict.item di s ⟨key, bytes, costly⟩,
            or_assoc]
          refine or_congr_right ?_
          constructor
          · rintro (⟨s, hs, w, hw, rfl⟩ | ⟨j, day, hday, s, hs, w, hw, rfl⟩)
            · exact ⟨0, (t, date), rfl, s, hs, w, hw, rfl⟩
            · refine ⟨j + 1, day, hday, s, hs, w, hw, ?_⟩
              rw [Nat.add_assoc, Nat.add_comm 1 j]
          · rintro ⟨j, day, hday, s, hs, w, hw, rfl⟩
            cases j with
            | zero =>
                obtain rfl := Option.some.inj hday
                exact .inl ⟨s, hs, w, hw, rfl⟩
            | succ j =>
                refine .inr ⟨j, day, hday, s, hs, w, hw, ?_⟩
                rw [Nat.add_assoc, Nat.add_comm 1 j]

end

namespace BucketMap

variable {tables : List (SarTable × Date)} {args : MapArgs} {m : BucketMap}

/-- What a second of the window lands in. -/
def landAt (tables : List (SarTable × Date)) (args : MapArgs) (s : ℕ) : Option Landed :=
  tables[s / 86400]?.bind fun day ↦ landOn args day.1 day.2 (s % 86400)

/-- A map that was built of the days. -/
structure Built (tables : List (SarTable × Date)) (args : MapArgs) (m : BucketMap) : Prop where
  ofTables : m.tables = tables
  ofArgs : m.args = args
  ofRuns : m.runs = Runs.runs (anyAt m.mapAny) (spanOf tables)
  nonempty : tables ≠ []
  filled : fill args 0 tables ⟨[], [], [], ∅, [], none⟩ = .ok m.toFilling

theorem built_of_build (h : build tables args = .ok m) : Built tables args m := by
  unfold build at h
  split at h
  · simp at h
  · rename_i hne
    cases hfill : fill args 0 tables ⟨[], [], [], ∅, [], none⟩ with
    | error e => simp [hfill, Except.bind] at h
    | ok st =>
        rw [hfill, Except.bind] at h
        cases hcount : countBuckets args tables with
        | error e => simp [hcount, Except.map] at h
        | ok n =>
            rw [hcount] at h
            obtain rfl := Except.ok.inj h
            exact ⟨rfl, rfl, rfl, hne, hfill⟩

theorem mem_items {β : Type} (dict : Dictionary β)
    (hempty : dict.items ⟨[], [], [], ∅, [], none⟩ = [])
    (hm : Built tables args m) (x : β) : x ∈ dict.items m.toFilling ↔
      ∃ j day, tables[j]? = some day ∧ ∃ s < 86400,
        ∃ w, landOn args day.1 day.2 s = some w ∧ x = dict.item j s w := by
  rw [mem_fill dict hm.filled, hempty]
  simp only [List.not_mem_nil, false_or, Nat.zero_add]

theorem div_mod_second (j : ℕ) {s : ℕ} (hs : s < 86400) :
    (j * 86400 + s) / 86400 = j ∧ (j * 86400 + s) % 86400 = s := by
  omega

theorem secondOfDay_lt (i : Instant) : i.secondOfDay < 86400 := by
  have hvalid := i.ofDay
  unfold Instant.secondOfDay
  omega

theorem wrap_of_lt {s : ℕ} (h : s < m.spanS) : m.wrap s 0 = s := by
  unfold wrap
  rw [add_zero, Int.emod_eq_of_lt (Int.natCast_nonneg s) (by exact_mod_cast h), Int.toNat_natCast]

/-- A dictionary that is keyed by the seconds has what each second lands in. -/
theorem lookup_window {β : Type} (dict : Dictionary ((ℕ × ℕ) × β)) (value : Landed → β)
    (hempty : dict.items ⟨[], [], [], ∅, [], none⟩ = [])
    (hitem : ∀ di s w, dict.item di s w = ((di, s), value w)) (hm : Built tables args m) (s : ℕ) :
    (dict.items m.toFilling).lookup (s / 86400, s % 86400) =
      (landAt tables args s).map value := by
  have hitems := mem_items dict hempty hm
  unfold landAt
  cases hland : (tables[s / 86400]?.bind fun day ↦ landOn args day.1 day.2 (s % 86400)) with
  | none =>
      refine lookup_none fun v hv ↦ ?_
      obtain ⟨j, day, hday, s', -, w, hw, heq⟩ := (hitems _).mp hv
      rw [hitem] at heq
      obtain ⟨hkey, -⟩ := Prod.mk.inj heq
      obtain ⟨rfl, rfl⟩ := Prod.mk.inj hkey
      rw [hday, Option.bind_some, hw] at hland
      simp at hland
  | some w =>
      obtain ⟨day, hday, hw⟩ := Option.bind_eq_some_iff.mp hland
      have hmod : s % 86400 < 86400 := Nat.mod_lt _ (by decide)
      refine lookup_of_unique ((hitems _).mpr ⟨_, day, hday, _, hmod, w, hw, ?_⟩) fun v hv ↦ ?_
      · exact (hitem _ _ _).symm
      · obtain ⟨j, day', hday', s', -, w', hw', heq⟩ := (hitems _).mp hv
        rw [hitem] at heq
        obtain ⟨hkey, rfl⟩ := Prod.mk.inj heq
        obtain ⟨rfl, rfl⟩ := Prod.mk.inj hkey
        rw [hday, Option.some.injEq] at hday'
        rw [hday', hw', Option.some.injEq] at hw
        rw [hw]

theorem anyAt_eq (hm : Built tables args m) (s : ℕ) :
    anyAt m.mapAny s = (landAt tables args s).map Landed.key :=
  lookup_window anyDictionary _ rfl (fun _ _ _ ↦ rfl) hm s

theorem mapAt_eq (hm : Built tables args m) (s : ℕ) :
    m.mapAt s = (landAt tables args s).bind fun w ↦ if w.costly then some w.key else none := by
  unfold mapAt
  have hlookup := lookup_window mapDictionary (fun w ↦ if w.costly then some w.key else none) rfl
    (fun _ _ _ ↦ rfl) hm s
  change m.map.lookup _ = _ at hlookup
  rw [hlookup]
  cases landAt tables args s <;> rfl

/-- What lands in one bucket shows its cost. -/
theorem landOn_bytes {t : SarTable} {date : Date} {s : ℕ} {w : Landed}
    (h : landOn args t date s = some w) : ∃ costs,
      bucketCosts t args.channel args.intervalS none = .ok costs ∧ w.key.1 = date ∧
        bytesOf costs w.key.2 = some w.bytes := by
  unfold landOn at h
  cases hp : prepared t (args.ledgerArgs []) with
  | error e => simp [hp] at h
  | ok p =>
      obtain ⟨minBytes, costs⟩ := p
      rw [hp] at h
      obtain ⟨c, hc, rfl⟩ := Option.map_eq_some_iff.mp h
      refine ⟨costs, ?_, rfl, ?_⟩
      · unfold prepared at hp
        split at hp
        · simp at hp
        · cases hthreshold : (args.ledgerArgs []).threshold with
          | error e => simp [hthreshold, Except.bind] at hp
          | ok minBytes' =>
              rw [hthreshold, Except.bind] at hp
              split at hp
              · simp at hp
              · change Except.map _ (bucketCosts t args.channel args.intervalS none) = _ at hp
                cases hcosts : bucketCosts t args.channel args.intervalS none with
                | error e => simp [hcosts, Except.map] at hp
                | ok costs' =>
                    rw [hcosts] at hp
                    rw [(Prod.mk.inj (Except.ok.inj hp)).2]
      · have hsome := (Option.filter_eq_some_iff.mp hc).2
        obtain ⟨bytes, hbytes⟩ := Option.isSome_iff_exists.mp hsome
        simp [landed, hbytes]

/-- The days have distinct dates, and a date tells its day. -/
theorem idxOf_day (hnodup : (tables.map Prod.snd).Nodup) {j : ℕ} {day : SarTable × Date}
    (hday : tables[j]? = some day) : (tables.map Prod.snd).idxOf day.2 = j := by
  obtain ⟨hj, rfl⟩ := List.getElem?_eq_some_iff.mp hday
  have hget := hnodup.idxOf_getElem j (by simpa using hj)
  rwa [List.getElem_map] at hget

/-- The bytes of a bucket that is landed in are its cost. -/
theorem bytesAt_eq (hm : Built tables args m) (hnodup : (tables.map Prod.snd).Nodup) {s : ℕ}
    {w : Landed} (h : landAt tables args s = some w) : ∃ t costs, (t, w.key.1) ∈ tables ∧
      bucketCosts t args.channel args.intervalS none = .ok costs ∧
        bytesOf costs w.key.2 = some (m.bytesAt w.key) := by
  obtain ⟨day, hday, hw⟩ := Option.bind_eq_some_iff.mp h
  have hmod : s % 86400 < 86400 := Nat.mod_lt _ (by decide)
  have hitems := mem_items bytesDictionary rfl hm
  obtain ⟨costs, hcosts, hdate, hbytes⟩ := landOn_bytes hw
  have hlookup : m.allBucketBytes.lookup w.key = some w.bytes := by
    refine lookup_of_unique ((hitems _).mpr ⟨_, day, hday, _, hmod, w, hw, rfl⟩) fun v hv ↦ ?_
    obtain ⟨j', day', hday', s', -, w', hw', heq⟩ := (hitems _).mp hv
    obtain ⟨hkey, rfl⟩ := Prod.mk.inj heq
    obtain ⟨costs', hcosts', hdate', hbytes'⟩ := landOn_bytes hw'
    have hsame : s / 86400 = j' := by
      rw [← idxOf_day hnodup hday, ← hdate, hkey, hdate', idxOf_day hnodup hday']
    rw [hsame, hday', Option.some.injEq] at hday
    rw [hday, hcosts, Except.ok.injEq] at hcosts'
    rw [← hkey, ← hcosts', hbytes, Option.some.injEq] at hbytes'
    exact hbytes'.symm
  refine ⟨day.1, costs, ?_, hcosts, ?_⟩
  · rw [hdate]
    exact List.mem_of_getElem? hday
  · rw [hbytes, bytesAt, hlookup]
    rfl

theorem spanOf_pos (hne : tables ≠ []) : 0 < spanOf tables := by
  have hpos := List.length_pos_iff.mpr hne
  unfold spanOf
  omega

/-! ## The cover of a population -/

theorem mem_namedBuckets {fires : List Event} {named : Finset Key}
    (h : namedBuckets fires tables args = .ok named) (k : Key) :
    k ∈ named ↔ ∃ day ∈ tables, ∃ f ∈ fires, f.atUtc.date = day.2 ∧ f.label ∉ args.excludeUnits ∧
      ∃ w, landOn args day.1 day.2 f.atUtc.secondOfDay = some w ∧ w.costly ∧ k = w.key := by
  induction tables generalizing named with
  | nil =>
      obtain rfl := Except.ok.inj h
      simp
  | cons day tables ih =>
      obtain ⟨t, date⟩ := day
      rw [namedBuckets] at h
      cases hled : costLedger fires t date (args.ledgerArgs args.excludeUnits) with
      | error e => simp [hled, Except.bind] at h
      | ok led =>
          rw [hled, Except.bind] at h
          cases hrest : namedBuckets fires tables args with
          | error e => simp [hrest, Except.map] at h
          | ok rest =>
              rw [hrest] at h
              obtain rfl := Except.ok.inj h
              have hentries := exists_entry_iff hled fun _ key _ costly ↦ costly ∧ k = key
              rw [Finset.mem_union, ih hrest, List.exists_mem_cons_iff, ← hentries,
                List.mem_toFinset]
              refine or_congr_left ?_
              simp only [List.mem_map, List.mem_filter]
              constructor
              · rintro ⟨e, ⟨he, hcostly⟩, rfl⟩
                exact ⟨e, he, hcostly, rfl⟩
              · rintro ⟨e, he, hcostly, rfl⟩
                exact ⟨e, ⟨he, hcostly⟩, rfl⟩

/-- A ledger is made of other fires as well. -/
theorem namedBuckets_ok (hm : Built tables args m) (fires : List Event) :
    ∃ named, namedBuckets fires tables args = .ok named := by
  have hfilled := hm.filled
  clear hm
  generalize (⟨[], [], [], ∅, [], none⟩ : Filling) = st at hfilled
  generalize 0 = di at hfilled
  induction tables generalizing di st with
  | nil => exact ⟨∅, rfl⟩
  | cons day tables ih =>
      obtain ⟨t, date⟩ := day
      rw [fill] at hfilled
      cases hled : costLedger (probes date) t date (args.ledgerArgs []) with
      | error e => simp [hled, Except.bind] at hfilled
      | ok led =>
          rw [hled, Except.bind] at hfilled
          obtain ⟨rest, hrest⟩ := ih _ _ hfilled
          rw [costLedger_prepared] at hled
          rw [namedBuckets, costLedger_prepared, prepared_exclude, hrest]
          cases hp : prepared t (args.ledgerArgs []) with
          | error e => simp [hp, Except.map] at hled
          | ok p => exact ⟨_, rfl⟩

theorem mem_cover (hm : Built tables args m) (hnodup : (tables.map Prod.snd).Nodup)
    (fires : List Event) (k : Key) :
    k ∈ m.cover (m.seconds fires) 0 ↔ ∃ day ∈ tables, ∃ f ∈ fires, f.atUtc.date = day.2 ∧
      f.label ∉ args.excludeUnits ∧
      ∃ w, landOn args day.1 day.2 f.atUtc.secondOfDay = some w ∧ w.costly ∧ k = w.key := by
  unfold cover seconds
  rw [List.mem_toFinset, List.filterMap_filterMap, List.mem_filterMap, hm.ofArgs]
  have hdays : m.days = tables.map Prod.snd := by rw [days, hm.ofTables]
  rw [hdays]
  have hsecond (j : ℕ) (f : Event) (day : SarTable × Date) (hday : tables[j]? = some day) :
      m.mapAt (m.wrap (j * 86400 + f.atUtc.secondOfDay) 0) =
        (landOn args day.1 day.2 f.atUtc.secondOfDay).bind fun w ↦
          if w.costly then some w.key else none := by
    have hlt := secondOfDay_lt f.atUtc
    have hwrap : m.wrap (j * 86400 + f.atUtc.secondOfDay) 0 =
        j * 86400 + f.atUtc.secondOfDay := by
      obtain ⟨hj, -⟩ := List.getElem?_eq_some_iff.mp hday
      have hcast : (j * 86400 + f.atUtc.secondOfDay : ℤ) =
          ((j * 86400 + f.atUtc.secondOfDay : ℕ) : ℤ) := by simp
      rw [hcast]
      refine wrap_of_lt ?_
      unfold spanS spanOf
      rw [hm.ofTables]
      omega
    obtain ⟨hdiv, hmod⟩ := div_mod_second j hlt
    rw [hwrap, mapAt_eq hm, landAt, hdiv, hmod, hday, Option.bind_some]
  constructor
  · rintro ⟨f, hf, hk⟩
    split at hk
    · simp at hk
    · rename_i hlabel
      split at hk
      · simp at hk
      · rename_i hdate
        obtain ⟨day, hmem, hsnd⟩ := List.mem_map.mp (not_not.mp hdate)
        obtain ⟨j, hj, hget⟩ := List.getElem_of_mem hmem
        have hday : tables[j]? = some day := hget ▸ List.getElem?_eq_getElem hj
        rw [Option.bind_some, ← hsnd, idxOf_day hnodup hday, hsecond j f day hday] at hk
        obtain ⟨w, hw, hcostly⟩ := Option.bind_eq_some_iff.mp hk
        split at hcostly
        · rename_i hcost
          exact ⟨day, hmem, f, hf, hsnd.symm, hlabel, w, hw, hcost, (Option.some.inj hcostly).symm⟩
        · simp at hcostly
  · rintro ⟨day, hmem, f, hf, hdate, hlabel, w, hw, hcost, rfl⟩
    obtain ⟨j, hj, hget⟩ := List.getElem_of_mem hmem
    have hday : tables[j]? = some day := hget ▸ List.getElem?_eq_getElem hj
    refine ⟨f, hf, ?_⟩
    rw [if_neg hlabel, if_neg (not_not.mpr (hdate ▸ List.mem_map_of_mem hmem)), Option.bind_some,
      hdate, idxOf_day hnodup hday, hsecond j f day hday, hw, Option.bind_some, if_pos hcost]

/-! ## The spans -/

/-- A shifted second of a span, counted from its first one. -/
theorem wrap_add (hpos : 0 < m.spanS) (a shiftS : ℤ) (i : ℕ) :
    m.wrap (a + i) shiftS = (m.wrap a shiftS + i) % m.spanS := by
  unfold wrap
  have hspan : (0 : ℤ) < m.spanS := by exact_mod_cast hpos
  have hnonneg := Int.emod_nonneg (a + shiftS) (ne_of_gt hspan)
  have hnonneg' := Int.emod_nonneg (a + i + shiftS) (ne_of_gt hspan)
  apply Int.natCast_inj.mp
  rw [Int.toNat_of_nonneg hnonneg', Int.natCast_mod, Int.natCast_add, Int.toNat_of_nonneg hnonneg,
    Int.emod_add_emod]
  congr 1
  omega

theorem wrap_lt (hpos : 0 < m.spanS) (s shiftS : ℤ) : m.wrap s shiftS < m.spanS := by
  unfold wrap
  have hspan : (0 : ℤ) < m.spanS := by exact_mod_cast hpos
  have hlt := Int.emod_lt_of_pos (s + shiftS) hspan
  have hnonneg := Int.emod_nonneg (s + shiftS) (ne_of_gt hspan)
  omega

theorem mem_scan {a b shiftS : ℤ} {k : Key} : k ∈ m.scan a b shiftS ↔
    ∃ i : ℕ, i ≤ (max a b - min a b).toNat ∧
      anyAt m.mapAny (m.wrap (min a b + i) shiftS) = some k := by
  unfold scan
  rw [List.mem_toFinset, List.mem_filterMap]
  constructor
  · rintro ⟨i, hi, hk⟩
    exact ⟨i, Nat.le_of_lt_succ (List.mem_range.mp hi), hk⟩
  · rintro ⟨i, hi, hk⟩
    exact ⟨i, List.mem_range.mpr (Nat.lt_succ_of_le hi), hk⟩

/-- The runs of the spans give what the scan of the seconds gives. -/
theorem spanBuckets_eq_scan (hm : Built tables args m) (a b shiftS : ℤ) :
    m.spanBuckets a b shiftS = m.scan a b shiftS := by
  have hpos : 0 < m.spanS := by
    unfold spanS
    rw [hm.ofTables]
    exact spanOf_pos hm.nonempty
  have hruns : m.runs = Runs.runs (anyAt m.mapAny) m.spanS := by
    unfold spanS
    rw [hm.ofTables, hm.ofRuns]
  ext k
  rw [mem_scan]
  unfold spanBuckets
  dsimp only
  have hle : min a b ≤ max a b := min_le_max
  generalize min a b = lo at hle
  generalize max a b = hi at hle
  have hfirst := wrap_lt hpos lo shiftS
  simp only [wrap_add hpos, hruns]
  generalize m.wrap lo shiftS = first at hfirst
  obtain ⟨n, hn⟩ := Int.eq_ofNat_of_zero_le (sub_nonneg.mpr hle)
  rw [hn, Int.toNat_natCast]
  split
  · rename_i hlong
    have hlong' : m.spanS ≤ n + 1 := by exact_mod_cast hlong
    rw [mem_values]
    constructor
    · rintro ⟨s, hs, hk⟩
      refine ⟨(s + m.spanS - first) % m.spanS, ?_, ?_⟩
      · have hlt := Nat.mod_lt (s + m.spanS - first) hpos
        omega
      · rw [Nat.add_mod_mod, Nat.add_sub_of_le (by omega), Nat.add_mod_right, Nat.mod_eq_of_lt hs]
        exact hk
    · rintro ⟨i, -, hk⟩
      exact ⟨_, Nat.mod_lt _ hpos, hk⟩
  · rename_i hshort
    have hshort' : n + 1 < m.spanS := by
      have hlt := not_le.mp hshort
      exact_mod_cast hlt
    split
    · rename_i hin
      rw [mem_valuesIn (Nat.le_add_right first n) hin]
      constructor
      · rintro ⟨s, hs, hsn, hk⟩
        refine ⟨s - first, by omega, ?_⟩
        rw [Nat.add_sub_of_le hs, Nat.mod_eq_of_lt (by omega)]
        exact hk
      · rintro ⟨i, hi, hk⟩
        rw [Nat.mod_eq_of_lt (by omega)] at hk
        exact ⟨first + i, by omega, by omega, hk⟩
    · rename_i hout
      rw [Finset.mem_union, mem_valuesIn (by omega) (by omega),
        mem_valuesIn (Nat.zero_le _) (by omega)]
      constructor
      · rintro (⟨s, hs, hsn, hk⟩ | ⟨s, -, hsn, hk⟩)
        · refine ⟨s - first, by omega, ?_⟩
          rw [Nat.add_sub_of_le hs, Nat.mod_eq_of_lt (by omega)]
          exact hk
        · refine ⟨s + m.spanS - first, by omega, ?_⟩
          rw [Nat.add_sub_of_le (by omega), Nat.add_mod_right, Nat.mod_eq_of_lt (by omega)]
          exact hk
      · rintro ⟨i, hi, hk⟩
        by_cases hwrap : first + i < m.spanS
        · rw [Nat.mod_eq_of_lt hwrap] at hk
          exact .inl ⟨first + i, by omega, by omega, hk⟩
        · rw [Nat.mod_eq_sub_mod (by omega), Nat.mod_eq_of_lt (by omega)] at hk
          exact .inr ⟨first + i - m.spanS, Nat.zero_le _, by omega, hk⟩

/-- The map answers as the ledgers do, and a span is charged for each of its buckets once. -/
theorem bucketMap_sound (h : build tables args = .ok m) (hnodup : (tables.map Prod.snd).Nodup) :
    (∀ fires, namedBuckets fires tables args = .ok (m.cover (m.seconds fires) 0)) ∧
    ∀ a b shiftS, m.spanBuckets a b shiftS = m.scan a b shiftS ∧
      m.spanBytes a b shiftS = ∑ k ∈ m.scan a b shiftS, m.bytesAt k ∧
      ∀ k ∈ m.scan a b shiftS, ∃ t costs, (t, k.1) ∈ tables ∧
        bucketCosts t args.channel args.intervalS none = .ok costs ∧
          bytesOf costs k.2 = some (m.bytesAt k) := by
  have hm := built_of_build h
  refine ⟨fun fires ↦ ?_, fun a b shiftS ↦ ⟨spanBuckets_eq_scan hm a b shiftS, ?_, fun k hk ↦ ?_⟩⟩
  · obtain ⟨named, hnamed⟩ := namedBuckets_ok hm fires
    have hsame : named = m.cover (m.seconds fires) 0 := by
      ext k
      rw [mem_namedBuckets hnamed, mem_cover hm hnodup]
    rw [hnamed, hsame]
  · rw [spanBytes, spanBuckets_eq_scan hm]
  · obtain ⟨i, -, hany⟩ := mem_scan.mp hk
    rw [anyAt_eq hm] at hany
    obtain ⟨w, hw, rfl⟩ := Option.map_eq_some_iff.mp hany
    exact bytesAt_eq hm hnodup hw

/-- The map is built where every day has its costs. -/
theorem exists_build (hne : tables ≠ [])
    (hprepared : ∀ day ∈ tables, ∃ p, prepared day.1 (args.ledgerArgs []) = .ok p) :
    ∃ m, build tables args = .ok m := by
  have hfill : ∀ di st, ∃ st', fill args di tables st = .ok st' := by
    clear hne
    induction tables with
    | nil => exact fun di st ↦ ⟨st, rfl⟩
    | cons day tables ih =>
        obtain ⟨⟨p, hp⟩, hrest⟩ := List.forall_mem_cons.mp hprepared
        intro di st
        rw [fill, costLedger_prepared, hp]
        exact ih hrest _ _
  have hcount : ∃ n, countBuckets args tables = .ok n := by
    clear hne hfill
    induction tables with
    | nil => exact ⟨0, rfl⟩
    | cons day tables ih =>
        obtain ⟨⟨p, hp⟩, hrest⟩ := List.forall_mem_cons.mp hprepared
        obtain ⟨n, hn⟩ := ih hrest
        rw [countBuckets, costLedger_prepared, hp]
        exact ⟨_, congrArg (Except.map _) hn⟩
  obtain ⟨st, hst⟩ := hfill 0 ⟨[], [], [], ∅, [], none⟩
  obtain ⟨n, hn⟩ := hcount
  rw [build, if_neg hne, hst, hn]
  exact ⟨_, rfl⟩

/-- A day of samples of the pages swapped out. -/
def swapDay (date : Date) (rows : List (Clock × ℚ)) : SarTable × Date :=
  (⟨["pswpout/s"], rows.map fun r ↦ ⟨r.1, [("pswpout/s", r.2)], false⟩⟩, date)

/-- Two days that swap around the midnight between them. -/
def swapNight : List (SarTable × Date) :=
  [swapDay ⟨2026, 8, 31⟩ [(⟨23, 49, 59⟩, 0), (⟨23, 59, 59⟩, 30)],
    swapDay ⟨2026, 9, 1⟩ [(⟨0, 0, 1⟩, 0), (⟨0, 10, 1⟩, 41)]]

def swapMap : MapArgs :=
  ⟨⟨"swap", "pswpout/s", .rate, 4096, .both, fun _ ↦ rfl⟩, none, sarIntervalS,
    ["sysstat-collect"]⟩

theorem mem_spanBuckets_night {m : BucketMap} (h : build swapNight swapMap = .ok m) {a b : ℤ}
    (hscan : m.spanBuckets a b 0 = m.scan a b 0) {k : Key} (s : ℕ) (hs : s < 172800)
    (ha : min a b ≤ s) (hb : s ≤ max a b)
    (hk : (landAt swapNight swapMap s).map Landed.key = some k) : k ∈ m.spanBuckets a b 0 := by
  have hm := built_of_build h
  have hspan : m.spanS = 172800 := by
    unfold spanS
    rw [hm.ofTables]
    rfl
  rw [hscan, mem_scan]
  refine ⟨(s - min a b).toNat, by omega, ?_⟩
  rw [Int.toNat_of_nonneg (by omega), add_sub_cancel, wrap_of_lt (by omega), anyAt_eq hm]
  exact hk

/-- A span over midnight is charged for a bucket of each day. -/
theorem swapNight_sound : ∃ m, build swapNight swapMap = .ok m ∧
    (∀ fires, namedBuckets fires swapNight swapMap = .ok (m.cover (m.seconds fires) 0)) ∧
    (∀ a b shiftS, m.spanBuckets a b shiftS = m.scan a b shiftS) ∧
    (⟨2026, 8, 31⟩, ⟨23, 59, 59⟩) ∈ m.spanBuckets 86100 86500 0 ∧
    (⟨2026, 9, 1⟩, ⟨0, 10, 1⟩) ∈ m.spanBuckets 86100 86500 0 ∧
    m.spanBytes 86100 86500 0 = ∑ k ∈ m.scan 86100 86500 0, m.bytesAt k := by
  obtain ⟨m, hm⟩ : ∃ m, build swapNight swapMap = .ok m := by
    refine exists_build (List.cons_ne_nil _ _) (List.forall_mem_cons.mpr ⟨⟨_, rfl⟩, ?_⟩)
    exact List.forall_mem_singleton.mpr ⟨_, rfl⟩
  have hdates : (swapNight.map Prod.snd).Nodup := by decide
  have hsound := bucketMap_sound hm hdates
  have hscan := fun a b shiftS ↦ (hsound.2 a b shiftS).1
  refine ⟨m, hm, hsound.1, hscan, ?_, ?_, (hsound.2 86100 86500 0).2.1⟩
  · refine mem_spanBuckets_night hm (hscan _ _ _) 86100 (by decide) (by decide) (by decide) ?_
    decide +kernel
  · refine mem_spanBuckets_night hm (hscan _ _ _) 86500 (by decide) (by decide) (by decide) ?_
    decide +kernel

end BucketMap

end NucLlm.Nuc.Perturbation
