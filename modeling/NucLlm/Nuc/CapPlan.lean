import NucLlm.Lib.Outcomes
import NucLlm.Nuc.ExpertCache
import Mathlib.Tactic.Linarith
import Mathlib.Tactic.Positivity
import Mathlib.Tactic.FieldSimp

/-!
# What the planner answers

A cap that fits is one whose full caches stay within a budget.  The planner returns on a box with
more than two hundred experts to a layer and a limit that holds the weights; the distance to the
limit is reported up to the point where the limit holds every expert.
-/

namespace NucLlm.Nuc

open Outcomes

namespace SlotGeometry

variable {geom : SlotGeometry} {budget baseline margin cap t : ℤ}

theorem slotBytes_pos (geom : SlotGeometry) : 0 < geom.slotBytes := by
  have hmul := Nat.mul_pos geom.inter_pos geom.hidden_pos
  unfold slotBytes weightBytes
  omega

theorem bytesPerCapUnit_pos (geom : SlotGeometry) : 0 < geom.bytesPerCapUnit :=
  Nat.mul_pos geom.layers_pos geom.slotBytes_pos

theorem totalSlots_pos (geom : SlotGeometry) : 0 < geom.totalSlots :=
  Nat.mul_pos geom.layers_pos geom.experts_pos

theorem terminalBytes_eq_ok : geom.terminalBytes cap baseline = .ok t ↔
    (0 ≤ cap ∧ cap ≤ geom.experts) ∧ baseline + cap * geom.bytesPerCapUnit = t := by
  unfold terminalBytes cacheBytes
  rw [bind_eq_ok]
  constructor
  · rintro ⟨a, ha, h⟩
    split at ha
    · rename_i hcap
      cases ha
      cases h
      exact ⟨hcap, rfl⟩
    · cases ha
  · rintro ⟨hcap, rfl⟩
    exact ⟨_, if_pos hcap, rfl⟩

/-- The cap is allowed and its footprint stays within the budget. -/
def Fits (geom : SlotGeometry) (budget baseline cap : ℤ) : Prop :=
  ∃ t, geom.terminalBytes cap baseline = .ok t ∧ t ≤ budget

/-- The greatest cap that fits, or `-1` when none does. -/
def IsMaxCap (geom : SlotGeometry) (budget baseline cap : ℤ) : Prop :=
  IsGreatest {c | geom.Fits budget baseline c} cap ∨ cap = -1 ∧ ∀ c, ¬geom.Fits budget baseline c

theorem fits_iff : geom.Fits budget baseline cap ↔
    (0 ≤ cap ∧ cap ≤ geom.experts) ∧ baseline + cap * geom.bytesPerCapUnit ≤ budget := by
  unfold Fits
  constructor
  · rintro ⟨t, ht, hle⟩
    obtain ⟨hcap, rfl⟩ := terminalBytes_eq_ok.mp ht
    exact ⟨hcap, hle⟩
  · rintro ⟨hcap, hle⟩
    exact ⟨_, terminalBytes_eq_ok.mpr ⟨hcap, rfl⟩, hle⟩

theorem fits_zero (h : baseline ≤ budget) : geom.Fits budget baseline 0 := by
  rw [fits_iff, zero_mul, add_zero]
  exact ⟨⟨le_rfl, Int.natCast_nonneg _⟩, h⟩

theorem Fits.baseline_le (h : geom.Fits budget baseline cap) : baseline ≤ budget := by
  obtain ⟨⟨hcap, -⟩, hle⟩ := fits_iff.mp h
  have hcost : 0 ≤ cap * geom.bytesPerCapUnit := Int.mul_nonneg hcap (Int.natCast_nonneg _)
  linarith

theorem min_div_isGreatest (h : baseline ≤ budget) :
    IsGreatest {c | geom.Fits budget baseline c}
      (min (geom.experts : ℤ) ((budget - baseline) / geom.bytesPerCapUnit)) := by
  have hunit : (0 : ℤ) < geom.bytesPerCapUnit := Int.natCast_pos.mpr geom.bytesPerCapUnit_pos
  constructor
  · apply fits_iff.mpr
    have hle : min (geom.experts : ℤ) ((budget - baseline) / geom.bytesPerCapUnit) *
        geom.bytesPerCapUnit ≤ budget - baseline :=
      (Int.le_ediv_iff_mul_le hunit).mp (min_le_right _ _)
    have hquot : 0 ≤ (budget - baseline) / (geom.bytesPerCapUnit : ℤ) :=
      Int.ediv_nonneg (by linarith) hunit.le
    exact ⟨⟨le_min (Int.natCast_nonneg _) hquot, min_le_left _ _⟩, by linarith⟩
  · intro c hc
    obtain ⟨⟨-, hcap⟩, hle⟩ := fits_iff.mp hc
    exact le_min hcap ((Int.le_ediv_iff_mul_le hunit).mpr (by linarith))

theorem maxCap_spec (geom : SlotGeometry) (budget baseline : ℤ) (h : 0 ≤ margin) :
    ∃ c, geom.maxCap budget baseline margin = .ok c ∧
      geom.IsMaxCap (budget - margin) baseline c := by
  unfold maxCap
  rw [if_neg (by omega)]
  by_cases hslack : budget - margin - baseline < 0
  · rw [if_pos hslack]
    refine ⟨-1, rfl, .inr ⟨rfl, ?_⟩⟩
    intro c hc
    have := hc.baseline_le
    omega
  · rw [if_neg hslack]
    exact ⟨_, rfl, .inl (min_div_isGreatest (by omega))⟩

theorem maxCap_eq_ok (h : 0 ≤ margin) {c : ℤ} (hc : geom.maxCap budget baseline margin = .ok c) :
    geom.IsMaxCap (budget - margin) baseline c := by
  obtain ⟨c', hc', hmax⟩ := geom.maxCap_spec budget baseline h
  rw [hc] at hc'
  cases hc'
  exact hmax

theorem IsMaxCap.nonneg_iff (h : geom.IsMaxCap budget baseline cap) :
    0 ≤ cap ↔ baseline ≤ budget := by
  rcases h with hmax | ⟨rfl, hnone⟩
  · have hfits : geom.Fits budget baseline cap := hmax.1
    exact ⟨fun _ ↦ hfits.baseline_le, fun _ ↦ (fits_iff.mp hfits).1.1⟩
  · constructor
    · intro hneg
      omega
    · intro hle
      exact absurd (fits_zero hle) (hnone 0)

theorem IsMaxCap.le_experts (h : geom.IsMaxCap budget baseline cap) : cap ≤ geom.experts := by
  rcases h with hmax | ⟨rfl, -⟩
  · exact (fits_iff.mp hmax.1).1.2
  · omega

end SlotGeometry

variable {geom : SlotGeometry} {cap baseline memoryMax swapTotal margin : ℤ}

open SlotGeometry

theorem divide_eq_ok {a b q : ℚ} : divide a b = .ok q ↔ b ≠ 0 ∧ a / b = q := by
  unfold divide
  by_cases hb : b = 0
  · simp [hb]
  · simp [hb]

/-- What a band of sound caps says. -/
structure CapBand.Sound (geom : SlotGeometry) (baseline memoryMax pilotDepth : ℤ) (b : CapBand) :
    Prop where
  lower : b.lowerCap = pilotDepth + 1
  upper : geom.IsMaxCap memoryMax baseline b.upperCap
  empty_iff : b.empty = true ↔ b.upperCap < b.lowerCap

theorem capBand_spec (geom : SlotGeometry) (baseline memoryMax : ℤ) {pilotDepth : ℤ}
    (h : 0 ≤ pilotDepth) :
    ∃ b, capBand baseline memoryMax pilotDepth geom = .ok b ∧
      b.Sound geom baseline memoryMax pilotDepth := by
  obtain ⟨upper, hupper, hmax⟩ := geom.maxCap_spec memoryMax baseline le_rfl
  rw [sub_zero] at hmax
  unfold capBand
  rw [if_neg (by omega), hupper]
  exact ⟨_, rfl, rfl, hmax, by simp⟩

/-- The first of the two limits that the footprint of the full caches exceeds. -/
structure Bound.Classified (geom : SlotGeometry) (baseline memoryMax swapTotal : ℤ) (b : Bound) :
    Prop where
  terminal : geom.terminalBytes b.cap baseline = .ok b.terminalBytes
  engineLru : b.boundedBy = .engineLru ↔ b.terminalBytes ≤ memoryMax
  cgroupLimit : b.boundedBy = .cgroupLimitThenSwap ↔
    memoryMax < b.terminalBytes ∧ b.terminalBytes ≤ memoryMax + swapTotal
  oomKiller : b.boundedBy = .oomKiller ↔
    memoryMax < b.terminalBytes ∧ memoryMax + swapTotal < b.terminalBytes

theorem mechanism_cases (terminal memoryMax ramPlusSwap : ℤ) :
    ((mechanism terminal memoryMax ramPlusSwap).1 = .engineLru ↔ terminal ≤ memoryMax) ∧
      ((mechanism terminal memoryMax ramPlusSwap).1 = .cgroupLimitThenSwap ↔
        memoryMax < terminal ∧ terminal ≤ ramPlusSwap) ∧
      ((mechanism terminal memoryMax ramPlusSwap).1 = .oomKiller ↔
        memoryMax < terminal ∧ ramPlusSwap < terminal) := by
  unfold mechanism
  rcases le_or_gt terminal memoryMax with hram | hram
  · simp [hram, hram.not_gt]
  · rcases le_or_gt terminal ramPlusSwap with hswap | hswap
    · simp [hram, hram.not_ge, hswap, hswap.not_gt]
    · simp [hram, hram.not_ge, hswap, hswap.not_ge]

theorem boundBy_spec (baseline memoryMax swapTotal : ℤ) (hcap : 0 ≤ cap ∧ cap ≤ geom.experts) :
    ∃ b, boundBy cap baseline memoryMax swapTotal geom = .ok b ∧ b.cap = cap ∧
      b.Classified geom baseline memoryMax swapTotal := by
  have ht := terminalBytes_eq_ok.mpr ⟨hcap, (rfl : baseline + cap * geom.bytesPerCapUnit = _)⟩
  unfold boundBy
  rw [ht]
  obtain ⟨hengine, hcgroup, hoom⟩ :=
    mechanism_cases (baseline + cap * geom.bytesPerCapUnit) memoryMax (memoryMax + swapTotal)
  exact ⟨_, rfl, rfl, ht, hengine, hcgroup, hoom⟩

theorem boundBy_error (hcap : ¬(0 ≤ cap ∧ cap ≤ geom.experts)) {b : Bound} :
    boundBy cap baseline memoryMax swapTotal geom ≠ .ok b := by
  intro h
  unfold boundBy at h
  obtain ⟨t, ht, -⟩ := bind_eq_ok.mp h
  exact hcap (terminalBytes_eq_ok.mp ht).1

theorem capVerdict_spec {pilotDepth : ℤ} (h : 0 ≤ pilotDepth)
    (hcap : 0 ≤ cap ∧ cap ≤ geom.experts) :
    ∃ v, capVerdict cap baseline memoryMax swapTotal pilotDepth geom = .ok v ∧ v.cap = cap ∧
      v.toBound.Classified geom baseline memoryMax swapTotal := by
  obtain ⟨b, hb, hbcap, hclass⟩ :=
    boundBy_spec baseline memoryMax swapTotal hcap
  obtain ⟨band, hband, -⟩ := capBand_spec geom baseline memoryMax h
  unfold capVerdict
  rw [hb, hband]
  exact ⟨_, rfl, hbcap, hclass.terminal, hclass.engineLru, hclass.cgroupLimit, hclass.oomKiller⟩

theorem capVerdict_returns_iff {pilotDepth : ℤ} (h : 0 ≤ pilotDepth) :
    (∃ v, capVerdict cap baseline memoryMax swapTotal pilotDepth geom = .ok v) ↔
      0 ≤ cap ∧ cap ≤ geom.experts := by
  constructor
  · rintro ⟨v, hv⟩
    by_contra hcap
    unfold capVerdict at hv
    obtain ⟨b, hb, -⟩ := bind_eq_ok.mp hv
    exact boundBy_error hcap hb
  · intro hcap
    obtain ⟨v, hv, -⟩ := capVerdict_spec h hcap
    exact ⟨v, hv⟩

/-- What a row of the plan says about its margin. -/
structure Row.Right (geom : SlotGeometry) (memoryMax baseline margin : ℤ) (r : Row) : Prop where
  marginBytes : r.marginBytes = margin
  maxCap : geom.IsMaxCap (memoryMax - margin) baseline r.maxCap

/-- A percentage of no memory at all is not reported. -/
def Rated (memoryMax baseline margin : ℤ) : Prop :=
  memoryMax = 0 → memoryMax - margin < baseline

theorem row_spec (hmargin : 0 ≤ margin) (h : Rated memoryMax baseline margin) :
    ∃ r, row memoryMax baseline geom margin = .ok r ∧ r.Right geom memoryMax baseline margin := by
  obtain ⟨c, hc, hmax⟩ := geom.maxCap_spec memoryMax baseline hmargin
  unfold row
  rw [hc, ok_bind]
  by_cases hneg : 0 ≤ c
  · have hfits := hmax.nonneg_iff.mp hneg
    have ht := terminalBytes_eq_ok.mpr ⟨⟨hneg, hmax.le_experts⟩,
      (rfl : baseline + c * geom.bytesPerCapUnit = _)⟩
    have hzero : (memoryMax : ℚ) ≠ 0 := by
      intro h0
      have := h (by exact_mod_cast h0)
      omega
    have hpct := divide_eq_ok.mpr ⟨hzero,
      (rfl : 100 * ((baseline + c * geom.bytesPerCapUnit : ℤ) : ℚ) / memoryMax = _)⟩
    rw [if_pos hneg, ht, ok_bind, hpct]
    exact ⟨_, rfl, rfl, hmax⟩
  · rw [if_neg hneg]
    exact ⟨_, rfl, rfl, hmax⟩

theorem row_returns_iff (hmargin : 0 ≤ margin) :
    (∃ r, row memoryMax baseline geom margin = .ok r) ↔ Rated memoryMax baseline margin := by
  constructor
  · rintro ⟨r, hr⟩ h0
    by_contra hlt
    unfold row at hr
    obtain ⟨c, hc, hr⟩ := bind_eq_ok.mp hr
    have hneg := (maxCap_eq_ok hmargin hc).nonneg_iff.mpr (by omega)
    rw [if_pos hneg] at hr
    obtain ⟨t, -, hr⟩ := bind_eq_ok.mp hr
    obtain ⟨q, hq, -⟩ := bind_eq_ok.mp hr
    apply (divide_eq_ok.mp hq).1
    rw [h0]
    rfl
  · intro h
    obtain ⟨r, hr, -⟩ := row_spec hmargin h
    exact ⟨r, hr⟩

theorem mem_sortedCaps {fitsRamPlusSwap fitsRam c : ℤ} :
    c ∈ sortedCaps geom fitsRamPlusSwap fitsRam ↔
      c = geom.experts ∨ c = 204 ∨ c = fitsRamPlusSwap ∨ c = fitsRam ∨ c = 159 := by
  unfold sortedCaps
  rw [Finset.mem_sort]
  simp

variable {margins : List ℤ}

/-- The caps that the plan lists are caps of the box, and its percentages are of some memory. -/
structure Plannable (geom : SlotGeometry) (memoryMax baseline : ℤ) (margins : List ℤ) : Prop where
  roomy : 204 ≤ geom.experts
  weightsFit : baseline ≤ memoryMax
  rated : ∀ m ∈ margins, Rated memoryMax baseline m

theorem plan_returns_iff (hmargins : ∀ m ∈ margins, 0 ≤ m) (hswap : 0 ≤ swapTotal) :
    (∃ p, plan memoryMax baseline margins geom swapTotal = .ok p) ↔
      Plannable geom memoryMax baseline margins := by
  obtain ⟨swapped, hswapped, hswappedMax⟩ := geom.maxCap_spec (memoryMax + swapTotal)
    baseline le_rfl
  obtain ⟨ram, hram, hramMax⟩ := geom.maxCap_spec memoryMax baseline le_rfl
  rw [sub_zero] at hswappedMax hramMax
  have hverdicts : (∃ r, (sortedCaps geom swapped ram).mapM (fun c ↦
      capVerdict c baseline memoryMax swapTotal pilotQueueDepth geom) = .ok r) ↔
        204 ≤ geom.experts ∧ baseline ≤ memoryMax := by
    rw [mapM_returns_iff]
    constructor
    · intro h
      have hrange (c : ℤ) (hc : c ∈ sortedCaps geom swapped ram) : 0 ≤ c ∧ c ≤ geom.experts :=
        (capVerdict_returns_iff (by decide)).mp (h c hc)
      have hroomy := (hrange 204 (by simp [mem_sortedCaps])).2
      have hfits := (hrange ram (by simp [mem_sortedCaps])).1
      exact ⟨by exact_mod_cast hroomy, hramMax.nonneg_iff.mp hfits⟩
    · rintro ⟨hroomy, hfits⟩ c hc
      apply (capVerdict_returns_iff (by decide)).mpr
      have hexperts : (204 : ℤ) ≤ geom.experts := by exact_mod_cast hroomy
      rcases mem_sortedCaps.mp hc with rfl | rfl | rfl | rfl | rfl
      · omega
      · omega
      · exact ⟨hswappedMax.nonneg_iff.mpr (by omega), hswappedMax.le_experts⟩
      · exact ⟨hramMax.nonneg_iff.mpr hfits, hramMax.le_experts⟩
      · omega
  constructor
  · rintro ⟨p, hp⟩
    unfold plan at hp
    obtain ⟨rows, hrows, hp⟩ := bind_eq_ok.mp hp
    rw [hswapped, hram, ok_bind, ok_bind] at hp
    obtain ⟨verdicts, hv, -⟩ := bind_eq_ok.mp hp
    obtain ⟨hroomy, hfits⟩ := hverdicts.mp ⟨verdicts, hv⟩
    refine ⟨hroomy, hfits, fun m hm ↦ ?_⟩
    exact (row_returns_iff (hmargins m hm)).mp (mapM_returns_iff.mp ⟨rows, hrows⟩ m hm)
  · rintro ⟨hroomy, hfits, hrated⟩
    obtain ⟨rows, hrows⟩ : ∃ r, margins.mapM (row memoryMax baseline geom) = .ok r :=
      mapM_returns_iff.mpr fun m hm ↦ (row_returns_iff (hmargins m hm)).mpr (hrated m hm)
    obtain ⟨verdicts, hv⟩ := hverdicts.mpr ⟨hroomy, hfits⟩
    have hpilot : 0 ≤ pilotQueueDepth := by decide
    obtain ⟨band, hband, -⟩ := capBand_spec geom baseline memoryMax hpilot
    unfold plan
    rw [hrows, hswapped, hram, ok_bind, ok_bind, ok_bind, hv, ok_bind, hband]
    exact ⟨_, rfl⟩

/-- What a plan says is right. -/
structure Plan.Right (geom : SlotGeometry) (memoryMax baseline swapTotal : ℤ) (margins : List ℤ)
    (p : Plan) : Prop where
  rows : List.Forall₂ (fun m r ↦ r.Right geom memoryMax baseline m) margins p.rows
  listed : p.boundBy.map (·.cap) = sortedCaps geom p.maxCapFitsRamPlusSwap p.maxCapFitsRam
  classified : ∀ v ∈ p.boundBy, v.toBound.Classified geom baseline memoryMax swapTotal

theorem row_eq_ok {r : Row} (hmargin : 0 ≤ margin)
    (h : row memoryMax baseline geom margin = .ok r) :
    r.Right geom memoryMax baseline margin := by
  obtain ⟨r', hr', hright⟩ := row_spec hmargin ((row_returns_iff hmargin).mp ⟨r, h⟩)
  rw [h] at hr'
  cases hr'
  exact hright

theorem capVerdict_eq_ok {v : CapVerdict} {pilotDepth : ℤ} (h0 : 0 ≤ pilotDepth)
    (h : capVerdict cap baseline memoryMax swapTotal pilotDepth geom = .ok v) :
    v.cap = cap ∧ v.toBound.Classified geom baseline memoryMax swapTotal := by
  obtain ⟨v', hv', hright⟩ := capVerdict_spec h0 ((capVerdict_returns_iff h0).mp ⟨v, h⟩)
  rw [h] at hv'
  cases hv'
  exact hright

theorem plan_right (hmargins : ∀ m ∈ margins, 0 ≤ m) {p : Plan}
    (h : plan memoryMax baseline margins geom swapTotal = .ok p) :
    p.Right geom memoryMax baseline swapTotal margins := by
  unfold plan at h
  obtain ⟨rows, hrows, h⟩ := bind_eq_ok.mp h
  obtain ⟨swapped, hswapped, h⟩ := bind_eq_ok.mp h
  obtain ⟨ram, hram, h⟩ := bind_eq_ok.mp h
  obtain ⟨verdicts, hv, h⟩ := bind_eq_ok.mp h
  obtain ⟨band, hband, h⟩ := bind_eq_ok.mp h
  cases h
  have hverdicts := mapM_eq_ok.mp hv
  constructor
  · refine (List.forall₂_iff_zip.mpr ⟨(mapM_eq_ok.mp hrows).length_eq, ?_⟩)
    intro m r hmr
    have hr := (List.forall₂_iff_zip.mp (mapM_eq_ok.mp hrows)).2 hmr
    exact row_eq_ok (hmargins m (List.of_mem_zip hmr).1) hr
  · rw [← List.forall₂_eq_eq_eq, List.forall₂_map_left_iff]
    exact (hverdicts.imp fun c v hcv ↦ (capVerdict_eq_ok (by decide) hcv).1).flip
  · intro v hmem
    obtain ⟨c, hc⟩ :
      ∃ c, capVerdict c baseline memoryMax swapTotal pilotQueueDepth geom = .ok v := by
      obtain ⟨k, hk, rfl⟩ := List.getElem_of_mem (show v ∈ verdicts from hmem)
      have hlen := hverdicts.length_eq
      exact ⟨_, hverdicts.get (by omega) hk⟩
    exact (capVerdict_eq_ok (by decide) hc).2

/-- The greatest cap of the sound band that leaves the margin free, or none. -/
structure Recommendation.Right (geom : SlotGeometry) (base memoryMax margin : ℤ)
    (r : Recommendation) : Prop where
  band : r.band.Sound geom base memoryMax pilotQueueDepth
  greatest : ∀ cap, r.cap = some cap → IsGreatest {c | (r.band.lowerCap ≤ c ∧
    c ≤ r.band.upperCap) ∧ geom.Fits (memoryMax - margin) base c} cap
  none_iff : r.cap = none ↔ ∀ c, ¬((r.band.lowerCap ≤ c ∧ c ≤ r.band.upperCap) ∧
    geom.Fits (memoryMax - margin) base c)

theorem Recommendation.right_none {base : ℤ} {r : Recommendation}
    (hband : r.band.Sound geom base memoryMax pilotQueueDepth) (hcap : r.cap = none)
    (h : ∀ c, ¬((r.band.lowerCap ≤ c ∧ c ≤ r.band.upperCap) ∧
      geom.Fits (memoryMax - margin) base c)) : r.Right geom base memoryMax margin := by
  constructor
  · exact hband
  · intro cap hsome
    rw [hcap] at hsome
    cases hsome
  · exact iff_of_true hcap h

theorem recommendCap_right {baseline : Option ℤ} (hmargin : 0 ≤ margin) :
    ∃ r, recommendCap margin baseline memoryMax geom = .ok r ∧
      r.Right geom (baseline.getD nucAllocBaseline) memoryMax margin := by
  unfold recommendCap
  rw [if_neg (by omega)]
  generalize baseline.getD nucAllocBaseline = base
  have hunit : (0 : ℤ) < geom.bytesPerCapUnit := Int.natCast_pos.mpr geom.bytesPerCapUnit_pos
  have hpilot : 0 ≤ pilotQueueDepth := by decide
  obtain ⟨band, hband, hsound⟩ := capBand_spec geom base memoryMax hpilot
  have hlower : band.lowerCap = 129 := hsound.lower
  dsimp only
  rw [hband, ok_bind]
  by_cases hempty : band.empty = true
  · rw [if_pos hempty]
    refine ⟨_, rfl, Recommendation.right_none hsound rfl ?_⟩
    rintro c ⟨⟨hc, hc'⟩, -⟩
    have := hsound.empty_iff.mp hempty
    dsimp only at hc hc'
    omega
  · rw [if_neg hempty]
    -- what keeps the margin lies below the quotient
    have hquot (c : ℤ) (hfits : geom.Fits (memoryMax - margin) base c) :
        c ≤ (memoryMax - margin - base) / geom.bytesPerCapUnit := by
      apply (Int.le_ediv_iff_mul_le hunit).mpr
      have := (fits_iff.mp hfits).2
      linarith
    by_cases hlow : min ((memoryMax - margin - base) / (geom.bytesPerCapUnit : ℤ)) band.upperCap <
        band.lowerCap
    · rw [if_pos hlow]
      refine ⟨_, rfl, Recommendation.right_none hsound rfl ?_⟩
      rintro c ⟨⟨hc, hc'⟩, hfits⟩
      dsimp only at hc hc'
      have := le_min (hquot c hfits) hc'
      omega
    · rw [if_neg hlow]
      have hfits : geom.Fits (memoryMax - margin) base
          (min ((memoryMax - margin - base) / (geom.bytesPerCapUnit : ℤ)) band.upperCap) := by
        apply fits_iff.mpr
        have hle := (Int.le_ediv_iff_mul_le hunit).mp (min_le_left
          ((memoryMax - margin - base) / (geom.bytesPerCapUnit : ℤ)) band.upperCap)
        have hupper := hsound.upper.le_experts
        have hmin := min_le_right ((memoryMax - margin - base) / (geom.bytesPerCapUnit : ℤ))
          band.upperCap
        exact ⟨⟨by omega, by omega⟩, by linarith⟩
      obtain ⟨bound, hbound, -⟩ := boundBy_spec base memoryMax nucSwapTotal
        (fits_iff.mp hfits).1
      rw [hbound]
      refine ⟨_, rfl, hsound, ?_, ?_⟩
      · rintro cap hcap
        cases hcap
        constructor
        · exact ⟨⟨by dsimp only; omega, min_le_right _ _⟩, hfits⟩
        · rintro c ⟨⟨-, hc⟩, hc'⟩
          exact le_min (hquot c hc') hc
      · apply iff_of_false
        · intro h
          cases h
        · intro h
          exact h _ ⟨⟨by dsimp only; omega, min_le_right _ _⟩, hfits⟩

theorem round_nonneg {x : ℚ} (h : 0 ≤ x) : 0 ≤ round x := by
  have hfloor : 0 ≤ x.floor := Rat.le_floor_iff.mpr (by exact_mod_cast h)
  unfold round
  dsimp only
  split <;> omega

namespace Curves

variable (curves : Curves) {fraction : ℚ}

theorem exposure_spec (h : 0 ≤ fraction ∧ fraction < 1) :
    curves.saturatingExposureForFraction fraction = .ok (-curves.log1p (-fraction)) :=
  if_neg (not_not_intro h)

theorem uniformTokens_returns_iff :
    (∃ q, curves.uniformTokensForFraction fraction = .ok q) ↔ 0 ≤ fraction ∧ fraction < 1 := by
  have hlog : curves.log1p (-1 / nucExperts) < 0 := by
    apply curves.log1p_neg <;> norm_num [nucExperts]
  have htopk : (nucTopk : ℚ) * curves.log1p (-1 / nucExperts) ≠ 0 := by
    apply mul_ne_zero
    · norm_num [nucTopk]
    · exact hlog.ne
  unfold uniformTokensForFraction
  by_cases h : 0 ≤ fraction ∧ fraction < 1
  · rw [if_neg (not_not_intro h)]
    exact iff_of_true ⟨_, divide_eq_ok.mpr ⟨htopk, rfl⟩⟩ h
  · rw [if_pos h]
    apply iff_of_false
    · rintro ⟨q, hq⟩
      cases hq
    · exact h

end Curves

section

variable (curves : Curves) (requestsSoFar : ℚ) {fraction fracAtMax : ℚ}

theorem saturating_returns (geom : SlotGeometry) (baseline : ℤ) (fraction : ℚ)
    (hmax : 0 ≤ fracAtMax) :
    ∃ s, saturating curves requestsSoFar fraction fracAtMax baseline geom = .ok s := by
  unfold saturating
  by_cases h : requestsSoFar > 0 ∧ (0 < fraction ∧ fraction < 1) ∧ fracAtMax < 1
  · obtain ⟨hrequests, ⟨hpos, hlt⟩, hmaxlt⟩ := h
    -- something is loaded, so the exposure so far is positive
    have hnow : 0 < -curves.log1p (-fraction) :=
      neg_pos.mpr (curves.log1p_neg _ (by linarith) (by linarith))
    have hper : 0 < -curves.log1p (-fraction) / requestsSoFar := div_pos hnow hrequests
    rw [if_pos ⟨hrequests, ⟨hpos, hlt⟩, hmaxlt⟩, curves.exposure_spec ⟨hpos.le, hlt⟩, ok_bind,
      curves.exposure_spec ⟨hmax, hmaxlt⟩, ok_bind, divide_eq_ok.mpr ⟨hrequests.ne', rfl⟩, ok_bind,
      divide_eq_ok.mpr ⟨hper.ne', rfl⟩, ok_bind]
    unfold Curves.saturatingFractionAfterExposure
    rw [if_neg (by linarith)]
    exact ⟨_, rfl⟩
  · rw [if_neg h]
    exact ⟨none, rfl⟩

theorem uniform_returns_iff (hmax : 0 ≤ fracAtMax) :
    (∃ u, uniform curves fraction fracAtMax = .ok u) ↔
      (0 < fraction → fraction < 1 → fracAtMax < 1) := by
  unfold uniform
  by_cases h : 0 < fraction ∧ fraction < 1
  · rw [if_pos h]
    obtain ⟨implied, himplied⟩ : ∃ q, curves.uniformTokensForFraction fraction = .ok q :=
      curves.uniformTokens_returns_iff.mpr ⟨h.1.le, h.2⟩
    rw [himplied, ok_bind]
    constructor
    · rintro ⟨u, hu⟩ - -
      obtain ⟨q, hq, -⟩ := bind_eq_ok.mp hu
      exact (curves.uniformTokens_returns_iff.mp ⟨q, hq⟩).2
    · intro hlt
      obtain ⟨q, hq⟩ := curves.uniformTokens_returns_iff.mpr
        ⟨hmax, hlt h.1 h.2⟩
      rw [hq]
      exact ⟨_, rfl⟩
  · rw [if_neg h]
    apply iff_of_true
    · exact ⟨none, rfl⟩
    · intro hpos hlt
      exact absurd ⟨hpos, hlt⟩ h

theorem probeBudget_returns_iff (geom : SlotGeometry) {headroom : ℤ} (h : 0 ≤ headroom) :
    (∃ b, probeBudget headroom fraction geom = .ok b) ↔ 0 ≤ fraction ∧ fraction ≤ 1 := by
  unfold probeBudget
  by_cases hf : 0 ≤ fraction ∧ fraction ≤ 1
  · rw [if_neg (not_not_intro hf), if_neg (by omega)]
    exact iff_of_true ⟨_, rfl⟩ hf
  · rw [if_pos hf]
    apply iff_of_false
    · rintro ⟨b, hb⟩
      cases hb
    · exact hf

theorem wallOf_returns_iff (geom : SlotGeometry) (observable : Observable) {f : Fill}
    (current naive baseline memoryMax swapTotal : ℤ) {headroom : ℤ} (hhead : 0 ≤ headroom)
    (hslots : 0 ≤ f.slotsLoaded) (hfrac : 0 ≤ f.fraction) :
    (∃ w, wallOf curves observable f current headroom naive baseline memoryMax swapTotal
      requestsSoFar geom = .ok w) ↔
        memoryMax ≠ 0 ∧ f.fraction ≤ 1 ∧ (0 < f.fraction → f.fraction < 1 →
          f.slotsLoaded + headroom / geom.slotBytes < geom.totalSlots) := by
  have hterminal := terminalBytes_eq_ok.mpr ⟨⟨Int.natCast_nonneg _, le_rfl⟩,
    (rfl : baseline + (geom.experts : ℤ) * geom.bytesPerCapUnit = _)⟩
  obtain ⟨fits, hfits, -⟩ := geom.maxCap_spec memoryMax baseline le_rfl
  have htotal : (0 : ℚ) < geom.totalSlots := by exact_mod_cast geom.totalSlots_pos
  have hmax : 0 ≤ ((f.slotsLoaded + headroom / geom.slotBytes : ℤ) : ℚ) / geom.totalSlots := by
    apply div_nonneg _ htotal.le
    exact_mod_cast add_nonneg hslots (Int.ediv_nonneg hhead (Int.natCast_nonneg _))
  have hlt : ((f.slotsLoaded + headroom / geom.slotBytes : ℤ) : ℚ) / geom.totalSlots < 1 ↔
      f.slotsLoaded + headroom / geom.slotBytes < geom.totalSlots := by
    rw [div_lt_one htotal]
    exact_mod_cast Iff.rfl
  unfold wallOf
  rw [if_neg (by omega)]
  dsimp only
  constructor
  · rintro ⟨w, hw⟩
    obtain ⟨pct, hpct, hw⟩ := bind_eq_ok.mp hw
    rw [hterminal, ok_bind, hfits, ok_bind] at hw
    obtain ⟨probe, hprobe, hw⟩ := bind_eq_ok.mp hw
    obtain ⟨again, hagain, hw⟩ := bind_eq_ok.mp hw
    obtain ⟨tokens, htokens, hw⟩ := bind_eq_ok.mp hw
    refine ⟨?_, ((probeBudget_returns_iff geom hhead).mp ⟨probe, hprobe⟩).2, ?_⟩
    · rintro rfl
      exact (divide_eq_ok.mp hpct).1 rfl
    · intro hpos hone
      exact hlt.mp ((uniform_returns_iff curves hmax).mp ⟨tokens, htokens⟩ hpos hone)
  · rintro ⟨hzero, hone, huniform⟩
    have hpct := divide_eq_ok.mpr ⟨(by exact_mod_cast hzero : (memoryMax : ℚ) ≠ 0),
      (rfl : 100 * (headroom : ℚ) / memoryMax = _)⟩
    obtain ⟨probe, hprobe⟩ := (probeBudget_returns_iff geom hhead).mpr ⟨hfrac, hone⟩
    obtain ⟨again, hagain⟩ := saturating_returns curves requestsSoFar geom baseline f.fraction
      hmax
    obtain ⟨tokens, htokens⟩ := (uniform_returns_iff curves hmax).mpr
      fun hpos hlt' ↦ hlt.mpr (huniform hpos hlt')
    rw [hpct, ok_bind, hterminal, ok_bind, hfits, ok_bind, hprobe, ok_bind, hagain, ok_bind,
      htokens]
    exact ⟨_, rfl⟩

end

/-- What is allocated, what is owed to the limit, and the limit. -/
def reading (current memoryMax : ℤ) : Option CgroupSnapshot → ℤ × ℤ × ℤ
  | none => (current, current, memoryMax)
  | some snap => (snap.allocatedAnon, snap.committedBytes, snap.memoryMax)

/-- There is a limit, the slots hold what is loaded, and they are not all full at the limit. -/
def Reported (geom : SlotGeometry) (loaded headroom limit : ℤ) : Prop :=
  limit ≠ 0 ∧ loaded ≤ geom.slotBytes * geom.totalSlots ∧
    (0 < loaded → loaded < geom.slotBytes * geom.totalSlots →
      round (loaded / geom.slotBytes) + headroom / geom.slotBytes < geom.totalSlots)

theorem wall_returns_iff {curves : Curves} {requestsSoFar : ℚ} {current : ℤ}
    {snap : Option CgroupSnapshot} {allocated committed limit : ℤ}
    (hreading : reading current memoryMax snap = (allocated, committed, limit))
    (hbaseline : baseline ≤ allocated) (hlimit : committed ≤ limit) :
    (∃ w, wall curves current baseline memoryMax swapTotal requestsSoFar geom snap = .ok w) ↔
      Reported geom (allocated - baseline) (limit - committed) limit := by
  have hslot : (0 : ℚ) < geom.slotBytes := by exact_mod_cast geom.slotBytes_pos
  have htotal : (0 : ℚ) < geom.totalSlots := by exact_mod_cast geom.totalSlots_pos
  have hloaded : (0 : ℚ) ≤ (allocated - baseline : ℤ) := by exact_mod_cast (by omega)
  have hslots := div_nonneg hloaded hslot.le
  have hfill : fillFromCurrent allocated baseline geom = .ok
      ⟨round ((allocated - baseline : ℤ) / geom.slotBytes), geom.totalSlots,
        (allocated - baseline : ℤ) / geom.slotBytes / geom.totalSlots,
        (allocated - baseline : ℤ) / geom.slotBytes / geom.layers, allocated - baseline⟩ := by
    unfold fillFromCurrent
    rw [if_neg (by omega)]
  have hone : ((allocated - baseline : ℤ) : ℚ) / geom.slotBytes / geom.totalSlots ≤ 1 ↔
      allocated - baseline ≤ geom.slotBytes * geom.totalSlots := by
    rw [div_div, div_le_one (mul_pos hslot htotal)]
    exact_mod_cast Iff.rfl
  have hlt : ((allocated - baseline : ℤ) : ℚ) / geom.slotBytes / geom.totalSlots < 1 ↔
      allocated - baseline < geom.slotBytes * geom.totalSlots := by
    rw [div_div, div_lt_one (mul_pos hslot htotal)]
    exact_mod_cast Iff.rfl
  have hpos : 0 < ((allocated - baseline : ℤ) : ℚ) / geom.slotBytes / geom.totalSlots ↔
      0 < allocated - baseline := by
    rw [div_div, div_pos_iff_of_pos_right (mul_pos hslot htotal)]
    exact_mod_cast Iff.rfl
  have hhead : 0 ≤ limit - committed := by omega
  have hrounded := round_nonneg hslots
  have hfraction := div_nonneg hslots htotal.le
  unfold Reported
  rw [← hone, ← hlt, ← hpos]
  cases snap with
  | none =>
    cases hreading
    unfold wall
    dsimp only
    rw [hfill, ok_bind]
    exact wallOf_returns_iff curves requestsSoFar geom _ _ _ _ _ _ hhead hrounded hfraction
  | some snap =>
    cases hreading
    unfold wall fillFromSnapshot
    dsimp only
    rw [hfill, ok_bind]
    exact wallOf_returns_iff curves requestsSoFar geom _ _ _ _ _ _ hhead hrounded hfraction

/-- What the planner says of a box, of a margin to keep and of a reading. -/
structure Answered (curves : Curves) (geom : SlotGeometry) (memoryMax swapTotal baseline : ℤ)
    (margins : List ℤ) (margin : ℤ) (sizing : Option ℤ) (current : ℤ) (requestsSoFar : ℚ)
    (snap : Option CgroupSnapshot) : Prop where
  planned : ∃ p, plan memoryMax baseline margins geom swapTotal = .ok p ∧
    p.Right geom memoryMax baseline swapTotal margins
  recommended : ∃ r, recommendCap margin sizing memoryMax geom = .ok r ∧
    r.Right geom (sizing.getD nucAllocBaseline) memoryMax margin
  walled : ∃ w, wall curves current baseline memoryMax swapTotal requestsSoFar geom snap = .ok w

/-- The planner answers exactly on a box that has the caps it lists, about a reading that the slots
explain and a limit that they do not fill. -/
theorem planner_answers_iff {curves : Curves} {sizing : Option ℤ} {requestsSoFar : ℚ}
    {current allocated committed limit : ℤ} {snap : Option CgroupSnapshot}
    (hmargins : ∀ m ∈ margins, 0 ≤ m) (hmargin : 0 ≤ margin) (hswap : 0 ≤ swapTotal)
    (hreading : reading current memoryMax snap = (allocated, committed, limit))
    (hbaseline : baseline ≤ allocated) (hlimit : committed ≤ limit) :
    Answered curves geom memoryMax swapTotal baseline margins margin sizing current requestsSoFar
      snap ↔ Plannable geom memoryMax baseline margins ∧
        Reported geom (allocated - baseline) (limit - committed) limit := by
  constructor
  · rintro ⟨⟨p, hp, -⟩, -, hwall⟩
    exact ⟨(plan_returns_iff hmargins hswap).mp ⟨p, hp⟩,
      (wall_returns_iff hreading hbaseline hlimit).mp hwall⟩
  · rintro ⟨hplannable, hreported⟩
    obtain ⟨p, hp⟩ := (plan_returns_iff hmargins hswap).mpr hplannable
    exact ⟨⟨p, hp, plan_right hmargins hp⟩, recommendCap_right hmargin,
      (wall_returns_iff hreading hbaseline hlimit).mpr hreported⟩

/-- The box the planner was written for, with nothing loaded yet. -/
theorem planner_answers_at_baseline :
    Answered ⟨id, id, fun _ _ h ↦ h⟩ qwen36Slot 32212254720 nucSwapTotal 9770594304 [0, 1073741824]
      1073741824 none 9770594304 2 none ↔
        Plannable qwen36Slot 32212254720 9770594304 [0, 1073741824] ∧
          Reported qwen36Slot (9770594304 - 9770594304) (32212254720 - 9770594304) 32212254720 :=
  planner_answers_iff (by decide) (by decide) (by decide) rfl (by decide) (by decide)

/-- A model with 64 experts to a layer on the same box. -/
theorem no_plan_for_few_experts :
    ∃ geom : SlotGeometry, geom.experts = 64 ∧
      ∀ p, plan 32212254720 9770594304 [0, 1073741824] geom nucSwapTotal ≠ .ok p := by
  refine ⟨⟨2048, 512, 64, 40, 64, by decide, by decide, by decide, by decide⟩, rfl, ?_⟩
  intro p hp
  have hmargins : ∀ m ∈ [(0 : ℤ), 1073741824], 0 ≤ m := by decide
  have hswap : 0 ≤ nucSwapTotal := by decide
  have hroomy := ((plan_returns_iff hmargins hswap).mp ⟨p, hp⟩).roomy
  dsimp only at hroomy
  omega

end NucLlm.Nuc
