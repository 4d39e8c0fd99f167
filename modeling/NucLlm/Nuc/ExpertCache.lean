import Mathlib.Algebra.Order.Ring.Rat
import Mathlib.Data.Finset.Sort
import Mathlib.Order.Bounds.Basic

/-!
# The memory of the expert cache

A layer of the engine caches up to `cap` experts, each in a slot of a fixed size.  The planner finds
the caps whose full caches fit a memory limit, and says how far a deployment is from its limit.
Bytes, caps and slots are integers; the ratios of a report are exact.
-/

namespace NucLlm.Nuc

inductive Raised where
  | expertCacheError (message : String)
  | zeroDivisionError

/-- One slot of a layer's cache, as the engine allocates it. -/
structure SlotGeometry where
  hidden : ℕ
  inter : ℕ
  expertGs : ℕ
  layers : ℕ
  experts : ℕ
  hidden_pos : 0 < hidden
  inter_pos : 0 < inter
  layers_pos : 0 < layers
  experts_pos : 0 < experts

def ceilDiv (a b : ℕ) : ℕ := (a + b - 1) / b

def divide (a b : ℚ) : Except Raised ℚ :=
  if b = 0 then .error .zeroDivisionError else .ok (a / b)

/-- `round`, with halves to the even neighbour. -/
def round (x : ℚ) : ℤ :=
  let part := x - x.floor
  if part < 1 / 2 ∨ part = 1 / 2 ∧ x.floor % 2 = 0 then x.floor else x.floor + 1

namespace SlotGeometry

variable (geom : SlotGeometry)

def scaleCountGu : ℕ :=
  if geom.expertGs ≠ 0 then geom.inter * ceilDiv geom.hidden geom.expertGs else geom.inter

def scaleCountD : ℕ :=
  if geom.expertGs ≠ 0 then geom.hidden * ceilDiv geom.inter geom.expertGs else geom.hidden

/-- One byte for each weight of the three matrices. -/
def weightBytes : ℕ :=
  geom.inter * geom.hidden + geom.inter * geom.hidden + geom.hidden * geom.inter

def scaleBytes : ℕ := 4 * (2 * geom.scaleCountGu + geom.scaleCountD)

def slotBytes : ℕ := geom.weightBytes + geom.scaleBytes

def packedDiskBytes : ℕ := geom.weightBytes / 2 + geom.scaleBytes

def bytesPerCapUnit : ℕ := geom.layers * geom.slotBytes

def totalSlots : ℕ := geom.layers * geom.experts

def cacheBytes (cap : ℤ) : Except Raised ℤ :=
  if 0 ≤ cap ∧ cap ≤ geom.experts then .ok (cap * geom.bytesPerCapUnit)
  else .error (.expertCacheError s!"cap {cap} outside 0..{geom.experts}")

/-- The footprint once every layer's cache is full. -/
def terminalBytes (cap baseline : ℤ) : Except Raised ℤ := do
  return baseline + (← geom.cacheBytes cap)

/-- `-1` when not even an empty cache fits. -/
def maxCap (budget baseline margin : ℤ) : Except Raised ℤ :=
  if margin < 0 then .error (.expertCacheError "margin must be >= 0")
  else if budget - margin - baseline < 0 then .ok (-1)
  else .ok (min (geom.experts : ℤ) ((budget - margin - baseline) / geom.bytesPerCapUnit))

end SlotGeometry

/-- `PILOT_QUEUE_DEPTH`. -/
def pilotQueueDepth : ℤ := 128

def nucExperts : ℕ := 256

def nucTopk : ℕ := 8

structure CapBand where
  lowerCap : ℤ
  upperCap : ℤ
  empty : Bool
  width : ℤ
  pilotQueueDepth : ℤ

def capBand (baseline memoryMax pilotDepth : ℤ) (geom : SlotGeometry) : Except Raised CapBand := do
  if pilotDepth < 0 then
    .error (.expertCacheError "pilot_depth must be >= 0")
  else
    let upper ← geom.maxCap memoryMax baseline 0
    let lower := pilotDepth + 1
    return ⟨lower, upper, lower > upper, max 0 (upper - lower + 1), pilotDepth⟩

/-- What stops the cache from growing. -/
inductive Mechanism where
  | engineLru
  | cgroupLimitThenSwap
  | oomKiller
deriving DecidableEq

structure Bound where
  cap : ℤ
  terminalBytes : ℤ
  memoryMax : ℤ
  ramPlusSwap : ℤ
  overMemoryMaxBytes : ℤ
  overRamPlusSwapBytes : ℤ
  fitsRam : Bool
  fitsRamPlusSwap : Bool
  boundedBy : Mechanism
  healthy : Bool

/-- The mechanism that acts first, and whether it is the engine's own. -/
def mechanism (terminal memoryMax ramPlusSwap : ℤ) : Mechanism × Bool :=
  if terminal ≤ memoryMax then (.engineLru, true)
  else if terminal ≤ ramPlusSwap then (.cgroupLimitThenSwap, false)
  else (.oomKiller, false)

def boundBy (cap baseline memoryMax swapTotal : ℤ) (geom : SlotGeometry) :
    Except Raised Bound := do
  let terminal ← geom.terminalBytes cap baseline
  let ramPlusSwap := memoryMax + swapTotal
  let (mech, healthy) := mechanism terminal memoryMax ramPlusSwap
  return ⟨cap, terminal, memoryMax, ramPlusSwap, terminal - memoryMax, terminal - ramPlusSwap,
    terminal ≤ memoryMax, terminal ≤ ramPlusSwap, mech, healthy⟩

structure CapVerdict extends Bound where
  abovePilotFloor : Bool
  inSoundBand : Bool
  band : CapBand

def capVerdict (cap baseline memoryMax swapTotal pilotDepth : ℤ) (geom : SlotGeometry) :
    Except Raised CapVerdict := do
  let out ← boundBy cap baseline memoryMax swapTotal geom
  let band ← capBand baseline memoryMax pilotDepth geom
  let above : Bool := cap > pilotDepth
  let inBand : Bool := band.lowerCap ≤ cap ∧ cap ≤ band.upperCap
  return ⟨{ out with healthy := out.healthy && above }, above, inBand, band⟩

structure Row where
  marginBytes : ℤ
  maxCap : ℤ
  terminalBytes : Option ℤ
  terminalPctOfMax : Option ℚ

/-- One pass of the loop of `plan` over the margins. -/
def row (memoryMax baseline : ℤ) (geom : SlotGeometry) (margin : ℤ) : Except Raised Row := do
  let cap ← geom.maxCap memoryMax baseline margin
  if cap ≥ 0 then
    let terminal ← geom.terminalBytes cap baseline
    let pct ← divide (100 * terminal) memoryMax
    return ⟨margin, cap, some terminal, some pct⟩
  else
    return ⟨margin, cap, none, none⟩

structure Plan where
  memoryMax : ℤ
  swapTotal : ℤ
  baseline : ℤ
  bytesPerCapUnit : ℤ
  rows : List Row
  maxCapFitsRam : ℤ
  maxCapFitsRamPlusSwap : ℤ
  boundBy : List CapVerdict
  soundBand : CapBand

/-- `sorted` of the set. -/
def sortedCaps (geom : SlotGeometry) (fitsRamPlusSwap fitsRam : ℤ) : List ℤ :=
  ({(geom.experts : ℤ), 204, fitsRamPlusSwap, fitsRam, 159} : Finset ℤ).sort (· ≤ ·)

def plan (memoryMax baseline : ℤ) (margins : List ℤ) (geom : SlotGeometry) (swapTotal : ℤ) :
    Except Raised Plan := do
  let rows ← margins.mapM (row memoryMax baseline geom)
  let fitsRamPlusSwap ← geom.maxCap (memoryMax + swapTotal) baseline 0
  let fitsRam ← geom.maxCap memoryMax baseline 0
  let verdicts ← (sortedCaps geom fitsRamPlusSwap fitsRam).mapM fun c ↦
    capVerdict c baseline memoryMax swapTotal pilotQueueDepth geom
  let band ← capBand baseline memoryMax pilotQueueDepth geom
  return ⟨memoryMax, swapTotal, baseline, geom.bytesPerCapUnit, rows, fitsRam, fitsRamPlusSwap,
    verdicts, band⟩

structure Fill where
  slotsLoaded : ℤ
  totalSlots : ℕ
  fraction : ℚ
  capEquivalent : ℚ
  bytesInSlots : ℤ

/-- One reading of the memory of the group the engine runs in. -/
structure CgroupSnapshot where
  memoryCurrent : ℕ
  anon : ℕ
  swapCurrent : ℕ
  kernel : ℕ
  file : ℕ
  memoryMax : ℕ
  anon_le : anon ≤ memoryCurrent

namespace CgroupSnapshot

variable (snap : CgroupSnapshot)

def allocatedAnon : ℕ := snap.anon + snap.swapCurrent

def nonAnonResident : ℕ :=
  if snap.kernel ≠ 0 ∨ snap.file ≠ 0 then snap.kernel + snap.file
  else snap.memoryCurrent - snap.anon

def committedBytes : ℕ := snap.allocatedAnon + snap.nonAnonResident

def headroomBytes : ℤ := snap.memoryMax - snap.committedBytes

def naiveHeadroomBytes : ℤ := snap.memoryMax - snap.memoryCurrent

end CgroupSnapshot

def fillFromCurrent (current baseline : ℤ) (geom : SlotGeometry) : Except Raised Fill :=
  if current < baseline then
    .error (.expertCacheError (s!"current {current} is below baseline {baseline}: the baseline " ++
      "must be a zero-slot reading (before the first completion of the boot)"))
  else
    let inSlots := current - baseline
    let slots : ℚ := inSlots / geom.slotBytes
    .ok ⟨round slots, geom.totalSlots, slots / geom.totalSlots, slots / geom.layers, inSlots⟩

def fillFromSnapshot (snap : CgroupSnapshot) (baseline : ℤ) (geom : SlotGeometry) :
    Except Raised Fill :=
  fillFromCurrent snap.allocatedAnon baseline geom

/-- The two functions of `math` that the fill curves use. -/
structure Curves where
  log1p : ℚ → ℚ
  exp : ℚ → ℚ
  log1p_neg : ∀ x, -1 < x → x < 0 → log1p x < 0

namespace Curves

variable (curves : Curves)

def uniformTokensForFraction (fraction : ℚ) : Except Raised ℚ :=
  if ¬(0 ≤ fraction ∧ fraction < 1) then
    .error (.expertCacheError "fraction must be in [0, 1)")
  else divide (curves.log1p (-fraction)) (nucTopk * curves.log1p (-1 / nucExperts))

def saturatingExposureForFraction (fraction : ℚ) : Except Raised ℚ :=
  if ¬(0 ≤ fraction ∧ fraction < 1) then
    .error (.expertCacheError "fraction must be in [0, 1)")
  else .ok (-curves.log1p (-fraction))

def saturatingFractionAfterExposure (exposure : ℚ) : Except Raised ℚ :=
  if exposure < 0 then .error (.expertCacheError "exposure must be >= 0")
  else .ok (1 - curves.exp (-exposure))

end Curves

structure ProbeBudget where
  headroomSlots : ℤ
  slotsPerTokenWorstCase : ℕ
  slotsPerTokenExpected : ℚ
  worstCaseTokens : ℤ
  expectedTokens : Option ℤ

def probeBudget (headroomBytes : ℤ) (fillFraction : ℚ) (geom : SlotGeometry) :
    Except Raised ProbeBudget :=
  if ¬(0 ≤ fillFraction ∧ fillFraction ≤ 1) then
    .error (.expertCacheError "fill_fraction must be in [0, 1]")
  else if headroomBytes < 0 then
    .error (.expertCacheError "headroom_bytes must be >= 0")
  else
    let slots := headroomBytes / geom.slotBytes
    let worstPerToken := geom.layers * nucTopk
    let expectedPerToken : ℚ := worstPerToken * (1 - fillFraction)
    .ok ⟨slots, worstPerToken, expectedPerToken, slots / worstPerToken,
      if expectedPerToken > 0 then some (slots / expectedPerToken).floor else none⟩

structure Saturating where
  requestsSoFar : ℚ
  exposureNow : ℚ
  exposurePerRequest : ℚ
  requestsToMemoryMax : ℚ
  fractionAfterOneMoreRequest : ℚ
  bytesAfterOneMoreRequest : ℤ

structure Uniform where
  tokensImpliedByObservedFill : ℚ
  tokensToMemoryMax : ℚ

inductive Observable where
  | anonPlusSwapCurrent
  | memoryCurrent

structure Wall where
  fill : Fill
  observable : Observable
  headroomBytes : ℤ
  naiveHeadroomBytes : ℤ
  headroomOverstatementBytes : ℤ
  headroomPctOfMax : ℚ
  slotsToMemoryMax : ℤ
  slotsToSwapExhausted : ℤ
  slotsStillUnfilled : ℤ
  terminalBytesAtCurrentCap : ℤ
  terminalOvershootBytes : ℤ
  capFitsInMemoryMax : ℤ
  fractionAtMemoryMax : ℚ
  probe : ProbeBudget
  saturating : Option Saturating
  uniform : Option Uniform

/-- The block of `wall` on another request like those already served. -/
def saturating (curves : Curves) (requestsSoFar fraction fracAtMax : ℚ) (baseline : ℤ)
    (geom : SlotGeometry) : Except Raised (Option Saturating) := do
  if requestsSoFar > 0 ∧ (0 < fraction ∧ fraction < 1) ∧ fracAtMax < 1 then
    let xNow ← curves.saturatingExposureForFraction fraction
    let xMax ← curves.saturatingExposureForFraction fracAtMax
    let perRequest ← divide xNow requestsSoFar
    let requests ← divide (xMax - xNow) perRequest
    let after ← curves.saturatingFractionAfterExposure (xNow + perRequest)
    return some ⟨requestsSoFar, xNow, perRequest, requests, after,
      baseline + geom.slotBytes * round (geom.totalSlots * after)⟩
  else
    return none

/-- The block of `wall` on uniform routing. -/
def uniform (curves : Curves) (fraction fracAtMax : ℚ) : Except Raised (Option Uniform) := do
  if 0 < fraction ∧ fraction < 1 then
    let implied ← curves.uniformTokensForFraction fraction
    let toMax ← curves.uniformTokensForFraction fracAtMax
    return some ⟨implied, toMax⟩
  else
    return none

/-- `wall`, once the observation is read. -/
def wallOf (curves : Curves) (observable : Observable) (f : Fill)
    (current headroom naiveHeadroom baseline memoryMax swapTotal : ℤ) (requestsSoFar : ℚ)
    (geom : SlotGeometry) : Except Raised Wall := do
  if headroom < 0 then
    .error (.expertCacheError s!"current {current} already exceeds memory.max {memoryMax}")
  else
    let slotsToMax := headroom / geom.slotBytes
    let slotsToSwapExhausted := (headroom + swapTotal) / geom.slotBytes
    let pct ← divide (100 * headroom) memoryMax
    let terminal ← geom.terminalBytes geom.experts baseline
    let fits ← geom.maxCap memoryMax baseline 0
    let fracAtMax : ℚ := (f.slotsLoaded + slotsToMax : ℤ) / geom.totalSlots
    let probe ← probeBudget headroom f.fraction geom
    let again ← saturating curves requestsSoFar f.fraction fracAtMax baseline geom
    let tokens ← uniform curves f.fraction fracAtMax
    return ⟨f, observable, headroom, naiveHeadroom, naiveHeadroom - headroom, pct, slotsToMax,
      slotsToSwapExhausted, geom.totalSlots - f.slotsLoaded, terminal, terminal - memoryMax, fits,
      fracAtMax, probe, again, tokens⟩

def wall (curves : Curves) (current baseline memoryMax swapTotal : ℤ) (requestsSoFar : ℚ)
    (geom : SlotGeometry) (snap : Option CgroupSnapshot) : Except Raised Wall := do
  match snap with
  | some snap =>
    let f ← fillFromSnapshot snap baseline geom
    wallOf curves .anonPlusSwapCurrent f snap.memoryCurrent snap.headroomBytes
      snap.naiveHeadroomBytes baseline snap.memoryMax swapTotal requestsSoFar geom
  | none =>
    let f ← fillFromCurrent current baseline geom
    let headroom := memoryMax - current
    wallOf curves .memoryCurrent f current headroom headroom baseline memoryMax swapTotal
      requestsSoFar geom

inductive RecommendVerdict where
  | noSoundCap
  | marginExcludesTheWholeBand
  | recommend
deriving DecidableEq

structure Recommendation where
  band : CapBand
  cap : Option ℤ
  verdict : RecommendVerdict
  /-- The baseline, the footprint, the margin it leaves and its bound. -/
  sized : Option (ℤ × ℤ × ℤ × Bound)

/-- `NUC_SWAP_TOTAL`. -/
def nucSwapTotal : ℤ := 4194300 * 1024

/-- `QWEN36_SLOT`. -/
def qwen36Slot : SlotGeometry :=
  ⟨2048, 512, 64, 40, nucExperts, by decide, by decide, by decide, by decide⟩

/-- `NUC_ALLOC_BASELINE`, the largest of the routes by disk, by commitment and by pages. -/
def nucAllocBaseline : ℤ :=
  let nonEngineCommit : ℤ := 30786464 - 29888624
  let nonEngineAnon : ℤ := 29902972 - 30326439936 / 1024
  max (23031269773 - qwen36Slot.totalSlots * qwen36Slot.packedDiskBytes)
    (max ((5476700 - nonEngineCommit) * 1024) ((4958436 - nonEngineAnon) * 1024))

def recommendCap (marginBytes : ℤ) (baseline : Option ℤ) (memoryMax : ℤ) (geom : SlotGeometry) :
    Except Raised Recommendation := do
  if marginBytes < 0 then
    .error (.expertCacheError "margin_bytes must be >= 0")
  else
    let base := baseline.getD nucAllocBaseline
    let band ← capBand base memoryMax pilotQueueDepth geom
    if band.empty then
      return ⟨band, none, .noSoundCap, none⟩
    else
      let budget := memoryMax - marginBytes - base
      let cap := min (budget / geom.bytesPerCapUnit) band.upperCap
      if cap < band.lowerCap then
        return ⟨band, none, .marginExcludesTheWholeBand, none⟩
      else
        let terminal := base + cap * geom.bytesPerCapUnit
        let bound ← boundBy cap base memoryMax nucSwapTotal geom
        return ⟨band, some cap, .recommend, some (base, terminal, memoryMax - terminal, bound)⟩

end NucLlm.Nuc
