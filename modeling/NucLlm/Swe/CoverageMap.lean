import NucLlm.Swe.Shrink
import Mathlib.Algebra.Order.Ring.Rat
import Mathlib.Algebra.BigOperators.Group.List.Basic
import Mathlib.Algebra.GroupWithZero.Nat
import Mathlib.Algebra.Order.BigOperators.Group.List
import Mathlib.Data.List.Sort

/-!
# Suites restricted by a coverage map

A mutant is run under the units whose tests executed one of its lines, cheapest first, if the map
says so and the subject is as it was when the map was collected.  The map records hashes of the
suite as well.
-/

namespace NucLlm.Swe.CoverageMap

local instance lawfulText : LawfulBEq Text := inferInstance

/-! ## The map -/

/-- A map by units, which are test files or test ids: the hits of each line of a file under each
unit.  `H` is the type of the hashes. -/
structure CovMap (H : Type) where
  hits : List (Text × List (Text × List (ℕ × ℕ)))
  files : List Text
  fileHashes : Option (List (Text × Option H))
  suiteHashes : List (Text × H)
  durations : List (Text × ℚ)
  distinct : ∀ f ∈ hits, (f.2.map Prod.fst).Nodup

variable {H : Type}

/-- The last line of a node. -/
def lastLine (line : ℕ) : Option ℕ → ℕ
  | some e => if e ≠ 0 ∧ line ≤ e then e else line
  | none => line

def unitHits (lines : List (ℕ × ℕ)) (line hi : ℕ) : ℕ :=
  ((List.range' line (hi + 1 - line)).map fun ln ↦ (lines.lookup ln).getD 0).sum

/-- `covering_files`. -/
def coveringFiles (cov : CovMap H) (rel : Text) (line : ℕ) (endLine : Option ℕ) :
    List (Text × ℕ) :=
  ((cov.hits.lookup rel).getD []).filterMap fun u ↦
    let n := unitHits u.2 line (lastLine line endLine)
    if n ≠ 0 then some (u.1, n) else none

/-- The hash of a file on disk, if it can be read. -/
abbrev Disk (H : Type) := Text → Option H

/-- Whether a file is not what it was when the map was collected. -/
def isStale [DecidableEq H] (cov : CovMap H) (disk : Disk H) (rel : Text) : Bool :=
  match cov.fileHashes with
  | none => true
  | some hashes =>
    match (hashes.lookup rel).join, disk rel with
    | some want, some got => want ≠ got
    | _, _ => true

/-- `stale_files`. -/
def staleFiles [DecidableEq H] (cov : CovMap H) (disk : Disk H) : List Text :=
  cov.files.filter (isStale cov disk)

/-! ## `MapPrioritizer` -/

structure Settings where
  subset : Bool
  requireFresh : Bool
  rootGiven : Bool
  durations : Option (List (Text × ℚ))

structure MapPrioritizer (H : Type) where
  map : CovMap H
  testFiles : List Text
  durations : List (Text × ℚ)
  stale : List Text
  subset : Bool

/-- `MapPrioritizer.__init__`. -/
def MapPrioritizer.make [DecidableEq H] (cov : CovMap H) (testFiles : List Text) (s : Settings)
    (disk : Disk H) : MapPrioritizer H :=
  let stale := if s.subset ∧ s.requireFresh ∧ s.rootGiven then staleFiles cov disk else []
  ⟨cov, testFiles, s.durations.getD cov.durations, stale, s.subset && stale.isEmpty⟩

structure Mutant where
  path : Text
  lineno : ℕ
  endLineno : Option ℕ

namespace MapPrioritizer

variable (p : MapPrioritizer H)

/-- `sorted(units, key=self._cost)`: a unit without a duration comes last. -/
def byCost (units : List Text) : List Text :=
  units.mergeSort fun a b ↦
    match p.durations.lookup a, p.durations.lookup b with
    | some x, some y => x ≤ y
    | none, some _ => false
    | _, none => true

def synthetic (unit : Text) : Bool := unit.head? = some '<'

def covering (path : Text) (line : ℕ) (endLine : Option ℕ) : List Text :=
  let hits := (coveringFiles p.map path line endLine).map Prod.fst
  if hits.any synthetic then p.byCost p.testFiles
  else p.byCost (hits.filter fun f ↦ f ∈ p.testFiles)

inductive Basis where
  | subset
  | full
deriving DecidableEq

def filesFor (m : Mutant) : List Text × Basis :=
  let cov := p.covering m.path m.lineno m.endLineno
  if p.subset ∧ cov ≠ [] then (cov, .subset)
  else (cov ++ p.byCost (p.testFiles.filter fun f ↦ f ∉ cov), .full)

def cmdFor (m : Mutant) (baseCmd : List Text) : List Text := baseCmd.dropLast ++ (p.filesFor m).1

end MapPrioritizer

/-! ## What the map says -/

/-- The last line of a mutant's node. -/
def Mutant.last (m : Mutant) : ℕ := lastLine m.lineno m.endLineno

/-- The recorded run of a unit executed a line of the mutated node. -/
def Executed (cov : CovMap H) (m : Mutant) (unit : Text) : Prop :=
  ∃ lines, (unit, lines) ∈ (cov.hits.lookup m.path).getD [] ∧
    ∃ ln, m.lineno ≤ ln ∧ ln ≤ m.last ∧ (lines.lookup ln).getD 0 ≠ 0

/-- A line of the node was executed at import or between tests. -/
def OutsideTests (cov : CovMap H) (m : Mutant) : Prop :=
  ∃ unit, MapPrioritizer.synthetic unit = true ∧ Executed cov m unit

/-- The file of a test id. -/
def unitFile : Text → Text
  | ':' :: ':' :: _ => []
  | c :: cs => c :: unitFile cs
  | [] => []

/-- The recorded hashes are those of the mutated file and of the files of all units. -/
def Matches [DecidableEq H] (cov : CovMap H) (testFiles : List Text) (disk : Disk H) (m : Mutant) :
    Prop :=
  isStale cov disk m.path = false ∧
    ∀ u ∈ testFiles, ∃ h, cov.suiteHashes.lookup (unitFile u) = some h ∧ disk (unitFile u) = some h

theorem unitHits_ne_zero {lines : List (ℕ × ℕ)} {line hi : ℕ} :
    unitHits lines line hi ≠ 0 ↔ ∃ ln, line ≤ ln ∧ ln ≤ hi ∧ (lines.lookup ln).getD 0 ≠ 0 := by
  unfold unitHits
  rw [ne_eq, List.sum_eq_zero_iff]
  simp only [List.mem_map, List.mem_range'_1, forall_exists_index, and_imp, not_forall]
  constructor
  · rintro ⟨n, ln, hline, hhi, rfl, hn⟩
    exact ⟨ln, hline, by omega, hn⟩
  · rintro ⟨ln, hline, hhi, hn⟩
    exact ⟨_, ln, hline, by omega, rfl, hn⟩

theorem mem_coveringFiles {cov : CovMap H} {m : Mutant} {u : Text} :
    u ∈ (coveringFiles cov m.path m.lineno m.endLineno).map Prod.fst ↔ Executed cov m u := by
  unfold coveringFiles
  simp only [List.mem_map, List.mem_filterMap]
  constructor
  · rintro ⟨⟨u', n⟩, ⟨⟨unit, lines⟩, hmem, hsome⟩, rfl⟩
    split at hsome
    · rename_i hn
      cases hsome
      exact ⟨lines, hmem, unitHits_ne_zero.mp hn⟩
    · cases hsome
  · rintro ⟨lines, hmem, hn⟩
    refine ⟨(u, unitHits lines m.lineno m.last), ⟨(u, lines), hmem, ?_⟩, rfl⟩
    exact if_pos (unitHits_ne_zero.mpr hn)

theorem coveringFiles_nodup (cov : CovMap H) (rel : Text) (line : ℕ) (endLine : Option ℕ) :
    ((coveringFiles cov rel line endLine).map Prod.fst).Nodup := by
  have hdistinct : (((cov.hits.lookup rel).getD []).map Prod.fst).Nodup := by
    cases hlookup : cov.hits.lookup rel with
    | none => exact List.nodup_nil
    | some units =>
      obtain ⟨before, after, hhits, -⟩ := List.lookup_eq_some_iff.mp hlookup
      exact cov.distinct (rel, units) (by simp [hhits])
  refine hdistinct.sublist ?_
  unfold coveringFiles
  generalize (cov.hits.lookup rel).getD [] = units
  induction units with
  | nil => exact List.Sublist.refl _
  | cons u units ih =>
    rw [List.filterMap_cons, List.map_cons]
    dsimp only
    split
    · exact ih.cons _
    · rename_i hu
      split at hu
      · cases hu
        exact ih.cons_cons _
      · cases hu

namespace MapPrioritizer

variable (p : MapPrioritizer H)

theorem byCost_perm (units : List Text) : (p.byCost units).Perm units := List.mergeSort_perm _ _

theorem any_synthetic {m : Mutant} :
    ((coveringFiles p.map m.path m.lineno m.endLineno).map Prod.fst).any synthetic = true ↔
      OutsideTests p.map m := by
  rw [List.any_eq_true]
  constructor
  · rintro ⟨u, hmem, hu⟩
    exact ⟨u, hu, mem_coveringFiles.mp hmem⟩
  · rintro ⟨u, hu, hexecuted⟩
    exact ⟨u, mem_coveringFiles.mpr hexecuted, hu⟩

/-- The units that cover a mutant. -/
theorem mem_covering {m : Mutant} {u : Text} :
    u ∈ p.covering m.path m.lineno m.endLineno ↔
      u ∈ p.testFiles ∧ (OutsideTests p.map m ∨ Executed p.map m u) := by
  unfold covering
  dsimp only
  split
  · rename_i hany
    rw [(p.byCost_perm _).mem_iff]
    exact (and_iff_left (.inl (p.any_synthetic.mp hany))).symm
  · rename_i hany
    rw [(p.byCost_perm _).mem_iff, List.mem_filter, mem_coveringFiles, decide_eq_true_iff,
      or_iff_right fun h ↦ hany (p.any_synthetic.mpr h)]
    exact And.comm

theorem covering_nodup (hunits : p.testFiles.Nodup) (m : Mutant) :
    (p.covering m.path m.lineno m.endLineno).Nodup := by
  unfold covering
  dsimp only
  split
  · exact (p.byCost_perm _).nodup_iff.mpr hunits
  · exact (p.byCost_perm _).nodup_iff.mpr ((coveringFiles_nodup _ _ _ _).filter _)

theorem filesFor_cases (m : Mutant) :
    (p.subset = true ∧ p.covering m.path m.lineno m.endLineno ≠ [] ∧
      p.filesFor m = (p.covering m.path m.lineno m.endLineno, .subset)) ∨
    (¬ (p.subset = true ∧ p.covering m.path m.lineno m.endLineno ≠ []) ∧
      p.filesFor m = (p.covering m.path m.lineno m.endLineno ++ p.byCost (p.testFiles.filter
        fun f ↦ f ∉ p.covering m.path m.lineno m.endLineno), .full)) := by
  unfold filesFor
  dsimp only
  split
  · rename_i h
    exact .inl ⟨h.1, h.2, rfl⟩
  · rename_i h
    exact .inr ⟨h, rfl⟩

/-- The suite in full: the covering units come first. -/
theorem full_perm (hunits : p.testFiles.Nodup) (m : Mutant) :
    (p.covering m.path m.lineno m.endLineno ++ p.byCost (p.testFiles.filter
      fun f ↦ f ∉ p.covering m.path m.lineno m.endLineno)).Perm p.testFiles := by
  have hrest := p.byCost_perm (p.testFiles.filter
    fun f ↦ f ∉ p.covering m.path m.lineno m.endLineno)
  refine (List.perm_ext_iff_of_nodup ?_ hunits).mpr fun u ↦ ?_
  · refine List.nodup_append'.mpr ⟨p.covering_nodup hunits m, ?_, ?_⟩
    · exact hrest.nodup_iff.mpr (hunits.filter _)
    · intro u hu hmem
      have hnot := (List.mem_filter.mp (hrest.mem_iff.mp hmem)).2
      exact of_decide_eq_true hnot hu
  · rw [List.mem_append, hrest.mem_iff, List.mem_filter, decide_eq_true_iff]
    constructor
    · rintro (hu | ⟨hu, -⟩)
      · exact ((p.mem_covering).mp hu).1
      · exact hu
    · intro hu
      by_cases hcov : u ∈ p.covering m.path m.lineno m.endLineno
      · exact .inl hcov
      · exact .inr ⟨hu, hcov⟩

end MapPrioritizer

/-! ## Restriction -/

variable [DecidableEq H]

/-- What a restricted suite must be. -/
structure Sound (p : MapPrioritizer H) (disk : Disk H) (m : Mutant) (baseCmd : List Text) :
    Prop where
  fresh : (p.filesFor m).2 = .subset → Matches p.map p.testFiles disk m
  complete : (p.filesFor m).2 = .subset →
    ∀ u ∈ p.testFiles, OutsideTests p.map m ∨ Executed p.map m u → u ∈ (p.filesFor m).1
  full : (p.filesFor m).2 = .full → (p.filesFor m).1.Perm p.testFiles
  once : p.cmdFor m baseCmd = baseCmd.dropLast ++ (p.filesFor m).1 ∧ (p.filesFor m).1.Nodup ∧
    (p.filesFor m).1 ⊆ p.testFiles

/-- The suite is restricted: that is asked for, no listed file has changed as far as that is to be
checked, and a unit of the suite covers the mutant. -/
def Restricts (cov : CovMap H) (testFiles : List Text) (s : Settings) (disk : Disk H)
    (m : Mutant) : Prop :=
  s.subset = true ∧
    (s.requireFresh = true → s.rootGiven = true → ∀ rel ∈ cov.files, isStale cov disk rel = false) ∧
    ∃ u ∈ testFiles, OutsideTests cov m ∨ Executed cov m u

theorem subset_make {cov : CovMap H} {testFiles : List Text} {s : Settings} {disk : Disk H} :
    (MapPrioritizer.make cov testFiles s disk).subset = true ↔ s.subset = true ∧
      (s.requireFresh = true → s.rootGiven = true →
        ∀ rel ∈ cov.files, isStale cov disk rel = false) := by
  unfold MapPrioritizer.make
  dsimp only
  rw [Bool.and_eq_true, List.isEmpty_iff]
  refine and_congr_right fun hsubset ↦ ?_
  by_cases hcheck : s.requireFresh = true ∧ s.rootGiven = true
  · rw [if_pos ⟨hsubset, hcheck⟩, staleFiles, List.filter_eq_nil_iff]
    simp [hcheck]
  · rw [if_neg fun h ↦ hcheck h.2]
    exact iff_of_true rfl fun hfresh hroot ↦ absurd ⟨hfresh, hroot⟩ hcheck

theorem restricts_iff {cov : CovMap H} {testFiles : List Text} {s : Settings} {disk : Disk H}
    {m : Mutant} :
    ((MapPrioritizer.make cov testFiles s disk).filesFor m).2 = .subset ↔
      Restricts cov testFiles s disk m := by
  let p := MapPrioritizer.make cov testFiles s disk
  have hcov : p.covering m.path m.lineno m.endLineno ≠ [] ↔
      ∃ u ∈ testFiles, OutsideTests cov m ∨ Executed cov m u := by
    constructor
    · intro hne
      obtain ⟨u, hu⟩ := List.exists_mem_of_ne_nil _ hne
      exact ⟨u, p.mem_covering.mp hu⟩
    · rintro ⟨u, hu⟩
      exact List.ne_nil_of_mem (p.mem_covering.mpr hu)
  have htaken : (p.filesFor m).2 = .subset ↔
      p.subset = true ∧ p.covering m.path m.lineno m.endLineno ≠ [] := by
    rcases p.filesFor_cases m with ⟨hsubset, hne, hfiles⟩ | ⟨hnot, hfiles⟩
    · rw [hfiles]
      exact iff_of_true rfl ⟨hsubset, hne⟩
    · rw [hfiles]
      exact iff_of_false nofun hnot
  rw [htaken, subset_make, hcov]
  exact and_assoc

/-- Restricting the suite is sound exactly if the recorded hashes, those of the suite too, match
whenever the suite is restricted. -/
theorem restriction_sound_iff (cov : CovMap H) {testFiles : List Text} (hunits : testFiles.Nodup)
    (s : Settings) (disk : Disk H) (m : Mutant) (baseCmd : List Text) :
    Sound (MapPrioritizer.make cov testFiles s disk) disk m baseCmd ↔
      (Restricts cov testFiles s disk m → Matches cov testFiles disk m) := by
  constructor
  · exact fun h hrestricts ↦ h.fresh (restricts_iff.mpr hrestricts)
  · intro h
    have hcases := (MapPrioritizer.make cov testFiles s disk).filesFor_cases m
    refine ⟨fun hsubset ↦ h (restricts_iff.mp hsubset), fun hsubset u hu hcovers ↦ ?_,
      fun hfull ↦ ?_, rfl, ?_⟩
    · rcases hcases with ⟨-, -, hfiles⟩ | ⟨-, hfiles⟩
      · rw [hfiles]
        exact (MapPrioritizer.mem_covering _).mpr ⟨hu, hcovers⟩
      · rw [hfiles] at hsubset
        cases hsubset
    · rcases hcases with ⟨-, -, hfiles⟩ | ⟨-, hfiles⟩
      · rw [hfiles] at hfull
        cases hfull
      · rw [hfiles]
        exact MapPrioritizer.full_perm _ hunits m
    · rcases hcases with ⟨-, -, hfiles⟩ | ⟨-, hfiles⟩
      · rw [hfiles]
        exact ⟨MapPrioritizer.covering_nodup _ hunits m,
          fun u hu ↦ ((MapPrioritizer.mem_covering _).mp hu).1⟩
      · rw [hfiles]
        have hperm := MapPrioritizer.full_perm (MapPrioritizer.make cov testFiles s disk) hunits m
        exact ⟨hperm.nodup_iff.mpr hunits, hperm.subset⟩

def movedSuite : CovMap ℕ where
  hits := [("m.py".toList, [("tests/test_a.py".toList, [(3, 1)])])]
  files := ["m.py".toList]
  fileHashes := some [("m.py".toList, some 1)]
  suiteHashes := [("tests/test_a.py".toList, 2), ("tests/test_b.py".toList, 2)]
  durations := []
  distinct := by decide

def suite : List Text := ["tests/test_a.py".toList, "tests/test_b.py".toList]

theorem suite_nodup : suite.Nodup := by decide

def restricting : Settings := ⟨true, true, true, none⟩

def lineThree : Mutant := ⟨"m.py".toList, 3, none⟩

def sameDisk : Disk ℕ := fun f ↦ some (if f = "m.py".toList then 1 else 2)

theorem sameDisk_sound :
    Sound (MapPrioritizer.make movedSuite suite restricting sameDisk) sameDisk lineThree
      ["pytest".toList, "tests".toList] := by
  refine (restriction_sound_iff movedSuite suite_nodup restricting sameDisk lineThree _).mpr ?_
  intro _
  refine ⟨by decide, fun u hu ↦ ⟨2, ?_⟩⟩
  simp only [suite, List.mem_cons, List.not_mem_nil, or_false] at hu
  rcases hu with rfl | rfl
  · decide
  · decide

def editedDisk : Disk ℕ := fun f ↦ some (if f = "m.py".toList then 1 else 3)

/-- The tests were edited after the map was collected, and the suite is restricted all the same. -/
theorem edited_suite_restricted :
    ((MapPrioritizer.make movedSuite suite restricting editedDisk).filesFor lineThree) =
      (["tests/test_a.py".toList], .subset) ∧
    ¬ Sound (MapPrioritizer.make movedSuite suite restricting editedDisk) editedDisk lineThree
      ["pytest".toList, "tests".toList] := by
  have hfiles : ((MapPrioritizer.make movedSuite suite restricting editedDisk).filesFor lineThree) =
      (["tests/test_a.py".toList], .subset) := by decide +kernel
  refine ⟨hfiles, fun h ↦ ?_⟩
  obtain ⟨-, hsuite⟩ := h.fresh (by rw [hfiles])
  obtain ⟨hash, hrecorded, hdisk⟩ := hsuite "tests/test_a.py".toList (by decide)
  have htwo : hash = 2 := Option.some.inj (hrecorded.symm.trans (by decide))
  have hthree : hash = 3 := Option.some.inj (hdisk.symm.trans (by decide))
  omega

end NucLlm.Swe.CoverageMap
