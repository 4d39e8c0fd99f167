import NucLlm.Nuc.JournalMarks
import Mathlib.Data.List.Perm.Basic
import Mathlib.Order.Bounds.Basic
import Mathlib.Algebra.GroupWithZero.Nat

/-!
# What the union of journals keeps

The union shows every dated line as often as the capture that shows it most, in the order of time.
It is ordered by the first marks of its lines, and so a separator stands right where its first mark
lies between those of the lines around it.
-/

namespace NucLlm.Nuc

open Sorting

variable {stamp : Line → Option Instant} {marks : Line → List Mark} {shown : Line → ℕ} {st : Seen}

theorem Knows.mult_of_unmarked (h : Knows stamp marks shown st) {x : Line} (hx : marks x = []) :
    st.mult x = 0 := by
  cases hstamp : stamp x with
  | none => rw [h.mult_sep x hstamp, if_pos hx]
  | some ts =>
    rw [h.mult_dated x ts hstamp]
    exact (h.shown_iff x ts hstamp).mp hx

theorem Knows.copies (h : Knows stamp marks shown st) {x : Line} (hx : marks x ≠ []) :
    ∃ m, earliest (marks x) = some m ∧
      copiesOf st x = (List.range (st.mult x)).map fun j ↦ ⟨m, j, x⟩ := by
  obtain ⟨m, hm⟩ : ∃ m, earliest (marks x) = some m := by
    cases hm : earliest (marks x) with
    | none => exact absurd (earliest_eq_none_iff.mp hm) hx
    | some m => exact ⟨m, rfl⟩
  refine ⟨m, hm, ?_⟩
  unfold copiesOf
  rw [h.firstSeen, hm]

theorem Knows.mem_items (h : Knows stamp marks shown st) {it : Item} (hit : it ∈ itemsOf st) :
    earliest (marks it.line) = some it.mark := by
  obtain ⟨x, hx, hit⟩ := List.mem_flatMap.mp hit
  obtain ⟨m, hm, hcopies⟩ := h.copies ((h.mem_order x).mp hx)
  rw [hcopies] at hit
  obtain ⟨j, -, rfl⟩ := List.mem_map.mp hit
  exact hm

/-- The count of an element whose copies come from one place of a list without repetitions. -/
theorem sum_of_one {l : List Line} (hl : l.Nodup) {f : Line → ℕ} {x : Line}
    (hf : ∀ y ∈ l, y ≠ x → f y = 0) : (l.map f).sum = if x ∈ l then f x else 0 := by
  induction l with
  | nil => rfl
  | cons y l ih =>
    obtain ⟨hy, hl⟩ := List.nodup_cons.mp hl
    rw [List.map_cons, List.sum_cons, ih hl fun z hz ↦ hf z (List.mem_cons_of_mem y hz)]
    by_cases hxy : x = y
    · subst hxy
      rw [if_neg hy, if_pos List.mem_cons_self, Nat.add_zero]
    · rw [hf y List.mem_cons_self (fun h ↦ hxy h.symm), Nat.zero_add]
      simp [hxy]

theorem Knows.count_unionLines (h : Knows stamp marks shown st) (x : Line) :
    (unionLines st).count x = st.mult x := by
  have hperm : (unionLines st).Perm ((itemsOf st).map (·.line)) :=
    (sortedBy_perm Item.key (itemsOf st)).map _
  rw [hperm.count_eq]
  unfold itemsOf
  rw [List.map_flatMap, List.count_flatMap]
  have hcount (y : Line) (hy : y ∈ st.order) :
      ((copiesOf st y).map (·.line)).count x = if y = x then st.mult y else 0 := by
    obtain ⟨m, -, hcopies⟩ := h.copies ((h.mem_order y).mp hy)
    rw [hcopies, List.map_map]
    have hreplicate : (List.range (st.mult y)).map ((·.line) ∘ fun j ↦ (⟨m, j, y⟩ : Item)) =
        List.replicate (st.mult y) y := by
      rw [List.eq_replicate_iff]
      simp
    rw [hreplicate, List.count_replicate]
    simp
  change (st.order.map fun y ↦ ((copiesOf st y).map (·.line)).count x).sum = _
  rw [sum_of_one h.nodup fun y hy hne ↦ (hcount y hy).trans (if_neg hne)]
  split
  · rename_i hx
    exact (hcount x hx).trans (if_pos rfl)
  · rename_i hx
    rw [h.mem_order, not_not] at hx
    exact (h.mult_of_unmarked hx).symm

theorem key_mono {a b : Item} (h : a.key ≤ b.key) : a.mark ≤ b.mark := by
  unfold Item.key at h
  rcases Prod.Lex.toLex_le_toLex.mp h with hlt | ⟨heq, -⟩
  · exact hlt.le
  · exact heq.le

theorem instant_mono {a b : Mark} (h : a ≤ b) : a.instant ≤ b.instant := by
  rcases Prod.Lex.le_iff.mp h with hlt | ⟨heq, -⟩
  · exact hlt.le
  · exact heq.le

/-- The dated lines of the union are in the order of time. -/
theorem Knows.sorted (h : Knows stamp marks shown st) :
    ((unionLines st).filterMap stamp).Pairwise (· ≤ ·) := by
  unfold unionLines
  rw [List.filterMap_map, List.pairwise_filterMap]
  have hsorted := sortedBy_pairwise Item.key (itemsOf st)
  apply hsorted.imp_of_mem
  intro a b ha hb hab ts hts ts' hts'
  have hinstant (it : Item) (hit : it ∈ sortedBy Item.key (itemsOf st)) (t : Instant)
      (ht : stamp it.line = some t) : it.mark.instant = t :=
    (h.dated it.line t ht _ (earliest_mem (h.mem_items ((mem_sortedBy Item.key).mp hit)))).1
  rw [← hinstant a ha ts hts, ← hinstant b hb ts' hts']
  exact instant_mono (key_mono hab)

/-- The first mark of `x` comes before that of `y`. -/
def Sooner (marks : Line → List Mark) (x y : Line) : Prop :=
  ∀ m m', earliest (marks x) = some m → earliest (marks y) = some m' → m < m'

theorem Knows.exists_item (h : Knows stamp marks shown st) {x : Line} (hx : marks x ≠ []) :
    ∃ it ∈ itemsOf st, it.line = x := by
  obtain ⟨m, -, hcopies⟩ := h.copies hx
  have hpos : 0 < st.mult x := by
    cases hstamp : stamp x with
    | none =>
      rw [h.mult_sep x hstamp, if_neg hx]
      exact Nat.one_pos
    | some ts =>
      rw [h.mult_dated x ts hstamp]
      exact Nat.pos_of_ne_zero fun hzero ↦ hx ((h.shown_iff x ts hstamp).mpr hzero)
  refine ⟨⟨m, 0, x⟩, List.mem_flatMap.mpr ⟨x, (h.mem_order x).mpr hx, ?_⟩, rfl⟩
  rw [hcopies]
  exact List.mem_map.mpr ⟨0, List.mem_range.mpr hpos, rfl⟩

/-- A separator and a dated line never have one mark, and so they stand as their marks do. -/
theorem Knows.before_iff (h : Knows stamp marks shown st) {x y : Line} (hx : marks x ≠ [])
    (hy : marks y ≠ []) (hxy : (stamp x).isSome ≠ (stamp y).isSome) :
    Before (unionLines st) x y ↔ Sooner marks x y := by
  obtain ⟨m, hm, -⟩ := h.copies hx
  obtain ⟨m', hm', -⟩ := h.copies hy
  have hmark (z : Line) (k : Mark) (hk : earliest (marks z) = some k) (it : Item)
      (hit : it ∈ itemsOf st) (hz : it.line = z) : it.mark = k := by
    have hit' := h.mem_items hit
    rw [hz, hk] at hit'
    exact (Option.some.inj hit').symm
  have hparity (z : Line) (k : Mark) (hk : earliest (marks z) = some k) :
      k.place % 2 = if (stamp z).isSome then 1 else 0 := by
    cases hstamp : stamp z with
    | none => exact h.sep z hstamp k (earliest_mem hk)
    | some ts => exact (h.dated z ts hstamp k (earliest_mem hk)).2
  have hne : m ≠ m' := by
    rintro rfl
    have hpx := hparity x m hm
    have hpy := hparity y m hm'
    rw [hpx] at hpy
    revert hpy hxy
    cases (stamp x).isSome <;> cases (stamp y).isSome <;> simp
  have hbefore := before_sortedBy_iff (fun a b ↦ key_mono (a := a) (b := b)) hne
    (h.exists_item hx) (h.exists_item hy) (hmark x m hm) (hmark y m' hm')
  unfold unionLines
  rw [hbefore]
  constructor
  · intro hlt k k' hk hk'
    rw [hm] at hk
    rw [hm'] at hk'
    cases hk
    cases hk'
    exact hlt
  · intro hsooner
    exact hsooner m m' hm hm'

/-- A separator leaves a mark once a dated line follows it. -/
theorem marksIn_of_pending {si : ℕ} {x : Line} {li : ℕ} {pend lines : List Line}
    (hdated : ∃ line ∈ lines, (stamp line).isSome) (hx : x ∈ pend) :
    marksIn stamp si x li pend lines ≠ [] := by
  induction lines generalizing li pend with
  | nil =>
    obtain ⟨line, hline, -⟩ := hdated
    cases hline
  | cons line lines ih =>
    rw [marksIn]
    cases hstamp : stamp line with
    | none =>
      apply ih
      · obtain ⟨d, hd, hsome⟩ := hdated
        rcases List.mem_cons.mp hd with rfl | hd
        · rw [hstamp] at hsome
          cases hsome
        · exact ⟨d, hd, hsome⟩
      · exact List.mem_append_left _ hx
    | some ts =>
      have hcount : pend.count x ≠ 0 := (List.count_pos_iff.mpr hx).ne'
      simp [hcount]

/-- The last line has a date. -/
def EndsDated (stamp : Line → Option Instant) (lines : List Line) : Prop :=
  ∃ before line, lines = before ++ [line] ∧ (stamp line).isSome

theorem marksIn_ne_nil {si : ℕ} {x : Line} {li : ℕ} {pend lines : List Line}
    (hends : EndsDated stamp lines) (hx : x ∈ lines) : marksIn stamp si x li pend lines ≠ [] := by
  induction lines generalizing li pend with
  | nil => cases hx
  | cons line lines ih =>
    obtain ⟨before, last, hlines, hlast⟩ := hends
    have hrest : EndsDated stamp lines ∨ lines = [] ∧ (stamp line).isSome := by
      cases before with
      | nil =>
        obtain ⟨rfl, rfl⟩ := List.cons.inj hlines
        exact .inr ⟨rfl, hlast⟩
      | cons b before =>
        exact .inl ⟨before, last, (List.cons.inj hlines).2, hlast⟩
    rw [marksIn]
    cases hstamp : stamp line with
    | none =>
      have hends : EndsDated stamp lines := by
        rcases hrest with h | ⟨-, h⟩
        · exact h
        · rw [hstamp] at h
          cases h
      rcases List.mem_cons.mp hx with rfl | hx
      · obtain ⟨before', last', hlines', hlast'⟩ := hends
        apply marksIn_of_pending
        · exact ⟨last', by rw [hlines']; simp, hlast'⟩
        · simp
      · exact ih hends hx
    | some ts =>
      dsimp only
      rcases List.mem_cons.mp hx with rfl | hx
      · simp
      · rcases hrest with h | ⟨rfl, -⟩
        · intro hnil
          exact ih h hx (List.append_eq_nil_iff.mp hnil).2
        · cases hx

theorem marksIn_mem {si : ℕ} {x : Line} {li : ℕ} {pend lines : List Line}
    (h : marksIn stamp si x li pend lines ≠ []) : x ∈ pend ++ lines := by
  induction lines generalizing li pend with
  | nil => exact absurd rfl h
  | cons line lines ih =>
    rw [marksIn] at h
    cases hstamp : stamp line with
    | none =>
      rw [hstamp] at h
      have := ih h
      simpa using this
    | some ts =>
      rw [hstamp] at h
      dsimp only at h
      by_contra hnot
      rw [List.mem_append, List.mem_cons, not_or, not_or] at hnot
      obtain ⟨hpend, hline, hlines⟩ := hnot
      apply h
      rw [List.count_eq_zero.mpr hpend, if_neg fun heq ↦ hline heq.symm]
      by_contra hne
      have hmem := @ih (li + 1) [] (by simpa using hne)
      exact hlines (by simpa using hmem)

variable {streams : List (List Line)}

theorem marksOf_ne_nil_iff (hends : ∀ lines ∈ streams, EndsDated stamp lines) {x : Line} :
    marksOf stamp streams x ≠ [] ↔ ∃ lines ∈ streams, x ∈ lines := by
  unfold marksOf
  rw [ne_eq, List.flatMap_eq_nil_iff]
  push Not
  constructor
  · rintro ⟨⟨lines, si⟩, hmem, hne⟩
    exact ⟨lines, List.fst_mem_of_mem_zipIdx hmem, by simpa using marksIn_mem hne⟩
  · rintro ⟨lines, hmem, hx⟩
    obtain ⟨k, hk, rfl⟩ := List.getElem_of_mem hmem
    refine ⟨(streams[k], k), ?_, marksIn_ne_nil (hends _ hmem) hx⟩
    exact List.mk_mem_zipIdx_iff_getElem?.mpr (by simp [hk])

theorem most_isGreatest (hne : streams ≠ []) (x : Line) :
    IsGreatest {n | ∃ lines ∈ streams, lines.count x = n} (most streams x) := by
  have hrun (n : ℕ) (l : List (List Line)) :
      let top := l.foldl (fun k lines ↦ max k (lines.count x)) n
      (top = n ∨ ∃ lines ∈ l, lines.count x = top) ∧ n ≤ top ∧ ∀ lines ∈ l, lines.count x ≤
        top := by
    induction l generalizing n with
    | nil => simp
    | cons lines l ih =>
      obtain ⟨hmem, hle, hall⟩ := ih (max n (lines.count x))
      refine ⟨?_, (le_max_left _ _).trans hle, ?_⟩
      · rcases hmem with heq | ⟨lines', hl, hc⟩
        · rcases le_total (lines.count x) n with hn | hn
          · exact .inl (heq.trans (max_eq_left hn))
          · exact .inr ⟨lines, List.mem_cons_self, (heq.trans (max_eq_right hn)).symm⟩
        · exact .inr ⟨lines', List.mem_cons_of_mem _ hl, hc⟩
      · intro lines' hl
        rcases List.mem_cons.mp hl with rfl | hl
        · exact (le_max_right _ _).trans hle
        · exact hall lines' hl
  obtain ⟨hmem, -, hall⟩ := hrun 0 streams
  constructor
  · rcases hmem with hzero | hmem
    -- no capture shows the line
    · obtain ⟨lines, hlines⟩ := List.exists_mem_of_ne_nil _ hne
      refine ⟨lines, hlines, ?_⟩
      have := hall lines hlines
      unfold most
      omega
    · exact hmem
  · rintro n ⟨lines, hlines, rfl⟩
    exact hall lines hlines

theorem losses_isEmpty_iff {mult : Line → ℕ} :
    (multiplicityLosses streams mult).isEmpty = true ↔
      ∀ lines ∈ streams, ∀ line, lines.count line ≤ mult line := by
  unfold multiplicityLosses
  rw [List.isEmpty_iff, List.flatMap_eq_nil_iff]
  constructor
  · intro h lines hmem line
    obtain ⟨k, hk, rfl⟩ := List.getElem_of_mem hmem
    have hnil := h (streams[k], k) (List.mk_mem_zipIdx_iff_getElem?.mpr (by simp [hk]))
    by_contra hlt
    rw [not_le] at hlt
    have hline : line ∈ Lists.addNew [] streams[k] :=
      Lists.mem_addNew.mpr (.inr (List.count_pos_iff.mp (by omega)))
    have := List.filterMap_eq_nil_iff.mp hnil line hline
    rw [if_pos hlt] at this
    cases this
  · rintro h ⟨lines, si⟩ hmem
    apply List.filterMap_eq_nil_iff.mpr
    intro line _
    exact if_neg (h lines (List.fst_mem_of_mem_zipIdx hmem) line).not_gt

/-- How often a line stands in the union. -/
theorem count_union (stamp : Line → Option Instant) (streams : List (List Line)) (x : Line) :
    (unionStreams stamp streams).lines.count x =
      if (stamp x).isSome then most streams x
      else if marksOf stamp streams x = [] then 0 else 1 := by
  have h := knows_readStreams stamp streams
  have hcount := h.count_unionLines x
  cases hstamp : stamp x with
  | none => exact hcount.trans (h.mult_sep x hstamp)
  | some ts => exact hcount.trans (h.mult_dated x ts hstamp)

theorem union_perm {streams' : List (List Line)}
    (hends : ∀ lines ∈ streams, EndsDated stamp lines) (hperm : streams'.Perm streams) :
    (unionStreams stamp streams').lines.Perm (unionStreams stamp streams).lines := by
  rw [List.perm_iff_count]
  intro x
  have hends' : ∀ lines ∈ streams', EndsDated stamp lines :=
    fun lines hl ↦ hends lines (hperm.mem_iff.mp hl)
  have hmost : most streams' x = most streams x := by
    unfold most
    have hcomm : RightCommutative fun k (lines : List Line) ↦ max k (lines.count x) :=
      ⟨fun k lines lines' ↦ by omega⟩
    exact hperm.foldl_eq 0
  have hmarks : marksOf stamp streams' x = [] ↔ marksOf stamp streams x = [] := by
    rw [← not_iff_not]
    apply (marksOf_ne_nil_iff hends').trans
    rw [← ne_eq, marksOf_ne_nil_iff hends]
    simp only [hperm.mem_iff]
  rw [count_union, count_union, hmost]
  simp only [hmarks]

theorem usable_perm {captures captures' : List Capture} (h : captures'.Perm captures) :
    (usable captures').Perm (usable captures) :=
  (h.filterMap _).filter _

/-- In a capture, the lines `own` follow their separator and the lines `before` come before it. -/
def Introduces (stamp : Line → Option Instant) (lines before : List Line) (sep : Line)
    (own : List Line) : Prop :=
  ∃ rest, lines = before ++ sep :: own ++ rest ∧ stamp sep = none ∧
    ∀ line ∈ own, (stamp line).isSome

/-- What a union of journals keeps. -/
structure Union.Sound (digit : Char → Bool) (captures : List Capture) (u : Union) : Prop where
  multiplicity : ∀ line,
    IsGreatest {n | ∃ lines ∈ usable captures, lines.count line = n} (u.lines.count line)
  sorted : (u.lines.filterMap (isoLead digit)).Pairwise (· ≤ ·)
  anyOrder : ∀ captures' u', captures'.Perm captures → unionJournal digit captures' = some u' →
    u'.lines.Perm u.lines
  boots : ∀ lines ∈ usable captures, ∀ before sep own,
    Introduces (isoLead digit) lines before sep own →
      (∀ line ∈ own, Before u.lines sep line) ∧
        ∀ line ∈ before, (isoLead digit line).isSome → Before u.lines line sep
  lossless : u.dedupIsLossless = true ↔
    ∀ lines ∈ usable captures, ∀ line, lines.count line ≤ u.lines.count line

/-- A separator is shown once, after the lines before it and before its own: its first mark, by
second, capture and place, lies between their first marks. -/
structure Separated (stamp : Line → Option Instant) (streams : List (List Line)) : Prop where
  once : ∀ lines ∈ streams, ∀ sep, stamp sep = none → lines.count sep ≤ 1
  between : ∀ lines ∈ streams, ∀ before sep own, Introduces stamp lines before sep own →
    (∀ line ∈ own, Sooner (marksOf stamp streams) sep line) ∧
      ∀ line ∈ before, (stamp line).isSome → Sooner (marksOf stamp streams) line sep

theorem boots_iff (hends : ∀ lines ∈ streams, EndsDated stamp lines) {lines before own : List Line}
    {sep : Line} (hmem : lines ∈ streams) (h : Introduces stamp lines before sep own) :
    ((∀ line ∈ own, Before (unionStreams stamp streams).lines sep line) ∧
      ∀ line ∈ before, (stamp line).isSome → Before (unionStreams stamp streams).lines line sep) ↔
    (∀ line ∈ own, Sooner (marksOf stamp streams) sep line) ∧
      ∀ line ∈ before, (stamp line).isSome → Sooner (marksOf stamp streams) line sep := by
  have hknows := knows_readStreams stamp streams
  obtain ⟨rest, hlines, hsep, hown⟩ := h
  have hmarks (x : Line) (hx : x ∈ lines) : marksOf stamp streams x ≠ [] :=
    (marksOf_ne_nil_iff hends).mpr ⟨lines, hmem, hx⟩
  have hmarked : marksOf stamp streams sep ≠ [] := hmarks sep (by rw [hlines]; simp)
  have hafter (line : Line) (hline : line ∈ own) :
      Before (unionStreams stamp streams).lines sep line ↔
        Sooner (marksOf stamp streams) sep line := by
    apply hknows.before_iff hmarked (hmarks line (by rw [hlines]; simp [hline]))
    rw [hsep, hown line hline]
    simp
  have hfront (line : Line) (hline : line ∈ before) (hdated : (stamp line).isSome) :
      Before (unionStreams stamp streams).lines line sep ↔
        Sooner (marksOf stamp streams) line sep := by
    apply hknows.before_iff (hmarks line (by rw [hlines]; simp [hline])) hmarked
    rw [hsep, hdated]
    simp
  constructor
  · rintro ⟨h1, h2⟩
    exact ⟨fun line hl ↦ (hafter line hl).mp (h1 line hl),
      fun line hl hd ↦ (hfront line hl hd).mp (h2 line hl hd)⟩
  · rintro ⟨h1, h2⟩
    exact ⟨fun line hl ↦ (hafter line hl).mpr (h1 line hl),
      fun line hl hd ↦ (hfront line hl hd).mpr (h2 line hl hd)⟩

/-- The union of journals is sound exactly when every separator is shown once and marked between
the lines it parts. -/
theorem union_sound_iff {digit : Char → Bool} {captures : List Capture} {u : Union}
    (hends : ∀ lines ∈ usable captures, EndsDated (isoLead digit) lines)
    (hu : unionJournal digit captures = some u) :
    u.Sound digit captures ↔ Separated (isoLead digit) (usable captures) := by
  unfold unionJournal at hu
  split at hu
  · cases hu
  rename_i hne
  cases hu
  have hcount (x : Line) := count_union (isoLead digit) (usable captures) x
  have hgreatest (x : Line) := most_isGreatest hne x
  constructor
  · intro h
    constructor
    · intro lines hmem sep hsep
      have hle := (h.multiplicity sep).2 ⟨lines, hmem, rfl⟩
      rw [hcount sep, hsep] at hle
      simp only [Option.isSome_none, Bool.false_eq_true, if_false] at hle
      split at hle <;> omega
    · intro lines hmem before sep own hin
      exact (boots_iff hends hmem hin).mp (h.boots lines hmem before sep own hin)
  · intro h
    have hmost (x : Line) : (unionStreams (isoLead digit) (usable captures)).lines.count x =
        most (usable captures) x := by
      rw [hcount x]
      cases hstamp : isoLead digit x with
      | some ts => rfl
      | none =>
        -- a separator is shown at most once
        obtain ⟨lines, hmem, hx⟩ := (hgreatest x).1
        have honce := h.once lines hmem x hstamp
        have hall := (hgreatest x).2
        simp only [Option.isSome_none, Bool.false_eq_true, if_false]
        split
        · rename_i hnil
          by_contra hpos
          apply (not_iff_not.mpr (marksOf_ne_nil_iff hends)).mp (not_not_intro hnil)
          exact ⟨lines, hmem, List.count_pos_iff.mp (by omega)⟩
        · rename_i hmarked
          obtain ⟨lines', hmem', hx'⟩ := (marksOf_ne_nil_iff hends).mp hmarked
          have hle := hall ⟨lines', hmem', rfl⟩
          have hpos := List.count_pos_iff.mpr hx'
          omega
    constructor
    · intro line
      rw [hmost line]
      exact hgreatest line
    · exact (knows_readStreams (isoLead digit) (usable captures)).sorted
    · intro captures' u' hperm hu'
      unfold unionJournal at hu'
      split at hu'
      · cases hu'
      · cases hu'
        exact union_perm hends (usable_perm hperm)
    · intro lines hmem before sep own hin
      exact (boots_iff hends hmem hin).mpr (h.between lines hmem before sep own hin)
    · have hmult (x : Line) : (unionStreams (isoLead digit) (usable captures)).lines.count x =
          (readStreams (isoLead digit) (usable captures)).mult x :=
        (knows_readStreams (isoLead digit) (usable captures)).count_unionLines x
      simp only [hmult]
      exact losses_isEmpty_iff

/-- A journal of two boots and a capture of it that lost its front. -/
def twoBoots : List Capture :=
  let later := "2026-01-01T00:00:09 c".toList
  [⟨"r424", some ["2026-01-01T00:00:01 a".toList, "-- Boot 2 --".toList,
      "2026-01-01T00:00:05 b".toList, later]⟩, ⟨"r478", some [later]⟩, ⟨"r484", none⟩]

theorem union_sound_of_two_boots : ∃ u, unionJournal Char.isDigit twoBoots = some u ∧
    (u.Sound Char.isDigit twoBoots ↔
      Separated (isoLead Char.isDigit) (usable twoBoots)) := by
  have hends : ∀ lines ∈ usable twoBoots, EndsDated (isoLead Char.isDigit) lines := by
    intro lines hlines
    rcases List.mem_cons.mp hlines with rfl | hlines
    · exact ⟨_, _, (List.dropLast_append_getLast (by decide)).symm, by decide⟩
    · rw [List.mem_singleton.mp hlines]
      exact ⟨[], _, rfl, by decide⟩
  exact ⟨_, rfl, union_sound_iff hends rfl⟩

/-- The line that a capture without its front begins with is stamped in the second in which its
boot begins, and comes before the separator. -/
theorem line_before_its_boot :
    let line := "2026-01-01T00:00:05 c".toList
    let captures : List Capture := [⟨"r478", some [line]⟩, ⟨"r424", some
      ["2026-01-01T00:00:01 a".toList, "-- Boot 2 --".toList,
        "2026-01-01T00:00:05 b".toList, line]⟩]
    (∀ lines ∈ usable captures, EndsDated (isoLead Char.isDigit) lines) ∧
      ∃ u, unionJournal Char.isDigit captures = some u ∧ ¬u.Sound Char.isDigit captures := by
  intro line captures
  have hends : ∀ lines ∈ usable captures, EndsDated (isoLead Char.isDigit) lines := by
    intro lines hlines
    rcases List.mem_cons.mp hlines with rfl | hlines
    · exact ⟨[], _, rfl, by decide⟩
    · rw [List.mem_singleton.mp hlines]
      exact ⟨_, _, (List.dropLast_append_getLast (by decide)).symm, by decide⟩
  refine ⟨hends, _, rfl, ?_⟩
  intro hsound
  have hmem : ["2026-01-01T00:00:01 a".toList, "-- Boot 2 --".toList,
      "2026-01-01T00:00:05 b".toList, line] ∈ usable captures := by
    decide
  have hin : Introduces (isoLead Char.isDigit) ["2026-01-01T00:00:01 a".toList,
      "-- Boot 2 --".toList, "2026-01-01T00:00:05 b".toList, line]
      ["2026-01-01T00:00:01 a".toList] "-- Boot 2 --".toList
      ["2026-01-01T00:00:05 b".toList, line] :=
    ⟨[], rfl, by decide, by decide⟩
  have hbefore := hsound.boots _ hmem _ _ _ hin
  have hsooner := ((boots_iff hends hmem hin).mp hbefore).1 line (by decide)
  exact absurd (hsooner _ _ rfl rfl) (by decide)

end NucLlm.Nuc
