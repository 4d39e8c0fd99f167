import NucLlm.Nuc.JournalMarks
import NucLlm.Nuc.SarSection

/-!
# What the merge of readings keeps

The merged text is split again and shows the row of the first reading under every stamp; no conflict
is listed exactly when the readings agree, and then it shows the rows of them all.
-/

namespace NucLlm.Nuc

open Sorting

/-- A line without an end of line in it. -/
def Unbroken (line : Line) : Prop := ∀ c ∈ line, c ∉ lineBreaks

theorem splitLinesFrom_other {c : Char} (hc : c ∉ lineBreaks) (line rest : List Char) :
    splitLinesFrom line (c :: rest) = splitLinesFrom (line ++ [c]) rest := by
  have hr : c ≠ '\r' := by
    rintro rfl
    exact hc (by decide)
  rw [splitLinesFrom, if_neg hc]
  rintro rest' rfl _
  exact hr rfl

theorem splitLinesFrom_newline (line rest : List Char) :
    splitLinesFrom line ('\n' :: rest) = line :: splitLinesFrom [] rest := by
  rw [splitLinesFrom, if_pos (by decide)]
  rintro rest' h _
  cases h

theorem splitLinesFrom_append {l : List Char} (hl : Unbroken l) (line rest : List Char) :
    splitLinesFrom line (l ++ rest) = splitLinesFrom (line ++ l) rest := by
  induction l generalizing line with
  | nil => rw [List.nil_append, List.append_nil]
  | cons c l ih =>
    rw [List.cons_append, splitLinesFrom_other (hl c List.mem_cons_self),
      ih fun d hd ↦ hl d (List.mem_cons_of_mem c hd), List.append_assoc]
    rfl

theorem unbroken_of_splitLinesFrom {line text : List Char} (hline : Unbroken line) :
    ∀ l ∈ splitLinesFrom line text, Unbroken l := by
  induction line, text using splitLinesFrom.induct with
  | case1 =>
    intro l hl
    rw [splitLinesFrom] at hl
    cases hl
  | case2 line hne =>
    intro l hl
    rw [splitLinesFrom, List.mem_singleton] at hl
    · rw [hl]
      exact hline
    · exact hne
  | case3 line rest ih =>
    intro l hl
    rw [splitLinesFrom, List.mem_cons] at hl
    rcases hl with rfl | hl
    · exact hline
    · exact ih (fun c hc ↦ by cases hc) l hl
  | case4 line c rest hcrlf hc ih =>
    intro l hl
    rw [splitLinesFrom, if_pos hc, List.mem_cons] at hl
    · rcases hl with rfl | hl
      · exact hline
      · exact ih (fun c hc ↦ by cases hc) l hl
    · exact hcrlf
  | case5 line c rest hcrlf hc ih =>
    intro l hl
    rw [splitLinesFrom, if_neg hc] at hl
    · refine ih ?_ l hl
      intro d hd
      rcases List.mem_append.mp hd with hd | hd
      · exact hline d hd
      · rw [List.mem_singleton.mp hd]
        exact hc
    · exact hcrlf

theorem unbroken_of_splitlines {text : List Char} : ∀ l ∈ splitlines text, Unbroken l :=
  unbroken_of_splitLinesFrom fun c hc ↦ by cases hc

/-- Joined lines are split again, but for an empty last line. -/
theorem splitlines_intercalate {out : List Line} (h : ∀ l ∈ out, Unbroken l) :
    splitlines (['\n'].intercalate out) = out ∨
      splitlines (['\n'].intercalate out) ++ [[]] = out := by
  unfold splitlines
  induction out with
  | nil => exact .inl rfl
  | cons l out ih =>
    have hl := h l List.mem_cons_self
    cases out with
    | nil =>
      have hone : ['\n'].intercalate [l] = l ++ [] := by simp
      rw [hone, splitLinesFrom_append hl]
      cases l with
      | nil => exact .inr rfl
      | cons c l => exact .inl rfl
    | cons l' out =>
      have hrest := ih fun x hx ↦ h x (List.mem_cons_of_mem l hx)
      have hcons : ['\n'].intercalate (l :: l' :: out) =
          l ++ '\n' :: ['\n'].intercalate (l' :: out) := by simp [List.intercalate]
      rw [hcons, splitLinesFrom_append hl, splitLinesFrom_newline, List.nil_append]
      rcases hrest with heq | heq
      · exact .inl (congrArg (l :: ·) heq)
      · exact .inr (congrArg (l :: ·) heq)

/-- A line as `split_section` keeps it. -/
def Kept (g : Glyphs) (kind : Kind) (line : Line) : Prop :=
  Unbroken line ∧ g.rstrip line = line ∧ classify g line = kind

/-- What the lines of a section are. -/
structure Section.Wf (g : Glyphs) (p : Section) : Prop where
  preamble : ∀ l ∈ p.preamble, Kept g .text l
  row : ∀ stamp row, p.rows stamp = some row → Kept g (.data stamp row.fields) row.line
  restarts : ∀ stamp row, p.rows stamp = some row → ∀ l ∈ row.restartBefore, Kept g .restart l
  pending : ∀ l ∈ p.trailingRestart, Kept g .restart l
  mem_order : ∀ stamp, stamp ∈ p.order ↔ (p.rows stamp).isSome
  nodup : p.order.Nodup

theorem rstrip_kept (g : Glyphs) {raw : Line} (h : Unbroken raw) :
    Kept g (classify g (g.rstrip raw)) (g.rstrip raw) := by
  refine ⟨?_, List.rdropWhile_idempotent _ _, rfl⟩
  intro c hc
  exact h c ((List.rdropWhile_prefix g.space raw).subset hc)

theorem Scan.step_wf {g : Glyphs} {st : Scan} (h : st.toSection.Wf g) {raw : Line}
    (hraw : Unbroken raw) : (st.step g raw).toSection.Wf g := by
  have hkept := rstrip_kept g hraw
  unfold Scan.step
  dsimp only
  cases hkind : classify g (g.rstrip raw) with
  | text =>
    rw [hkind] at hkept
    dsimp only
    split
    · exact ⟨h.preamble, h.row, h.restarts, h.pending, h.mem_order, h.nodup⟩
    · refine ⟨?_, h.row, h.restarts, h.pending, h.mem_order, h.nodup⟩
      intro l hl
      rcases List.mem_append.mp hl with hl | hl
      · exact h.preamble l hl
      · rw [List.mem_singleton.mp hl]
        exact hkept
  | restart =>
    rw [hkind] at hkept
    refine ⟨h.preamble, h.row, h.restarts, ?_, h.mem_order, h.nodup⟩
    intro l hl
    rcases List.mem_append.mp hl with hl | hl
    · exact h.pending l hl
    · rw [List.mem_singleton.mp hl]
      exact hkept
  | data stamp fields =>
    rw [hkind] at hkept
    -- the new row is the one under its stamp
    have hrows (stamp' : List Char) (row : SarRow)
        (hrow : update st.rows stamp (some ⟨g.rstrip raw, st.trailingRestart, fields⟩) stamp' =
          some row) : stamp' = stamp ∧ row = ⟨g.rstrip raw, st.trailingRestart, fields⟩ ∨
            st.rows stamp' = some row := by
      unfold update at hrow
      split at hrow
      · rename_i hstamp
        exact .inl ⟨hstamp, (Option.some.inj hrow).symm⟩
      · exact .inr hrow
    constructor
    · exact h.preamble
    · intro stamp' row hrow
      rcases hrows stamp' row hrow with ⟨rfl, rfl⟩ | hold
      · exact hkept
      · exact h.row stamp' row hold
    · intro stamp' row hrow
      rcases hrows stamp' row hrow with ⟨rfl, rfl⟩ | hold
      · exact h.pending
      · exact h.restarts stamp' row hold
    · intro l hl
      cases hl
    · intro stamp'
      dsimp only
      unfold update
      by_cases hstamp : stamp' = stamp
      · subst hstamp
        rw [if_pos rfl]
        apply iff_of_true
        · cases hnone : st.rows stamp' with
          | none => simp
          | some row =>
            have := (h.mem_order stamp').mpr (by rw [hnone]; rfl)
            simpa using this
        · rfl
      · rw [if_neg hstamp, ← h.mem_order stamp']
        split <;> simp [hstamp]
    · dsimp only
      split
      · rename_i hnone
        rw [← List.concat_eq_append]
        apply h.nodup.concat
        rw [h.mem_order stamp]
        simpa using hnone
      · exact h.nodup

theorem splitSection_wf (g : Glyphs) (body : List Char) : (splitSection g body).Wf g := by
  have hrun (lines : List Line) (hlines : ∀ l ∈ lines, Unbroken l) (st : Scan)
      (h : st.toSection.Wf g) : (lines.foldl (Scan.step g) st).toSection.Wf g := by
    induction lines generalizing st with
    | nil => exact h
    | cons l lines ih =>
      exact ih (fun x hx ↦ hlines x (List.mem_cons_of_mem l hx)) _
        (Scan.step_wf h (hlines l List.mem_cons_self))
  apply hrun _ unbroken_of_splitlines
  constructor
  · intro l hl
    cases hl
  · intro stamp row hrow
    cases hrow
  · intro stamp row hrow
    cases hrow
  · intro l hl
    cases hl
  · intro stamp
    simp [Scan.empty]
  · exact List.nodup_nil

/-! ### Splitting what was merged -/

section

variable {g : Glyphs}

theorem step_text {l : Line} (h : Kept g .text l) (st : Scan) :
    (st.step g l).rows = st.rows ∧ (st.step g l).order = st.order ∧
      (st.step g l).trailingRestart = st.trailingRestart := by
  obtain ⟨-, hstrip, hkind⟩ := h
  unfold Scan.step
  dsimp only
  rw [hstrip, hkind]
  dsimp only
  split <;> exact ⟨rfl, rfl, rfl⟩

theorem foldl_text {lines : List Line} (h : ∀ l ∈ lines, Kept g .text l) (st : Scan) :
    (lines.foldl (Scan.step g) st).rows = st.rows ∧
      (lines.foldl (Scan.step g) st).order = st.order ∧
        (lines.foldl (Scan.step g) st).trailingRestart = st.trailingRestart := by
  induction lines generalizing st with
  | nil => exact ⟨rfl, rfl, rfl⟩
  | cons l lines ih =>
    obtain ⟨hrows, horder, hpending⟩ := step_text (h l List.mem_cons_self) st
    obtain ⟨h1, h2, h3⟩ := ih (fun x hx ↦ h x (List.mem_cons_of_mem l hx)) (st.step g l)
    exact ⟨h1.trans hrows, h2.trans horder, h3.trans hpending⟩

theorem foldl_restart {lines : List Line} (h : ∀ l ∈ lines, Kept g .restart l) (st : Scan) :
    lines.foldl (Scan.step g) st =
      { st with trailingRestart := st.trailingRestart ++ lines } := by
  induction lines generalizing st with
  | nil => simp
  | cons l lines ih =>
    obtain ⟨-, hstrip, hkind⟩ := h l List.mem_cons_self
    have hstep : st.step g l = { st with trailingRestart := st.trailingRestart ++ [l] } := by
      unfold Scan.step
      dsimp only
      rw [hstrip, hkind]
    rw [List.foldl_cons, hstep, ih fun x hx ↦ h x (List.mem_cons_of_mem l hx)]
    simp

theorem foldl_block {stamp : List Char} {row : SarRow}
    (hrow : Kept g (.data stamp row.fields) row.line)
    (hrestarts : ∀ l ∈ row.restartBefore, Kept g .restart l) {st : Scan}
    (hpending : st.trailingRestart = []) (hnew : st.rows stamp = none) :
    (row.restartBefore ++ [row.line]).foldl (Scan.step g) st =
      { st with
        seenData := true
        order := st.order ++ [stamp]
        rows := update st.rows stamp (some row)
        trailingRestart := [] } := by
  obtain ⟨-, hstrip, hkind⟩ := hrow
  rw [List.foldl_append, foldl_restart hrestarts, List.foldl_cons, List.foldl_nil]
  unfold Scan.step
  dsimp only
  rw [hstrip, hkind, hpending]
  dsimp only
  rw [if_pos (by rw [hnew]; rfl)]
  rfl

/-- The stamps of a list, each with its row. -/
theorem foldl_blocks (rows : List Char → Option SarRow) {stamps : List (List Char)}
    (hnodup : stamps.Nodup) (hsome : ∀ stamp ∈ stamps, (rows stamp).isSome)
    (hrow : ∀ stamp row, rows stamp = some row → Kept g (.data stamp row.fields) row.line)
    (hrestarts : ∀ stamp row, rows stamp = some row → ∀ l ∈ row.restartBefore, Kept g .restart l)
    {st : Scan} (hpending : st.trailingRestart = [])
    (hnew : ∀ stamp ∈ stamps, st.rows stamp = none) :
    let st' := (stamps.flatMap fun stamp ↦ match rows stamp with
      | none => []
      | some row => row.restartBefore ++ [row.line]).foldl (Scan.step g) st
    st'.order = st.order ++ stamps ∧
      ∀ stamp, st'.rows stamp = if stamp ∈ stamps then rows stamp else st.rows stamp := by
  induction stamps generalizing st with
  | nil => simp
  | cons stamp stamps ih =>
    obtain ⟨hnot, hnodup⟩ := List.nodup_cons.mp hnodup
    obtain ⟨row, hstamp⟩ := Option.isSome_iff_exists.mp (hsome stamp List.mem_cons_self)
    dsimp only
    rw [List.flatMap_cons, List.foldl_append, hstamp]
    dsimp only
    rw [foldl_block (hrow stamp row hstamp) (hrestarts stamp row hstamp) hpending
      (hnew stamp List.mem_cons_self)]
    have hnew' : ∀ x ∈ stamps, update st.rows stamp (some row) x = none := by
      intro x hx
      have hne : x ≠ stamp := by
        rintro rfl
        exact hnot hx
      exact (update_ne _ _ hne).trans (hnew x (List.mem_cons_of_mem stamp hx))
    let next : Scan :=
      ⟨⟨st.preamble, update st.rows stamp (some row), st.order ++ [stamp], st.tail, []⟩, true⟩
    have hnext : next.trailingRestart = [] := rfl
    obtain ⟨horder, hrows⟩ := ih hnodup (fun x hx ↦ hsome x (List.mem_cons_of_mem stamp hx)) hnext
      hnew'
    constructor
    · rw [horder, List.append_assoc]
      rfl
    · intro stamp'
      rw [hrows stamp']
      by_cases hmem : stamp' ∈ stamps
      · rw [if_pos hmem, if_pos (List.mem_cons_of_mem stamp hmem)]
      · rw [if_neg hmem]
        by_cases heq : stamp' = stamp
        · subst heq
          rw [if_pos List.mem_cons_self]
          exact (update_same _ _ _).trans hstamp.symm
        · rw [if_neg (by simp [heq, hmem])]
          exact update_ne _ _ heq

end

/-! ### The loop over the readings -/

/-- What two rows under one stamp are compared by. -/
def SarRow.content (row : SarRow) : List (List Char) × List Line := (row.fields, row.restartBefore)

/-- The row of the first reading that has one under the stamp. -/
def firstRow (parsed : List (String × Section)) (stamp : List Char) : Option UnionRow :=
  parsed.findSome? fun reading ↦ (reading.2.rows stamp).map fun row ↦ ⟨row, reading.1⟩

/-- What the loop over the readings has found. -/
structure Merges (parsed : List (String × Section)) (st : Merging) : Prop where
  union : ∀ stamp, st.union stamp = firstRow parsed stamp
  mem_order : ∀ stamp, stamp ∈ st.order ↔ (st.union stamp).isSome
  nodup : st.order.Nodup
  conflicts_iff : st.conflicts = [] ↔ ∀ cap p, (cap, p) ∈ parsed → ∀ stamp row,
    p.rows stamp = some row → ∃ first, st.union stamp = some first ∧
      first.content = row.content

theorem mergeRow_new {st : Merging} {stamp : List Char} (h : st.union stamp = none) (cap : String)
    (row : SarRow) : mergeRow cap st stamp row =
      { st with
        union := update st.union stamp (some ⟨row, cap⟩)
        order := st.order ++ [stamp] } := by
  unfold mergeRow
  rw [h]

theorem mergeRow_old {st : Merging} {stamp : List Char} {prev : UnionRow}
    (h : st.union stamp = some prev) (cap : String) (row : SarRow) :
    (mergeRow cap st stamp row).union = st.union ∧ (mergeRow cap st stamp row).order = st.order ∧
      ((mergeRow cap st stamp row).conflicts = [] ↔
        st.conflicts = [] ∧ prev.content = row.content) := by
  unfold mergeRow
  rw [h]
  refine ⟨rfl, rfl, ?_⟩
  dsimp only
  rw [List.append_assoc, List.append_eq_nil_iff, List.append_eq_nil_iff]
  apply and_congr_right'
  unfold SarRow.content
  rw [Prod.mk.injEq]
  apply and_congr
  · by_cases hf : prev.fields = row.fields <;> simp [hf]
  · by_cases hr : prev.restartBefore = row.restartBefore <;> simp [hr]

/-- The order lists the stamps that have a row. -/
structure Merging.Ordered (st : Merging) : Prop where
  mem_order : ∀ stamp, stamp ∈ st.order ↔ (st.union stamp).isSome
  nodup : st.order.Nodup

theorem Merging.Ordered.mergeRow {st : Merging} (h : st.Ordered) (cap : String)
    (stamp : List Char) (row : SarRow) : (mergeRow cap st stamp row).Ordered := by
  cases hst : st.union stamp with
  | none =>
    have hnot : stamp ∉ st.order := by
      rw [h.mem_order, hst]
      simp
    rw [mergeRow_new hst]
    constructor
    · intro x
      change x ∈ st.order ++ [stamp] ↔ (update st.union stamp (some ⟨row, cap⟩) x).isSome
      by_cases hx : x = stamp
      · subst hx
        rw [update_same]
        simp
      · rw [update_ne _ _ hx, ← h.mem_order x]
        simp [hx]
    · change (st.order ++ [stamp]).Nodup
      rw [← List.concat_eq_append]
      exact h.nodup.concat hnot
  | some prev =>
    obtain ⟨hunion, horder, -⟩ := mergeRow_old hst cap row
    constructor
    · rw [hunion, horder]
      exact h.mem_order
    · rw [horder]
      exact h.nodup

/-- What the rows of one reading, under the stamps of a list, make of the union. -/
structure RowsMerged (cap : String) (rows : List Char → Option SarRow) (stamps : List (List Char))
    (st st' : Merging) : Prop where
  ordered : st'.Ordered
  union : ∀ stamp, st'.union stamp = (st.union stamp).or
    (if stamp ∈ stamps then (rows stamp).map fun row ↦ ⟨row, cap⟩ else none)
  conflicts_iff : st'.conflicts = [] ↔ st.conflicts = [] ∧ ∀ stamp ∈ stamps, ∀ row,
    rows stamp = some row → ∃ first, st'.union stamp = some first ∧ first.content = row.content

section

variable {cap : String} {rows : List Char → Option SarRow} {stamps : List (List Char)}
  {st st' : Merging} {stamp : List Char} {row : SarRow}

theorem RowsMerged.absent (hrow : rows stamp = none) (h : RowsMerged cap rows stamps st st') :
    RowsMerged cap rows (stamp :: stamps) st st' := by
  refine ⟨h.ordered, ?_, ?_⟩
  · intro x
    rw [h.union x]
    by_cases hx : x = stamp
    · subst hx
      simp [hrow]
    · simp [hx]
  · rw [h.conflicts_iff, List.forall_mem_cons]
    simp [hrow]

theorem RowsMerged.added (hst : st.union stamp = none) (hrow : rows stamp = some row)
    (h : RowsMerged cap rows stamps (mergeRow cap st stamp row) st') :
    RowsMerged cap rows (stamp :: stamps) st st' := by
  obtain ⟨hordered, hunion, hconf⟩ := h
  rw [mergeRow_new hst] at hunion hconf
  dsimp only at hunion hconf
  have hsame := hunion stamp
  rw [update_same, Option.some_or] at hsame
  refine ⟨hordered, ?_, ?_⟩
  · intro x
    by_cases hx : x = stamp
    · subst hx
      rw [hsame, hst, hrow]
      simp
    · rw [hunion x, update_ne _ _ hx]
      simp [hx]
  · -- the row is compared with itself
    rw [hconf, List.forall_mem_cons, hrow, hsame]
    simp

theorem RowsMerged.compared {prev : UnionRow} (hst : st.union stamp = some prev)
    (hrow : rows stamp = some row)
    (h : RowsMerged cap rows stamps (mergeRow cap st stamp row) st') :
    RowsMerged cap rows (stamp :: stamps) st st' := by
  obtain ⟨hordered, hunion, hconf⟩ := h
  obtain ⟨hsameUnion, -, hsameConf⟩ := mergeRow_old hst cap row
  rw [hsameUnion] at hunion
  have hprev := hunion stamp
  rw [hst, Option.some_or] at hprev
  refine ⟨hordered, ?_, ?_⟩
  · intro x
    rw [hunion x]
    by_cases hx : x = stamp
    · subst hx
      rw [hst]
      rfl
    · simp [hx]
  · rw [hconf, hsameConf, List.forall_mem_cons, hrow, hprev]
    simp only [Option.some.injEq, forall_eq', exists_eq_left']
    tauto

end

/-- The rows of one reading, under the stamps of a list. -/
theorem rowsMerged_foldl (cap : String) (rows : List Char → Option SarRow)
    (stamps : List (List Char)) {st : Merging} (h : st.Ordered) :
    RowsMerged cap rows stamps st (stamps.foldl (fun st stamp ↦ match rows stamp with
      | none => st
      | some row => mergeRow cap st stamp row) st) := by
  induction stamps generalizing st with
  | nil => exact ⟨h, by simp, by simp⟩
  | cons stamp stamps ih =>
    rw [List.foldl_cons]
    cases hrow : rows stamp with
    | none => exact (ih h).absent hrow
    | some row =>
      have hnext := ih (h.mergeRow cap stamp row)
      cases hst : st.union stamp with
      | none => exact hnext.added hst hrow
      | some prev => exact hnext.compared hst hrow

theorem firstRow_isSome_iff {parsed : List (String × Section)} {stamp : List Char} :
    (firstRow parsed stamp).isSome ↔ ∃ cap p, (cap, p) ∈ parsed ∧ (p.rows stamp).isSome := by
  unfold firstRow
  rw [List.isSome_findSome?, List.any_eq_true]
  constructor
  · rintro ⟨⟨cap, p⟩, hmem, hsome⟩
    exact ⟨cap, p, hmem, by simpa using hsome⟩
  · rintro ⟨cap, p, hmem, hsome⟩
    exact ⟨(cap, p), hmem, by simpa using hsome⟩

theorem Merges.reading {g : Glyphs} {parsed : List (String × Section)} {st : Merging}
    (h : Merges parsed st) (cap : String) {p : Section} (hp : p.Wf g) :
    Merges (parsed ++ [(cap, p)]) (mergeReading st (cap, p)) := by
  obtain ⟨⟨hmem, hnodup⟩, hunion, hconf⟩ :=
    rowsMerged_foldl cap p.rows p.order ⟨h.mem_order, h.nodup⟩
  have hunion' (stamp : List Char) : (mergeReading st (cap, p)).union stamp =
      (st.union stamp).or ((p.rows stamp).map fun row ↦ ⟨row, cap⟩) := by
    refine (hunion stamp).trans ?_
    split
    · rfl
    · rename_i hnot
      rw [hp.mem_order, Option.not_isSome_iff_eq_none] at hnot
      rw [hnot]
      rfl
  refine ⟨?_, hmem, hnodup, ?_⟩
  · intro stamp
    rw [hunion' stamp, h.union]
    unfold firstRow
    rw [List.findSome?_append, List.findSome?_cons, List.findSome?_nil]
    cases (p.rows stamp).map fun row ↦ (⟨row, cap⟩ : UnionRow) <;> rfl
  · have hkeep {stamp : List Char} {first : UnionRow} (hfirst : st.union stamp = some first) :
        (mergeReading st (cap, p)).union stamp = some first := by
      rw [hunion' stamp, hfirst]
      rfl
    refine hconf.trans ?_
    rw [h.conflicts_iff]
    constructor
    · rintro ⟨hold, hnew⟩ cap' p' hmem' stamp row hrow
      rcases List.mem_append.mp hmem' with hmem' | hmem'
      · obtain ⟨first, hfirst, hcontent⟩ := hold cap' p' hmem' stamp row hrow
        exact ⟨first, hkeep hfirst, hcontent⟩
      · cases List.mem_singleton.mp hmem'
        exact hnew stamp ((hp.mem_order stamp).mpr (by rw [hrow]; rfl)) row hrow
    · intro hall
      constructor
      · intro cap' p' hmem' stamp row hrow
        obtain ⟨first, hfirst, hcontent⟩ :=
          hall cap' p' (List.mem_append_left _ hmem') stamp row hrow
        -- the stamp is known, and its first row stays
        have hsome : (st.union stamp).isSome := by
          rw [h.union, firstRow_isSome_iff]
          exact ⟨cap', p', hmem', by rw [hrow]; rfl⟩
        obtain ⟨known, hknown⟩ := Option.isSome_iff_exists.mp hsome
        rw [hkeep hknown] at hfirst
        cases hfirst
        exact ⟨_, hknown, hcontent⟩
      · intro stamp _ row hrow
        exact hall cap p (by simp) stamp row hrow

theorem merges_parsed (g : Glyphs) (candidates : List Candidate) :
    Merges (parsedOf g candidates) ((parsedOf g candidates).foldl mergeReading .empty) := by
  induction candidates using List.reverseRecOn with
  | nil =>
    refine ⟨fun _ ↦ rfl, ?_, List.nodup_nil, ?_⟩
    · intro stamp
      simp [parsedOf, Merging.empty]
    · simp [parsedOf, Merging.empty]
  | append_singleton candidates c ih =>
    have hparsed : parsedOf g (candidates ++ [c]) =
        parsedOf g candidates ++ [(c.name, splitSection g c.body)] := List.map_append
    rw [hparsed, List.foldl_append]
    exact ih.reading c.name (splitSection_wf g c.body)

/-- Every two readings agree on the rows under the stamps they share. -/
def Agree (g : Glyphs) (candidates : List Candidate) : Prop :=
  ∀ a ∈ candidates, ∀ b ∈ candidates, ∀ stamp row row',
    (splitSection g a.body).rows stamp = some row →
      (splitSection g b.body).rows stamp = some row' → row.content = row'.content

theorem mem_parsedOf {g : Glyphs} {candidates : List Candidate} {cap : String} {p : Section} :
    (cap, p) ∈ parsedOf g candidates ↔
      ∃ c ∈ candidates, c.name = cap ∧ splitSection g c.body = p := by
  unfold parsedOf
  rw [List.mem_map]
  simp

theorem conflicts_iff_agree (g : Glyphs) (candidates : List Candidate) :
    ((parsedOf g candidates).foldl mergeReading .empty).conflicts = [] ↔ Agree g candidates := by
  have h := merges_parsed g candidates
  rw [h.conflicts_iff]
  constructor
  · intro hall a ha b hb stamp row row' hrow hrow'
    obtain ⟨first, hfirst, hcontent⟩ :=
      hall a.name _ (mem_parsedOf.mpr ⟨a, ha, rfl, rfl⟩) stamp row hrow
    obtain ⟨first', hfirst', hcontent'⟩ :=
      hall b.name _ (mem_parsedOf.mpr ⟨b, hb, rfl, rfl⟩) stamp row' hrow'
    rw [hfirst] at hfirst'
    cases hfirst'
    exact hcontent.symm.trans hcontent'
  · intro hagree cap p hmem stamp row hrow
    obtain ⟨c, hc, rfl, rfl⟩ := mem_parsedOf.mp hmem
    have hsome : (firstRow (parsedOf g candidates) stamp).isSome :=
      firstRow_isSome_iff.mpr ⟨_, _, hmem, by rw [hrow]; rfl⟩
    obtain ⟨first, hfirst⟩ := Option.isSome_iff_exists.mp hsome
    refine ⟨first, (h.union stamp).trans hfirst, ?_⟩
    obtain ⟨⟨cap', p'⟩, hmem', hrow'⟩ := List.exists_of_findSome?_eq_some hfirst
    obtain ⟨c', hc', rfl, rfl⟩ := mem_parsedOf.mp hmem'
    obtain ⟨row', hrow', hfirst'⟩ := Option.map_eq_some_iff.mp hrow'
    have hcontent := hagree c' hc' c hc stamp row' row hrow' hrow
    rw [← hfirst']
    exact hcontent

/-! ### The merged text -/

theorem foldl_step_cut {g : Glyphs} {lines out : List Line}
    (h : lines = out ∨ lines ++ [[]] = out) :
    ((lines.foldl (Scan.step g) .empty).rows = (out.foldl (Scan.step g) .empty).rows) ∧
      (lines.foldl (Scan.step g) .empty).order = (out.foldl (Scan.step g) .empty).order := by
  rcases h with rfl | rfl
  · exact ⟨rfl, rfl⟩
  · have hempty : Kept g .text ([] : Line) := by
      refine ⟨?_, rfl, rfl⟩
      intro c hc
      cases hc
    rw [List.foldl_append, List.foldl_cons, List.foldl_nil]
    obtain ⟨hrows, horder, -⟩ := step_text hempty (lines.foldl (Scan.step g) .empty)
    exact ⟨hrows.symm, horder.symm⟩

theorem split_merged {g : Glyphs} {candidates : List Candidate} {cap : String} {widest : Section}
    {st : Merging} (hst : st = (parsedOf g candidates).foldl mergeReading .empty)
    (hwidest : (cap, widest) ∈ parsedOf g candidates) :
    let q := splitSection g (['\n'].intercalate (widest.preamble ++ mergedLines g st))
    (∀ stamp, q.rows stamp = (firstRow (parsedOf g candidates) stamp).map (·.toSarRow)) ∧
      q.order = sortedBy (stampKey g) st.order := by
  have h : Merges (parsedOf g candidates) st := hst ▸ merges_parsed g candidates
  have hwf (cap : String) (p : Section) (hp : (cap, p) ∈ parsedOf g candidates) : p.Wf g := by
    obtain ⟨c, -, -, rfl⟩ := mem_parsedOf.mp hp
    exact splitSection_wf g c.body
  -- the rows are those of readings
  have hfrom (stamp : List Char) (row : SarRow)
      (hrow : (st.union stamp).map (·.toSarRow) = some row) :
      ∃ p : Section, p.Wf g ∧ p.rows stamp = some row := by
    obtain ⟨first, hfirst, rfl⟩ := Option.map_eq_some_iff.mp hrow
    rw [h.union] at hfirst
    obtain ⟨⟨cap', p⟩, hp, hrow'⟩ := List.exists_of_findSome?_eq_some hfirst
    obtain ⟨row', hrow', hfirst'⟩ := Option.map_eq_some_iff.mp hrow'
    refine ⟨p, hwf cap' p hp, ?_⟩
    rw [hrow', ← hfirst']
  have hpreamble := (hwf cap widest hwidest).preamble
  have hlines : mergedLines g st = (sortedBy (stampKey g) st.order).flatMap fun stamp ↦
      match (st.union stamp).map (·.toSarRow) with
      | none => []
      | some row => row.restartBefore ++ [row.line] := by
    unfold mergedLines
    apply List.flatMap_congr
    intro stamp _
    cases st.union stamp <;> rfl
  have hunbroken : ∀ l ∈ widest.preamble ++ mergedLines g st, Unbroken l := by
    intro l hl
    rcases List.mem_append.mp hl with hl | hl
    · exact (hpreamble l hl).1
    · rw [hlines] at hl
      obtain ⟨stamp, -, hl⟩ := List.mem_flatMap.mp hl
      cases hrow : (st.union stamp).map (·.toSarRow) with
      | none =>
        rw [hrow] at hl
        cases hl
      | some row =>
        rw [hrow] at hl
        obtain ⟨p, hp, hprow⟩ := hfrom stamp row hrow
        rcases List.mem_append.mp hl with hl | hl
        · exact (hp.restarts stamp row hprow l hl).1
        · rw [List.mem_singleton.mp hl]
          exact (hp.row stamp row hprow).1
  obtain ⟨hcutRows, hcutOrder⟩ := foldl_step_cut (g := g) (splitlines_intercalate hunbroken)
  obtain ⟨htextRows, htextOrder, htextPending⟩ := foldl_text hpreamble Scan.empty
  have hsortedNodup : (sortedBy (stampKey g) st.order).Nodup :=
    (sortedBy_perm _ _).nodup_iff.mpr h.nodup
  have hblocks := foldl_blocks (g := g) (fun stamp ↦ (st.union stamp).map (·.toSarRow)) hsortedNodup
    (fun stamp hstamp ↦ by
      have := (h.mem_order stamp).mp ((mem_sortedBy _).mp hstamp)
      simpa using this)
    (fun stamp row hrow ↦ by
      obtain ⟨p, hp, hprow⟩ := hfrom stamp row hrow
      exact hp.row stamp row hprow)
    (fun stamp row hrow ↦ by
      obtain ⟨p, hp, hprow⟩ := hfrom stamp row hrow
      exact hp.restarts stamp row hprow)
    htextPending (fun stamp _ ↦ by rw [htextRows]; rfl)
  dsimp only at hblocks
  rw [← hlines, ← List.foldl_append] at hblocks
  obtain ⟨horder, hrows⟩ := hblocks
  constructor
  · intro stamp
    refine (congrFun hcutRows stamp).trans ((hrows stamp).trans ?_)
    rw [h.union]
    split
    · rfl
    · rename_i hnot
      rw [mem_sortedBy, h.mem_order, h.union, Option.not_isSome_iff_eq_none] at hnot
      rw [hnot, htextRows]
      rfl
  · refine hcutOrder.trans (horder.trans ?_)
    rw [htextOrder]
    rfl

theorem bodyOf_eq {candidates : List Candidate} (hnames : (candidates.map (·.name)).Nodup)
    {c : Candidate} (hc : c ∈ candidates) : bodyOf candidates c.name = c.body := by
  unfold bodyOf
  cases hfind : candidates.reverse.find? (·.name = c.name) with
  | none =>
    have := List.find?_eq_none.mp hfind c (List.mem_reverse.mpr hc)
    simp at this
  | some c' =>
    have hmem := List.mem_reverse.mp (List.mem_of_find?_eq_some hfind)
    have hname : c'.name = c.name := by simpa using List.find?_some hfind
    have heq : c' = c := List.inj_on_of_nodup_map hnames hmem hc hname
    rw [heq]
    rfl

/-- The two ways to merge: a reading as it stands, or the rows one by one. -/
theorem mergeSection_cases (g : Glyphs) {candidates : List Candidate} (hne : candidates ≠ [])
    (hnames : (candidates.map (·.name)).Nodup) :
    let st := (parsedOf g candidates).foldl mergeReading .empty
    ∃ m, mergeSection g candidates = some m ∧ m.conflicts = st.conflicts ∧
      ((st.conflicts = [] ∧ ∃ c ∈ candidates, m.text = c.body ∧
          ∀ stamp, stamp ∈ (splitSection g c.body).order ↔ stamp ∈ st.order) ∨
        ∃ cap widest, (cap, widest) ∈ parsedOf g candidates ∧
          m.text = ['\n'].intercalate (widest.preamble ++ mergedLines g st)) := by
  intro st
  unfold mergeSection
  dsimp only
  split
  · rename_i best hbest hconf
    refine ⟨_, rfl, hconf.symm, .inl ⟨hconf, ?_⟩⟩
    obtain ⟨⟨cap, p⟩, hp, rfl⟩ := List.mem_map.mp (List.argmax_mem hbest)
    obtain ⟨hmem, hsame⟩ := List.mem_filter.mp hp
    obtain ⟨c, hc, rfl, rfl⟩ := mem_parsedOf.mp hmem
    refine ⟨c, hc, bodyOf_eq hnames hc, ?_⟩
    simp only [decide_eq_true_eq] at hsame
    exact fun stamp ↦ ⟨fun h ↦ hsame.2.1 h, fun h ↦ hsame.2.2 h⟩
  · have hsome : ∀ size : String × Section → ℕ,
        ∃ reading ∈ parsedOf g candidates, (parsedOf g candidates).argmax size = some reading := by
      intro size
      cases hwidest : (parsedOf g candidates).argmax size with
      | none =>
        rw [List.argmax_eq_none] at hwidest
        exact absurd (List.map_eq_nil_iff.mp hwidest) hne
      | some reading => exact ⟨reading, List.argmax_mem hwidest, rfl⟩
    obtain ⟨reading, hreading, hwidest⟩ := hsome _
    rw [hwidest]
    exact ⟨_, rfl, rfl, .inr ⟨reading.1, reading.2, hreading, rfl⟩⟩

/-- The rows are in the order of time. -/
def InOrder (g : Glyphs) (p : Section) : Prop :=
  p.order.Pairwise fun a b ↦ stampKey g a ≤ stampKey g b

/-- What a merge of readings keeps. -/
structure Merged.Right (g : Glyphs) (candidates : List Candidate) (m : Merged) : Prop where
  shown : ∀ stamp, ((splitSection g m.text).rows stamp).isSome ↔
    ∃ c ∈ candidates, ((splitSection g c.body).rows stamp).isSome
  agreed : m.conflicts = [] → ∀ c ∈ candidates, ∀ stamp row,
    (splitSection g c.body).rows stamp = some row →
      ∃ row', (splitSection g m.text).rows stamp = some row' ∧ row'.content = row.content
  disputed : ∀ stamp, ((splitSection g m.text).rows stamp).map SarRow.content =
    (firstRow (parsedOf g candidates) stamp).map fun row ↦ row.content
  ordered : (∀ c ∈ candidates, InOrder g (splitSection g c.body)) →
    InOrder g (splitSection g m.text)
  conflicts_iff : m.conflicts = [] ↔ Agree g candidates
  anyOrder : ∀ candidates' m', candidates'.Perm candidates →
    mergeSection g candidates' = some m' → (m'.conflicts = [] ↔ m.conflicts = []) ∧
      ∀ stamp, ((splitSection g m'.text).rows stamp).isSome ↔
        ((splitSection g m.text).rows stamp).isSome

/-- The row of the merged text is the first reading's, by what rows are compared by. -/
theorem merged_rows (g : Glyphs) {candidates : List Candidate} (hne : candidates ≠ [])
    (hnames : (candidates.map (·.name)).Nodup) :
    ∃ m, mergeSection g candidates = some m ∧ (m.conflicts = [] ↔ Agree g candidates) ∧
      (∀ stamp, ((splitSection g m.text).rows stamp).map SarRow.content =
        (firstRow (parsedOf g candidates) stamp).map fun row ↦ row.content) ∧
      ((∀ c ∈ candidates, InOrder g (splitSection g c.body)) →
        InOrder g (splitSection g m.text)) := by
  have hmerges := merges_parsed g candidates
  obtain ⟨m, hm, hconf, hcases⟩ := mergeSection_cases g hne hnames
  refine ⟨m, hm, ?_, ?_⟩
  · rw [hconf]
    exact conflicts_iff_agree g candidates
  rcases hcases with ⟨hnil, c, hc, htext, hsame⟩ | ⟨cap, widest, hwidest, htext⟩
  · rw [htext]
    constructor
    · intro stamp
      rw [← hmerges.union]
      cases hrow : (splitSection g c.body).rows stamp with
      | none =>
        have hnot : stamp ∉ (splitSection g c.body).order := by
          rw [(splitSection_wf g c.body).mem_order, hrow]
          simp
        rw [hsame, hmerges.mem_order, Option.not_isSome_iff_eq_none] at hnot
        rw [hnot]
        rfl
      | some row =>
        obtain ⟨first, hfirst, hcontent⟩ := hmerges.conflicts_iff.mp hnil c.name _
          (mem_parsedOf.mpr ⟨c, hc, rfl, rfl⟩) stamp row hrow
        rw [hfirst]
        exact congrArg some hcontent.symm
    · exact fun hall ↦ hall c hc
  · obtain ⟨hrows, horder⟩ := split_merged rfl hwidest
    rw [htext]
    constructor
    · intro stamp
      rw [hrows stamp, Option.map_map]
      rfl
    · intro _
      unfold InOrder
      rw [horder]
      exact sortedBy_pairwise _ _

theorem shown_iff {g : Glyphs} {candidates : List Candidate} {text : List Char} {stamp : List Char}
    (h : ((splitSection g text).rows stamp).map SarRow.content =
      (firstRow (parsedOf g candidates) stamp).map fun row ↦ row.content) :
    ((splitSection g text).rows stamp).isSome ↔
      ∃ c ∈ candidates, ((splitSection g c.body).rows stamp).isSome := by
  have hsome : ((splitSection g text).rows stamp).isSome =
      (firstRow (parsedOf g candidates) stamp).isSome := by
    have := congrArg Option.isSome h
    simpa using this
  rw [hsome, firstRow_isSome_iff]
  constructor
  · rintro ⟨cap, p, hmem, hp⟩
    obtain ⟨c, hc, -, rfl⟩ := mem_parsedOf.mp hmem
    exact ⟨c, hc, hp⟩
  · rintro ⟨c, hc, hp⟩
    exact ⟨_, _, mem_parsedOf.mpr ⟨c, hc, rfl, rfl⟩, hp⟩

/-- The merge of readings shows every stamp, and under it the row of the first reading; it lists no
conflict exactly when the readings agree, whatever their order. -/
theorem merge_right (g : Glyphs) {candidates : List Candidate} (hne : candidates ≠ [])
    (hnames : (candidates.map (·.name)).Nodup) :
    ∃ m, mergeSection g candidates = some m ∧ m.Right g candidates := by
  obtain ⟨m, hm, hconf, hrows, hordered⟩ := merged_rows g hne hnames
  refine ⟨m, hm, ?_, ?_, hrows, hordered, hconf, ?_⟩
  · exact fun stamp ↦ shown_iff (hrows stamp)
  · intro hnil c hc stamp row hrow
    have hsome := (shown_iff (hrows stamp)).mpr ⟨c, hc, by rw [hrow]; rfl⟩
    obtain ⟨row', hrow'⟩ := Option.isSome_iff_exists.mp hsome
    refine ⟨row', hrow', ?_⟩
    have hfirst := hrows stamp
    rw [hrow'] at hfirst
    obtain ⟨first, hfirst, hcontent⟩ := Option.map_eq_some_iff.mp hfirst.symm
    obtain ⟨⟨cap, p⟩, hmem, hp⟩ := List.exists_of_findSome?_eq_some hfirst
    obtain ⟨c', hc', rfl, rfl⟩ := mem_parsedOf.mp hmem
    obtain ⟨row'', hrow'', rfl⟩ := Option.map_eq_some_iff.mp hp
    exact hcontent.symm.trans (hconf.mp hnil c' hc' c hc stamp row'' row hrow'' hrow)
  · intro candidates' m' hperm hm'
    have hne' : candidates' ≠ [] := by
      rintro rfl
      exact hne hperm.nil_eq.symm
    have hnames' : (candidates'.map (·.name)).Nodup := (hperm.map _).nodup_iff.mpr hnames
    obtain ⟨m'', hm'', hconf', hrows', -⟩ := merged_rows g hne' hnames'
    rw [hm'] at hm''
    cases hm''
    constructor
    · rw [hconf, hconf']
      unfold Agree
      simp only [hperm.mem_iff]
    · intro stamp
      rw [shown_iff (hrows stamp), shown_iff (hrows' stamp)]
      simp only [hperm.mem_iff]

/-- The characters of the sections that `sar` prints. -/
def asciiGlyphs : Glyphs where
  space c := c = ' ' ∨ c = '\t' ∨ c ∈ lineBreaks
  digit c := if '0' ≤ c ∧ c ≤ '9' then some (c.toNat - '0'.toNat) else none
  word c := c.isAlphanum ∨ c = '_'
  fold := Char.toUpper
  isFloat ds := !ds.isEmpty && ds.all fun c ↦ c.isDigit || c = '.'

/-- A reading, and one taken ten minutes later. -/
theorem merge_right_of_two_readings :
    ∃ m, mergeSection asciiGlyphs [⟨"r424", "12:00:01 1.0".toList⟩,
        ⟨"r478", "12:00:01 1.0\n12:10:01 2.0".toList⟩] = some m ∧
      m.Right asciiGlyphs [⟨"r424", "12:00:01 1.0".toList⟩,
        ⟨"r478", "12:00:01 1.0\n12:10:01 2.0".toList⟩] :=
  merge_right asciiGlyphs (by simp) (by decide)

/-- Where two readings dispute a row, the merged text does not show the second one's. -/
theorem disputed_row_not_shown :
    let candidates : List Candidate :=
      [⟨"r424", "12:00:01 1.0".toList⟩, ⟨"r478", "12:00:01 2.0".toList⟩]
    ∃ c ∈ candidates, ∃ stamp row, (splitSection asciiGlyphs c.body).rows stamp = some row ∧
      ∃ m, mergeSection asciiGlyphs candidates = some m ∧
        ∀ row', (splitSection asciiGlyphs m.text).rows stamp = some row' →
          row'.content ≠ row.content := by
  intro candidates
  have hne : candidates ≠ [] := by simp [candidates]
  have hnames : (candidates.map (·.name)).Nodup := by decide
  obtain ⟨m, hm, -, hrows, -⟩ := merged_rows asciiGlyphs hne hnames
  refine ⟨⟨"r478", "12:00:01 2.0".toList⟩, by simp [candidates], "12:00:01".toList,
    ⟨"12:00:01 2.0".toList, [], ["2.0".toList]⟩, by rfl, m, hm, ?_⟩
  intro row' hrow' hcontent
  have hfirst : firstRow (parsedOf asciiGlyphs candidates) "12:00:01".toList =
      some ⟨⟨"12:00:01 1.0".toList, [], ["1.0".toList]⟩, "r424"⟩ := by rfl
  have h := hrows "12:00:01".toList
  rw [hrow', hfirst] at h
  have heq := (Option.some.inj h).symm.trans hcontent
  exact absurd (congrArg Prod.fst heq) (by decide)

end NucLlm.Nuc
