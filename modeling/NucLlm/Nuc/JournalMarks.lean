import NucLlm.Nuc.JournalUnion
import Mathlib.Data.List.Induction
import Mathlib.Data.List.Nodup

/-!
# Where the union first sees a line

A line leaves a mark wherever a capture shows it, and a separator wherever it is attached.  After
the captures are read, the place of a line in the union is the first of its marks with the earliest
instant.
-/

namespace NucLlm.Nuc

/-- A later mark counts only if its instant is earlier. -/
def keep (o : Option Mark) (m : Mark) : Option Mark :=
  match o with
  | none => some m
  | some p => if m.instant < p.instant then some m else some p

def earliest (marks : List Mark) : Option Mark := marks.foldl keep none

theorem earliest_concat (marks : List Mark) (m : Mark) :
    earliest (marks ++ [m]) = keep (earliest marks) m := by
  unfold earliest
  rw [List.foldl_append]
  rfl

theorem earliest_mem {marks : List Mark} {m : Mark} (h : earliest marks = some m) : m ∈ marks := by
  induction marks using List.reverseRecOn with
  | nil => cases h
  | append_singleton marks m' ih =>
    rw [earliest_concat] at h
    unfold keep at h
    rw [List.mem_append, List.mem_singleton]
    cases hp : earliest marks with
    | none =>
      rw [hp] at h
      cases h
      exact .inr rfl
    | some p =>
      rw [hp] at h
      dsimp only at h
      split at h
      · cases h
        exact .inr rfl
      · cases h
        exact .inl (ih hp)

theorem earliest_eq_none_iff {marks : List Mark} : earliest marks = none ↔ marks = [] := by
  induction marks using List.reverseRecOn with
  | nil => simp [earliest]
  | append_singleton marks m ih =>
    rw [earliest_concat]
    unfold keep
    constructor
    · intro h
      split at h
      · cases h
      · split at h <;> cases h
    · intro h
      simp at h

/-- A mark that is not earlier changes nothing. -/
theorem keep_of_le {m p : Mark} (h : p.instant ≤ m.instant) : keep (some p) m = some p := by
  unfold keep
  exact if_neg h.not_gt

section

variable (stamp : Line → Option Instant)

/-- The marks of `x` in a capture from line `li` on, when `pend` is waiting for a dated line. -/
def marksIn (si : ℕ) (x : Line) : ℕ → List Line → List Line → List Mark
  | _, _, [] => []
  | li, pend, line :: rest =>
    match stamp line with
    | none => marksIn si x (li + 1) (pend ++ [line]) rest
    | some ts =>
      List.replicate (pend.count x) (.of ts si (2 * li)) ++
        (if line = x then [.of ts si (2 * li + 1)] else []) ++ marksIn si x (li + 1) [] rest

def marksOf (streams : List (List Line)) (x : Line) : List Mark :=
  streams.zipIdx.flatMap fun (lines, si) ↦ marksIn stamp si x 0 [] lines

/-- How often the capture that shows a line most shows it. -/
def most (streams : List (List Line)) (x : Line) : ℕ :=
  streams.foldl (fun k lines ↦ max k (lines.count x)) 0

/-- What the dictionaries say of lines with these marks. -/
structure Knows (marks : Line → List Mark) (shown : Line → ℕ) (st : Seen) : Prop where
  firstSeen : ∀ x, st.firstSeen x = earliest (marks x)
  sepAt : ∀ x, stamp x = none → st.sepAt x = (earliest (marks x)).map Mark.instant
  mult_dated : ∀ x ts, stamp x = some ts → st.mult x = shown x
  mult_sep : ∀ x, stamp x = none → st.mult x = if marks x = [] then 0 else 1
  dated : ∀ x ts, stamp x = some ts → ∀ m ∈ marks x, m.instant = ts ∧ m.place % 2 = 1
  sep : ∀ x, stamp x = none → ∀ m ∈ marks x, m.place % 2 = 0
  shown_iff : ∀ x ts, stamp x = some ts → (marks x = [] ↔ shown x = 0)
  nodup : st.order.Nodup
  mem_order : ∀ x, x ∈ st.order ↔ marks x ≠ []

end

variable {stamp : Line → Option Instant} {marks : Line → List Mark} {shown : Line → ℕ}

theorem update_same {β : Type} (d : Line → β) (key : Line) (value : β) :
    update d key value key = value := if_pos rfl

theorem update_ne {β : Type} (d : Line → β) {key x : Line} (value : β) (h : x ≠ key) :
    update d key value x = d x := if_neg h

/-- The marks, and one more of `key`. -/
def marked (marks : Line → List Mark) (key : Line) (m : Mark) : Line → List Mark :=
  update marks key (marks key ++ [m])

/-- What is said of the other lines stays true of them. -/
theorem Knows.others {st st' : Seen} (h : Knows stamp marks shown st) {key : Line} {m : Mark}
    {shown' : Line → ℕ} (hfirst : ∀ x, x ≠ key → st'.firstSeen x = st.firstSeen x)
    (hsepAt : ∀ x, x ≠ key → st'.sepAt x = st.sepAt x)
    (hmult : ∀ x, x ≠ key → st'.mult x = st.mult x)
    (hshown : ∀ x, x ≠ key → shown' x = shown x)
    (hkeyFirst : st'.firstSeen key = keep (st.firstSeen key) m)
    (hkeySep : stamp key = none → st'.sepAt key = (keep (st.firstSeen key) m).map Mark.instant ∧
      st'.mult key = 1 ∧ m.place % 2 = 0)
    (hkeyDated : ∀ ts, stamp key = some ts → st'.mult key = shown' key ∧ shown' key ≠ 0 ∧
      m.instant = ts ∧ m.place % 2 = 1)
    (horder : st'.order = if key ∈ st.order then st.order else st.order ++ [key]) :
    Knows stamp (marked marks key m) shown' st' := by
  have hsame : marked marks key m key = marks key ++ [m] := update_same _ _ _
  have hne {x : Line} (hx : x ≠ key) : marked marks key m x = marks x := update_ne _ _ hx
  constructor
  · intro x
    by_cases hx : x = key
    · rw [hx, hsame, earliest_concat, hkeyFirst, h.firstSeen]
    · rw [hne hx, hfirst x hx, h.firstSeen]
  · intro x hstamp
    by_cases hx : x = key
    · subst hx
      rw [hsame, earliest_concat, (hkeySep hstamp).1, h.firstSeen]
    · rw [hne hx, hsepAt x hx, h.sepAt x hstamp]
  · intro x ts hstamp
    by_cases hx : x = key
    · subst hx
      exact (hkeyDated ts hstamp).1
    · rw [hmult x hx, hshown x hx, h.mult_dated x ts hstamp]
  · intro x hstamp
    by_cases hx : x = key
    · subst hx
      rw [hsame, (hkeySep hstamp).2.1, if_neg (by simp)]
    · rw [hne hx, hmult x hx, h.mult_sep x hstamp]
  · intro x ts hstamp m' hm'
    by_cases hx : x = key
    · subst hx
      rw [hsame, List.mem_append, List.mem_singleton] at hm'
      rcases hm' with hm' | rfl
      · exact h.dated x ts hstamp m' hm'
      · exact (hkeyDated ts hstamp).2.2
    · rw [hne hx] at hm'
      exact h.dated x ts hstamp m' hm'
  · intro x hstamp m' hm'
    by_cases hx : x = key
    · subst hx
      rw [hsame, List.mem_append, List.mem_singleton] at hm'
      rcases hm' with hm' | rfl
      · exact h.sep x hstamp m' hm'
      · exact (hkeySep hstamp).2.2
    · rw [hne hx] at hm'
      exact h.sep x hstamp m' hm'
  · intro x ts hstamp
    by_cases hx : x = key
    · subst hx
      rw [hsame]
      exact iff_of_false (by simp) (hkeyDated ts hstamp).2.1
    · rw [hne hx, hshown x hx]
      exact h.shown_iff x ts hstamp
  · rw [horder]
    split
    · exact h.nodup
    · rename_i hnew
      rw [← List.concat_eq_append]
      exact h.nodup.concat hnew
  · intro x
    rw [horder]
    by_cases hx : x = key
    · subst hx
      rw [hsame]
      apply iff_of_true
      · split
        · assumption
        · simp
      · simp
    · rw [hne hx, ← h.mem_order x]
      split
      · rfl
      · simp [hx]

theorem Knows.attach {st : Reading} (h : Knows stamp marks shown st.toSeen) {sep : Line}
    (hsep : stamp sep = none) (ts : Instant) (si li : ℕ) :
    Knows stamp (marked marks sep (.of ts si (2 * li))) shown (attach ts si li st sep).toSeen := by
  have hsepAt := h.sepAt sep hsep
  have hfirst := h.firstSeen sep
  have hmult := h.mult_sep sep hsep
  have heven : (Mark.of ts si (2 * li)).place % 2 = 0 := Nat.mul_mod_right 2 li
  have hdated (ts' : Instant) (hts : stamp sep = some ts') : False := by
    rw [hsep] at hts
    cases hts
  cases hm : earliest (marks sep) with
  | none =>
    rw [hm] at hsepAt hfirst
    have hnil := earliest_eq_none_iff.mp hm
    unfold NucLlm.Nuc.attach
    rw [hsepAt]
    dsimp only [Option.map_none]
    apply h.others
    · exact fun x hx ↦ update_ne _ _ hx
    · exact fun x hx ↦ update_ne _ _ hx
    · exact fun x hx ↦ update_ne _ _ hx
    · exact fun _ _ ↦ rfl
    · rw [hfirst]
      exact (update_same _ _ _).trans (by rw [hfirst]; rfl)
    · intro _
      rw [hfirst]
      exact ⟨update_same _ _ _, update_same _ _ _, heven⟩
    · exact fun ts' hts ↦ (hdated ts' hts).elim
    · rfl
  | some p =>
    rw [hm] at hsepAt hfirst
    have hmem : sep ∈ st.order := by
      rw [h.mem_order]
      intro hnil
      rw [hnil] at hm
      cases hm
    have hone : st.mult sep = 1 := by
      rw [hmult, if_neg]
      exact (h.mem_order sep).mp hmem
    have horder : st.order = if sep ∈ st.order then st.order else st.order ++ [sep] :=
      (if_pos hmem).symm
    unfold NucLlm.Nuc.attach
    rw [hsepAt]
    dsimp only [Option.map_some]
    by_cases hlt : ts < p.instant
    · rw [if_pos hlt.ne', if_pos hlt]
      have hkeep : keep (some p) (.of ts si (2 * li)) = some (.of ts si (2 * li)) := if_pos hlt
      apply h.others
      · exact fun x hx ↦ update_ne _ _ hx
      · exact fun x hx ↦ update_ne _ _ hx
      · exact fun _ _ ↦ rfl
      · exact fun _ _ ↦ rfl
      · rw [hfirst, hkeep]
        exact update_same _ _ _
      · intro _
        rw [hfirst, hkeep]
        exact ⟨update_same _ _ _, hone, heven⟩
      · exact fun ts' hts ↦ (hdated ts' hts).elim
      · exact horder
    · -- the dictionaries stay as they are
      have hkeep : keep (some p) (.of ts si (2 * li)) = some p := if_neg hlt
      have hsame (st' : Seen) (hf : st'.firstSeen = st.firstSeen) (hs : st'.sepAt = st.sepAt)
          (hc : st'.mult = st.mult) (ho : st'.order = st.order) :
          Knows stamp (marked marks sep (.of ts si (2 * li))) shown st' := by
        apply h.others
        · exact fun x _ ↦ congrFun hf x
        · exact fun x _ ↦ congrFun hs x
        · exact fun x _ ↦ congrFun hc x
        · exact fun _ _ ↦ rfl
        · rw [hf, hfirst, hkeep]
        · intro _
          rw [hfirst, hkeep, hs, hc]
          exact ⟨hsepAt, hone, heven⟩
        · exact fun ts' hts ↦ (hdated ts' hts).elim
        · rw [ho]
          exact horder
      split <;> exact hsame _ rfl rfl rfl rfl

theorem attach_frame (ts : Instant) (si li : ℕ) (st : Reading) (sep : Line) :
    (attach ts si li st sep).counts = st.counts ∧
      (attach ts si li st sep).pendingSeps = st.pendingSeps ∧
      (attach ts si li st sep).trailing = st.trailing := by
  unfold attach
  split
  · exact ⟨rfl, rfl, rfl⟩
  · split
    · split <;> exact ⟨rfl, rfl, rfl⟩
    · exact ⟨rfl, rfl, rfl⟩

theorem marked_append (marks : Line → List Mark) (sep : Line) (m : Mark) (x : Line) :
    marked marks sep m x = marks x ++ List.replicate ([sep].count x) m := by
  unfold marked update
  by_cases hx : x = sep
  · subst hx
    simp
  · rw [if_neg hx, List.count_singleton, if_neg]
    · simp
    · simpa using fun h ↦ hx h.symm

/-- All pending separators are attached to one line. -/
theorem Knows.attach_all {st : Reading} (h : Knows stamp marks shown st.toSeen) {pend : List Line}
    (hpend : ∀ sep ∈ pend, stamp sep = none) (ts : Instant) (si li : ℕ) :
    Knows stamp (fun x ↦ marks x ++ List.replicate (pend.count x) (.of ts si (2 * li))) shown
      (pend.foldl (NucLlm.Nuc.attach ts si li) st).toSeen := by
  induction pend generalizing st marks with
  | nil =>
    simpa using h
  | cons sep pend ih =>
    have hstep := h.attach (hpend sep List.mem_cons_self) ts si li
    have hrest := ih hstep fun s hs ↦ hpend s (List.mem_cons_of_mem sep hs)
    rw [List.foldl_cons]
    convert hrest using 2 with x
    rw [marked_append, List.append_assoc, ← List.replicate_add, ← List.count_append]
    rfl

theorem foldl_attach_frame (ts : Instant) (si li : ℕ) (pend : List Line) (st : Reading) :
    (pend.foldl (attach ts si li) st).counts = st.counts ∧
      (pend.foldl (attach ts si li) st).pendingSeps = st.pendingSeps := by
  induction pend generalizing st with
  | nil => exact ⟨rfl, rfl⟩
  | cons sep pend ih =>
    obtain ⟨hcounts, hpend, -⟩ := attach_frame ts si li st sep
    rw [List.foldl_cons, (ih _).1, (ih _).2, hcounts, hpend]
    exact ⟨rfl, rfl⟩

/-- A capture is half read: `base` is what the captures before it show. -/
structure Reads (stamp : Line → Option Instant) (marks : Line → List Mark) (base : Line → ℕ)
    (st : Reading) : Prop where
  knows : Knows stamp marks (fun x ↦ max (base x) (st.counts x)) st.toSeen
  pending : ∀ sep ∈ st.pendingSeps, stamp sep = none

theorem Reads.countLine {st : Reading} {base : Line → ℕ}
    (h : Knows stamp marks (fun x ↦ max (base x) (st.counts x)) st.toSeen) {line : Line}
    {ts : Instant} (hline : stamp line = some ts) (si li : ℕ) :
    Reads stamp (marked marks line (.of ts si (2 * li + 1))) base
      (countLine ts si li line st) := by
  have hmult := h.mult_dated line ts hline
  have hcounts : (NucLlm.Nuc.countLine ts si li line st).counts line = st.counts line + 1 :=
    update_same _ _ _
  have hfirst := h.firstSeen line
  have hodd : (Mark.of ts si (2 * li + 1)).place % 2 = 1 := Nat.mul_add_mod 2 li 1
  constructor
  · apply h.others
    · exact fun x hx ↦ update_ne _ _ hx
    · exact fun _ _ ↦ rfl
    · intro x hx
      dsimp only [NucLlm.Nuc.countLine]
      split
      · exact update_ne _ _ hx
      · rfl
    · intro x hx
      exact congrArg (max (base x)) (update_ne st.counts _ hx)
    · have hset : (NucLlm.Nuc.countLine ts si li line st).firstSeen line =
          some ((st.firstSeen line).getD (.of ts si (2 * li + 1))) := update_same _ _ _
      rw [hset, hfirst]
      cases hm : earliest (marks line) with
      | none => rfl
      | some p =>
        have hinstant := (h.dated line ts hline p (earliest_mem hm)).1
        exact (keep_of_le (le_of_eq hinstant)).symm
    · intro hnone
      rw [hline] at hnone
      cases hnone
    · intro ts' hts
      rw [hline] at hts
      cases hts
      rw [hcounts]
      refine ⟨?_, ?_, rfl, hodd⟩
      · dsimp only [NucLlm.Nuc.countLine]
        by_cases hgt : st.counts line + 1 > st.mult line
        · rw [if_pos hgt, update_same]
          omega
        · rw [if_neg hgt]
          omega
      · have := le_max_right (base line) (st.counts line + 1)
        omega
    · dsimp only [NucLlm.Nuc.countLine]
      -- a line that is not known yet is counted for the first time
      by_cases hmem : line ∈ st.order
      · rw [if_neg (by simp [hmem]), if_pos hmem]
      · have hnil : marks line = [] := by
          by_contra hne
          exact hmem ((h.mem_order line).mpr hne)
        have hzero := (h.shown_iff line ts hline).mp hnil
        rw [← hmult] at hzero
        rw [if_pos ⟨by omega, hmem⟩, if_neg hmem]
  · intro sep hsep
    cases hsep

/-- Reading on from a line. -/
theorem Reads.rest {st : Reading} {base : Line → ℕ} (h : Reads stamp marks base st)
    (si li : ℕ) (rest : List Line) :
    Reads stamp (fun x ↦ marks x ++ marksIn stamp si x li st.pendingSeps rest) base
        ((rest.zipIdx li).foldl (readLine stamp si) st) ∧
      ∀ x ts, stamp x = some ts →
        ((rest.zipIdx li).foldl (readLine stamp si) st).counts x = st.counts x + rest.count x := by
  induction rest generalizing st marks li with
  | nil =>
    constructor
    · simpa [marksIn] using h
    · intro x _ _
      rfl
  | cons line rest ih =>
    rw [List.zipIdx_cons, List.foldl_cons]
    cases hline : stamp line with
    | none =>
      have hread : readLine stamp si st (line, li) =
          { st with nSep := st.nSep + 1, pendingSeps := st.pendingSeps ++ [line] } := by
        simp only [readLine, hline]
      have hst : Reads stamp marks base (readLine stamp si st (line, li)) := by
        rw [hread]
        constructor
        · exact ⟨h.knows.1, h.knows.2, h.knows.3, h.knows.4, h.knows.5, h.knows.6, h.knows.7,
            h.knows.8, h.knows.9⟩
        · intro sep hsep
          rcases List.mem_append.mp hsep with hsep | hsep
          · exact h.pending sep hsep
          · rw [List.mem_singleton.mp hsep]
            exact hline
      obtain ⟨hreads, hcounts⟩ := ih hst (li + 1)
      constructor
      · rw [hread] at hreads ⊢
        have hmarks (x : Line) : marksIn stamp si x li st.pendingSeps (line :: rest) =
            marksIn stamp si x (li + 1) (st.pendingSeps ++ [line]) rest := by
          rw [marksIn, hline]
        simpa only [hmarks] using hreads
      · intro x ts hx
        rw [hcounts x ts hx, hread, List.count_cons_of_ne]
        rintro rfl
        rw [hline] at hx
        cases hx
    | some ts =>
      have hread : readLine stamp si st (line, li) =
          NucLlm.Nuc.countLine ts si li line (st.pendingSeps.foldl (attach ts si li) st) := by
        simp only [readLine, hline]
      obtain ⟨hcountsSame, -⟩ := foldl_attach_frame ts si li st.pendingSeps st
      have hattached := h.knows.attach_all h.pending ts si li
      rw [← hcountsSame] at hattached
      have hst := Reads.countLine hattached hline si li
      rw [← hread] at hst
      obtain ⟨hreads, hcounts⟩ := ih hst (li + 1)
      have hpend : (readLine stamp si st (line, li)).pendingSeps = [] := by
        rw [hread]
        rfl
      constructor
      · rw [hpend] at hreads
        convert hreads using 2 with x
        rw [marksIn, hline, marked_append]
        dsimp only
        rw [List.append_assoc, List.append_assoc, List.append_assoc]
        congr 3
        by_cases hx : line = x
        · simp [hx]
        · rw [if_neg hx, List.count_singleton, if_neg (by simpa using hx)]
          rfl
      · intro x ts' hx
        rw [hcounts x ts' hx, hread]
        have hupdate : (NucLlm.Nuc.countLine ts si li line 
            (st.pendingSeps.foldl (attach ts si li) st)).counts =
              update st.counts line (st.counts line + 1) := by
          rw [← hcountsSame]
          rfl
        rw [hupdate, List.count_cons]
        by_cases hxl : x = line
        · subst hxl
          rw [update_same]
          simp
          omega
        · rw [update_ne _ _ hxl, if_neg (by simpa using fun h ↦ hxl h.symm)]
          rfl

theorem Knows.congr {shown' : Line → ℕ} {st : Seen} (h : Knows stamp marks shown st)
    (hshown : ∀ x ts, stamp x = some ts → shown x = shown' x) : Knows stamp marks shown' st := by
  constructor
  · exact h.firstSeen
  · exact h.sepAt
  · intro x ts hx
    rw [← hshown x ts hx]
    exact h.mult_dated x ts hx
  · exact h.mult_sep
  · exact h.dated
  · exact h.sep
  · intro x ts hx
    rw [← hshown x ts hx]
    exact h.shown_iff x ts hx
  · exact h.nodup
  · exact h.mem_order

theorem Knows.readStream {st : Seen} (h : Knows stamp marks shown st) (lines : List Line)
    (si : ℕ) : Knows stamp (fun x ↦ marks x ++ marksIn stamp si x 0 [] lines)
      (fun x ↦ max (shown x) (lines.count x)) (readStream stamp st (lines, si)) := by
  have hstart : Reads stamp marks shown ⟨st, [], fun _ ↦ 0⟩ := by
    constructor
    · exact h.congr fun x _ _ ↦ (Nat.max_zero (shown x)).symm
    · intro sep hsep
      cases hsep
  obtain ⟨hreads, hcounts⟩ := hstart.rest si 0 lines
  have hsame (x : Line) (ts : Instant) (hx : stamp x = some ts) :
      max (shown x) (((lines.zipIdx 0).foldl (readLine stamp si) ⟨st, [], fun _ ↦ 0⟩).counts x) =
        max (shown x) (lines.count x) := by
    rw [hcounts x ts hx, Nat.zero_add]
  have hknows := hreads.knows.congr hsame
  exact ⟨hknows.1, hknows.2, hknows.3, hknows.4, hknows.5, hknows.6, hknows.7, hknows.8, hknows.9⟩

theorem Knows.readStreams {st : Seen} (h : Knows stamp marks shown st)
    (streams : List (List Line)) (k : ℕ) :
    Knows stamp (fun x ↦ marks x ++
        (streams.zipIdx k).flatMap fun (lines, si) ↦ marksIn stamp si x 0 [] lines)
      (fun x ↦ streams.foldl (fun n lines ↦ max n (lines.count x)) (shown x))
      ((streams.zipIdx k).foldl (NucLlm.Nuc.readStream stamp) st) := by
  induction streams generalizing marks shown st k with
  | nil => simpa using h
  | cons lines streams ih =>
    have hrest := ih (h.readStream lines k) (k + 1)
    rw [List.zipIdx_cons, List.foldl_cons]
    convert hrest using 2 with x x
    · rw [List.flatMap_cons, List.append_assoc]
    · rfl

theorem knows_empty (stamp : Line → Option Instant) :
    Knows stamp (fun _ ↦ []) (fun _ ↦ 0) .empty := by
  constructor
  · exact fun _ ↦ rfl
  · exact fun _ _ ↦ rfl
  · exact fun _ _ _ ↦ rfl
  · exact fun _ _ ↦ rfl
  · intro _ _ _ m hm
    cases hm
  · intro _ _ m hm
    cases hm
  · exact fun _ _ _ ↦ iff_of_true rfl rfl
  · exact List.nodup_nil
  · intro x
    apply iff_of_false
    · intro hx
      cases hx
    · intro hne
      exact hne rfl

/-- What the dictionaries hold when every capture is read. -/
theorem knows_readStreams (stamp : Line → Option Instant) (streams : List (List Line)) :
    Knows stamp (marksOf stamp streams) (most streams) (readStreams stamp streams) :=
  (knows_empty stamp).readStreams streams 0

end NucLlm.Nuc
