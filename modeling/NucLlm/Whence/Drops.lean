import Mathlib.Algebra.BigOperators.Group.List.Lemmas
import NucLlm.Lib.Lists
import NucLlm.Whence.Provenance
import Mathlib.Algebra.GroupWithZero.Nat

/-!
# Lost failures

The recorder of the misses that a run discards.  A run prints values and
discards values in any order; what a print has shown is not lost.
-/

namespace NucLlm.Whence

/-- `_drop_index`'s key. -/
structure DropKey where
  reasons : List String
  line : ℕ
  op : String
  at_ : ℕ
  within : Option String
deriving DecidableEq

/-- An entry of `dropped`. -/
structure Dropped (N : Type) where
  key : DropKey
  label : String
  count : ℕ
  node : N

structure Recorder (N : Type) where
  dropped : List (Dropped N) := []
  droppedTotal : ℕ := 0
  droppedScanTruncated : ℕ := 0
  observed : List NodeId := []
  observedAggr : List NodeId := []

def dropCap : ℕ := 100

def dropScanNodes : ℕ := 100000

namespace Provenance

variable {N P : Type} (G : Provenance N P)

def isMissNode (n : N) : Bool := (G.cell (G.value n)).isMiss

/-- `isinstance(p, (WList, Record, Guess))`. -/
def isContainer (n : N) : Bool :=
  match G.cell (G.value n) with
  | .list _ | .record _ | .guess .. => true
  | _ => false

def label (n : N) : String :=
  if G.detail n = "" then G.op n
  else if G.op n = "" then G.detail n
  else s!"{G.op n} {G.detail n}"

/-! ## Print -/

/-- `d[id] = node` where there is room. -/
def mark (marks : List NodeId) (id : NodeId) : List NodeId :=
  if marks.length < dropCap ∧ id ∉ marks then marks ++ [id] else marks

/-- What `print` notes of the value it shows. -/
def notePrint (F : FloatOps) (r : Recorder N) (n : N) : Recorder N :=
  if G.isMissNode n then { r with observed := mark r.observed (G.id n) }
  else if G.isContainer n then
    { r with observedAggr := ((G.view n).namedMisses F).foldl (fun m v ↦
      mark m v.id) r.observedAggr }
  else r

/-- `_seen_by_print`. -/
def seenByPrint (r : Recorder N) (n : N) : Bool :=
  r.observed.contains (G.id n) || r.observedAggr.contains (G.id n)

/-! ## Discarded values -/

def dropKey (n : N) (at_ : ℕ) (within : Option String) : DropKey :=
  ⟨(G.cell (G.value n)).reasons, G.line n, G.op n, at_, within⟩

/-- `_record_drop`. -/
def recordDrop (at_ : ℕ) (within : Option String) (r : Recorder N) (n : N) : Recorder N :=
  let r := { r with droppedTotal := r.droppedTotal + 1 }
  let key := G.dropKey n at_ within
  if r.dropped.any fun d ↦ d.key = key then
    { r with dropped := r.dropped.map fun d ↦
        if d.key = key then { d with count := d.count + 1 } else d }
  else if dropCap ≤ r.dropped.length then r
  else { r with dropped := r.dropped ++ [⟨key, G.label n, 1, n⟩] }

/-- The worklist of `_misses_within`; the top of the stack comes first. -/
structure Scan (N P : Type) where
  out : List N
  seen : List N
  stack : List P
  budget : ℕ
  truncated : Bool

section

variable [DecidableEq N]

/-- The loop over the elements of one value. -/
def scanKids (r : Recorder N) : List N → Scan N P → Scan N P
  | [], s => s
  | n :: ns, s =>
      if s.budget = 0 then { s with truncated := true }
      else
        let s := { s with budget := s.budget - 1 }
        if n ∈ s.seen then scanKids r ns s
        else
          let s := { s with seen := s.seen ++ [n] }
          if G.seenByPrint r n then scanKids r ns s
          else if G.isMissNode n then scanKids r ns { s with out := s.out ++ [n] }
          else if G.isContainer n then scanKids r ns { s with stack := G.value n :: s.stack }
          else scanKids r ns s

def scanBody (r : Recorder N) (s : Scan N P) : Pass (Scan N P) (List N × Bool) :=
  if s.truncated then .done (s.out, true)
  else match s.stack with
    | [] => .done (s.out, false)
    | p :: stack => .again (G.scanKids r (G.cell p).elements { s with stack := stack })

/-- `_misses_within` a container. -/
def missesWithin (r : Recorder N) (v : N) : List N × Bool :=
  (whileLoop (G.scanBody r) (dropScanNodes + 2) ⟨[], [v], [G.value v], dropScanNodes, false⟩).getD
    ([], false)

/-- `_note_drop`. -/
def noteDrop (r : Recorder N) (v : N) (at_ : ℕ) : Recorder N :=
  if G.isMissNode v then
    if G.seenByPrint r v then r else G.recordDrop at_ none r v
  else if G.isContainer v then
    if G.seenByPrint r v then r
    else
      let (inner, truncated) := G.missesWithin r v
      let r := inner.foldl (G.recordDrop at_ (some (G.label v))) r
      if truncated then { r with droppedScanTruncated := r.droppedScanTruncated + 1 } else r
  else r

/-- What a run does that concerns the recorder. -/
inductive DropEvent (N : Type) where
  | print (n : N)
  | discard (n : N) (at_ : ℕ)

def dropStep (F : FloatOps) (r : Recorder N) : DropEvent N → Recorder N
  | .print n => G.notePrint F r n
  | .discard n at_ => G.noteDrop r n at_

/-- The recorder after these events of a run. -/
def recorderAfter (F : FloatOps) (events : List (DropEvent N)) : Recorder N :=
  events.foldl (G.dropStep F) {}

/-! ## The scan of a discarded value -/

/-- The parts of values. -/
def contents : Ranked N where
  next n := (G.cell (G.value n)).elements
  rank n := G.size (G.value n)
  rank_next n := G.size_elements (G.value n)

/-- The number of elements of a value. -/
def width (n : N) : ℕ := (G.contents.next n).length

/-- The number of places in a value and in the values inside it, each of them taken once. -/
def places (v : N) : ℕ := ((G.contents.postorder v).dedup.map G.width).sum

/-- A miss that no print has shown. -/
def isLost (r : Recorder N) (n : N) : Bool := G.isMissNode n && !G.seenByPrint r n

/-- Only misses are marked as shown. -/
def MarksMisses (r : Recorder N) : Prop := ∀ n, G.seenByPrint r n = true → G.isMissNode n = true

variable {G} {r : Recorder N}

omit [DecidableEq N] in
theorem isMissNode_of_isContainer {n : N} (h : G.isContainer n = true) :
    G.isMissNode n = false := by
  unfold isContainer at h
  unfold isMissNode
  split at h
  · simp_all [Cell.isMiss]
  · simp_all [Cell.isMiss]
  · simp_all [Cell.isMiss]
  · contradiction

omit [DecidableEq N] in
theorem next_of_not_container {n : N} (h : G.isContainer n = false) : G.contents.next n = [] := by
  unfold isContainer at h
  change (G.cell (G.value n)).elements = []
  cases hcell : G.cell (G.value n) <;> simp_all [Cell.elements]

/-- The elements of a list that are not among those seen, each once. -/
def freshOf (seen : List N) : List N → List N
  | [] => []
  | n :: ns => if n ∈ seen then freshOf seen ns else n :: freshOf (seen ++ [n]) ns

theorem freshOf_spec (seen ns : List N) (h : seen.Nodup) :
    (seen ++ freshOf seen ns).Nodup ∧ (∀ n ∈ freshOf seen ns, n ∈ ns) ∧
      ∀ n ∈ ns, n ∈ seen ++ freshOf seen ns := by
  induction ns generalizing seen with
  | nil => simpa [freshOf] using h
  | cons n ns ih =>
      unfold freshOf
      split
      · rename_i hmem
        obtain ⟨hnodup, hsub, hcover⟩ := ih seen h
        refine ⟨hnodup, fun m hm ↦ List.mem_cons_of_mem n (hsub m hm), ?_⟩
        intro m hm
        rcases List.mem_cons.mp hm with rfl | hm
        · exact List.mem_append_left _ hmem
        · exact hcover m hm
      · rename_i hmem
        have hseen : (seen ++ [n]).Nodup := by
          apply List.Nodup.append h (List.nodup_singleton n)
          simpa using hmem
        obtain ⟨hnodup, hsub, hcover⟩ := ih (seen ++ [n]) hseen
        rw [List.append_assoc, List.singleton_append] at hnodup hcover
        refine ⟨hnodup, ?_, ?_⟩
        · intro m hm
          rcases List.mem_cons.mp hm with rfl | hm
          · exact List.mem_cons_self
          · exact List.mem_cons_of_mem n (hsub m hm)
        · intro m hm
          rcases List.mem_cons.mp hm with rfl | hm
          · exact List.mem_append_right _ List.mem_cons_self
          · exact hcover m hm

theorem scanKids_of_budget (hr : G.MarksMisses r) (ns : List N) (s : Scan N P)
    (h : ns.length ≤ s.budget) :
    G.scanKids r ns s =
      { s with
        out := s.out ++ (freshOf s.seen ns).filter (G.isLost r)
        seen := s.seen ++ freshOf s.seen ns
        stack := ((freshOf s.seen ns).filter G.isContainer).reverse.map G.value ++ s.stack
        budget := s.budget - ns.length } := by
  induction ns generalizing s with
  | nil => simp [scanKids, freshOf]
  | cons n ns ih =>
      have hbudget : s.budget ≠ 0 := by
        intro hzero
        rw [hzero] at h
        simp at h
      have hrest : ns.length ≤ s.budget - 1 := by
        rw [List.length_cons] at h
        omega
      have hcount : s.budget - 1 - ns.length = s.budget - (n :: ns).length := by
        rw [List.length_cons]
        omega
      unfold scanKids
      rw [if_neg hbudget]
      by_cases hseen : n ∈ s.seen
      · rw [if_pos hseen, ih _ hrest]
        simp [freshOf, hseen, hcount]
      · rw [if_neg hseen]
        by_cases hshown : G.seenByPrint r n = true
        · have hmiss := hr n hshown
          have hcontainer : G.isContainer n = false := by
            by_contra hc
            rw [isMissNode_of_isContainer (by simpa using hc)] at hmiss
            contradiction
          rw [if_pos hshown, ih _ hrest]
          simp [freshOf, hseen, hcount, isLost, hshown, hcontainer]
        · rw [if_neg hshown]
          by_cases hmiss : G.isMissNode n = true
          · have hcontainer : G.isContainer n = false := by
              by_contra hc
              rw [isMissNode_of_isContainer (by simpa using hc)] at hmiss
              contradiction
            rw [if_pos hmiss, ih _ hrest]
            simp [freshOf, hseen, hcount, isLost, hshown, hmiss, hcontainer]
          · rw [if_neg hmiss]
            by_cases hcontainer : G.isContainer n = true
            · rw [if_pos hcontainer, ih _ hrest]
              simp [freshOf, hseen, hcount, isLost, hmiss, hcontainer]
            · rw [if_neg hcontainer, ih _ hrest]
              simp [freshOf, hseen, hcount, isLost, hmiss, hcontainer]

/-- Where the budget does not suffice the loop stops when it is used up. -/
theorem scanKids_over_budget (r : Recorder N) (ns : List N) (s : Scan N P)
    (h : s.budget < ns.length) :
    G.scanKids r ns s = { G.scanKids r (ns.take s.budget) s with truncated := true } := by
  induction ns generalizing s with
  | nil => contradiction
  | cons n ns ih =>
      by_cases hbudget : s.budget = 0
      · simp [scanKids, hbudget]
      · have htake : (n :: ns).take s.budget = n :: ns.take (s.budget - 1) := by
          obtain ⟨k, hk⟩ := Nat.exists_eq_succ_of_ne_zero hbudget
          rw [hk]
          rfl
        have hrest : s.budget - 1 < ns.length := by
          rw [List.length_cons] at h
          omega
        rw [htake]
        unfold scanKids
        rw [if_neg hbudget, if_neg hbudget]
        dsimp only
        split
        · exact ih _ hrest
        split
        · exact ih _ hrest
        split
        · exact ih _ hrest
        split
        · exact ih _ hrest
        · exact ih _ hrest

theorem scanKids_drops (r : Recorder N) (ns : List N) (s : Scan N P) :
    (G.scanKids r ns s).stack.length + (G.scanKids r ns s).budget ≤
      s.stack.length + s.budget := by
  induction ns generalizing s with
  | nil => exact le_rfl
  | cons n ns ih =>
      unfold scanKids
      split
      · exact le_rfl
      · dsimp only
        split
        · exact (ih _).trans (Nat.add_le_add_left (Nat.sub_le _ _) _)
        split
        · exact (ih _).trans (Nat.add_le_add_left (Nat.sub_le _ _) _)
        split
        · exact (ih _).trans (Nat.add_le_add_left (Nat.sub_le _ _) _)
        split
        · apply (ih _).trans
          simp only [List.length_cons]
          omega
        · exact (ih _).trans (Nat.add_le_add_left (Nat.sub_le _ _) _)

/-- The scan of `v` before its budget is used up: the containers it has yet to open and those
it has gone through. -/
structure Scanned (r : Recorder N) (v : N) (s : Scan N P) (opens shut : List N) : Prop where
  nodup : s.seen.Nodup
  root : v ∈ s.seen
  reach : ∀ n ∈ s.seen, G.contents.Reach v n
  out : s.out = s.seen.filter (G.isLost r)
  stack : s.stack = opens.map G.value
  parted : (opens ++ shut).Nodup
  known : ∀ n, n ∈ opens ++ shut ↔ n ∈ s.seen ∧ G.isContainer n = true
  covered : ∀ n ∈ shut, ∀ m ∈ G.contents.next n, m ∈ s.seen
  spent : s.budget + (shut.map G.width).sum = dropScanNodes

/-- What the scan has found when it ends. -/
structure Found (r : Recorder N) (v : N) (result : List N × Bool) : Prop where
  nodup : result.1.Nodup
  sound : ∀ n ∈ result.1, G.contents.Reach v n ∧ G.isLost r n = true
  complete : G.places v ≤ dropScanNodes → ∀ n, G.contents.Reach v n → G.isLost r n = true →
    n ∈ result.1
  truncated : result.2 = true ↔ dropScanNodes < G.places v

theorem sum_width_le {v : N} {ns : List N} (hnodup : ns.Nodup)
    (hreach : ∀ n ∈ ns, G.contents.Reach v n) : (ns.map G.width).sum ≤ G.places v := by
  have hsub : List.Subperm ns (G.contents.postorder v).dedup := by
    apply List.subperm_of_subset hnodup
    intro n hn
    rw [List.mem_dedup, Ranked.mem_postorder]
    exact hreach n hn
  obtain ⟨ms, hperm, hms⟩ := hsub
  calc (ns.map G.width).sum
      = (ms.map G.width).sum := ((hperm.map _).sum_eq).symm
    _ ≤ G.places v := (hms.map _).sum_le_sum fun _ _ ↦ Nat.zero_le _

/-- The scan of `v` after one more container has been gone through. -/
theorem Scanned.open_ {v m : N} {s : Scan N P} {opens shut : List N}
    (hr : G.MarksMisses r) (h : G.Scanned r v s (m :: opens) shut)
    (hbudget : G.width m ≤ s.budget) :
    G.Scanned r v (G.scanKids r (G.contents.next m) { s with stack := opens.map G.value })
      (((freshOf s.seen (G.contents.next m)).filter G.isContainer).reverse ++ opens)
      (m :: shut) := by
  rw [scanKids_of_budget hr (G.contents.next m) { s with stack := opens.map G.value } hbudget]
  dsimp only
  obtain ⟨hnodup, hsub, hcover⟩ := freshOf_spec s.seen (G.contents.next m) h.nodup
  generalize freshOf s.seen (G.contents.next m) = fresh at hnodup hsub hcover
  have hm : m ∈ s.seen := ((h.known m).mp List.mem_cons_self).1
  have hperm : ((fresh.filter G.isContainer).reverse ++ opens ++ m :: shut).Perm
      (fresh.filter G.isContainer ++ (m :: opens ++ shut)) := by
    rw [List.append_assoc]
    apply (List.reverse_perm _).append
    exact List.perm_middle
  refine ⟨hnodup, List.mem_append_left _ h.root, ?_, ?_, ?_, ?_, ?_, ?_, ?_⟩
  · intro n hn
    rcases List.mem_append.mp hn with hn | hn
    · exact h.reach n hn
    · exact (h.reach m hm).tail (hsub n hn)
  · rw [h.out, List.filter_append]
  · rw [List.map_append]
  · rw [hperm.nodup_iff]
    apply (hnodup.of_append_right.filter _).append h.parted
    intro n hn hn'
    have hseen := ((h.known n).mp hn').1
    exact (List.disjoint_of_nodup_append hnodup) hseen (List.mem_of_mem_filter hn)
  · intro n
    rw [hperm.mem_iff, List.mem_append, h.known, List.mem_filter, List.mem_append]
    tauto
  · intro n hn k hk
    rcases List.mem_cons.mp hn with rfl | hn
    · exact hcover k hk
    · exact List.mem_append_left _ (h.covered n hn k hk)
  · have hspent := h.spent
    have hwidth : G.width m + (s.budget - (G.contents.next m).length) = s.budget :=
      Nat.add_sub_of_le hbudget
    rw [List.map_cons, List.sum_cons]
    dsimp only
    omega

theorem Scanned.found {v : N} {s : Scan N P} {shut : List N} (h : G.Scanned r v s [] shut) :
    G.Found r v (s.out, false) := by
  have hall : ∀ n, G.contents.Reach v n → n ∈ s.seen := by
    intro n hn
    induction hn with
    | refl => exact h.root
    | @tail m n _ hedge ih =>
        by_cases hcontainer : G.isContainer m = true
        · exact h.covered m ((h.known m).mpr ⟨ih, hcontainer⟩) n hedge
        · change n ∈ G.contents.next m at hedge
          rw [next_of_not_container (by simpa using hcontainer)] at hedge
          contradiction
  have hplaces : G.places v ≤ dropScanNodes := by
    have hseen : G.places v = (s.seen.map G.width).sum := by
      have hperm : ((G.contents.postorder v).dedup).Perm s.seen := by
        apply (List.perm_ext_iff_of_nodup (List.nodup_dedup _) h.nodup).mpr
        intro n
        rw [List.mem_dedup, Ranked.mem_postorder]
        exact ⟨hall n, h.reach n⟩
      exact (hperm.map _).sum_eq
    have hcontainers :
      (s.seen.map G.width).sum = ((s.seen.filter G.isContainer).map G.width).sum := by
      generalize s.seen = ns
      induction ns with
      | nil => rfl
      | cons n ns ih =>
          by_cases hcontainer : G.isContainer n = true
          · simp [hcontainer, ih]
          · have hwidth : G.width n = 0 := by
              unfold width
              rw [next_of_not_container (by simpa using hcontainer)]
              rfl
            simp [hcontainer, ih, hwidth]
    have hshut : (s.seen.filter G.isContainer).Perm shut := by
      apply (List.perm_ext_iff_of_nodup (h.nodup.filter _) h.parted).mpr
      intro n
      rw [List.mem_filter]
      exact (h.known n).symm
    have hspent := h.spent
    rw [hseen, hcontainers, (hshut.map _).sum_eq]
    omega
  refine ⟨?_, ?_, fun _ n hn hlost ↦ ?_, ?_⟩
  · rw [h.out]
    exact h.nodup.filter _
  · intro n hn
    rw [h.out, List.mem_filter] at hn
    exact ⟨h.reach n hn.1, hn.2⟩
  · rw [h.out, List.mem_filter]
    exact ⟨hall n hn, hlost⟩
  · simpa using hplaces

/-- The scan of `v` that ran out of budget in the middle of a container. -/
theorem Scanned.stopped {v m : N} {s : Scan N P} {opens shut : List N}
    (hr : G.MarksMisses r) (h : G.Scanned r v s (m :: opens) shut)
    (hbudget : s.budget < G.width m) :
    (G.scanKids r (G.contents.next m) { s with stack := opens.map G.value }).truncated = true ∧
    G.Found r v
      ((G.scanKids r (G.contents.next m) { s with stack := opens.map G.value }).out, true) := by
  have htake : ((G.contents.next m).take s.budget).length ≤ s.budget := by simp
  rw [scanKids_over_budget r (G.contents.next m) { s with stack := opens.map G.value } hbudget,
    scanKids_of_budget hr _ { s with stack := opens.map G.value } htake]
  dsimp only
  obtain ⟨hnodup, hsub, _⟩ := freshOf_spec s.seen ((G.contents.next m).take s.budget) h.nodup
  generalize freshOf s.seen ((G.contents.next m).take s.budget) = fresh at hnodup hsub
  have hm : m ∈ s.seen := ((h.known m).mp List.mem_cons_self).1
  have hplaces : dropScanNodes < G.places v := by
    have hmshut : (m :: shut).Nodup := by
      have hparted := h.parted
      rw [List.cons_append, List.nodup_cons] at hparted
      exact List.nodup_cons.mpr ⟨fun hmem ↦ hparted.1 (List.mem_append_right _ hmem),
        hparted.2.of_append_right⟩
    have hreach : ∀ n ∈ m :: shut, G.contents.Reach v n := by
      intro n hn
      have hknown : n ∈ m :: opens ++ shut := by
        rcases List.mem_cons.mp hn with rfl | hn
        · exact List.mem_cons_self
        · exact List.mem_append_right _ hn
      exact h.reach n ((h.known n).mp hknown).1
    have hsum := sum_width_le hmshut hreach
    have hspent := h.spent
    rw [List.map_cons, List.sum_cons] at hsum
    omega
  rw [h.out, ← List.filter_append]
  refine ⟨rfl, hnodup.filter _, ?_, fun hle ↦ absurd hplaces (by omega), by simpa using hplaces⟩
  intro n hn
  rw [List.mem_filter] at hn
  refine ⟨?_, hn.2⟩
  rcases List.mem_append.mp hn.1 with hseen | hfresh
  · exact h.reach n hseen
  · exact (h.reach m hm).tail (List.mem_of_mem_take (hsub n hfresh))

/-- One pass of the scan of `v`. -/
theorem scanBody_again (hr : G.MarksMisses r) {v : N} {s s' : Scan N P}
    (h : if s.truncated = true then G.Found r v (s.out, true)
      else ∃ opens shut, G.Scanned r v s opens shut)
    (hbody : G.scanBody r s = .again s') :
    (if s'.truncated = true then G.Found r v (s'.out, true)
      else ∃ opens shut, G.Scanned r v s' opens shut) ∧
      s'.stack.length + s'.budget < s.stack.length + s.budget := by
  unfold scanBody at hbody
  by_cases htruncated : s.truncated = true
  · rw [if_pos htruncated] at hbody
    contradiction
  · rw [if_neg htruncated] at h hbody
    obtain ⟨opens, shut, hscanned⟩ := h
    cases opens with
    | nil =>
        rw [hscanned.stack] at hbody
        contradiction
    | cons m opens =>
        rw [hscanned.stack, List.map_cons] at hbody
        obtain rfl := Pass.again.inj hbody
        have hdrops := scanKids_drops (G := G) r (G.contents.next m)
          { s with stack := opens.map G.value }
        constructor
        · by_cases hbudget : G.width m ≤ s.budget
          · have hopen := hscanned.open_ hr hbudget
            have hflag : (G.scanKids r (G.contents.next m)
                { s with stack := opens.map G.value }).truncated = s.truncated := by
              rw [scanKids_of_budget hr (G.contents.next m)
                { s with stack := opens.map G.value } hbudget]
            rw [if_neg]
            · exact ⟨_, _, hopen⟩
            · exact fun h ↦ htruncated (hflag ▸ h)
          · obtain ⟨hflag, hfound⟩ := hscanned.stopped hr (by omega)
            rw [if_pos]
            · exact hfound
            · exact hflag
        · have hlength : s.stack.length = opens.length + 1 := by
            rw [hscanned.stack]
            simp
          have hmap : (opens.map G.value).length = opens.length := List.length_map _
          change (G.scanKids r (G.contents.next m) _).stack.length +
            (G.scanKids r (G.contents.next m) _).budget < _
          dsimp only at hdrops
          omega

theorem missesWithin_found (hr : G.MarksMisses r) {v : N} (hv : G.isContainer v = true) :
    G.Found r v (G.missesWithin r v) := by
  have hmiss : G.isLost r v = false := by
    unfold isLost
    rw [isMissNode_of_isContainer hv]
    rfl
  have hends : ∃ result, whileLoop (G.scanBody r) (dropScanNodes + 2)
      ⟨[], [v], [G.value v], dropScanNodes, false⟩ = some result ∧ G.Found r v result := by
    refine whileLoop_ends (fun s ↦ s.stack.length + s.budget)
      (fun s ↦ if s.truncated = true then G.Found r v (s.out, true)
        else ∃ opens shut, G.Scanned r v s opens shut) ?_ ?_ ?_ (by simp; omega)
    · exact fun s s' h hbody ↦ scanBody_again hr h hbody
    · intro s result h hbody
      unfold scanBody at hbody
      by_cases htruncated : s.truncated = true
      · rw [if_pos htruncated] at h hbody
        obtain rfl := Pass.done.inj hbody
        exact h
      · rw [if_neg htruncated] at h hbody
        obtain ⟨opens, shut, hscanned⟩ := h
        cases opens with
        | nil =>
            rw [hscanned.stack] at hbody
            obtain rfl := Pass.done.inj hbody
            exact hscanned.found
        | cons m opens =>
            rw [hscanned.stack] at hbody
            contradiction
    · rw [if_neg (by simp)]
      refine ⟨[v], [], by simp, by simp, ?_, ?_, by simp, by simp, ?_, by simp, by simp⟩
      · intro n hn
        obtain rfl := List.mem_singleton.mp hn
        exact .refl
      · simp [hmiss]
      · intro n
        simp only [List.append_nil, List.mem_singleton]
        exact ⟨fun h ↦ ⟨h, h ▸ hv⟩, fun h ↦ h.1⟩
  obtain ⟨result, hresult, hfound⟩ := hends
  unfold missesWithin
  rwa [hresult]

/-! ## One discarded value -/

/-- The misses that a discarded value loses, and whether there may be more. -/
def lossOf (G : Provenance N P) (r : Recorder N) (v : N) : List N × Bool :=
  if G.isMissNode v then (if G.seenByPrint r v then [] else [v], false)
  else if G.isContainer v then if G.seenByPrint r v then ([], false) else G.missesWithin r v
  else ([], false)

def withinOf (G : Provenance N P) (v : N) : Option String :=
  if G.isMissNode v then none else some (G.label v)

theorem noteDrop_eq (r : Recorder N) (v : N) (at_ : ℕ) :
    G.noteDrop r v at_ =
      let after := (G.lossOf r v).1.foldl (G.recordDrop at_ (G.withinOf v)) r
      if (G.lossOf r v).2 then { after with droppedScanTruncated := after.droppedScanTruncated + 1 }
      else after := by
  unfold noteDrop lossOf withinOf
  by_cases hmiss : G.isMissNode v = true
  · by_cases hshown : G.seenByPrint r v = true <;> simp [hmiss, hshown]
  · by_cases hcontainer : G.isContainer v = true
    · by_cases hshown : G.seenByPrint r v = true <;> simp [hmiss, hshown, hcontainer]
    · simp [hmiss, hcontainer]

omit [DecidableEq N] in
theorem reach_of_next_nil {v n : N} (hv : G.contents.next v = []) (h : G.contents.Reach v n) :
    n = v := by
  rcases Relation.ReflTransGen.cases_head h with rfl | ⟨m, hm, _⟩
  · rfl
  · change m ∈ G.contents.next v at hm
    rw [hv] at hm
    contradiction

theorem places_of_next_nil {v : N} (hv : G.contents.next v = []) : G.places v = 0 := by
  unfold places
  rw [Ranked.postorder_eq, hv]
  simp [width, hv]

theorem lossOf_found (hr : G.MarksMisses r) (v : N) : G.Found r v (G.lossOf r v) := by
  have hplaces : G.contents.next v = [] → (false = true ↔ dropScanNodes < G.places v) := by
    intro hnext
    rw [places_of_next_nil hnext]
    simp
  unfold lossOf
  by_cases hmiss : G.isMissNode v = true
  · have hnext : G.contents.next v = [] := by
      apply next_of_not_container
      by_contra hc
      rw [isMissNode_of_isContainer (by simpa using hc)] at hmiss
      contradiction
    rw [if_pos hmiss]
    by_cases hshown : G.seenByPrint r v = true
    · rw [if_pos hshown]
      refine ⟨List.nodup_nil, nofun, fun _ n hn hlost ↦ ?_, hplaces hnext⟩
      obtain rfl := reach_of_next_nil hnext hn
      simp [isLost, hshown] at hlost
    · rw [if_neg hshown]
      refine ⟨List.nodup_singleton v, ?_, fun _ n hn _ ↦ ?_, hplaces hnext⟩
      · intro n hn
        obtain rfl := List.mem_singleton.mp hn
        exact ⟨.refl, by simp [isLost, hmiss, hshown]⟩
      · exact List.mem_singleton.mpr (reach_of_next_nil hnext hn)
  · rw [if_neg hmiss]
    by_cases hcontainer : G.isContainer v = true
    · have hshown : ¬ G.seenByPrint r v = true := fun h ↦ hmiss (hr v h)
      rw [if_pos hcontainer, if_neg hshown]
      exact missesWithin_found hr hcontainer
    · have hnext := next_of_not_container (by simpa using hcontainer)
      rw [if_neg hcontainer]
      refine ⟨List.nodup_nil, nofun, fun _ n hn hlost ↦ ?_, hplaces hnext⟩
      obtain rfl := reach_of_next_nil hnext hn
      simp [isLost, hmiss] at hlost

/-! ## What has been shown -/

/-- The misses that a print of the value shows. -/
def shownBy (G : Provenance N P) (F : FloatOps) (n : N) : List NodeId :=
  if G.isMissNode n then [G.id n]
  else if G.isContainer n then ((G.view n).namedMisses F).map Node.id
  else []

/-- The values that are printed. -/
def printed (events : List (DropEvent N)) : List N :=
  events.filterMap fun
    | .print n => some n
    | .discard _ _ => none

/-- A print has shown the node. -/
def Shown (G : Provenance N P) (F : FloatOps) (events : List (DropEvent N)) (n : N) : Prop :=
  ∃ m ∈ printed events, G.id n ∈ G.shownBy F m

/-- The nodes that prints of misses, or of other values, have shown. -/
def marksOf (G : Provenance N P) (F : FloatOps) (misses : Bool) (events : List (DropEvent N)) :
    List NodeId :=
  ((printed events).filter fun n ↦ G.isMissNode n == misses).flatMap (G.shownBy F)

/-- There is room for everything that has been shown. -/
def RoomForMarks (G : Provenance N P) (F : FloatOps) (events : List (DropEvent N)) : Prop :=
  ∀ misses, (G.marksOf F misses events).dedup.length ≤ dropCap

theorem noteDrop_marks (r : Recorder N) (v : N) (at_ : ℕ) :
    (G.noteDrop r v at_).observed = r.observed ∧
      (G.noteDrop r v at_).observedAggr = r.observedAggr := by
  have hrecord : ∀ within (ns : List N) (r : Recorder N),
      (ns.foldl (G.recordDrop at_ within) r).observed = r.observed ∧
        (ns.foldl (G.recordDrop at_ within) r).observedAggr = r.observedAggr := by
    intro within ns
    induction ns with
    | nil => exact fun r ↦ ⟨rfl, rfl⟩
    | cons n ns ih =>
        intro r
        have hstep : (G.recordDrop at_ within r n).observed = r.observed ∧
            (G.recordDrop at_ within r n).observedAggr = r.observedAggr := by
          unfold recordDrop
          dsimp only
          split
          · exact ⟨rfl, rfl⟩
          split
          · exact ⟨rfl, rfl⟩
          · exact ⟨rfl, rfl⟩
        obtain ⟨hobserved, haggr⟩ := ih (G.recordDrop at_ within r n)
        exact ⟨hobserved.trans hstep.1, haggr.trans hstep.2⟩
  rw [noteDrop_eq]
  dsimp only
  split
  · exact hrecord _ _ _
  · exact hrecord _ _ _

theorem mem_of_mem_marks {ids marks : List NodeId} {id : NodeId} (h : id ∈ ids.foldl mark marks) :
    id ∈ marks ∨ id ∈ ids := by
  induction ids generalizing marks with
  | nil => exact .inl h
  | cons i ids ih =>
      rcases ih h with hmark | hids
      · unfold mark at hmark
        split at hmark
        · rcases List.mem_append.mp hmark with hmark | hmark
          · exact .inl hmark
          · exact .inr (List.mem_cons.mpr (.inl (List.mem_singleton.mp hmark)))
        · exact .inl hmark
      · exact .inr (List.mem_cons_of_mem i hids)

theorem nodup_mark {marks : List NodeId} (h : marks.Nodup) (id : NodeId) :
    (mark marks id).Nodup := by
  unfold mark
  split
  · rename_i hroom
    apply h.append (List.nodup_singleton id)
    simpa using hroom.2
  · exact h

/-- Where there is room, everything is marked. -/
theorem mem_marks {ids marks : List NodeId} (hnodup : marks.Nodup)
    (hroom : (marks ++ ids).dedup.length ≤ dropCap) {id : NodeId} (h : id ∈ marks ++ ids) :
    id ∈ ids.foldl mark marks := by
  induction ids generalizing marks with
  | nil => simpa using h
  | cons i ids ih =>
      have hmem : i ∈ mark marks i := by
        unfold mark
        split
        · simp
        · rename_i hfull
          by_contra hi
          -- `marks` and `i` are more than the cap.
          have hcap : dropCap ≤ marks.length := by
            by_contra hlt
            exact hfull ⟨by omega, hi⟩
          have hsub : List.Subperm (i :: marks) (marks ++ i :: ids).dedup := by
            apply List.subperm_of_subset (List.nodup_cons.mpr ⟨hi, hnodup⟩)
            intro k hk
            rw [List.mem_dedup, List.mem_append, List.mem_cons]
            rcases List.mem_cons.mp hk with rfl | hk
            · exact .inr (.inl rfl)
            · exact .inl hk
          have hlength := hsub.length_le
          rw [List.length_cons] at hlength
          omega
      have hmarks : ∀ k ∈ marks, k ∈ mark marks i := by
        intro k hk
        unfold mark
        split
        · exact List.mem_append_left _ hk
        · exact hk
      have hback : ∀ k ∈ mark marks i, k ∈ marks ∨ k = i := by
        intro k hk
        unfold mark at hk
        split at hk
        · simpa using hk
        · exact .inl hk
      apply ih (nodup_mark hnodup i)
      · apply le_trans _ hroom
        apply List.Subperm.length_le
        apply List.subperm_of_subset (List.nodup_dedup _)
        intro k hk
        rw [List.mem_dedup, List.mem_append] at hk
        rw [List.mem_dedup, List.mem_append, List.mem_cons]
        rcases hk with hk | hk
        · rcases hback k hk with hk | rfl
          · exact .inl hk
          · exact .inr (.inl rfl)
        · exact .inr (.inr hk)
      · rcases List.mem_append.mp h with hk | hk
        · exact List.mem_append_left _ (hmarks id hk)
        · rcases List.mem_cons.mp hk with rfl | hk
          · exact List.mem_append_left _ hmem
          · exact List.mem_append_right _ hk

/-! ### The misses that a rendering names -/

/-- The misses named so far are nodes of the graph. -/
def NamesMisses (G : Provenance N P) (ctx : ShowCtx) : Prop :=
  ∀ v ∈ ctx.misses, ∃ n, v.id = G.id n ∧ G.isMissNode n = true

/-- A node as it is seen with some of the values below it cut off. -/
def viewOf (G : Provenance N P) (k : ℕ) (n : N) : Node :=
  .mk (G.id n) (G.op n) (G.detail n) (G.line n) [] (G.count n) (G.viewWithin k (G.value n))

end

variable {G} {r : Recorder N}

theorem NamesMisses.see {ctx : ShowCtx} (h : G.NamesMisses ctx) (k : ℕ) (n : N) :
    G.NamesMisses (ctx.see (G.viewOf k n)) := by
  unfold ShowCtx.see
  split
  · rename_i hmiss
    intro v hv
    rcases List.mem_append.mp hv with hv | hv
    · exact h v hv
    · obtain rfl := List.mem_singleton.mp hv
      refine ⟨n, rfl, ?_⟩
      rw [Bool.and_eq_true] at hmiss
      have hview : (G.viewWithin k (G.value n)).isMiss = true := hmiss.1
      cases k with
      | zero => contradiction
      | succ k =>
          unfold viewWithin at hview
          unfold isMissNode
          split at hview <;> simp_all [Payload.isMiss, Cell.isMiss]
  · exact h

theorem NamesMisses.spend {ctx ctx' : ShowCtx} (h : G.NamesMisses ctx)
    (hspend : ctx.spend = some ctx') : G.NamesMisses ctx' := by
  unfold ShowCtx.spend at hspend
  split at hspend
  · contradiction
  · obtain rfl := Option.some.inj hspend
    exact h

theorem NamesMisses.fullItems {F : FloatOps} {k : ℕ}
    (ih : ∀ p nest ctx, G.NamesMisses ctx →
      G.NamesMisses ((G.viewWithin k p).renderFull F nest ctx).2)
    (nest : ℕ) (items : List N) {ctx : ShowCtx} (h : G.NamesMisses ctx) :
    G.NamesMisses (fullItems F nest (items.map (G.viewOf k)) ctx).2.2 := by
  induction items generalizing ctx with
  | nil => exact h
  | cons n items ihitems =>
      rw [List.map_cons, Whence.fullItems]
      split
      · exact h
      · rename_i ctx' hspend
        apply ihitems
        exact ih _ _ _ ((h.spend hspend).see k n)

theorem NamesMisses.fullFields {F : FloatOps} {k : ℕ}
    (ih : ∀ p nest ctx, G.NamesMisses ctx →
      G.NamesMisses ((G.viewWithin k p).renderFull F nest ctx).2)
    (nest : ℕ) (fields : List (String × N)) {ctx : ShowCtx} (h : G.NamesMisses ctx) :
    G.NamesMisses (fullFields F nest (fields.map fun f ↦ (f.1, G.viewOf k f.2)) ctx).2.2 := by
  induction fields generalizing ctx with
  | nil => exact h
  | cons f fields ihfields =>
      rw [List.map_cons, Whence.fullFields]
      split
      · exact h
      · rename_i ctx' hspend
        apply ihfields
        exact ih _ _ _ ((h.spend hspend).see k f.2)

theorem NamesMisses.renderFull (F : FloatOps) (k : ℕ) (p : P) (nest : ℕ) (ctx : ShowCtx)
    (h : G.NamesMisses ctx) : G.NamesMisses ((G.viewWithin k p).renderFull F nest ctx).2 := by
  induction k generalizing p nest ctx with
  | zero => exact h
  | succ k ih =>
      unfold viewWithin
      cases G.cell p with
      | list items =>
          simp only [Payload.renderFull]
          split
          · exact h
          · exact NamesMisses.fullItems ih _ items h
      | record fields =>
          simp only [Payload.renderFull]
          split
          · exact h
          · exact NamesMisses.fullFields ih _ fields h
      | guess m confidence sources =>
          simp only [Payload.renderFull]
          split
          · exact h
          · rename_i ctx' hspend
            exact ih _ _ _ ((h.spend hspend).see k m)
      | _ => exact h

theorem mem_shownBy {F : FloatOps} {n : N} {id : NodeId} (h : id ∈ G.shownBy F n) :
    ∃ m, id = G.id m ∧ G.isMissNode m = true := by
  have hnone : ∀ cap budget, G.NamesMisses (ShowCtx.start cap budget) := by
    intro cap budget v hv
    contradiction
  unfold shownBy at h
  split at h
  · rename_i hmiss
    exact ⟨n, List.mem_singleton.mp h, hmiss⟩
  split at h
  · obtain ⟨v, hv, rfl⟩ := List.mem_map.mp h
    have hmisses : ∀ v ∈ (G.view n).namedMisses F, ∃ m, v.id = G.id m ∧ G.isMissNode m = true := by
      rename_i hnot hcontainer
      unfold isContainer at hcontainer
      unfold Node.namedMisses view Node.value viewWithin
      split at hcontainer
      · rename_i items hcell
        rw [hcell]
        exact NamesMisses.fullItems (NamesMisses.renderFull F _) _ items (hnone _ _)
      · rename_i fields hcell
        rw [hcell]
        exact NamesMisses.fullFields (NamesMisses.renderFull F _) _ fields (hnone _ _)
      · rename_i m confidence sources hcell
        rw [hcell]
        simp only [Payload.renderFull]
        split
        · exact hnone fullShowNest fullShowNodes
        · rename_i ctx' hspend
          exact NamesMisses.renderFull F _ _ _ _ (((hnone _ _).spend hspend).see _ m)
      · contradiction
    exact hmisses v hv
  · contradiction

section

variable [DecidableEq N]

theorem marks_recorderAfter (F : FloatOps) (events : List (DropEvent N)) :
    (G.recorderAfter F events).observed = (G.marksOf F true events).foldl mark [] ∧
      (G.recorderAfter F events).observedAggr = (G.marksOf F false events).foldl mark [] := by
  induction events using List.reverseRecOn with
  | nil => exact ⟨rfl, rfl⟩
  | append_singleton events event ih =>
      have hsnoc : G.recorderAfter F (events ++ [event]) =
          G.dropStep F (G.recorderAfter F events) event := List.foldl_concat ..
      rw [hsnoc]
      cases event with
      | discard v at_ =>
          have hmarks : ∀ misses, G.marksOf F misses (events ++ [.discard v at_]) =
              G.marksOf F misses events := by
            intro misses
            simp [marksOf, printed]
          rw [hmarks, hmarks]
          obtain ⟨hobserved, haggr⟩ := noteDrop_marks (G := G) (G.recorderAfter F events) v at_
          exact ⟨hobserved.trans ih.1, haggr.trans ih.2⟩
      | print n =>
          have hmarks : ∀ misses, G.marksOf F misses (events ++ [.print n]) =
              G.marksOf F misses events ++
                if G.isMissNode n = misses then G.shownBy F n else [] := by
            intro misses
            by_cases hkind : G.isMissNode n = misses <;> simp [marksOf, printed, hkind]
          rw [hmarks, hmarks, List.foldl_append, List.foldl_append, ← ih.1, ← ih.2]
          unfold dropStep notePrint shownBy
          by_cases hmiss : G.isMissNode n = true
          · simp [hmiss]
          · by_cases hcontainer : G.isContainer n = true
            · simp [hmiss, hcontainer, List.foldl_map]
            · simp [hmiss, hcontainer]

theorem seenByPrint_iff (F : FloatOps) (events : List (DropEvent N)) (n : N) :
    G.seenByPrint (G.recorderAfter F events) n = true ↔
      ∃ misses, G.id n ∈ (G.marksOf F misses events).foldl mark [] := by
  obtain ⟨hobserved, haggr⟩ := marks_recorderAfter (G := G) F events
  unfold seenByPrint
  rw [hobserved, haggr]
  simp [or_comm]

omit [DecidableEq N] in
theorem shown_iff (F : FloatOps) (events : List (DropEvent N)) (n : N) :
    G.Shown F events n ↔ ∃ misses, G.id n ∈ G.marksOf F misses events := by
  unfold Shown marksOf
  constructor
  · rintro ⟨m, hm, hid⟩
    refine ⟨G.isMissNode m, List.mem_flatMap.mpr ⟨m, ?_, hid⟩⟩
    simp [hm]
  · rintro ⟨misses, hid⟩
    obtain ⟨m, hm, hid⟩ := List.mem_flatMap.mp hid
    exact ⟨m, List.mem_of_mem_filter hm, hid⟩

theorem shown_of_seenByPrint {F : FloatOps} {events : List (DropEvent N)} {n : N}
    (h : G.seenByPrint (G.recorderAfter F events) n = true) : G.Shown F events n := by
  rw [seenByPrint_iff] at h
  obtain ⟨misses, h⟩ := h
  rw [shown_iff]
  exact ⟨misses, (mem_of_mem_marks h).resolve_left List.not_mem_nil⟩

theorem seenByPrint_of_shown {F : FloatOps} {events : List (DropEvent N)}
    (hroom : G.RoomForMarks F events) {n : N} (h : G.Shown F events n) :
    G.seenByPrint (G.recorderAfter F events) n = true := by
  rw [shown_iff] at h
  obtain ⟨misses, h⟩ := h
  rw [seenByPrint_iff]
  exact ⟨misses, mem_marks List.nodup_nil (hroom misses) h⟩

theorem marksMisses_recorderAfter (G : Identified N P) (F : FloatOps)
    (events : List (DropEvent N)) :
    G.MarksMisses (G.recorderAfter F events) := by
  intro n h
  obtain ⟨m, _, hid⟩ := shown_of_seenByPrint h
  obtain ⟨k, hk, hmiss⟩ := mem_shownBy hid
  rwa [G.id_injective hk]

/-! ## The table -/

/-- The keys under which one step of a run records misses. -/
def stepKeys (G : Provenance N P) (r : Recorder N) : DropEvent N → List DropKey
  | .print _ => []
  | .discard v at_ => (G.lossOf r v).1.map fun n ↦ G.dropKey n at_ (G.withinOf v)

/-- The keys under which a run records misses, one for each time that it does. -/
def dropKeys (G : Provenance N P) (F : FloatOps) (r : Recorder N) :
    List (DropEvent N) → List DropKey
  | [] => []
  | event :: events => G.stepKeys r event ++ G.dropKeys F (G.dropStep F r event) events

theorem dropKeys_append (F : FloatOps) (r : Recorder N) (events events' : List (DropEvent N)) :
    G.dropKeys F r (events ++ events') =
      G.dropKeys F r events ++ G.dropKeys F (events.foldl (G.dropStep F) r) events' := by
  induction events generalizing r with
  | nil => rfl
  | cons event events ih =>
      rw [List.cons_append, dropKeys, ih, ← List.append_assoc]
      rfl

/-- How often the table has a key. -/
def countOf (r : Recorder N) (key : DropKey) : ℕ :=
  ((r.dropped.filter fun d ↦ d.key = key).map Dropped.count).sum

/-- The table of a run that has recorded misses under these keys. -/
structure Tallied (keys : List DropKey) (r : Recorder N) : Prop where
  total : r.droppedTotal = keys.length
  nodup : (r.dropped.map Dropped.key).Nodup
  known : ∀ d ∈ r.dropped, d.key ∈ keys
  count : ∀ d ∈ r.dropped, d.count = keys.count d.key
  full : ∀ key ∈ keys, key ∈ r.dropped.map Dropped.key ∨ dropCap ≤ r.dropped.length

end

theorem Tallied.total_append {keys : List DropKey} {r : Recorder N} (h : Tallied keys r)
    (key : DropKey) : r.droppedTotal + 1 = (keys ++ [key]).length := by
  rw [h.total, List.length_append, List.length_singleton]

theorem Tallied.again {keys : List DropKey} {r : Recorder N} (h : Tallied keys r) {key : DropKey}
    (hold : key ∈ r.dropped.map Dropped.key) :
    Tallied (keys ++ [key]) { r with
      droppedTotal := r.droppedTotal + 1
      dropped := r.dropped.map fun d ↦
        if d.key = key then { d with count := d.count + 1 } else d } := by
  have hkeys : (r.dropped.map fun d ↦
      if d.key = key then { d with count := d.count + 1 } else d).map Dropped.key =
      r.dropped.map Dropped.key := by
    rw [List.map_map]
    apply List.map_congr_left
    intro d _
    rw [Function.comp]
    split <;> rfl
  constructor
  · exact h.total_append key
  · rw [hkeys]
    exact h.nodup
  · intro d hd
    have hkey : d.key ∈ r.dropped.map Dropped.key := hkeys ▸ List.mem_map_of_mem hd
    obtain ⟨d', hd', heq⟩ := List.mem_map.mp hkey
    exact List.mem_append_left _ (heq ▸ h.known d' hd')
  · intro d hd
    obtain ⟨d', hd', rfl⟩ := List.mem_map.mp hd
    rw [List.count_append]
    by_cases hkey : d'.key = key
    · simp [hkey, h.count d' hd']
    · have hne : key ≠ d'.key := fun heq ↦ hkey heq.symm
      simp [hkey, hne, h.count d' hd']
  · intro key' hkey'
    rw [hkeys, List.length_map]
    rcases List.mem_append.mp hkey' with hkey' | hkey'
    · exact h.full key' hkey'
    · obtain rfl := List.mem_singleton.mp hkey'
      exact .inl hold

theorem Tallied.refused {keys : List DropKey} {r : Recorder N} (h : Tallied keys r)
    {key : DropKey} (hfresh : key ∉ r.dropped.map Dropped.key)
    (hfull : dropCap ≤ r.dropped.length) :
    Tallied (keys ++ [key]) { r with droppedTotal := r.droppedTotal + 1 } := by
  constructor
  · exact h.total_append key
  · exact h.nodup
  · exact fun d hd ↦ List.mem_append_left _ (h.known d hd)
  · intro d hd
    have hne : key ≠ d.key := fun heq ↦ hfresh (heq ▸ List.mem_map_of_mem hd)
    rw [List.count_append, List.count_singleton, h.count d hd]
    simp [hne]
  · exact fun _ _ ↦ .inr hfull

theorem Tallied.entered {keys : List DropKey} {r : Recorder N} (h : Tallied keys r)
    (entry : Dropped N) (hone : entry.count = 1) (hfresh : entry.key ∉ r.dropped.map Dropped.key)
    (hroom : ¬ dropCap ≤ r.dropped.length) :
    Tallied (keys ++ [entry.key]) { r with
      droppedTotal := r.droppedTotal + 1
      dropped := r.dropped ++ [entry] } := by
  -- There is room, so a key that the run has had would be in the table.
  have hnew : entry.key ∉ keys := fun hkey ↦ (h.full _ hkey).elim hfresh hroom
  constructor
  · exact h.total_append entry.key
  · rw [List.map_append]
    apply h.nodup.append (List.nodup_singleton _)
    rw [List.disjoint_singleton]
    exact hfresh
  · intro d hd
    rcases List.mem_append.mp hd with hd | hd
    · exact List.mem_append_left _ (h.known d hd)
    · obtain rfl := List.mem_singleton.mp hd
      exact List.mem_append_right _ List.mem_cons_self
  · intro d hd
    rw [List.count_append, List.count_singleton]
    rcases List.mem_append.mp hd with hd | hd
    · have hne : entry.key ≠ d.key := fun heq ↦ hfresh (heq ▸ List.mem_map_of_mem hd)
      rw [h.count d hd]
      simp [hne]
    · obtain rfl := List.mem_singleton.mp hd
      simp [List.count_eq_zero.mpr hnew, hone]
  · intro key hkey
    rw [List.map_append, List.length_append]
    rcases List.mem_append.mp hkey with hkey | hkey
    · rcases h.full key hkey with hmem | hfull
      · exact .inl (List.mem_append_left _ hmem)
      · exact .inr (by omega)
    · obtain rfl := List.mem_singleton.mp hkey
      exact .inl (List.mem_append_right _ List.mem_cons_self)

theorem Tallied.recordDrop {keys : List DropKey} {r : Recorder N} (h : Tallied keys r) (at_ : ℕ)
    (within : Option String) (n : N) :
    Tallied (keys ++ [G.dropKey n at_ within]) (G.recordDrop at_ within r n) := by
  have hmem : (r.dropped.any fun d ↦ d.key = G.dropKey n at_ within) = true ↔
      G.dropKey n at_ within ∈ r.dropped.map Dropped.key := by
    simp [List.any_eq_true]
  unfold Provenance.recordDrop
  dsimp only
  split
  · rename_i hany
    exact h.again (hmem.mp hany)
  · rename_i hany
    have hfresh := mt hmem.mpr hany
    split
    · rename_i hfull
      exact h.refused hfresh hfull
    · rename_i hroom
      exact h.entered ⟨G.dropKey n at_ within, G.label n, 1, n⟩ rfl hfresh hroom

theorem Tallied.recordDrops {keys : List DropKey} {r : Recorder N} (h : Tallied keys r) (at_ : ℕ)
    (within : Option String) (lost : List N) :
    Tallied (keys ++ lost.map fun n ↦ G.dropKey n at_ within)
      (lost.foldl (G.recordDrop at_ within) r) := by
  induction lost generalizing keys r with
  | nil => simpa using h
  | cons n lost ih => simpa using ih (h.recordDrop (G := G) at_ within n)

theorem recordDrops_truncated (at_ : ℕ) (within : Option String)
    (lost : List N) (r : Recorder N) :
    (lost.foldl (G.recordDrop at_ within) r).droppedScanTruncated = r.droppedScanTruncated := by
  induction lost generalizing r with
  | nil => rfl
  | cons n lost ih =>
      rw [List.foldl_cons, ih]
      unfold recordDrop
      dsimp only
      split
      · rfl
      split
      · rfl
      · rfl

section

variable [DecidableEq N]

theorem Tallied.dropStep {keys : List DropKey} {r : Recorder N} (h : Tallied keys r) (F : FloatOps)
    (event : DropEvent N) : Tallied (keys ++ G.stepKeys r event) (G.dropStep F r event) := by
  cases event with
  | print n =>
      rw [stepKeys, List.append_nil]
      unfold Provenance.dropStep notePrint
      dsimp only
      split
      · exact ⟨h.total, h.nodup, h.known, h.count, h.full⟩
      split
      · exact ⟨h.total, h.nodup, h.known, h.count, h.full⟩
      · exact h
  | discard v at_ =>
      have hrecords := h.recordDrops (G := G) at_ (G.withinOf v) (G.lossOf r v).1
      change Tallied _ (G.noteDrop r v at_)
      rw [noteDrop_eq]
      dsimp only
      split
      · exact ⟨hrecords.total, hrecords.nodup, hrecords.known, hrecords.count, hrecords.full⟩
      · exact hrecords

theorem tallied_recorderAfter (F : FloatOps) (events : List (DropEvent N)) :
    Tallied (G.dropKeys F {} events) (G.recorderAfter F events) := by
  induction events using List.reverseRecOn with
  | nil => exact ⟨rfl, List.nodup_nil, nofun, nofun, nofun⟩
  | append_singleton events event ih =>
      rw [dropKeys_append, recorderAfter, List.foldl_concat]
      have hstep := ih.dropStep (G := G) F event
      simpa [dropKeys, recorderAfter] using hstep

omit [DecidableEq N] in
theorem Tallied.mem_keys {keys : List DropKey} {r : Recorder N} (h : Tallied keys r)
    (hcap : keys.dedup.length ≤ dropCap) {key : DropKey} (hkey : key ∈ keys) :
    key ∈ r.dropped.map Dropped.key := by
  by_contra hmissing
  have hfull := (h.full key hkey).resolve_left hmissing
  have hsub : List.Subperm (key :: r.dropped.map Dropped.key) keys.dedup := by
    apply List.subperm_of_subset (List.nodup_cons.mpr ⟨hmissing, h.nodup⟩)
    intro k hk
    rw [List.mem_dedup]
    rcases List.mem_cons.mp hk with rfl | hk
    · exact hkey
    · obtain ⟨d, hd, rfl⟩ := List.mem_map.mp hk
      exact h.known d hd
  have hlength := hsub.length_le
  rw [List.length_cons, List.length_map] at hlength
  omega

omit [DecidableEq N] in
theorem Tallied.sum_count {keys : List DropKey} {r : Recorder N} (h : Tallied keys r)
    (hcap : keys.dedup.length ≤ dropCap) :
    (r.dropped.map Dropped.count).sum = r.droppedTotal := by
  have hperm : (r.dropped.map Dropped.key).Perm keys.dedup := by
    apply (List.perm_ext_iff_of_nodup h.nodup (List.nodup_dedup keys)).mpr
    intro key
    rw [List.mem_dedup]
    constructor
    · intro hkey
      obtain ⟨d, hd, rfl⟩ := List.mem_map.mp hkey
      exact h.known d hd
    · exact h.mem_keys hcap
  calc (r.dropped.map Dropped.count).sum
      = ((r.dropped.map Dropped.key).map fun key ↦ keys.count key).sum := by
        rw [List.map_map]
        congr 1
        exact List.map_congr_left h.count
    _ = (keys.dedup.map fun key ↦ keys.count key).sum := (hperm.map _).sum_eq
    _ = keys.length := List.sum_map_count_dedup_eq_length keys
    _ = r.droppedTotal := h.total.symm

omit [DecidableEq N] in
theorem Tallied.countOf {keys : List DropKey} {r : Recorder N} (h : Tallied keys r)
    (hcap : keys.dedup.length ≤ dropCap) (key : DropKey) : countOf r key = keys.count key := by
  have hentry : ∀ (ds : List (Dropped N)), (ds.map Dropped.key).Nodup → ∀ d ∈ ds, d.key = key →
      (ds.filter fun d ↦ d.key = key) = [d] := by
    intro ds hds d hd hkey
    induction ds with
    | nil => contradiction
    | cons e es ih =>
        rw [List.map_cons, List.nodup_cons] at hds
        rcases List.mem_cons.mp hd with rfl | hd
        · have hnone : (es.filter fun d ↦ d.key = key) = [] := by
            rw [List.filter_eq_nil_iff]
            intro e he heq
            apply hds.1
            rw [hkey]
            exact List.mem_map.mpr ⟨e, he, by simpa using heq⟩
          simp [hkey, hnone]
        · have hne : e.key ≠ key := by
            intro heq
            apply hds.1
            rw [heq, ← hkey]
            exact List.mem_map_of_mem hd
          simp [hne, ih hds.2 hd]
  unfold Provenance.countOf
  by_cases hkey : key ∈ keys
  · obtain ⟨d, hd, rfl⟩ := List.mem_map.mp (h.mem_keys hcap hkey)
    rw [hentry r.dropped h.nodup d hd rfl]
    simpa using h.count d hd
  · have hnone : (r.dropped.filter fun d ↦ d.key = key) = [] := by
      rw [List.filter_eq_nil_iff]
      intro d hd heq
      apply hkey
      have heq : d.key = key := by simpa using heq
      exact heq ▸ h.known d hd
    rw [hnone, List.count_eq_zero.mpr hkey]
    rfl

theorem length_dedup_append_left (before keys : List DropKey) :
    before.dedup.length ≤ (before ++ keys).dedup.length := by
  apply List.Subperm.length_le
  apply List.subperm_of_subset (List.nodup_dedup _)
  intro key hkey
  rw [List.mem_dedup] at hkey ⊢
  exact List.mem_append_left _ hkey

/-- A discarded value has its lost misses recorded, each once. -/
theorem discard_records_lost_misses (G : Identified N P) (F : FloatOps)
    (before : List (DropEvent N)) (v : N) (at_ : ℕ) :
    let after := before ++ [.discard v at_]
    let r := G.recorderAfter F before
    let r' := G.recorderAfter F after
    ∃ recorded : List N,
      recorded.Nodup ∧
      (∀ n ∈ recorded, G.contents.Reach v n ∧ G.isMissNode n = true) ∧
      (G.places v ≤ dropScanNodes → ∀ n, G.contents.Reach v n → G.isMissNode n = true →
        ¬ G.Shown F before n → n ∈ recorded) ∧
      (G.RoomForMarks F before → ∀ n ∈ recorded, ¬ G.Shown F before n) ∧
      G.dropKeys F {} after =
        G.dropKeys F {} before ++ recorded.map (fun n ↦ G.dropKey n at_ (G.withinOf v)) ∧
      r'.droppedTotal = r.droppedTotal + recorded.length ∧
      ((G.dropKeys F {} after).dedup.length ≤ dropCap →
        (∀ key, countOf r' key = countOf r key +
          (recorded.map fun n ↦ G.dropKey n at_ (G.withinOf v)).count key) ∧
        (r'.dropped.map Dropped.count).sum = r'.droppedTotal) ∧
      r'.droppedScanTruncated =
        r.droppedScanTruncated + if dropScanNodes < G.places v then 1 else 0 := by
  dsimp only
  have hfound := lossOf_found (marksMisses_recorderAfter G F before) v
  have hkeys : G.dropKeys F {} (before ++ [.discard v at_]) = G.dropKeys F {} before ++
      (G.lossOf (G.recorderAfter F before) v).1.map fun n ↦ G.dropKey n at_ (G.withinOf v) := by
    rw [dropKeys_append]
    simp [dropKeys, stepKeys, recorderAfter]
  have htally := tallied_recorderAfter (G := G.toProvenance) F before
  have htally' := tallied_recorderAfter (G := G.toProvenance) F (before ++ [.discard v at_])
  refine ⟨(G.lossOf (G.recorderAfter F before) v).1, hfound.nodup, ?_, ?_, ?_, hkeys, ?_, ?_, ?_⟩
  · intro n hn
    obtain ⟨hreach, hlost⟩ := hfound.sound n hn
    unfold isLost at hlost
    rw [Bool.and_eq_true] at hlost
    exact ⟨hreach, hlost.1⟩
  · intro hplaces n hreach hmiss hunshown
    apply hfound.complete hplaces n hreach
    unfold isLost
    rw [hmiss, Bool.true_and, Bool.not_eq_true']
    by_contra hseen
    exact hunshown (shown_of_seenByPrint (by simpa using hseen))
  · intro hroom n hn hshown
    have hlost := (hfound.sound n hn).2
    unfold isLost at hlost
    rw [seenByPrint_of_shown hroom hshown] at hlost
    simp at hlost
  · rw [htally'.total, hkeys, List.length_append, List.length_map, htally.total]
  · intro hcap
    refine ⟨fun key ↦ ?_, htally'.sum_count hcap⟩
    have hcap' : (G.dropKeys F {} before).dedup.length ≤ dropCap :=
      le_trans (hkeys ▸ length_dedup_append_left _ _) hcap
    rw [htally'.countOf hcap, htally.countOf hcap', hkeys, List.count_append]
  · rw [recorderAfter, List.foldl_concat]
    change (G.noteDrop (G.recorderAfter F before) v at_).droppedScanTruncated = _
    rw [noteDrop_eq]
    dsimp only
    by_cases hmore : dropScanNodes < G.places v
    · rw [if_pos hmore, if_pos (hfound.truncated.mpr hmore), recordDrops_truncated]
    · rw [if_neg hmore, if_neg (mt hfound.truncated.mp hmore), recordDrops_truncated]
      rfl

end

end Provenance

end NucLlm.Whence
