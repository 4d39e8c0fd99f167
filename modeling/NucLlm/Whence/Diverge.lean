import NucLlm.Lib.Lists
import NucLlm.Whence.DeepEq

/-!
# Where two histories diverge

`same` compares two histories by plain recursion on them.  `diverge` walks the
pairs of both histories once, with a memo of what it found, and lists the
origins of the difference in the order in which that recursion is done with them.
-/

namespace NucLlm.Whence.Provenance

open NucLlm.Lists

variable {N P : Type} (G : Provenance N P)

/-! ## The plain recursion -/

/-- The pairs of inputs below a pair of nodes of one shape. -/
def lockstep : Ranked (N × N) where
  next p := if G.sameShape p then G.inputPairs p else []
  rank p := G.age p.1
  rank_next p q hq := by
    split at hq
    · exact G.age_inputs p.1 q.1 (List.of_mem_zip hq).1
    · contradiction

theorem lockstep_next {p : N × N} (h : G.sameShape p = true) :
    G.lockstep.next p = G.inputPairs p := by
  simp [lockstep, h]

variable [DecidableEq N] [DecidableEq P] (F : FloatOps)

/-- Equal reasons, equal structure or, where structure does not decide, the same snapshot. -/
def alike (x y : P) : Bool :=
  if (G.cell x).isMiss || (G.cell y).isMiss then (G.cell x).sameReasons (G.cell y)
  else (G.equality (x, y)).getD (decide (G.showPayload F x = G.showPayload F y))

/-- The two payloads agree: they are one object, or alike. -/
def agree (x y : P) : Bool := decide (x = y) || G.alike F x y

/-- The two histories are the same. -/
def same (p : N × N) : Bool :=
  G.lockstep.recurse (fun p below ↦
    G.sameShape p && below.all (fun b ↦ b) && G.sameStep p &&
      G.agree F (G.value p.1) (G.value p.2)) p

omit [DecidableEq N] in
theorem same_eq (p : N × N) :
    G.same F p = (G.sameShape p && (G.inputPairs p).all (G.same F) && G.sameStep p &&
      G.agree F (G.value p.1) (G.value p.2)) := by
  unfold same
  rw [Ranked.recurse_eq]
  by_cases h : G.sameShape p = true
  · rw [G.lockstep_next h, List.all_map]
    rfl
  · simp [h]

/-- A difference that is not one of the inputs. -/
def isOrigin (p : N × N) : Bool :=
  !G.same F p && (!G.sameShape p || (G.inputPairs p).all (G.same F))

/-- What differs at an origin. -/
def difference (p : N × N) : Difference :=
  if G.sameShape p && G.sameStep p then .value else .step

/-! ## Symmetry and reflexivity -/

omit [DecidableEq N] in
theorem agree_self (x : P) : G.agree F x x = true := by simp [agree]

omit [DecidableEq N] in
theorem agree_comm (x y : P) : G.agree F y x = G.agree F x y := by
  have hequality := G.equality_swap (x, y)
  change G.equality (y, x) = _ at hequality
  have hmiss : (G.cell y).sameReasons (G.cell x) = (G.cell x).sameReasons (G.cell y) := by
    simp [Cell.sameReasons, Bool.and_comm, eq_comm (a := (G.cell y).reasons)]
  unfold agree alike
  rw [hequality, hmiss, Bool.or_comm (G.cell y).isMiss]
  simp only [eq_comm (a := y), eq_comm (a := G.showPayload F y)]

omit [DecidableEq N] in
theorem same_self (p : N × N) (h : p.1 = p.2) : G.same F p = true := by
  induction p using G.lockstep.induction with
  | step p ih =>
      have hshape : G.sameShape p = true := by simp [sameShape, h]
      rw [G.lockstep_next hshape] at ih
      have hinputs : (G.inputPairs p).all (G.same F) = true := by
        apply List.all_eq_true.mpr
        intro q hq
        apply ih q hq
        unfold inputPairs at hq
        rw [h, List.zip_eq_zipWith, List.zipWith_self] at hq
        obtain ⟨m, _, rfl⟩ := List.mem_map.mp hq
        rfl
      rw [same_eq, hinputs, hshape, h, G.agree_self]
      simp [sameStep, h]

omit [DecidableEq N] [DecidableEq P] in
theorem sameShape_swap (p : N × N) : G.sameShape p.swap = G.sameShape p := by
  simp [sameShape, eq_comm (a := G.op p.2), eq_comm (a := (G.inputs p.2).length)]

omit [DecidableEq N] [DecidableEq P] in
theorem inputPairs_swap (p : N × N) : G.inputPairs p.swap = (G.inputPairs p).map Prod.swap :=
  (List.zip_swap _ _).symm

omit [DecidableEq N] [DecidableEq P] in
theorem sameStep_swap {p : N × N} (h : G.sameShape p = true) :
    G.sameStep p.swap = G.sameStep p := by
  have hop : G.op p.1 = G.op p.2 := by
    simp only [sameShape, Bool.and_eq_true, decide_eq_true_eq] at h
    exact h.1
  simp [sameStep, hop, eq_comm (a := G.count p.2), eq_comm (a := G.detail p.2)]

omit [DecidableEq N] in
theorem same_swap (p : N × N) : G.same F p.swap = G.same F p := by
  induction p using G.lockstep.induction with
  | step p ih =>
      rw [same_eq, same_eq, G.sameShape_swap]
      by_cases h : G.sameShape p = true
      · rw [G.lockstep_next h] at ih
        have hinputs : (G.inputPairs p.swap).all (G.same F) = (G.inputPairs p).all (G.same F) := by
          rw [inputPairs_swap, List.all_map, Bool.eq_iff_iff, List.all_eq_true, List.all_eq_true]
          exact forall₂_congr fun q hq ↦ by rw [Function.comp_apply, ih q hq]
        have hagree := G.agree_comm F (G.value p.1) (G.value p.2)
        rw [hinputs, G.sameStep_swap h]
        simp [hagree]
      · simp [h]

omit [DecidableEq N] in
theorem isOrigin_swap (p : N × N) : G.isOrigin F p.swap = G.isOrigin F p := by
  unfold isOrigin
  rw [same_swap, sameShape_swap, inputPairs_swap, List.all_map]
  congr 3
  funext q
  exact G.same_swap F q

/-! ## The origins below a pair -/

/-- The origins below a pair, in the order in which the recursion is done with them. -/
def found (p : N × N) : List (N × N) := (G.lockstep.postorder p).filter (G.isOrigin F)

omit [DecidableEq N] in
theorem found_eq (p : N × N) :
    G.found F p = (if G.sameShape p then (G.inputPairs p).reverse.flatMap (G.found F) else []) ++
      if G.isOrigin F p then [p] else [] := by
  unfold found
  rw [Ranked.postorder_eq, List.filter_append, List.filter_flatMap]
  congr 1
  · unfold lockstep
    split <;> simp_all
  · simp [List.filter_cons]

omit [DecidableEq N] in
/-- Nothing differs below a pair that is the same. -/
theorem found_of_same {p : N × N} (h : G.same F p = true) : G.found F p = [] := by
  induction p using G.lockstep.induction with
  | step p ih =>
      have hall := h
      rw [same_eq] at hall
      simp only [Bool.and_eq_true, List.all_eq_true] at hall
      obtain ⟨⟨⟨hshape, hinputs⟩, _⟩, _⟩ := hall
      rw [G.lockstep_next hshape] at ih
      have hnone : (G.inputPairs p).reverse.flatMap (G.found F) = [] := by
        apply List.flatMap_eq_nil_iff.mpr
        intro q hq
        rw [List.mem_reverse] at hq
        exact ih q hq (hinputs q hq)
      rw [found_eq, if_pos hshape, hnone]
      simp [isOrigin, h]

omit [DecidableEq N] in
/-- What differs has an origin. -/
theorem found_of_differs {p : N × N} (h : G.same F p = false) : G.found F p ≠ [] := by
  induction p using G.lockstep.induction with
  | step p ih =>
      rw [found_eq]
      by_cases horigin : G.isOrigin F p = true
      · simp [horigin]
      · have hinner : G.sameShape p = true ∧ ∃ q ∈ G.inputPairs p, G.same F q = false := by
          simpa [isOrigin, h] using horigin
        obtain ⟨hshape, q, hq, hdiffers⟩ := hinner
        have hbelow := ih q (by rwa [G.lockstep_next hshape]) hdiffers
        intro hnil
        rw [if_pos hshape, List.append_eq_nil_iff, List.flatMap_eq_nil_iff] at hnil
        exact hbelow (hnil.1 q (List.mem_reverse.mpr hq))

/-! ## The loop -/

def originAt (p : N × N) : N × N × Difference := (p.1, p.2, G.difference p)

omit [DecidableEq N] [DecidableEq P] in
theorem originAt_injective : Function.Injective G.originAt := by
  intro p q h
  simp only [originAt, Prod.mk.injEq] at h
  exact Prod.ext h.1 h.2.1

omit [DecidableEq P] in
theorem memoGet?_cons (memo : List ((N × N) × Bool)) (p q : N × N) (v : Bool) :
    memoGet? ((p, v) :: memo) q = if p = q then some v else memoGet? memo q := by
  by_cases h : p = q <;> simp [memoGet?, h]

omit [DecidableEq P] in
theorem inMemo_cons (memo : List ((N × N) × Bool)) (p q : N × N) (v : Bool) :
    inMemo ((p, v) :: memo) q = (decide (p = q) || inMemo memo q) := by
  unfold inMemo
  rw [memoGet?_cons]
  by_cases h : p = q <;> simp [h]

/-- What the loop has recorded is right, and complete below every pair in the memo. -/
structure Recorded (s : DivergeState N P) : Prop where
  memo : ∀ p v, memoGet? s.memo p = some v → v = G.same F p
  vals : ∀ q ∈ s.vals, G.equality q = some true
  closed : ∀ p, inMemo s.memo p = true → ∀ q ∈ G.found F p, G.originAt q ∈ s.origins
  listed : ∀ p, G.originAt p ∈ s.origins → inMemo s.memo p = true

/-- The second state is the first after the walk of these pairs. -/
structure Walked (s s' : DivergeState N P) (ps : List (N × N)) : Prop where
  recorded : G.Recorded F s'
  origins : s'.origins = addNew s.origins ((ps.flatMap (G.found F)).map G.originAt)
  kept : ∀ p, inMemo s.memo p = true → inMemo s'.memo p = true
  walked : ∀ p ∈ ps, inMemo s'.memo p = true

variable {G F}

theorem Walked.nil {s : DivergeState N P} (h : G.Recorded F s) : G.Walked F s s [] :=
  ⟨h, rfl, fun _ hp ↦ hp, by simp⟩

theorem Walked.append {s s' s'' : DivergeState N P} {ps qs : List (N × N)}
    (h : G.Walked F s s' ps) (h' : G.Walked F s' s'' qs) : G.Walked F s s'' (ps ++ qs) := by
  refine ⟨h'.recorded, ?_, fun p hp ↦ h'.kept p (h.kept p hp), ?_⟩
  · rw [h'.origins, h.origins, ← addNew_append, List.flatMap_append, List.map_append]
  · intro p hp
    rcases List.mem_append.mp hp with hp | hp
    · exact h'.kept p (h.walked p hp)
    · exact h'.walked p hp

/-- A pair in the memo has been walked. -/
theorem Walked.known {s : DivergeState N P} (h : G.Recorded F s) {p : N × N}
    (hp : inMemo s.memo p = true) : G.Walked F s s [p] := by
  refine ⟨h, ?_, fun _ hq ↦ hq, ?_⟩
  · symm
    apply addNew_of_subset
    intro o ho
    obtain ⟨q, hq, rfl⟩ := List.mem_map.mp ho
    exact h.closed p hp q (by simpa using hq)
  · simpa using hp

/-- Once the inputs of a pair have been walked, its own walk covers theirs. -/
theorem Walked.cover {s s' : DivergeState N P} {p : N × N} (hshape : G.sameShape p = true)
    (h : G.Walked F s s' ((G.inputPairs p).reverse ++ [p])) : G.Walked F s s' [p] := by
  refine ⟨h.recorded, ?_, h.kept, fun q hq ↦ h.walked q (List.mem_append_right _ hq)⟩
  have hfound := G.found_eq F p
  rw [if_pos hshape] at hfound
  generalize hbelow : (G.inputPairs p).reverse.flatMap (G.found F) = below at hfound
  have hcovered : addNew (addNew s.origins (below.map G.originAt)) (below.map G.originAt) =
      addNew s.origins (below.map G.originAt) :=
    addNew_of_subset fun o ho ↦ mem_addNew.mpr (.inr ho)
  have horigins := h.origins
  rw [List.flatMap_append, hbelow, List.flatMap_singleton, hfound, List.map_append, List.map_append,
    addNew_append, addNew_append, hcovered] at horigins
  rw [horigins, List.flatMap_singleton, hfound, List.map_append, addNew_append]

omit [DecidableEq N] in
theorem samePayload_spec (x y : P) {vals : List (P × P)}
    (hvals : ∀ q ∈ vals, G.equality q = some true) :
    (G.samePayload F x y vals).1 = G.agree F x y ∧
      ∀ q ∈ (G.samePayload F x y vals).2, G.equality q = some true := by
  have hmemo : G.Remembers (some vals) := by
    rintro known ⟨⟩
    exact hvals
  have hspec := deepEq_spec hmemo x y
  unfold samePayload agree alike
  by_cases hxy : x = y
  · simpa [hxy] using hvals
  · rw [if_neg hxy, decide_eq_false hxy, Bool.false_or]
    split
    · exact ⟨rfl, hvals⟩
    · obtain ⟨hverdict, hseen⟩ := hspec
      generalize G.deepEq (some vals) x y = result at hverdict hseen ⊢
      obtain ⟨verdict, seen⟩ := result
      dsimp only at hverdict hseen
      rw [← hverdict]
      match verdict, hverdict with
      | none, _ => exact ⟨rfl, hvals⟩
      | some false, _ => exact ⟨rfl, hvals⟩
      | some true, hverdict =>
          refine ⟨rfl, ?_⟩
          intro q hq
          rcases List.mem_append.mp hq with hq | hq
          · exact hvals q hq
          · exact hseen hverdict.symm q hq

/-- The state after the verdict on a pair whose inputs have been walked. -/
def conclusion (G : Provenance N P) (F : FloatOps) (s : DivergeState N P) (p : N × N)
    (vals : List (P × P)) : DivergeState N P :=
  { s with
    memo := (p, G.same F p) :: s.memo
    vals := vals
    origins := s.origins ++ if G.isOrigin F p then [G.originAt p] else [] }

theorem Walked.concluded {s : DivergeState N P} (h : G.Recorded F s) {p : N × N}
    (hnew : inMemo s.memo p = false)
    (hinputs : G.sameShape p = true → ∀ q ∈ G.inputPairs p,
      G.same F q = true ∨ inMemo s.memo q = true)
    {vals : List (P × P)} (hvals : ∀ q ∈ vals, G.equality q = some true) :
    G.Walked F s (conclusion G F s p vals) [p] := by
  have hmemo (q : N × N) : memoGet? (conclusion G F s p vals).memo q =
      if p = q then some (G.same F p) else memoGet? s.memo q :=
    memoGet?_cons s.memo p q (G.same F p)
  have hkept (q : N × N) : inMemo (conclusion G F s p vals).memo q =
      (decide (p = q) || inMemo s.memo q) :=
    inMemo_cons s.memo p q (G.same F p)
  have hfound := G.found_eq F p
  have hbelow : ∀ q ∈ (if G.sameShape p then (G.inputPairs p).reverse.flatMap (G.found F) else []),
      G.originAt q ∈ s.origins := by
    intro q hq
    split at hq
    · rename_i hshape
      obtain ⟨r, hr, hq⟩ := List.mem_flatMap.mp hq
      rw [List.mem_reverse] at hr
      rcases hinputs hshape r hr with hsame | hknown
      · rw [G.found_of_same F hsame] at hq
        contradiction
      · exact h.closed r hknown q hq
    · contradiction
  generalize (if G.sameShape p then (G.inputPairs p).reverse.flatMap (G.found F) else []) = below
    at hfound hbelow
  refine ⟨⟨?_, hvals, ?_, ?_⟩, ?_, ?_, ?_⟩
  · intro q v hq
    rw [hmemo] at hq
    split at hq
    · rename_i hpq
      subst hpq
      exact (Option.some.inj hq).symm
    · exact h.memo q v hq
  · intro q hq r hr
    rw [hkept] at hq
    apply List.mem_append.mpr
    by_cases hpq : p = q
    · subst hpq
      rw [hfound] at hr
      rcases List.mem_append.mp hr with hr | hr
      · exact .inl (hbelow r hr)
      · split at hr
        · rename_i horigin
          obtain rfl := List.mem_singleton.mp hr
          exact .inr (by simp [horigin])
        · contradiction
    · have hq : inMemo s.memo q = true := by simpa [hpq] using hq
      exact .inl (h.closed q hq r hr)
  · intro q hq
    rw [hkept]
    rcases List.mem_append.mp hq with hq | hq
    · simp [h.listed q hq]
    · split at hq
      · simp [G.originAt_injective (List.mem_singleton.mp hq)]
      · contradiction
  · have hown : G.originAt p ∉ s.origins := by
      intro hmem
      rw [h.listed p hmem] at hnew
      contradiction
    have hcovered : addNew s.origins (below.map G.originAt) = s.origins := by
      apply addNew_of_subset
      intro o ho
      obtain ⟨q, hq, rfl⟩ := List.mem_map.mp ho
      exact hbelow q hq
    rw [List.flatMap_singleton, hfound, List.map_append, addNew_append, hcovered]
    change s.origins ++ _ = _
    split
    · simp [addNew, hown]
    · simp [addNew]
  · intro q hq
    rw [hkept, hq, Bool.or_true]
  · intro q hq
    obtain rfl := List.mem_singleton.mp hq
    rw [hkept, decide_eq_true rfl, Bool.true_or]

theorem settle_eq {s : DivergeState N P} (h : G.Recorded F s) {p : N × N}
    (hshape : G.sameShape p = true)
    (hinputs : ∀ q ∈ G.inputPairs p, inMemo s.memo q = true) :
    ∃ vals, (∀ q ∈ vals, G.equality q = some true) ∧
      G.settle F s p = conclusion G F s p vals := by
  have hall : (G.inputPairs p).all (fun q ↦ (memoGet? s.memo q).getD false) =
      (G.inputPairs p).all (G.same F) := by
    rw [Bool.eq_iff_iff, List.all_eq_true, List.all_eq_true]
    refine forall₂_congr fun q hq ↦ ?_
    obtain ⟨v, hv⟩ := Option.isSome_iff_exists.mp (hinputs q hq)
    rw [hv, Option.getD_some, h.memo q v hv]
  have hsame := G.same_eq F p
  have hagree := samePayload_spec (G := G) (F := F) (G.value p.1) (G.value p.2) h.vals
  unfold settle conclusion
  rw [hall]
  by_cases hbelow : (G.inputPairs p).all (G.same F) = true
  · by_cases hstep : G.sameStep p = true
    · simp only [hshape, hbelow, hstep, Bool.true_and] at hsame
      generalize G.samePayload F (G.value p.1) (G.value p.2) s.vals = result at hagree ⊢
      obtain ⟨verdict, vals⟩ := result
      obtain ⟨hverdict, hvals⟩ := hagree
      dsimp only at hverdict
      rw [← hverdict] at hsame
      refine ⟨vals, hvals, ?_⟩
      cases verdict with
      | true => simp [hbelow, hstep, hsame, isOrigin]
      | false =>
          simp [hbelow, hstep, hsame, isOrigin, originAt, difference, hshape]
    · refine ⟨s.vals, h.vals, ?_⟩
      have hdiffers : G.same F p = false := by
        rw [hsame]
        simp [hstep]
      simp [hbelow, hstep, hdiffers, isOrigin, originAt, difference]
  · refine ⟨s.vals, h.vals, ?_⟩
    have hdiffers : G.same F p = false := by
      rw [hsame]
      simp [hbelow]
    simp [hbelow, hdiffers, isOrigin, hshape]

def DivergeState.onto (s : DivergeState N P) (stack : List (Entry N)) : DivergeState N P :=
  { s with stack := stack }

def entry (p : N × N) : Entry N := ⟨p.1, p.2, false⟩

/-- From a pair on top of the stack the loop gets to the stack below it. -/
def Walks (G : Provenance N P) (F : FloatOps) (p : N × N) : Prop :=
  ∀ s stack, G.Recorded F s → ∃ s',
    Passes (G.divergeBody F) (s.onto (entry p :: stack)) (s'.onto stack) ∧ G.Walked F s s' [p]

/-- Of these pairs only those that were not in the memo are on the stack. -/
theorem walk_list {memo : List ((N × N) × Bool)} (ps : List (N × N))
    (hps : ∀ p ∈ ps, Walks G F p) (s : DivergeState N P) (stack : List (Entry N))
    (h : G.Recorded F s)
    (hmemo : ∀ p, inMemo memo p = true → inMemo s.memo p = true) :
    ∃ s', Passes (G.divergeBody F)
        (s.onto ((ps.filter fun q ↦ !inMemo memo q).map entry ++ stack))
        (s'.onto stack) ∧
      G.Walked F s s' ps := by
  induction ps generalizing s with
  | nil => exact ⟨s, .refl, .nil h⟩
  | cons p ps ih =>
      have hrest := fun q hq ↦ hps q (List.mem_cons_of_mem p hq)
      by_cases hknown : inMemo memo p = true
      · obtain ⟨s', hpasses, hwalked⟩ := ih hrest s h hmemo
        refine ⟨s', by simpa [hknown] using hpasses, ?_⟩
        exact (Walked.known h (hmemo p hknown)).append hwalked
      · obtain ⟨s', hpasses, hwalked⟩ := hps p List.mem_cons_self s
          ((ps.filter fun q ↦ !inMemo memo q).map entry ++ stack) h
        have hmemo' := fun q hq ↦ hwalked.kept q (hmemo q hq)
        obtain ⟨s'', hpasses', hwalked'⟩ := ih hrest s' hwalked.recorded hmemo'
        refine ⟨s'', Passes.trans ?_ hpasses', hwalked.append hwalked'⟩
        simpa [hknown] using hpasses

theorem walk_pair (p : N × N) : Walks G F p := by
  induction p using G.lockstep.induction with
  | step p ih =>
      obtain ⟨a, b⟩ := p
      intro s stack h
      by_cases hknown : inMemo s.memo (a, b) = true
      · refine ⟨s, Passes.step ?_ .refl, .known h hknown⟩
        simp [divergeBody, DivergeState.onto, entry, hknown]
      · have hnew : inMemo s.memo (a, b) = false := by simpa using hknown
        by_cases hself : a = b
        · subst hself
          have hsame := G.same_self F (a, a) rfl
          refine ⟨conclusion G F s (a, a) s.vals, Passes.step ?_ .refl,
            .concluded h hnew ?_ h.vals⟩
          · simp [divergeBody, DivergeState.onto, entry, hnew, conclusion, hsame, isOrigin]
          · intro hshape q hq
            rw [same_eq] at hsame
            simp only [Bool.and_eq_true, List.all_eq_true] at hsame
            exact .inl (hsame.1.1.2 q hq)
        · by_cases hshape : G.sameShape (a, b) = true
          · rw [G.lockstep_next hshape] at ih
            obtain ⟨s', hpasses, hwalked⟩ := walk_list (G.inputPairs (a, b)).reverse
              (fun q hq ↦ ih q (List.mem_reverse.mp hq)) s (⟨a, b, true⟩ :: stack) h
              (fun _ hq ↦ hq)
            have hexpand : G.divergeBody F (s.onto (entry (a, b) :: stack)) =
                .again (s.onto (((G.inputPairs (a, b)).reverse.filter fun q ↦
                  !inMemo s.memo q).map entry ++ ⟨a, b, true⟩ :: stack)) := by
              simp [divergeBody, DivergeState.onto, entry, hnew, hself, hshape, List.filter_reverse,
                List.map_reverse]
            have hinputs : ∀ q ∈ G.inputPairs (a, b), inMemo s'.memo q = true :=
              fun q hq ↦ hwalked.walked q (List.mem_reverse.mpr hq)
            by_cases hdone : inMemo s'.memo (a, b) = true
            · have hskip : G.divergeBody F (s'.onto (⟨a, b, true⟩ :: stack)) =
                  .again (s'.onto stack) := by
                simp [divergeBody, DivergeState.onto, hdone]
              refine ⟨s', Passes.step hexpand (hpasses.trans (Passes.step hskip .refl)), ?_⟩
              exact Walked.cover hshape (hwalked.append (.known hwalked.recorded hdone))
            · have hfresh : inMemo s'.memo (a, b) = false := by simpa using hdone
              have hrecorded : G.Recorded F (s'.onto stack) :=
                ⟨hwalked.recorded.memo, hwalked.recorded.vals, hwalked.recorded.closed,
                  hwalked.recorded.listed⟩
              obtain ⟨vals, hvals, hsettle⟩ := settle_eq hrecorded hshape hinputs
              have hstep : G.divergeBody F (s'.onto (⟨a, b, true⟩ :: stack)) =
                  .again ((conclusion G F s' (a, b) vals).onto stack) := by
                have hbody : G.divergeBody F (s'.onto (⟨a, b, true⟩ :: stack)) =
                    .again (G.settle F (s'.onto stack) (a, b)) := by
                  simp [divergeBody, DivergeState.onto, hfresh, hself]
                rw [hbody, hsettle]
                rfl
              refine ⟨conclusion G F s' (a, b) vals,
                Passes.step hexpand (hpasses.trans (Passes.step hstep .refl)), ?_⟩
              apply Walked.cover hshape
              exact hwalked.append
                (.concluded hwalked.recorded hfresh (fun _ q hq ↦ .inr (hinputs q hq)) hvals)
          · have hdiffers : G.same F (a, b) = false := by
              rw [same_eq]
              simp [hshape]
            refine ⟨conclusion G F s (a, b) s.vals, Passes.step ?_ .refl,
              .concluded h hnew (fun h ↦ absurd h hshape) h.vals⟩
            simp [divergeBody, DivergeState.onto, entry, hnew, hself, conclusion, hdiffers,
              isOrigin,
              hshape, originAt, difference]

def weight (G : Provenance N P) (e : Entry N) : ℕ :=
  if e.expanded then 1 else G.history.paths 2 e.left

theorem divergeBody_drops (s s' : DivergeState N P) (h : G.divergeBody F s = .again s') :
    (s'.stack.map G.weight).sum < (s.stack.map G.weight).sum := by
  obtain ⟨stack, memo, vals, origins⟩ := s
  cases stack with
  | nil => simp [divergeBody] at h
  | cons e stack =>
      obtain ⟨a, b, expanded⟩ := e
      have hpaths := G.history.paths_eq 2 a
      have hpos : 0 < G.weight ⟨a, b, expanded⟩ := by
        cases expanded with
        | false =>
            change 0 < G.history.paths 2 a
            omega
        | true => exact Nat.one_pos
      have hdrop : (stack.map G.weight).sum <
          ((⟨a, b, expanded⟩ :: stack).map G.weight).sum := by
        simp only [List.map_cons, List.sum_cons]
        omega
      simp only [divergeBody] at h
      split at h
      · cases h
        exact hdrop
      split at h
      · cases h
        exact hdrop
      split at h
      · have hstack : (G.settle F ⟨stack, memo, vals, origins⟩ (a, b)).stack = stack := by
          unfold settle
          split
          · rfl
          split
          · rfl
          split <;> rfl
        cases h
        rw [hstack]
        exact hdrop
      split at h
      · cases h
        exact hdrop
      · rename_i hexpanded hshape
        cases h
        have hfst : (((G.inputPairs (a, b)).filter fun q ↦ !inMemo memo q).map Prod.fst).Sublist
            (G.inputs a) := by
          apply (List.filter_sublist.map Prod.fst).trans
          unfold inputPairs
          have hlength : (G.inputs a).length ≤ (G.inputs b).length := by
            simp [sameShape] at hshape
            exact hshape.2.le
          rw [List.map_fst_zip hlength]
        have hsum : ((((G.inputPairs (a, b)).filter fun q ↦ !inMemo memo q).map Prod.fst).map
            (G.history.paths 2)).sum ≤ ((G.history.next a).map (G.history.paths 2)).sum :=
          List.Sublist.sum_le_sum (hfst.map _) fun _ _ ↦ Nat.zero_le _
        have hweight : ((((G.inputPairs (a, b)).filter fun q ↦ !inMemo memo q).map fun q ↦
            (⟨q.1, q.2, false⟩ : Entry N)).reverse.map G.weight).sum =
            ((((G.inputPairs (a, b)).filter fun q ↦ !inMemo memo q).map Prod.fst).map
              (G.history.paths 2)).sum := by
          rw [List.map_reverse, List.sum_reverse, List.map_map, List.map_map]
          rfl
        have hroot : G.weight ⟨a, b, expanded⟩ = G.history.paths 2 a := by
          simp [weight, hexpanded]
        have hone : G.weight ⟨a, b, true⟩ = 1 := rfl
        simp only [List.map_append, List.map_cons, List.sum_append, List.sum_cons, hweight, hroot,
          hone]
        omega

/-- The list of `diverge`. -/
theorem diverge_eq (a b : N) :
    G.diverge F a b = addNew [] ((G.found F (a, b)).map G.originAt) := by
  have hstart : G.Recorded F (⟨[], [], [], []⟩ : DivergeState N P) :=
    ⟨by simp [memoGet?], by simp, by simp [inMemo, memoGet?], by simp⟩
  obtain ⟨s, hpasses, hwalked⟩ := walk_pair (G := G) (F := F) (a, b) _ [] hstart
  have hdone : G.divergeBody F (s.onto []) = .done s.origins := rfl
  have hfuel : (([entry (a, b)] : List (Entry N)).map G.weight).sum < G.history.paths 2 a + 1 := by
    simp [weight, entry]
  have hloop := whileLoop_of_passes divergeBody_drops hpasses hdone hfuel
  have horigins := hwalked.origins
  rw [List.flatMap_singleton] at horigins
  unfold diverge
  change (whileLoop (G.divergeBody F) _
    (DivergeState.onto ⟨[], [], [], []⟩ [entry (a, b)])).getD [] = _
  rw [hloop, Option.getD_some, horigins]

/-! ## What is listed -/

omit [DecidableEq N] in
theorem mem_found {p q : N × N} :
    q ∈ G.found F p ↔ G.lockstep.Reach p q ∧ G.isOrigin F q = true := by
  rw [found, List.mem_filter, Ranked.mem_postorder]

omit [DecidableEq N] in
theorem isOrigin_iff {p : N × N} : G.isOrigin F p = true ↔
    G.same F p = false ∧ (G.sameShape p = false ∨ ∀ q ∈ G.inputPairs p, G.same F q = true) := by
  simp [isOrigin]

omit [DecidableEq N] in
/-- Below an origin there is no other. -/
theorem found_of_origin {p : N × N} (h : G.isOrigin F p = true) : G.found F p = [p] := by
  rw [found_eq, if_pos h]
  obtain ⟨_, hshape | hinputs⟩ := isOrigin_iff.mp h
  · simp [hshape]
  · have hnone : (G.inputPairs p).reverse.flatMap (G.found F) = [] := by
      apply List.flatMap_eq_nil_iff.mpr
      intro q hq
      exact G.found_of_same F (hinputs q (List.mem_reverse.mp hq))
    simp [hnone]

omit [DecidableEq N] in
theorem found_swap (p : N × N) : G.found F p.swap = (G.found F p).map Prod.swap := by
  induction p using G.lockstep.induction with
  | step p ih =>
      have hown : (if G.isOrigin F p = true then [p.swap] else []) =
          (if G.isOrigin F p = true then [p] else []).map Prod.swap := by
        split <;> rfl
      rw [found_eq, found_eq, isOrigin_swap, sameShape_swap, List.map_append, hown]
      congr 1
      by_cases hshape : G.sameShape p = true
      · rw [G.lockstep_next hshape] at ih
        rw [if_pos hshape, if_pos hshape, inputPairs_swap, ← List.map_reverse, List.map_flatMap,
          List.flatMap_map]
        apply List.flatMap_congr
        intro q hq
        exact ih q (List.mem_reverse.mp hq)
      · rw [if_neg hshape, if_neg hshape]
        rfl

def pairOf (o : N × N × Difference) : N × N := (o.1, o.2.1)

def mirrored (o : N × N × Difference) : N × N × Difference := (o.2.1, o.1, o.2.2)

omit [DecidableEq N] in
theorem mirrored_injective : Function.Injective (mirrored : N × N × Difference → _) := by
  intro o o' h
  simp only [mirrored, Prod.mk.injEq] at h
  exact Prod.ext h.2.1 (Prod.ext h.1 h.2.2)

omit [DecidableEq N] [DecidableEq P] in
theorem originAt_swap (p : N × N) : G.originAt p.swap = mirrored (G.originAt p) := by
  have hkind : G.difference p.swap = G.difference p := by
    unfold difference
    rw [sameShape_swap]
    by_cases hshape : G.sameShape p = true
    · rw [G.sameStep_swap hshape]
    · simp [hshape]
  simp [originAt, mirrored, hkind]

theorem diverge_pairs (a b : N) :
    (G.diverge F a b).map pairOf = addNew [] (G.found F (a, b)) := by
  have hmap := addNew_map G.originAt_injective [] (G.found F (a, b))
  rw [List.map_nil] at hmap
  rw [diverge_eq, ← hmap, List.map_map]
  exact List.map_id _

theorem mem_diverge_pairs {a b : N} {p : N × N} :
    p ∈ (G.diverge F a b).map pairOf ↔ G.lockstep.Reach (a, b) p ∧ G.isOrigin F p = true := by
  rw [diverge_pairs, mem_addNew, mem_found]
  simp

theorem diverge_pairs_nodup (a b : N) : ((G.diverge F a b).map pairOf).Nodup := by
  rw [diverge_pairs]
  exact addNew_nodup List.nodup_nil

/-- Each pair is listed when the recursion is done with it. -/
theorem diverge_pairs_sublist (a b : N) :
    ((G.diverge F a b).map pairOf).Sublist (G.lockstep.postorder (a, b)) := by
  rw [diverge_pairs]
  exact (addNew_sublist [] _).trans List.filter_sublist

theorem diverge_pairs_apart (a b : N) :
    ((G.diverge F a b).map pairOf).Pairwise fun p q ↦ ¬ G.lockstep.Reach p q := by
  apply (diverge_pairs_nodup a b).imp_of_mem
  intro p q hp hq hne hreach
  have hq' := (mem_diverge_pairs.mp hq).2
  have hmem : q ∈ G.found F p := mem_found.mpr ⟨hreach, hq'⟩
  rw [found_of_origin (mem_diverge_pairs.mp hp).2] at hmem
  exact hne (List.mem_singleton.mp hmem).symm

theorem diverge_eq_nil {a b : N} : G.diverge F a b = [] ↔ G.same F (a, b) = true := by
  rw [diverge_eq]
  constructor
  · intro h
    by_contra hdiffers
    obtain ⟨p, hp⟩ := List.exists_mem_of_ne_nil _ (G.found_of_differs F (by simpa using hdiffers))
    have hmem : G.originAt p ∈ addNew [] ((G.found F (a, b)).map G.originAt) :=
      mem_addNew.mpr (.inr (List.mem_map_of_mem hp))
    rw [h] at hmem
    contradiction
  · intro h
    rw [G.found_of_same F h]
    rfl

theorem diverge_mirrored (a b : N) : G.diverge F b a = (G.diverge F a b).map mirrored := by
  have hfound : (G.found F (b, a)).map G.originAt =
      ((G.found F (a, b)).map G.originAt).map mirrored := by
    have hswap := found_swap (G := G) (F := F) (a, b)
    change G.found F (b, a) = _ at hswap
    rw [hswap, List.map_map, List.map_map]
    apply List.map_congr_left
    intro p _
    exact originAt_swap p
  rw [diverge_eq, diverge_eq, hfound, addNew_map mirrored_injective]
  rfl

variable (G F)

/-- `diverge` lists the origins of the difference, each once and innermost first; it lists
nothing just if the histories are the same; and from the other side it lists the mirrored
pairs. -/
theorem diverge_lists_origins (a b : N) :
    (∀ p, p ∈ (G.diverge F a b).map pairOf ↔
      G.lockstep.Reach (a, b) p ∧ G.same F p = false ∧
        (G.sameShape p = false ∨ ∀ q ∈ G.inputPairs p, G.same F q = true)) ∧
    ((G.diverge F a b).map pairOf).Nodup ∧
    ((G.diverge F a b).map pairOf).Sublist (G.lockstep.postorder (a, b)) ∧
    ((G.diverge F a b).map pairOf).Pairwise (fun p q ↦ ¬ G.lockstep.Reach p q) ∧
    (G.diverge F a b = [] ↔ G.same F (a, b) = true) ∧
    G.diverge F b a = (G.diverge F a b).map mirrored := by
  refine ⟨fun p ↦ ?_, diverge_pairs_nodup a b, diverge_pairs_sublist a b, diverge_pairs_apart a b,
    diverge_eq_nil, diverge_mirrored a b⟩
  rw [mem_diverge_pairs, isOrigin_iff]

/-- `true and false` and `true and true`, with one node for the first `true`. -/
def conjunctions : Provenance ℕ Bool where
  id := .made
  op n := if n < 2 then "literal" else "and"
  detail _ := ""
  line _ := 1
  count _ := 1
  inputs n := if n < 2 then [] else if n = 2 then [0, 1] else [0, 0]
  value n := decide (n = 0 ∨ n = 3)
  cell b := .bool b
  age n := n
  age_inputs n m hm := by
    split at hm
    · contradiction
    · split at hm <;> simp at hm <;> omega
  size _ := 0
  size_elements _ _ hm := nomatch hm
  fields_ordered _ _ h := nomatch h

example (F : FloatOps) : conjunctions.diverge F 2 3 = [(1, 0, .value)] := rfl

end NucLlm.Whence.Provenance
