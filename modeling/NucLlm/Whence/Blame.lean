import NucLlm.Whence.Contrast
import NucLlm.Whence.FullShow
import NucLlm.Whence.MakesRuns

/-!
# Blame

A miss is blamed on the steps of its history that are misses made out of no
miss.  Blame is complete in a run in which no operation refuses its operands
while a miss is among them, and it lists only steps that introduced their
reasons in a run in which no merged call returns a miss.
-/

namespace NucLlm.Whence

/-! ## What blame lists -/

/-- The steps that a list of step records is about. -/
def recordedSteps (records : Node) : List Node := (itemsOf records).filterMap recordedStep

section

variable {F : FloatOps} {v : Node} {line : ℕ} {t : Tally}

theorem filterMap_stepRecords (ss : List (Node × ℕ)) :
    (Builtin.stepRecords F line ss t).1.filterMap recordedStep = ss.map Prod.fst := by
  have hsteps : (Builtin.stepRecords F line ss t).1.map recordedStep = _ :=
    recordedStep_stepRecords ss
  have hvalues := congrArg (List.filterMap id) hsteps
  rw [List.filterMap_map, List.filterMap_map] at hvalues
  simpa using hvalues

theorem recordedSteps_blame :
    recordedSteps (Builtin.blame F v line t).1 =
      ((walkSteps (historyRoot v)).filter fun s ↦ isOriginMiss s.1).map Prod.fst := by
  simp only [recordedSteps, itemsOf, Builtin.blame, bind_run, value_derived]
  exact filterMap_stepRecords _

/-- Blame lists the steps of the history that are misses made out of no miss. -/
theorem mem_recordedSteps_blame {n : Node} :
    n ∈ recordedSteps (Builtin.blame F v line t).1 ↔
      history.Reach (historyRoot v) n ∧ isOriginMiss n = true := by
  rw [recordedSteps_blame, ← Ranked.mem_walk]
  simp only [List.mem_map, List.mem_filter, walkSteps]
  constructor
  · rintro ⟨s, ⟨hs, horigin⟩, rfl⟩
    exact ⟨⟨s, hs, rfl⟩, horigin⟩
  · rintro ⟨⟨s, hs, rfl⟩, horigin⟩
    exact ⟨s, ⟨hs, horigin⟩, rfl⟩

end

/-! ## Runs -/

section

variable {B : Budgets} {F : FloatOps} {H : Histories} {run : List Entry} {t : Tally} {v n : Node}

/-- The reasons of a value are carried by steps of its history that are misses made out of none. -/
def Traced (v : Node) : Prop :=
  ∀ r ∈ v.value.reasons, ∃ n, history.Reach v n ∧ isOriginMiss n = true ∧ r ∈ n.value.reasons

theorem isMiss_of_mem_reasons {r : String} (h : r ∈ v.value.reasons) : v.isMiss = true := by
  unfold Node.isMiss
  cases hvalue : v.value with
  | miss reasons => rfl
  | _ =>
      rw [hvalue] at h
      exact absurd h List.not_mem_nil

theorem isOriginMiss_of (hmiss : v.isMiss = true) (hinputs : ∀ i ∈ v.inputs, i.isMiss = false) :
    isOriginMiss v = true := by
  have hnone : v.inputs.any Node.isMiss = false := by
    rw [List.any_eq_false]
    intro i hi
    simp [hinputs i hi]
  simp [isOriginMiss, hmiss, hnone]

theorem traced_of_origin (hinputs : ∀ i ∈ v.inputs, i.isMiss = false) : Traced v := by
  intro r hr
  exact ⟨v, .refl, isOriginMiss_of (isMiss_of_mem_reasons hr) hinputs, hr⟩

theorem Traced.of_input (h : Traced v) (hv : v ∈ n.inputs) {r : String}
    (hr : r ∈ v.value.reasons) :
    ∃ k, history.Reach n k ∧ isOriginMiss k = true ∧ r ∈ k.value.reasons := by
  obtain ⟨k, hreach, horigin, hk⟩ := h r hr
  exact ⟨k, .head hv hreach, horigin, hk⟩

theorem mem_keepFirst {texts : List String} {r : String} : r ∈ keepFirst texts ↔ r ∈ texts := by
  rw [keepFirst_eq, Lists.mem_addNew]
  simp

/-- A step that loses no reasons keeps them traced. -/
theorem traced_of_makes {o : Operation} (ho : o.losesReasons B = false)
    (hlinks : ∀ m ∈ n.links, Traced m) (hmakes : Makes B F H o n) : Traced n := by
  have hinputs : ∀ i ∈ n.inputs, Traced i := fun i hi ↦ hlinks i (List.mem_append_left _ hi)
  cases hmakes with
  | computes hmiss _ _ _ =>
      intro r hr
      rw [isMiss_of_mem_reasons hr] at hmiss
      contradiction
  | passes hv hvalue _ =>
      intro r hr
      rw [hvalue] at hr
      exact (hinputs _ hv).of_input hv hr
  | cutsOff _ _ _ hnone =>
      apply traced_of_origin
      simp [hnone]
  | merges _ _ _ _ hnone => exact traced_of_origin hnone
  | propagates _ hvalue =>
      intro r hr
      rw [hvalue] at hr
      obtain ⟨i, hi, hri⟩ := List.mem_flatMap.mp (mem_keepFirst.mp hr)
      exact (hinputs i hi).of_input hi hri
  | refuses _ hlose _ =>
      apply traced_of_origin
      intro i hi
      cases hmiss : i.isMiss with
      | false => rfl
      | true =>
          rw [hlose ⟨i, hi, hmiss⟩] at ho
          contradiction

/-- The reasons of a miss that blame lists were introduced by a step of the run that worked on no
miss, or their history was cut off there. -/
def Introduced (run : List Entry) (n : Node) : Prop :=
  n.op = "snipped" ∨
    ∃ e ∈ run, e.result.Below n ∧ ∀ m ∈ e.operation.operands, m.isMiss = false

theorem introduced_of_makes {e : Entry} (he : e ∈ run) (hmerges : e.operation.mergesMiss = false)
    (hbelow : e.result.Below n) (hmakes : Makes B F H e.operation n)
    (horigin : isOriginMiss n = true) : Introduced run n := by
  simp only [isOriginMiss, Bool.and_eq_true, Bool.not_eq_true', List.any_eq_false,
    Bool.not_eq_true] at horigin
  obtain ⟨hmiss, hnone⟩ := horigin
  cases hmakes with
  | computes hvalue _ _ _ =>
      rw [hmiss] at hvalue
      contradiction
  | passes hv hvalue _ =>
      have hinput := hnone _ hv
      rw [Node.isMiss, ← hvalue] at hinput
      exact absurd (hmiss.symm.trans hinput) (by decide)
  | cutsOff _ _ hop _ => exact .inl hop
  | merges _ _ _ hmiss' _ =>
      rw [hmiss' hmiss] at hmerges
      contradiction
  | propagates hinput _ =>
      obtain ⟨i, hi, hmiss'⟩ := hinput
      rw [hnone i hi] at hmiss'
      contradiction
  | refuses _ _ hoperands => exact .inr ⟨e, he, hbelow, hoperands hnone⟩

theorem historyRoot_of_isMiss (h : v.isMiss = true) : historyRoot v = v := by
  unfold historyRoot
  cases hvalue : v.value with
  | explanation root =>
      rw [isMiss_of_value hvalue] at h
      contradiction
  | _ => rfl

theorem Reachable.below (h : Reachable run v) (hn : v.Below n) : Reachable run n := by
  obtain ⟨e, he, hbelow⟩ := h
  exact ⟨e, he, hbelow.trans hn⟩

theorem Reachable.listed {line : ℕ} {s : Tally} (h : Reachable run v)
    (hn : n ∈ recordedSteps (Builtin.blame F v line s).1) : Reachable run n := by
  have hreach := (mem_recordedSteps_blame.mp hn).1
  have hroot : v.Below (historyRoot v) := by
    unfold historyRoot
    cases hvalue : v.value with
    | explanation root =>
        apply Relation.ReflTransGen.single
        apply List.mem_append_right
        rw [hvalue]
        exact List.mem_singleton_self root
    | _ => exact .refl
  exact h.below (hroot.trans (below_of_reach hreach))

/-- Every reason of a miss is carried by a step that blame lists where no step of the run loses
reasons.  Blame lists misses whose reasons no input carries, and these were introduced there where
no call of the run merges decisions into a miss. -/
theorem blame_complete (h : Runs B F H run t) (line : ℕ) (s : Tally) :
    ((∀ e ∈ run, e.operation.losesReasons B = false) →
      ∀ v, Reachable run v → ∀ r ∈ v.value.reasons,
        ∃ n ∈ recordedSteps (Builtin.blame F v line s).1, r ∈ n.value.reasons) ∧
    (∀ v, Reachable run v → ∀ n ∈ recordedSteps (Builtin.blame F v line s).1,
      n.isMiss = true ∧ ∀ i ∈ n.inputs, i.isMiss = false) ∧
    ((∀ e ∈ run, e.operation.mergesMiss = false) →
      ∀ v, Reachable run v → ∀ n ∈ recordedSteps (Builtin.blame F v line s).1,
        Introduced run n) := by
  refine ⟨?_, ?_, ?_⟩
  · intro hrun v hv r hr
    have htraced : Traced v :=
      h.reachable (fun e n he _ _ hlinks hmakes ↦ traced_of_makes he hlinks hmakes) hrun v hv
    obtain ⟨n, hreach, horigin, hn⟩ := htraced r hr
    refine ⟨n, mem_recordedSteps_blame.mpr ⟨?_, horigin⟩, hn⟩
    rwa [historyRoot_of_isMiss (isMiss_of_mem_reasons hr)]
  · intro v _ n hn
    have horigin := (mem_recordedSteps_blame.mp hn).2
    simpa [isOriginMiss] using horigin
  · intro hrun v hv n hn
    have hintroduced : isOriginMiss n = true → Introduced run n := by
      refine h.reachable (P := fun n ↦ isOriginMiss n = true → Introduced run n)
        (Q := fun e ↦ e ∈ run ∧ e.operation.mergesMiss = false) ?_ ?_ n (hv.listed hn)
      · exact fun e n he hbelow _ _ hmakes ↦ introduced_of_makes he.1 he.2 hbelow hmakes
      · exact fun e he ↦ ⟨he, hrun e he⟩
    exact hintroduced (mem_recordedSteps_blame.mp hn).2

end

/-! ## A reason that is lost -/

def shownHistories : Histories := ownHistories oneTextFloats

def unbounded : Budgets := ⟨none, none, by simp⟩

def pushedOnto : Node := constant 0 1 (.num (.int 1))

/-- `X`, which nothing binds. -/
def pushedMiss : Node := (unbound "X" 1 {}).1

/-- `Y`, which nothing binds either. -/
def otherMiss : Node := (unbound "Y" 1 { next := 1 }).1

/-- `X[Y]`. -/
def mergedMiss : Node := (index oneTextFloats pushedMiss otherMiss 1 { next := 2 }).1

/-- `let z = X[Y]`. -/
def namedMiss : Node := (letNode "z" mergedMiss 1 { next := 3 }).1

def mergedRun : List Entry :=
  [⟨.unbound "X" 1, pushedMiss⟩, ⟨.unbound "Y" 1, otherMiss⟩,
    ⟨.index pushedMiss otherMiss 1, mergedMiss⟩, ⟨.letName "z" mergedMiss 1, namedMiss⟩]

theorem runs_mergedRun : Runs unbounded oneTextFloats shownHistories mergedRun { next := 4 } := by
  have hone := Runs.step (B := unbounded) (F := oneTextFloats) (H := shownHistories) (.start {})
    (o := .unbound "X" 1) (v := pushedMiss) (by simp [Operation.operands]) rfl
  have htwo := hone.step (o := .unbound "Y" 1) (v := otherMiss) (by simp [Operation.operands]) rfl
  have hmerged : Runs unbounded oneTextFloats shownHistories
      ([⟨.unbound "X" 1, pushedMiss⟩, ⟨.unbound "Y" 1, otherMiss⟩] ++
        [⟨.index pushedMiss otherMiss 1, mergedMiss⟩]) { next := 3 } := by
    refine htwo.step ?_ rfl
    intro m hm
    rcases List.mem_pair.mp hm with rfl | rfl
    · exact ⟨_, List.mem_cons_self, .refl⟩
    · exact ⟨_, List.mem_cons_of_mem _ List.mem_cons_self, .refl⟩
  refine hmerged.step (o := .letName "z" mergedMiss 1) ?_ rfl
  intro m hm
  obtain rfl := List.mem_singleton.mp hm
  exact ⟨_, List.mem_append_right _ (List.mem_singleton_self _), .refl⟩

/-- Blame lists the two steps that found nothing bound. -/
theorem blame_merged :
    (∃ n ∈ recordedSteps (Builtin.blame oneTextFloats namedMiss 1 {}).1,
      "unbound name 'X' (line 1)" ∈ n.value.reasons) ∧
    ∃ n ∈ recordedSteps (Builtin.blame oneTextFloats namedMiss 1 {}).1,
      "unbound name 'Y' (line 1)" ∈ n.value.reasons := by
  have hcomplete := (blame_complete runs_mergedRun 1 {}).1 ?_ namedMiss ?_
  · exact ⟨hcomplete _ (by decide +kernel), hcomplete _ (by decide +kernel)⟩
  · intro e he
    simp only [mergedRun, List.mem_cons, List.not_mem_nil, or_false] at he
    rcases he with rfl | rfl | rfl | rfl <;> rfl
  · exact ⟨_, List.mem_of_getLast? (a := ⟨.letName "z" mergedMiss 1, namedMiss⟩) rfl, .refl⟩

/-- The run of `push(1, X)`. -/
def pushRun : List Entry :=
  [⟨.literal 0 1 (.num (.int 1)) rfl, pushedOnto⟩, ⟨.unbound "X" 1, pushedMiss⟩,
    ⟨.builtin .push [pushedOnto, pushedMiss] 0 [] 1,
      (Builtin.push unbounded oneTextFloats pushedOnto pushedMiss 1 { next := 1 }).1⟩]

theorem runs_pushRun : Runs unbounded oneTextFloats shownHistories pushRun { next := 2 } := by
  have hone := Runs.step (B := unbounded) (F := oneTextFloats) (H := shownHistories) (.start {})
    (o := .literal 0 1 (.num (.int 1)) rfl) (v := pushedOnto) (by simp [Operation.operands]) rfl
  have hmiss := hone.step (o := .unbound "X" 1) (v := pushedMiss) (by simp [Operation.operands]) rfl
  refine hmiss.step (o := .builtin .push [pushedOnto, pushedMiss] 0 [] 1) ?_ rfl
  intro m hm
  rcases List.mem_pair.mp hm with rfl | rfl
  · exact ⟨_, List.mem_cons_self, .refl⟩
  · exact ⟨_, List.mem_cons_of_mem _ List.mem_cons_self, .refl⟩

/-- The reason that `push` gives beside a miss is on no step that blame lists. -/
theorem blame_not_complete :
    ¬∀ (B : Budgets) (F : FloatOps) (H : Histories) (run : List Entry) (t : Tally),
      Runs B F H run t → ∀ v, Reachable run v → ∀ r ∈ v.value.reasons,
        ∃ n ∈ recordedSteps (Builtin.blame F v 1 t).1, r ∈ n.value.reasons := by
  intro h
  have hpushed := h _ _ _ _ _ runs_pushRun
    (Builtin.push unbounded oneTextFloats pushedOnto pushedMiss 1 { next := 1 }).1
    ⟨_, List.mem_cons_of_mem _ (List.mem_cons_of_mem _ List.mem_cons_self), .refl⟩
    "push needs a list, got 1 (line 1)"
  revert hpushed
  decide +kernel

end NucLlm.Whence
