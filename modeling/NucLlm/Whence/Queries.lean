import NucLlm.Whence.Builtins

/-!
# Queries of a history

`steps` walks a history depth first and `at` searches it breadth first.  Both
skip what they have seen, and both answer from the same steps.
-/

namespace NucLlm.Whence

theorem Fields.get?_put_self (key : String) (v : Node) (fields : List (String × Node)) :
    Fields.get? (Fields.put key v fields) key = some v := by
  induction fields with
  | nil => simp [Fields.put, Fields.get?]
  | cons f fields ih =>
      rw [Fields.put]
      by_cases hsame : key = f.1
      · simp [hsame, Fields.get?]
      · by_cases hbefore : key < f.1
        · simp [hsame, hbefore, Fields.get?]
        · have hother : ¬f.1 = key := fun h ↦ hsame h.symm
          simp only [hsame, hbefore, if_false]
          simpa [Fields.get?, hother] using ih

theorem Fields.get?_ofDict_concat (pairs : List (String × Node)) (key : String) (v : Node) :
    Fields.get? (Fields.ofDict (pairs ++ [(key, v)])) key = some v := by
  rw [Fields.ofDict, Fields.merge, List.foldl_concat]
  exact Fields.get?_put_self key v _

/-! ## Lists of steps -/

/-- The historic value of a step record. -/
def recordedStep (record : Node) : Option Node :=
  match record.value with
  | .record fields => Fields.get? fields "value"
  | _ => none

/-- The items of a list. -/
def itemsOf (v : Node) : List Node :=
  match v.value with
  | .list items => items
  | _ => []

section

variable {F : FloatOps} {v pat : Node} {pattern : String} {line : ℕ} {t : Tally}

theorem recordedStep_stepRecord (s : Node × ℕ) :
    recordedStep (Builtin.stepRecord F line s t).1 = some s.1 := by
  obtain ⟨node, depth⟩ := s
  simp only [recordedStep, Builtin.stepRecord, bind_run, value_derived]
  -- The value is the last of the fields.
  exact Fields.get?_ofDict_concat [_, _, _, _, _, _, _] "value" node

theorem recordedStep_stepRecords (ss : List (Node × ℕ)) :
    (Builtin.stepRecords F line ss t).1.map recordedStep = ss.map fun s ↦ some s.1 := by
  induction ss generalizing t with
  | nil => rfl
  | cons s ss ih =>
      have hstep : recordedStep (Builtin.stepRecord F line s t).1 = some s.1 :=
        recordedStep_stepRecord s
      simp only [Builtin.stepRecords, bind_run, pure_run, List.map_cons, hstep, ih]

theorem recordedStep_stepsMatching (hpat : pat.value = .str pattern) :
    (itemsOf (Builtin.stepsMatching F v pat line t).1).map recordedStep =
      ((walkSteps (historyRoot v)).filter fun s ↦ matchesStep pattern s.1).map fun s ↦
        some s.1 := by
  rw [Builtin.stepsMatching, hpat]
  simp only [itemsOf, bind_run, value_derived]
  exact recordedStep_stepRecords _

theorem at_of_found {node : Node} (hpat : pat.value = .str pattern)
    (hfound : findStep (historyRoot v) pattern = some node) :
    Builtin.at_ F v pat line = pure node := by
  rw [Builtin.at_, hpat]
  simp only [hfound]

theorem at_of_absent (hpat : pat.value = .str pattern)
    (habsent : findStep (historyRoot v) pattern = none) :
    Builtin.at_ F v pat line =
      makeMiss s!"no step named '{pattern}' in the history of {(historyRoot v).show F}" line "at"
        [historyRoot v, pat] := by
  rw [Builtin.at_, hpat]
  simp only [habsent]

end

/-! ## The queries agree -/

/-- Some step that can be reached answers to the pattern. -/
def Answered (root : Node) (pattern : String) : Prop :=
  ∃ v, history.Reach root v ∧ matchesStep pattern v = true

theorem findStep_isSome_iff (root : Node) (pattern : String) :
    (findStep root pattern).isSome ↔ Answered root pattern := by
  have h := history.searched (matchesStep pattern) root
  constructor
  · intro hsome
    obtain ⟨v, hv⟩ := Option.isSome_iff_exists.mp hsome
    exact ⟨v, h.reach v hv, h.passes v hv⟩
  · rintro ⟨v, hreach, hmatch⟩
    by_contra hnone
    have hfailed := h.absent (Option.not_isSome_iff_eq_none.mp hnone) v hreach
    rw [hmatch] at hfailed
    contradiction

/-- The step is found, it can be reached, and no step that answers is nearer. -/
structure FoundNearest (root : Node) (pattern : String) (v : Node) : Prop where
  matched : matchesStep pattern v = true
  nearest : ∃ n, history.ReachIn n root v ∧
    ∀ m w, history.ReachIn m root w → matchesStep pattern w = true → n ≤ m

theorem foundNearest_findStep {root v : Node} {pattern : String}
    (h : findStep root pattern = some v) : FoundNearest root pattern v where
  matched := (history.searched (matchesStep pattern) root).passes v h
  nearest := history.search_nearest (matchesStep pattern) root v h

theorem mem_matching {root v : Node} {pattern : String} :
    some v ∈ (((walkSteps root).filter fun s ↦ matchesStep pattern s.1).map fun s ↦ some s.1) ↔
      history.Reach root v ∧ matchesStep pattern v = true := by
  rw [← Ranked.mem_walk]
  constructor
  · intro h
    obtain ⟨s, hs, heq⟩ := List.mem_map.mp h
    obtain rfl := Option.some.inj heq
    obtain ⟨hmem, hmatch⟩ := List.mem_filter.mp hs
    exact ⟨List.mem_map_of_mem hmem, hmatch⟩
  · rintro ⟨hmem, hmatch⟩
    obtain ⟨s, hs, rfl⟩ := List.mem_map.mp hmem
    exact List.mem_map.mpr ⟨s, List.mem_filter.mpr ⟨hs, hmatch⟩, rfl⟩

theorem makeMiss_ne_pure {reason op : String} {line : ℕ} {inputs : List Node} {v : Node} :
    makeMiss reason line op inputs ≠ pure v := by
  intro h
  have hnext := congrArg (fun m : Making Node ↦ (m {}).2.next) h
  exact absurd hnext (Nat.succ_ne_zero 0)

/-- `at` gives a step: it makes no node of its own. -/
def AtFinds (F : FloatOps) (v pat : Node) (line : ℕ) (node : Node) : Prop :=
  Builtin.at_ F v pat line = pure node

theorem atFinds_iff {pat : Node} {pattern : String} (F : FloatOps) (hpat : pat.value = .str pattern)
    (v : Node) (line : ℕ) (node : Node) :
    AtFinds F v pat line node ↔ findStep (historyRoot v) pattern = some node := by
  cases hfound : findStep (historyRoot v) pattern with
  | none =>
      rw [AtFinds, at_of_absent hpat hfound]
      simp [makeMiss_ne_pure]
  | some found =>
      rw [AtFinds, at_of_found hpat hfound, Option.some.injEq]
      constructor
      · intro h
        exact congrArg (fun m : Making Node ↦ (m {}).1) h
      · rintro rfl
        rfl

/-- `at` succeeds just if `steps` lists something, and gives one of the steps listed. -/
def AtAgreesWithSteps (F : FloatOps) (v pat : Node) (line : ℕ) (t : Tally) : Prop :=
  let items := itemsOf (Builtin.stepsMatching F v pat line t).1
  ((∃ node, AtFinds F v pat line node) ↔ items ≠ []) ∧
    ∀ node, AtFinds F v pat line node → ∃ item ∈ items, recordedStep item = some node

theorem atAgreesWithSteps {pat : Node} {pattern : String} (F : FloatOps)
    (hpat : pat.value = .str pattern) (v : Node) (line : ℕ) (t : Tally) :
    AtAgreesWithSteps F v pat line t := by
  have hsteps : (itemsOf (Builtin.stepsMatching F v pat line t).1).map recordedStep = _ :=
    recordedStep_stepsMatching hpat
  have hlisted : ∀ node, AtFinds F v pat line node →
      ∃ item ∈ itemsOf (Builtin.stepsMatching F v pat line t).1, recordedStep item = some node := by
    intro node hnode
    have hfound := (atFinds_iff F hpat v line node).mp hnode
    have hmem := mem_matching.mpr ⟨reach_findStep hfound, (foundNearest_findStep hfound).matched⟩
    rw [← hsteps] at hmem
    exact List.mem_map.mp hmem
  constructor
  · constructor
    · rintro ⟨node, hnode⟩
      obtain ⟨item, hitem, _⟩ := hlisted node hnode
      exact List.ne_nil_of_mem hitem
    · intro hne
      obtain ⟨item, hitem⟩ := List.exists_mem_of_ne_nil _ hne
      have hmem := List.mem_map_of_mem (f := recordedStep) hitem
      rw [hsteps] at hmem
      obtain ⟨s, hs, _⟩ := List.mem_map.mp hmem
      have hanswers : Answered (historyRoot v) pattern :=
        ⟨s.1, mem_matching.mp (List.mem_map.mpr ⟨s, hs, rfl⟩)⟩
      obtain ⟨node, hnode⟩ := Option.isSome_iff_exists.mp
        ((findStep_isSome_iff (historyRoot v) pattern).mpr hanswers)
      exact ⟨node, (atFinds_iff F hpat v line node).mpr hnode⟩
  · exact hlisted

/-- The walk lists what can be reached, once each and in the order of the recursive walk; the
search finds a nearest step that answers, if there is one; and `at` and `steps` agree. -/
theorem history_queries_agree (F : FloatOps) :
    (∀ root, ((walkSteps root).map Prod.fst).Nodup ∧
      (∀ v, v ∈ (walkSteps root).map Prod.fst ↔ history.Reach root v) ∧
      walkSteps root = history.preorder root 0 []) ∧
    (∀ root pattern, ((findStep root pattern).isSome ↔ Answered root pattern) ∧
      ∀ v, findStep root pattern = some v → FoundNearest root pattern v) ∧
    ∀ (v pat : Node) (pattern : String) (line : ℕ) (t : Tally), pat.value = .str pattern →
      AtAgreesWithSteps F v pat line t := by
  constructor
  · exact fun root ↦ ⟨Ranked.walk_nodup, fun v ↦ Ranked.mem_walk, history.walk_eq_preorder root⟩
  constructor
  · exact fun root pattern ↦
      ⟨findStep_isSome_iff root pattern, fun v h ↦ foundNearest_findStep h⟩
  · exact fun v pat pattern line t hpat ↦ atAgreesWithSteps F hpat v line t

end NucLlm.Whence
