import NucLlm.Whence.MakesRuns

/-!
# Values of runs

The values of a run can be had one after the other, each from values before it: a guess from the
operator or the `guess` that makes it, any other value from what it refers to.
-/

namespace NucLlm.Whence

section

variable {B : Budgets} {F : FloatOps} {H : Histories} {o : Operation} {n v : Node}
  {base made made' : List Node}

/-- So many more values of a run. -/
abbrev ValueSteps (B : Budgets) (F : FloatOps) : List Node → List Node → Prop :=
  Relation.ReflTransGen (ValueStep B F)

theorem ValueStep.subset (h : ValueStep B F made made') : made ⊆ made' := by
  cases h <;> exact List.subset_cons_self _ _

theorem subset_of_valueSteps (h : ValueSteps B F made made') : made ⊆ made' := by
  induction h with
  | refl => exact List.Subset.refl made
  | tail _ hstep ih => exact List.Subset.trans ih hstep.subset

/-- What can be had from the values of `base`, each by itself, can be had together. -/
theorem valueSteps_all {nodes : List Node}
    (h : ∀ m ∈ nodes, ∀ made, base ⊆ made → ∃ made', ValueSteps B F made made' ∧ m ∈ made')
    (hbase : base ⊆ made) :
    ∃ made', ValueSteps B F made made' ∧ ∀ m ∈ nodes, m ∈ made' := by
  induction nodes generalizing made with
  | nil => exact ⟨made, .refl, List.forall_mem_nil _⟩
  | cons m nodes ih =>
      obtain ⟨first, hfirst, hm⟩ := h m List.mem_cons_self made hbase
      have hbase' : base ⊆ first := List.Subset.trans hbase (subset_of_valueSteps hfirst)
      obtain ⟨last, hlast, hnodes⟩ := ih (fun k hk ↦ h k (List.mem_cons_of_mem m hk)) hbase'
      refine ⟨last, hfirst.trans hlast, ?_⟩
      exact List.forall_mem_cons.mpr ⟨subset_of_valueSteps hlast hm, hnodes⟩

theorem valueSteps_below (h : v.Below n) (hv : v ∈ made) :
    ∃ made', ValueSteps B F made made' ∧ n ∈ made' := by
  induction h with
  | refl => exact ⟨made, .refl, hv⟩
  | tail _ hlink ih =>
      obtain ⟨made', hsteps, hm⟩ := ih
      exact ⟨_, hsteps.tail (.part hm hlink), List.mem_cons_self⟩

/-- A node that an operation makes is one more value. -/
theorem Makes.valueStep (h : Makes B F H o n) (hlinks : ∀ m ∈ n.links, m ∈ made)
    (hoperands : o.operands ⊆ made) : ValueStep B F made (n :: made) := by
  have hinputs : ∀ i ∈ n.inputs, i ∈ made := fun i hi ↦ hlinks i (List.mem_append_left _ hi)
  have hparts : ∀ m ∈ n.value.parts, m ∈ made := fun m hm ↦ hlinks m (List.mem_append_right _ hm)
  have hmade : n.isMiss = true → ValueStep B F made (n :: made) := by
    intro hmiss
    apply ValueStep.operation hinputs hparts
    cases hvalue : n.value with
    | miss reasons => rfl
    | _ => simp [Node.isMiss, hvalue, Payload.isMiss] at hmiss
  cases h with
  | computes _ hguess _ _ =>
      by_cases hcertain : n.value.isGuess = true
      · have hoperates := hguess hcertain
        generalize n.inputs = inputs at hoperates hinputs
        cases hoperates with
        | unary op v line t => exact .unary (hinputs v (by simp)) op line t
        | binop op l r line t => exact .binop (hinputs l (by simp)) (hinputs r (by simp)) op line t
        | guess value conf source line t =>
            exact .guess (hinputs value (by simp)) (hinputs conf (by simp))
              (hinputs source (by simp)) line t
      · exact .operation hinputs hparts (by simpa using hcertain)
  | passes hv hvalue _ => exact .passOn (hinputs _ hv) hinputs hvalue
  | cutsOff hv hvalue _ _ => exact .passOn (hoperands hv) hinputs hvalue
  | merges hv hvalue _ _ _ => exact .passOn (hoperands hv) hinputs hvalue
  | propagates _ hvalue =>
      apply hmade
      rw [Node.isMiss, hvalue]
      rfl
  | refuses hmiss _ _ => exact hmade hmiss

theorem From.valueSteps (h : From B F H o n) (hoperands : o.operands ⊆ made) :
    ∃ made', ValueSteps B F made made' ∧ n ∈ made' := by
  induction h generalizing made with
  | old hm hbelow => exact valueSteps_below hbelow (hoperands hm)
  | new _ hmakes ih =>
      obtain ⟨made', hsteps, hlinks⟩ :=
        valueSteps_all (fun m hm made hbase ↦ ih m hm hbase) hoperands
      have hoperands' := List.Subset.trans hoperands (subset_of_valueSteps hsteps)
      exact ⟨_, hsteps.tail (hmakes.valueStep hlinks hoperands'), List.mem_cons_self⟩

/-! ## Runs -/

theorem Runs.madeBy {run : List Entry} {t : Tally} (h : Runs B F H run t) :
    ∃ made, MadeBy B F made ∧ ∀ e ∈ run, e.result ∈ made := by
  induction h with
  | start t => exact ⟨[], .refl, List.forall_mem_nil _⟩
  | @step run t t' o v h hoperands hperform ih =>
      obtain ⟨made, hmade, hrun⟩ := ih
      have hoperand : ∀ m ∈ o.operands, ∀ known, made ⊆ known →
          ∃ known', ValueSteps B F known known' ∧ m ∈ known' := by
        intro m hm known hknown
        obtain ⟨e, he, hbelow⟩ := hoperands m hm
        exact valueSteps_below hbelow (hknown (hrun e he))
      obtain ⟨known, hknown, hoperands'⟩ := valueSteps_all hoperand (List.Subset.refl made)
      obtain ⟨last, hlast, hv⟩ := (gets_perform o t v t' hperform).valueSteps hoperands'
      have hsteps : ValueSteps B F made last := hknown.trans hlast
      refine ⟨last, hmade.trans hsteps, ?_⟩
      intro e he
      rcases List.mem_append.mp he with he | he
      · exact subset_of_valueSteps hsteps (hrun e he)
      · obtain rfl := List.mem_singleton.mp he
        exact hv

/-- What a run reaches is a value that operators, guesses and the other steps come to. -/
theorem Runs.runValue {run : List Entry} {t : Tally} (h : Runs B F H run t)
    (hv : Reachable run v) : ∃ u : RunValue B F, u.value = v := by
  obtain ⟨made, hmade, hrun⟩ := h.madeBy
  obtain ⟨e, he, hbelow⟩ := hv
  obtain ⟨made', hsteps, hmem⟩ := valueSteps_below hbelow (hrun e he)
  exact ⟨⟨v, made', hmade.trans hsteps, hmem⟩, rfl⟩

/-- The guesses of a run are about something certain. -/
theorem Runs.guessesSound {run : List Entry} {t : Tally} (h : Runs B F H run t)
    (hv : Reachable run v) : GuessesSound v := by
  obtain ⟨u, rfl⟩ := h.runValue hv
  exact u.madeBy.sound u.value u.mem

end

end NucLlm.Whence
