import NucLlm.Whence.MakesBuiltins

/-!
# What the queries of histories make

The queries of histories and the builtins that call their arguments.
-/

namespace NucLlm.Whence

section

variable {B : Budgets} {F : FloatOps} {H : Histories} {o : Operation} {v n : Node}
  {op detail reason name : String} {line : ℕ} {inputs args : List Node} {p : Payload}
  {draw : Float64}

/-! ## Records of steps -/

theorem From.root (h : From B F H o v) : From B F H o (historyRoot v) := by
  unfold historyRoot
  cases hvalue : v.value with
  | explanation root =>
      apply h.part
      rw [hvalue]
      exact List.mem_singleton_self root
  | _ => exact h

/-- A value whose history starts elsewhere is an explanation. -/
theorem isMiss_of_root (h : (historyRoot v).isMiss = false) : v.isMiss = false := by
  unfold historyRoot at h
  cases hvalue : v.value with
  | explanation root => exact isMiss_of_value hvalue
  | _ =>
      rw [hvalue] at h
      exact h

/-- A step from the operands of which a record may be made. -/
structure Listed (B : Budgets) (F : FloatOps) (H : Histories) (o : Operation) (s : Node × ℕ) :
    Prop where
  step_from : From B F H o s.1
  ints : ∀ n ∈ stepInts s, n ∈ o.unchargedInts B F H
  texts : ∀ text ∈ stepTexts F s, text.length ∈ o.unchargedSizes F H

theorem from_stepRecord {s : Node × ℕ} (h : Listed B F H o s) :
    Sends (Builtin.stepRecord F line s) (From B F H o) := by
  have htext : ∀ detail text, text ∈ stepTexts F s →
      Sends (leaf "step" detail line (.str text)) (From B F H o) := by
    intro detail text hmem
    apply from_text (List.forall_mem_nil _)
    exact fun hfit ↦ hfit _ (h.texts text hmem)
  have hint : ∀ detail (k : ℕ), (k : ℤ) ∈ stepInts s →
      Sends (leaf "step" detail line (Builtin.natural k)) (From B F H o) := by
    intro detail k hmem
    apply from_number (List.forall_mem_nil _)
    exact fun hcharged ↦ hcharged.ints _ (h.ints k hmem)
  obtain ⟨node, depth⟩ := s
  refine Sends.bind (htext "op" node.op (by simp [stepTexts])) fun a ha ↦ ?_
  refine Sends.bind (htext "detail" node.detail (by simp [stepTexts])) fun b hb ↦ ?_
  refine Sends.bind (hint "line" node.line (by simp [stepInts])) fun c hc ↦ ?_
  refine Sends.bind (htext "show" (node.show F) (by simp [stepTexts])) fun d hd ↦ ?_
  refine Sends.bind (hint "depth" depth (by simp [stepInts])) fun e he ↦ ?_
  refine Sends.bind (hint "inputs" node.inputs.length (by simp [stepInts])) fun f hf ↦ ?_
  refine Sends.bind (hint "count" node.count (by simp [stepInts])) fun g hg ↦ ?_
  have hnode : From B F H o node := h.step_from
  apply from_record
  · simpa using hnode
  · intro m hm
    have hmem := Fields.mem_ofDict hm
    simp only [List.map_cons, List.map_nil, List.mem_cons, List.not_mem_nil, or_false] at hmem
    rcases hmem with rfl | rfl | rfl | rfl | rfl | rfl | rfl | rfl <;> assumption

theorem from_stepRecords {ss : List (Node × ℕ)} (h : ∀ s ∈ ss, Listed B F H o s) :
    Sends (Builtin.stepRecords F line ss) fun items ↦
      items.length = ss.length ∧ ∀ i ∈ items, From B F H o i := by
  induction ss with
  | nil => exact sends_pure (by simp)
  | cons s ss ih =>
      refine Sends.bind (from_stepRecord (h s List.mem_cons_self)) fun v hv ↦ ?_
      refine Sends.bind (ih fun s' hs' ↦ h s' (List.mem_cons_of_mem s hs')) fun vs hvs ↦ ?_
      apply sends_pure
      simp only [List.length_cons, hvs.1, List.forall_mem_cons, true_and]
      exact ⟨hv, hvs.2⟩

/-! ## Queries -/

/-- The builtin makes a list of records of these steps. -/
theorem from_listing {ss : List (Node × ℕ)} {b : BuiltinName}
    (hinputs : ∀ i ∈ inputs, From B F H (.builtin b args draw [] line) i)
    (hreach : ∀ s ∈ ss, From B F H (.builtin b args draw [] line) s.1)
    (hints : b.unchargedInts B F H args = ss.flatMap stepInts)
    (hsizes : b.unchargedSizes F H args [] =
      BuiltinName.sizes ss.length (ss.flatMap (stepTexts F))) {detail : List Node → String} :
    Sends (do
      let items ← Builtin.stepRecords F line ss
      derived op (detail items) line inputs (.list items))
      (From B F H (.builtin b args draw [] line)) := by
  have hlisted : ∀ s ∈ ss, Listed B F H (.builtin b args draw [] line) s := by
    intro s hs
    refine ⟨hreach s hs, ?_, ?_⟩
    · intro n hn
      change n ∈ b.unchargedInts B F H args
      rw [hints]
      exact List.mem_flatMap.mpr ⟨s, hs, hn⟩
    · intro text htext
      change text.length ∈ b.unchargedSizes F H args []
      rw [hsizes]
      exact List.mem_cons_of_mem _ (List.mem_map_of_mem (List.mem_flatMap.mpr ⟨s, hs, htext⟩))
  refine Sends.bind (from_stepRecords hlisted) fun items hitems ↦ ?_
  apply from_list hinputs hitems.2
  intro hfit
  apply hfit
  change _ ∈ b.unchargedSizes F H args []
  rw [hsizes, hitems.1]
  exact List.mem_cons_self

theorem From.step {s : Node × ℕ} {root : Node} (h : From B F H o root)
    (hs : s ∈ walkSteps root) : From B F H o s.1 :=
  h.reach (Ranked.mem_walk.mp (List.mem_map_of_mem hs))

theorem from_steps :
    Sends (Builtin.steps F v line) (From B F H (.builtin .steps [v] draw [] line)) := by
  have hroot : From B F H (.builtin .steps [v] draw [] line) (historyRoot v) :=
    (from_operand List.mem_cons_self).root
  apply from_listing
  · simpa using hroot
  · exact fun s hs ↦ hroot.step hs
  · rfl
  · rfl

theorem from_blame :
    Sends (Builtin.blame F v line) (From B F H (.builtin .blame [v] draw [] line)) := by
  have hroot : From B F H (.builtin .blame [v] draw [] line) (historyRoot v) :=
    (from_operand List.mem_cons_self).root
  apply from_listing
  · simpa using hroot
  · exact fun s hs ↦ hroot.step (List.mem_filter.mp hs).1
  · rfl
  · rfl

theorem from_stepsMatching {pat : Node} :
    Sends (Builtin.stepsMatching F v pat line)
      (From B F H (.builtin .steps [v, pat] draw [] line)) := by
  have hv : From B F H (.builtin .steps [v, pat] draw [] line) v :=
    from_operand List.mem_cons_self
  have hpat : From B F H (.builtin .steps [v, pat] draw [] line) pat :=
    from_operand (List.mem_cons_of_mem v List.mem_cons_self)
  unfold Builtin.stepsMatching
  cases hvalue : pat.value with
  | miss reasons =>
      exact from_mergeMiss (by simp [hv, hpat]) ⟨pat, by simp, isMiss_of_value hvalue⟩
  | str pattern =>
      apply from_listing
      · simp [hv.root, hpat]
      · exact fun s hs ↦ hv.root.step (List.mem_filter.mp hs).1
      · simp [BuiltinName.unchargedInts, BuiltinName.listed, hvalue]
      · simp [BuiltinName.unchargedSizes, BuiltinName.listed, hvalue]
  | _ =>
      have hnone : pat.isMiss = false := isMiss_of_value hvalue
      apply from_refusal (by simp [hv.root, hpat])
      · rintro ⟨i, hi, hmiss⟩
        rcases List.mem_pair.mp hi with rfl | rfl
        · simp [Operation.losesReasons, BuiltinName.losesReasons, hmiss, hnone, hvalue,
            Payload.isText]
        · rw [hnone] at hmiss
          contradiction
      · intro hinputs m hm
        rcases List.mem_pair.mp hm with rfl | rfl
        · exact isMiss_of_root (hinputs _ List.mem_cons_self)
        · exact hnone

theorem from_at {pat : Node} :
    Sends (Builtin.at_ F v pat line) (From B F H (.builtin .at_ [v, pat] draw [] line)) := by
  have hv : From B F H (.builtin .at_ [v, pat] draw [] line) v := from_operand List.mem_cons_self
  have hpat : From B F H (.builtin .at_ [v, pat] draw [] line) pat :=
    from_operand (List.mem_cons_of_mem v List.mem_cons_self)
  unfold Builtin.at_
  cases hvalue : pat.value with
  | miss reasons =>
      exact from_mergeMiss (by simp [hv, hpat]) ⟨pat, by simp, isMiss_of_value hvalue⟩
  | str pattern =>
      have hnone : pat.isMiss = false := isMiss_of_value hvalue
      dsimp only
      cases hfound : findStep (historyRoot v) pattern with
      | some node => exact sends_pure (hv.root.reach (reach_findStep hfound))
      | none =>
          apply from_refusal (by simp [hv.root, hpat])
          · rintro ⟨i, hi, hmiss⟩
            rcases List.mem_pair.mp hi with rfl | rfl
            · simp [Operation.losesReasons, BuiltinName.losesReasons, hmiss, hvalue, hfound]
            · rw [hnone] at hmiss
              contradiction
          · intro hinputs m hm
            rcases List.mem_pair.mp hm with rfl | rfl
            · exact isMiss_of_root (hinputs _ List.mem_cons_self)
            · exact hnone
  | _ =>
      have hnone : pat.isMiss = false := isMiss_of_value hvalue
      apply from_losing rfl
      rintro ⟨a, ha, hmiss⟩
      rcases List.mem_pair.mp ha with rfl | rfl
      · simp [Operation.losesReasons, BuiltinName.losesReasons, hvalue, hmiss]
      · rw [hnone] at hmiss
        contradiction

/-! ## Divergences -/

/-- A divergence of histories from the operands of which a record may be made. -/
structure Diverged (B : Budgets) (F : FloatOps) (H : Histories) (o : Operation)
    (d : Node × Node × Node × Node × Provenance.Difference) : Prop where
  listed : ∀ s ∈ BuiltinName.divergedSteps d, Listed B F H o s
  text : (Builtin.differenceText d.2.2.2.2).length ∈ o.unchargedSizes F H

theorem from_divergeRecord {ra rb : Node} {which : Option ℕ}
    {d : Node × Node × Provenance.Difference} (h : Diverged B F H o (ra, rb, d))
    (hwhich : ∀ k ∈ which, (k : ℤ) ∈ o.unchargedInts B F H) :
    Sends (Builtin.divergeRecord F ra rb which line d) (From B F H o) := by
  obtain ⟨na, nb, difference⟩ := d
  have hleft := h.listed (na, Builtin.depthIn (walkSteps ra) na) List.mem_cons_self
  have hright := h.listed (nb, Builtin.depthIn (walkSteps rb) nb)
    (List.mem_cons_of_mem _ List.mem_cons_self)
  have hnodes : ∀ i ∈ [na, nb], From B F H o i := by
    simpa using ⟨hleft.step_from, hright.step_from⟩
  have hkind : Sends (leaf "diverge" "kind" line (.str (Builtin.differenceText difference)))
      (From B F H o) := by
    apply from_text (List.forall_mem_nil _)
    exact fun hfit ↦ hfit _ h.text
  refine Sends.bind hkind fun kind hkind ↦ ?_
  refine Sends.bind (from_stepRecord hleft) fun a ha ↦ ?_
  refine Sends.bind (from_stepRecord hright) fun b hb ↦ ?_
  cases which with
  | none =>
      apply from_record hnodes
      intro m hm
      have hmem := Fields.mem_ofDict hm
      simp only [List.map_cons, List.map_nil, List.mem_cons, List.not_mem_nil, or_false] at hmem
      rcases hmem with rfl | rfl | rfl <;> assumption
  | some run =>
      have hrun : Sends (leaf "diverge" "which" line (Builtin.natural run)) (From B F H o) := by
        apply from_number (List.forall_mem_nil _)
        exact fun hcharged ↦ hcharged.ints _ (hwhich run rfl)
      refine Sends.bind hrun fun which hwhich ↦ ?_
      apply from_record hnodes
      intro m hm
      have hmem := Fields.mem_ofDict hm
      simp only [List.cons_append, List.nil_append, List.map_cons, List.map_nil, List.mem_cons,
        List.not_mem_nil, or_false] at hmem
      rcases hmem with rfl | rfl | rfl | rfl <;> assumption

theorem from_divergeRecords {ra rb : Node} {which : Option ℕ}
    {ds : List (Node × Node × Provenance.Difference)}
    (h : ∀ d ∈ ds, Diverged B F H o (ra, rb, d))
    (hwhich : ∀ k ∈ which, (k : ℤ) ∈ o.unchargedInts B F H) :
    Sends (Builtin.divergeRecords F ra rb which line ds) fun items ↦
      items.length = ds.length ∧ ∀ i ∈ items, From B F H o i := by
  induction ds with
  | nil => exact sends_pure (by simp)
  | cons d ds ih =>
      refine Sends.bind (from_divergeRecord (h d List.mem_cons_self) hwhich) fun v hv ↦ ?_
      refine Sends.bind (ih fun d' hd' ↦ h d' (List.mem_cons_of_mem d hd')) fun vs hvs ↦ ?_
      apply sends_pure
      simp only [List.length_cons, hvs.1, List.forall_mem_cons, true_and]
      exact ⟨hv, hvs.2⟩

theorem from_divergeRuns {ra : Node} {runs : List Node} {which : ℕ}
    (h : ∀ d ∈ runs.flatMap fun run ↦ BuiltinName.divergences H ra (historyRoot run),
      Diverged B F H o d)
    (hwhich : ∀ k : ℕ, k < which + runs.length → (k : ℤ) ∈ o.unchargedInts B F H) :
    Sends (Builtin.divergeRuns F H ra line which runs) fun items ↦
      items.length = (runs.flatMap fun run ↦
        BuiltinName.divergences H ra (historyRoot run)).length ∧
      ∀ i ∈ items, From B F H o i := by
  induction runs generalizing which with
  | nil => exact sends_pure (by simp)
  | cons run runs ih =>
      rw [List.flatMap_cons] at h ⊢
      have hfirst : ∀ d ∈ H.diverge ra (historyRoot run),
          Diverged B F H o (ra, historyRoot run, d) :=
        fun d hd ↦ h _ (List.mem_append_left _ (List.mem_map_of_mem hd))
      have hnumber : ∀ k ∈ some which, (k : ℤ) ∈ o.unchargedInts B F H := by
        rintro k ⟨⟩
        exact hwhich which (Nat.lt_add_of_pos_right (Nat.succ_pos _))
      have hrest : Sends (Builtin.divergeRuns F H ra line (which + 1) runs) _ :=
        ih (fun d hd ↦ h d (List.mem_append_right _ hd))
          fun k hk ↦ hwhich k (by rw [List.length_cons]; omega)
      refine Sends.bind (from_divergeRecords hfirst hnumber) fun items hitems ↦ ?_
      refine Sends.bind hrest fun rest hrest ↦ ?_
      apply sends_pure
      constructor
      · rw [List.length_append, List.length_append, hitems.1, hrest.1]
        simp [BuiltinName.divergences]
      · intro i hi
        rcases List.mem_append.mp hi with hi | hi
        · exact hitems.2 i hi
        · exact hrest.2 i hi

/-- A divergence that `diverge` finds is of histories from its arguments. -/
theorem diverged_of_mem {ra rb : Node} {d : Node × Node × Node × Node × Provenance.Difference}
    (hra : From B F H (.builtin .diverge args draw [] line) ra)
    (hrb : From B F H (.builtin .diverge args draw [] line) rb)
    (hd : d ∈ BuiltinName.divergences H ra rb) (hfound : d ∈ BuiltinName.differences H args)
    (hints : ∀ n ∈ (BuiltinName.listed H .diverge args).flatMap stepInts,
      n ∈ BuiltinName.unchargedInts B F H .diverge args) :
    Diverged B F H (.builtin .diverge args draw [] line) d := by
  have hlisted : ∀ s ∈ BuiltinName.divergedSteps d, s ∈ BuiltinName.listed H .diverge args :=
    fun s hs ↦ List.mem_flatMap.mpr ⟨d, hfound, hs⟩
  have hsizes : ∀ text ∈ (BuiltinName.differences H args).map
        (fun d ↦ Builtin.differenceText d.2.2.2.2) ++
          (BuiltinName.listed H .diverge args).flatMap (stepTexts F),
      text.length ∈ BuiltinName.unchargedSizes F H .diverge args [] :=
    fun text htext ↦ List.mem_cons_of_mem _ (List.mem_map_of_mem htext)
  have hsteps : ∀ s ∈ BuiltinName.divergedSteps d,
      From B F H (.builtin .diverge args draw [] line) s.1 := by
    obtain ⟨pair, hpair, rfl⟩ := List.mem_map.mp hd
    obtain ⟨hleft, hright⟩ := H.diverge_steps ra rb pair hpair
    intro s hs
    rcases List.mem_pair.mp hs with rfl | rfl
    · exact hra.reach hleft
    · exact hrb.reach hright
  constructor
  · intro s hs
    refine ⟨hsteps s hs, ?_, ?_⟩
    · intro n hn
      exact hints n (List.mem_flatMap.mpr ⟨s, hlisted s hs, hn⟩)
    · intro text htext
      apply hsizes
      exact List.mem_append_right _ (List.mem_flatMap.mpr ⟨s, hlisted s hs, htext⟩)
  · exact hsizes _ (List.mem_append_left _ (List.mem_map_of_mem hfound))

theorem from_diverge {a b : Node} :
    Sends (Builtin.diverge F H a b line) (From B F H (.builtin .diverge [a, b] draw [] line)) := by
  have ha : From B F H (.builtin .diverge [a, b] draw [] line) (historyRoot a) :=
    (from_operand List.mem_cons_self).root
  have hb : From B F H (.builtin .diverge [a, b] draw [] line) (historyRoot b) :=
    (from_operand (List.mem_cons_of_mem a List.mem_cons_self)).root
  have hdiverged : ∀ d ∈ H.diverge (historyRoot a) (historyRoot b),
      Diverged B F H (.builtin .diverge [a, b] draw [] line)
        (historyRoot a, historyRoot b, d) := by
    intro d hd
    have hmem := List.mem_map_of_mem (f := fun d ↦ (historyRoot a, historyRoot b, d)) hd
    exact diverged_of_mem ha hb hmem hmem fun n hn ↦ hn
  refine Sends.bind (from_divergeRecords hdiverged (by simp)) fun items hitems ↦ ?_
  apply from_list (by simp [ha, hb]) hitems.2
  intro hfit
  rw [hitems.1]
  have hlength : (BuiltinName.differences H [a, b]).length =
      (H.diverge (historyRoot a) (historyRoot b)).length := List.length_map _
  rw [← hlength]
  exact hfit _ List.mem_cons_self

theorem from_withRuns {runs : Node} {rest : List Node → Making Node} (h : o.operands = [runs])
    (hrest : ∀ items, runs.value = .list items → Sends (rest items) (From B F H o)) :
    Sends (Builtin.withRuns F name runs line rest) (From B F H o) := by
  unfold Builtin.withRuns
  cases hvalue : runs.value with
  | miss reasons =>
      exact from_mergeMiss (from_operands h) ⟨runs, by simp, isMiss_of_value hvalue⟩
  | list items => exact hrest items hvalue
  | _ => exact (clean_operand h (isMiss_of_value hvalue)).makeMiss

theorem itemsOf_of_value {items : List Node} (h : v.value = .list items) : itemsOf v = items := by
  rw [itemsOf, h]

theorem from_divergeAll {runs : Node} :
    Sends (Builtin.divergeAll F H runs line)
      (From B F H (.builtin .diverge [runs] draw [] line)) := by
  have hruns : From B F H (.builtin .diverge [runs] draw [] line) runs :=
    from_operand List.mem_cons_self
  apply from_withRuns rfl
  intro items hvalue
  have hitems := itemsOf_of_value hvalue
  have hsize : (BuiltinName.differences H [runs]).length * listBytesPerElem ∈
      BuiltinName.unchargedSizes F H .diverge [runs] [] := List.mem_cons_self
  cases items with
  | nil =>
      apply from_list (by simpa using hruns) (List.forall_mem_nil _)
      intro _ cap _
      exact Nat.zero_le _
  | cons first rest =>
      have hdifferences : BuiltinName.differences H [runs] = rest.flatMap fun run ↦
          BuiltinName.divergences H (historyRoot first) (historyRoot run) := by
        simp only [BuiltinName.differences, hitems]
      have hroot : ∀ run ∈ first :: rest,
          From B F H (.builtin .diverge [runs] draw [] line) (historyRoot run) :=
        fun run hrun ↦ (hruns.of_mem_items hvalue hrun).root
      have hdiverged : ∀ d ∈ rest.flatMap fun run ↦
            BuiltinName.divergences H (historyRoot first) (historyRoot run),
          Diverged B F H (.builtin .diverge [runs] draw [] line) d := by
        intro d hd
        obtain ⟨run, hrun, hmem⟩ := List.mem_flatMap.mp hd
        apply diverged_of_mem (hroot first List.mem_cons_self)
          (hroot run (List.mem_cons_of_mem first hrun)) hmem
        · rwa [hdifferences]
        · exact fun n hn ↦ List.mem_append_right _ hn
      have hnumbers : ∀ k : ℕ, k < 1 + rest.length →
          (k : ℤ) ∈ BuiltinName.unchargedInts B F H .diverge [runs] := by
        intro k hk
        apply List.mem_append_left
        apply List.mem_map_of_mem (f := Int.ofNat)
        rw [hitems, List.mem_range, List.length_cons]
        omega
      refine Sends.bind (from_divergeRuns hdiverged hnumbers) fun found hfound ↦ ?_
      apply from_list (by simpa using hruns) hfound.2
      intro hfit
      rw [hfound.1, ← hdifferences]
      exact hfit _ hsize

theorem from_contrast {a b : Node} :
    Sends (Builtin.contrast H a b line)
      (From B F H (.builtin .contrast [a, b] draw [] line)) := by
  have ha : From B F H (.builtin .contrast [a, b] draw [] line) a :=
    from_operand List.mem_cons_self
  have hb : From B F H (.builtin .contrast [a, b] draw [] line) b :=
    from_operand (List.mem_cons_of_mem a List.mem_cons_self)
  apply from_text
  · simp [ha.root, hb.root]
  · exact fun hfit ↦ hfit _ List.mem_cons_self

theorem from_contrastAll {runs : Node} :
    Sends (Builtin.contrastAll F H runs line)
      (From B F H (.builtin .contrast [runs] draw [] line)) := by
  apply from_withRuns rfl
  intro items hvalue
  apply from_text (from_operands rfl)
  intro hfit
  apply hfit
  simp only [Operation.unchargedSizes, BuiltinName.unchargedSizes, BuiltinName.contrastText, hvalue]
  exact List.mem_cons_self

end

end NucLlm.Whence
