import NucLlm.Whence.MakesOperators

/-!
# What expressions and calls make

The nodes of expressions, of statements and of calls, each made from the values
of its parts.
-/

namespace NucLlm.Whence

section

variable {B : Budgets} {F : FloatOps} {H : Histories} {o : Operation} {v n : Node}
  {op detail reason : String} {line : ℕ} {inputs : List Node} {p : Payload}

theorem clean_operands {args : List Node} (h : o.operands = args)
    (hnone : ∀ a ∈ args, a.isMiss = false) : Clean B F H o args := by
  subst h
  exact ⟨fun i hi ↦ from_operand hi, hnone, hnone⟩

theorem clean_operand (h : o.operands = [v]) (hnone : v.isMiss = false) : Clean B F H o [v] :=
  clean_operands h (by simpa using hnone)

/-! ## Expressions -/

theorem from_missLit (h : o.operands = [v])
    (hlose : (v.op = "name" && isOriginMiss v) = true → o.losesReasons B = true) :
    Sends (missLit F v line) (From B F H o) := by
  unfold missLit
  cases hvalue : v.value with
  | miss reasons =>
      dsimp only
      split
      · rename_i hname
        exact from_losing h fun _ ↦ hlose hname
      · exact from_mergeMiss (from_operands h) ⟨v, by simp, isMiss_of_value hvalue⟩
  | str s => exact (clean_operand h (isMiss_of_value hvalue)).makeMiss
  | _ =>
      have hnone : v.isMiss = false := isMiss_of_value hvalue
      apply from_refusal
      · simp
      · simp
      · simpa [h] using hnone

theorem from_logicLeft {isAnd : Bool} {m : Making Node} (h : o.operands = [v])
    (hm : logicLeft F isAnd v line = some m) : Sends m (From B F H o) := by
  unfold logicLeft at hm
  cases hvalue : v.value with
  | miss reasons =>
      rw [hvalue] at hm
      obtain rfl := Option.some.inj hm
      exact from_mergeMiss (from_operands h) ⟨v, by simp, isMiss_of_value hvalue⟩
  | bool b =>
      rw [hvalue] at hm
      dsimp only at hm
      split at hm
      · contradiction
      · obtain rfl := Option.some.inj hm
        exact from_bool (from_operands h)
  | _ =>
      rw [hvalue] at hm
      obtain rfl := Option.some.inj hm
      exact (clean_operand h (isMiss_of_value hvalue)).makeMiss

theorem from_logicRight {isAnd : Bool} {l r : Node} (h : o.operands = [l, r])
    (hl : l.isMiss = false) : Sends (logicRight F isAnd l r line) (From B F H o) := by
  have hfrom := from_operands (B := B) (F := F) (H := H) h
  have hinputs : ∀ i ∈ [r, l], From B F H o i := by
    intro i hi
    exact hfrom i (by simpa [or_comm] using hi)
  have hclean : r.isMiss = false → Clean B F H o [r, l] := by
    intro hr
    exact ⟨hinputs, by simp [hl, hr], by simp [h, hl, hr]⟩
  unfold logicRight
  cases hvalue : r.value with
  | miss reasons => exact from_mergeMiss hinputs ⟨r, by simp, isMiss_of_value hvalue⟩
  | bool b => exact from_bool hfrom
  | _ => exact (hclean (isMiss_of_value hvalue)).makeMiss

theorem from_ifBad {m : Making Node} (h : o.operands = [v]) (hm : ifBad F v line = some m) :
    Sends m (From B F H o) := by
  unfold ifBad at hm
  cases hvalue : v.value with
  | miss reasons =>
      rw [hvalue] at hm
      obtain rfl := Option.some.inj hm
      exact from_mergeMiss (from_operands h) ⟨v, by simp, isMiss_of_value hvalue⟩
  | bool b =>
      rw [hvalue] at hm
      contradiction
  | _ =>
      rw [hvalue] at hm
      obtain rfl := Option.some.inj hm
      exact (clean_operand h (isMiss_of_value hvalue)).makeMiss

theorem from_whyNode (h : o.operands = [v]) : Sends (whyNode v line) (From B F H o) := by
  apply from_value rfl rfl (List.forall_mem_nil _)
  · intro m hm
    obtain rfl := List.mem_singleton.mp hm
    exact from_operands h m (List.mem_singleton_self m)
  · exact fun _ ↦ List.forall_mem_nil _
  · simp [Payload.size?]

theorem from_snip (h : o.operands = [v]) : Sends (snip v line) (From B F H o) := by
  have hv : v ∈ o.operands := by simp [h]
  intro t
  apply from_node (List.forall_mem_nil _)
  · exact fun m hm ↦ (from_operand hv).part hm
  · exact .cutsOff hv rfl rfl rfl

theorem from_rescue {l r : Node} (h : o.operands = [l, r]) :
    Sends (rescue l r line) (From B F H o) := by
  have hfrom := from_operands (B := B) (F := F) (H := H) h
  unfold rescue
  split
  · apply from_passing (by simp [handOn])
    · intro i hi
      exact hfrom i (by simpa [or_comm] using hi)
    · simp
  · exact sends_pure (hfrom l (by simp))

theorem from_listNode {items : List Node} : Sends (listNode items line)
    (From B F H (.listLit items line)) := by
  intro t
  apply from_node (from_operands rfl) (from_operands rfl)
  apply Makes.computes rfl (operates_of_certain rfl)
  · exact fun _ ↦ List.forall_mem_nil _
  · exact fun _ _ _ ↦ .inr ⟨rfl, rfl, rfl⟩

theorem mem_dictSet {key : String} {fields : List (String × Node)} {m : Node}
    (h : m ∈ (dictSet key v fields).map Prod.snd) : m = v ∨ m ∈ fields.map Prod.snd := by
  induction fields with
  | nil => exact .inl (by simpa [dictSet] using h)
  | cons f fields ih =>
      rw [dictSet] at h
      split at h
      · rcases List.mem_cons.mp h with h | h
        · exact .inl h
        · exact .inr (List.mem_cons_of_mem _ h)
      · rcases List.mem_cons.mp h with h | h
        · exact .inr (h ▸ List.mem_cons_self)
        · exact (ih h).imp_right (List.mem_cons_of_mem _)

theorem from_recordNode {pairs : List (String × Node)} (h : o.operands = pairs.map Prod.snd) :
    Sends (recordNode pairs line) (From B F H o) := by
  have hfields : ∀ m ∈ (literalFields pairs).map Prod.snd, From B F H o m := by
    intro m hm
    apply from_operands h
    exact (mem_foldl_fields dictSet (fun _ _ _ _ ↦ mem_dictSet) hm).resolve_left List.not_mem_nil
  exact from_record hfields fun m hm ↦ hfields m (Fields.mem_ofDict hm)

theorem mem_of_elementAt {α : Type} {elements : List α} {i : ℤ} {a : α}
    (h : elementAt elements i = some a) : a ∈ elements := by
  unfold elementAt at h
  split at h
  · contradiction
  · exact List.mem_of_getElem? h

theorem from_index {obj idx : Node} (h : o.operands = [obj, idx])
    (hsize : o.SizesFit B F H → obj.value.isText = true → B.Within 1) :
    Sends (index F obj idx line) (From B F H o) := by
  have hfrom := from_operands (B := B) (F := F) (H := H) h
  unfold index
  dsimp only
  split
  · rename_i hmiss
    apply from_mergeMiss hfrom
    simpa using hmiss
  · rename_i hmiss
    have hclean : Clean B F H o [obj, idx] := clean_operands h (by simpa using hmiss)
    cases hvalue : obj.value with
    | list items =>
        dsimp only
        cases Builtin.integer? idx.value with
        | none => exact hclean.makeMiss
        | some i =>
            dsimp only
            cases helement : elementAt items i with
            | none => exact hclean.makeMiss
            | some v =>
                apply sends_pure
                apply (hfrom obj (by simp)).part
                rw [hvalue]
                exact mem_of_elementAt helement
    | str s =>
        dsimp only
        cases Builtin.integer? idx.value with
        | none => exact hclean.makeMiss
        | some i =>
            dsimp only
            cases elementAt s.toList i with
            | none => exact hclean.makeMiss
            | some c =>
                apply from_text hfrom
                intro hfit
                rw [String.length_singleton]
                exact hsize hfit (by rw [hvalue]; rfl)
    | _ => exact hclean.makeMiss

theorem Fields.mem_of_get? {fields : List (String × Node)} {key : String}
    (h : Fields.get? fields key = some v) : v ∈ fields.map Prod.snd := by
  obtain ⟨f, hf, rfl⟩ := Option.map_eq_some_iff.mp h
  exact List.mem_map_of_mem (List.mem_of_find?_eq_some hf)

/-- The field of a record that is from the operands. -/
theorem from_field {name : String} (hv : From B F H o v)
    (hoperands : v.isMiss = false → ∀ m ∈ o.operands, m.isMiss = false) :
    Sends (field F v name line) (From B F H o) := by
  have hinputs : ∀ i ∈ [v], From B F H o i := by simpa using hv
  have hclean : v.isMiss = false → Clean B F H o [v] := by
    intro hnone
    exact ⟨hinputs, by simpa using hnone, hoperands hnone⟩
  unfold field
  cases hvalue : v.value with
  | miss reasons => exact from_mergeMiss hinputs ⟨v, by simp, isMiss_of_value hvalue⟩
  | record fields =>
      dsimp only
      cases hget : Fields.get? fields name with
      | none => exact (hclean (isMiss_of_value hvalue)).makeMiss
      | some w =>
          apply sends_pure
          apply hv.part
          rw [hvalue]
          exact Fields.mem_of_get? hget
  | _ => exact (hclean (isMiss_of_value hvalue)).makeMiss

/-! ## Names, contracts and calls -/

theorem from_constant {term : ℕ} (hp : p.isLiteral = true)
    (hwrites : o.Writes (constant term line p))
    (hints : ∀ n, p = .num (.int n) → n ∈ o.unchargedInts B F H) :
    From B F H o (constant term line p) := by
  apply from_node (List.forall_mem_nil _)
  · cases p <;> first | contradiction | exact List.forall_mem_nil _
  · apply Makes.computes
    · cases p <;> first | contradiction | rfl
    · apply operates_of_certain
      cases p <;> first | contradiction | rfl
    · intro hcharged x hx
      cases p with
      | num y =>
          obtain rfl := List.mem_singleton.mp hx
          cases x with
          | int n => exact hcharged.ints n (hints n rfl)
          | float x => trivial
      | _ => contradiction
    · exact fun _ _ _ ↦ .inr hwrites

theorem from_builtinNode (b : BuiltinName) : From B F H o (builtinNode b) := by
  apply from_node (List.forall_mem_nil _) (List.forall_mem_nil _)
  apply Makes.computes rfl (operates_of_certain rfl)
  · exact fun _ ↦ List.forall_mem_nil _
  · simp [Node.value, Payload.size?]

theorem from_unbound {name : String} (h : o.operands = []) :
    Sends (unbound name line) (From B F H o) := by
  apply from_refusal
  · exact List.forall_mem_nil _
  · simp
  · simp [h]

theorem from_closureNode {name : String} {c : Closure} :
    Sends (closureNode name c line) (From B F H o) := by
  apply from_value rfl rfl (List.forall_mem_nil _)
  · simp [Payload.parts]
  · simp [Payload.numbers]
  · simp [Payload.size?]

theorem gets_checkType {spec : Payload} {label : String} (h : Clean B F H o [v]) :
    Gets (checkType v spec label line) (From B F H o) := by
  refine Gets.after fun verdict ↦ ?_
  obtain ⟨ok, expected⟩ := verdict
  cases ok with
  | true => exact gets_pure (h.inputs_from v (List.mem_singleton_self v))
  | false => exact Gets.after fun reason ↦ gets_made h.makeMissIn

theorem gets_checkContract {spec : Option Spec} {label : String} (h : o.operands = [v]) :
    Gets (checkContract F v spec label line) (From B F H o) := by
  have hv : From B F H o v := from_operands h v (List.mem_singleton_self v)
  cases spec with
  | none => exact gets_pure hv
  | some spec =>
      unfold checkContract
      dsimp only
      split
      · exact gets_pure hv
      · rename_i hmiss
        have hclean : Clean B F H o [v] := clean_operand h (by simpa using hmiss)
        cases spec with
        | unbound name => exact gets_made hclean.makeMissIn
        | known spec =>
            dsimp only
            split
            · exact gets_checkType hclean
            · exact gets_made hclean.makeMissIn

theorem from_refuse {r : Refusal} {fn : Node} {name expected : String} {depth : ℕ}
    {args : List Node} (hmiss : fn.isMiss = r.ofMiss) :
    Sends (refuse F r fn name expected depth args line)
      (From B F H (.refuse r fn name expected depth args line hmiss)) := by
  cases r with
  | missCallee => exact from_mergeMiss (from_operands rfl) ⟨fn, List.mem_cons_self, hmiss⟩
  | notCallable => exact (clean_operand rfl hmiss).makeMiss
  | _ =>
      apply from_refusal
      · exact fun i hi ↦ from_operand (List.mem_cons_of_mem fn hi)
      · rintro ⟨i, hi, hlost⟩
        exact List.any_eq_true.mpr ⟨i, hi, hlost⟩
      · intro hnone m hm
        rcases List.mem_cons.mp hm with rfl | hm
        · exact hmiss
        · exact hnone m hm

theorem from_ifRunNodes {result : Node} (hresult : result ∈ o.operands) {runs : List IfRun}
    (hconds : ∀ run ∈ runs, ∀ c ∈ run.conds, c ∈ o.operands)
    (hmerges : result.isMiss = true → runs ≠ [] → o.mergesMiss = true) :
    Sends (ifRunNodes result.value runs) fun ifs ↦ ∀ i ∈ ifs, From B F H o i := by
  induction runs with
  | nil => exact sends_pure (List.forall_mem_nil _)
  | cons run runs ih =>
      have hnode : Sends (derivedTimes "if" (branchText run.branch) run.line run.conds
          run.conds.length result.value) (From B F H o) := by
        apply sends_derivedTimes
        intro id
        apply from_node
        · exact fun i hi ↦ from_operand (hconds run List.mem_cons_self i hi)
        · exact fun m hm ↦ (from_operand hresult).part hm
        · have hnone : ∀ i ∈ run.conds, i.isMiss = false :=
            fun i hi ↦ isMiss_of_value (run.decided i hi)
          exact .merges hresult rfl rfl (fun hmiss ↦ hmerges hmiss (List.cons_ne_nil _ _)) hnone
      refine Sends.bind hnode fun v hv ↦ ?_
      have hrest : Sends (ifRunNodes result.value runs) fun ifs ↦ ∀ i ∈ ifs, From B F H o i := by
        apply ih
        · exact fun r hr ↦ hconds r (List.mem_cons_of_mem run hr)
        · exact fun hmiss _ ↦ hmerges hmiss (List.cons_ne_nil _ _)
      refine Sends.bind hrest fun vs hvs ↦ ?_
      apply sends_pure
      simpa using ⟨hv, hvs⟩

theorem from_finishCall {names : List String} {result : Node} {runs : List IfRun} {merged : ℕ} :
    Sends (finishCall names result runs merged line)
      (From B F H (.finishCall names result runs merged line)) := by
  have hresult : result ∈ (Operation.finishCall names result runs merged line).operands :=
    List.mem_cons_self
  unfold finishCall
  split
  · apply from_passing (by simp [handOn])
    · simpa using from_operand hresult
    · exact List.mem_singleton_self result
  · rename_i hmerged
    have hifs : Sends (ifRunNodes result.value runs) fun ifs ↦
        ∀ i ∈ ifs, From B F H (.finishCall names result runs merged line) i := by
      apply from_ifRunNodes hresult
      · intro run hrun c hc
        exact List.mem_cons_of_mem result (List.mem_flatMap.mpr ⟨run, hrun, hc⟩)
      · intro hmiss hruns
        simp [Operation.mergesMiss, hmiss, hmerged, hruns]
    refine Sends.bind hifs fun ifs hifs ↦ ?_
    apply sends_derivedTimes
    intro id
    apply from_node
    · intro i hi
      rcases List.mem_cons.mp hi with rfl | hi
      · exact from_operand hresult
      · exact hifs i hi
    · exact fun m hm ↦ (from_operand hresult).part hm
    · exact .passes List.mem_cons_self rfl (by simp [handOn, Node.op])

end

end NucLlm.Whence
