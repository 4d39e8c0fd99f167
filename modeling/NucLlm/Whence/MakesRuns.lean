import NucLlm.Whence.MakesHistories

/-!
# What runs make

Every operation of a run makes nodes from its operands, so what holds of the
nodes that operations make from such nodes holds of every value of a run.
-/

namespace NucLlm.Whence

section

variable {B : Budgets} {F : FloatOps} {H : Histories} {b : BuiltinName} {line : ℕ}
  {args : List Node} {draw : Float64} {fn xs : Node}

/-! ## Builtins that call their arguments -/

/-- What a builtin with these arguments gives is made from them and from what its calls return. -/
abbrev AnswersFrom (B : Budgets) (F : FloatOps) (H : Histories) (b : BuiltinName)
    (args : List Node) (draw : Float64) (line : ℕ) (calls : List Node) (g : Asking) : Prop :=
  Answers g fun rest v ↦ From B F H (.builtin b args draw (calls ++ rest) line) v

theorem answersFrom_making {calls : List Node} {m : Making Node}
    (h : Sends m (From B F H (.builtin b args draw calls line))) :
    AnswersFrom B F H b args draw line calls (Asking.making m) := by
  apply answers_making
  rwa [List.append_nil]

theorem answersFrom_ask {calls : List Node} {fn : Node} {asked : List Node} {resume : Node → Asking}
    (h : ∀ v, AnswersFrom B F H b args draw line (calls ++ [v]) (resume v)) :
    AnswersFrom B F H b args draw line calls (Asking.ask fn asked line resume) := by
  apply answers_ask
  intro v
  have hv := h v
  simpa only [AnswersFrom, List.append_assoc, List.singleton_append] using hv

theorem answersFrom_withList {name : String} {sig : Sig} {rest : List Node → Asking}
    (hrest : (∀ a ∈ args, a.isMiss = false) → ∀ items, xs.value = .list items →
      AnswersFrom B F H b args draw line [] (rest items)) :
    AnswersFrom B F H b args draw line []
      (Builtin.withList F name sig fn xs args line rest) := by
  have hoperands : (Operation.builtin b args draw [] line).operands = args := List.append_nil args
  unfold Builtin.withList Builtin.propagating
  dsimp only
  split
  · rename_i hmiss
    apply answersFrom_making
    exact from_mergeMiss (from_operands hoperands) (List.any_eq_true.mp hmiss)
  · rename_i hmiss
    have hnone := none_of_any hmiss
    have hclean : Clean B F H (.builtin b args draw [] line) args :=
      clean_operands hoperands hnone
    split
    · rename_i items hvalue
      split
      · exact hrest hnone items hvalue
      · exact answersFrom_making hclean.makeMiss
    · exact answersFrom_making hclean.makeMiss

theorem from_arg {calls : List Node} {a : Node} (h : a ∈ args) :
    From B F H (.builtin b args draw calls line) a :=
  from_operand (List.mem_append_left calls h)

theorem from_call {calls : List Node} {c : Node} (h : c ∈ calls) :
    From B F H (.builtin b args draw calls line) c :=
  from_operand (List.mem_append_right args h)

theorem answersFrom_mapLoop {calls items whole : List Node} (hxs : xs.value = .list whole)
    (hcount : calls.length + items.length = whole.length) :
    AnswersFrom B F H .map [fn, xs] draw line calls (Builtin.mapLoop fn xs line items calls) := by
  induction items generalizing calls with
  | nil =>
      apply answersFrom_making
      apply from_list
      · simpa using from_arg (by simp)
      · exact fun i hi ↦ from_call hi
      · intro hfit
        have hlength : calls.length = whole.length := hcount
        apply hfit
        simp [Operation.unchargedSizes, BuiltinName.unchargedSizes, BuiltinName.sizes, hxs, hlength]
  | cons x items ih =>
      apply answersFrom_ask
      intro v
      apply ih
      rw [← hcount]
      simp only [List.length_append, List.length_cons, List.length_nil]
      omega

theorem answersFrom_foldLoop {calls items : List Node} {first acc : Node} {count : ℕ}
    (hacc : acc ∈ [fn, first, xs] ++ calls) :
    AnswersFrom B F H .fold [fn, first, xs] draw line calls
      (Builtin.foldLoop fn xs count line items acc) := by
  induction items generalizing calls acc with
  | nil =>
      apply answersFrom_making
      apply from_passing (by simp [handOn])
      · intro i hi
        rcases List.mem_pair.mp hi with rfl | rfl
        · exact from_operand hacc
        · exact from_arg (by simp)
      · exact List.mem_cons_self
  | cons x items ih =>
      apply answersFrom_ask
      intro v
      apply ih
      simp

theorem isMiss_of_isBool {v : Node} (h : v.value.isBool = true) : v.isMiss = false := by
  unfold Node.isMiss
  cases hvalue : v.value with
  | bool bool => rfl
  | _ => simp [hvalue, Payload.isBool] at h

/-- A predicate's answer is passed on, refused or looked at; the calls before it gave
truth values. -/
theorem answersFrom_tested {name : String} {calls : List Node} {keep : Node}
    {rest : Bool → Asking} (hxs : xs ∈ args) (hargs : ∀ a ∈ args, a.isMiss = false)
    (hcalls : ∀ c ∈ calls, c.value.isBool = true)
    (hrest : ∀ bool, keep.value = .bool bool →
      AnswersFrom B F H b args draw line (calls ++ [keep]) (rest bool)) :
    AnswersFrom B F H b args draw line (calls ++ [keep])
      (Builtin.tested F name keep xs line rest) := by
  have hinputs : ∀ i ∈ [keep, xs], From B F H (.builtin b args draw (calls ++ [keep]) line) i := by
    intro i hi
    rcases List.mem_pair.mp hi with rfl | rfl
    · exact from_call (by simp)
    · exact from_arg hxs
  unfold Builtin.tested
  cases hvalue : keep.value with
  | miss reasons =>
      apply answersFrom_making
      exact from_mergeMiss hinputs ⟨keep, List.mem_cons_self, isMiss_of_value hvalue⟩
  | bool bool => exact hrest bool hvalue
  | _ =>
      have hkeep : keep.isMiss = false := isMiss_of_value hvalue
      have hclean : Clean B F H (.builtin b args draw (calls ++ [keep]) line) [keep, xs] := by
        refine ⟨hinputs, by simp [hkeep, hargs xs hxs], ?_⟩
        intro m hm
        rcases List.mem_append.mp hm with hm | hm
        · exact hargs m hm
        · rcases List.mem_append.mp hm with hm | hm
          · exact isMiss_of_isBool (hcalls m hm)
          · obtain rfl := List.mem_singleton.mp hm
            exact hkeep
      exact answersFrom_making hclean.makeMiss

/-- The calls made so far gave truth values. -/
theorem isBool_concat {calls : List Node} {keep : Node} {bool : Bool}
    (hcalls : ∀ c ∈ calls, c.value.isBool = true) (hkeep : keep.value = .bool bool) :
    ∀ c ∈ calls ++ [keep], c.value.isBool = true := by
  intro c hc
  rcases List.mem_append.mp hc with hc | hc
  · exact hcalls c hc
  · obtain rfl := List.mem_singleton.mp hc
    rw [hkeep]
    rfl

theorem answersFrom_filterLoop {calls items out : List Node}
    (hargs : ∀ a ∈ [fn, xs], a.isMiss = false) (hcalls : ∀ c ∈ calls, c.value.isBool = true)
    (hitems : ∀ x ∈ items, x ∈ xs.value.parts) (hout : ∀ x ∈ out, x ∈ xs.value.parts)
    (hcount : out.length = calls.countP fun keep ↦ keep.value.isTrue) :
    AnswersFrom B F H .filter [fn, xs] draw line calls
      (Builtin.filterLoop F fn xs line items out) := by
  induction items generalizing calls out with
  | nil =>
      have hxs : From B F H (.builtin .filter [fn, xs] draw calls line) xs := from_arg (by simp)
      apply answersFrom_making
      apply from_list
      · simpa using hxs
      · exact fun i hi ↦ hxs.part (hout i hi)
      · intro hfit
        have hkept : BuiltinName.kept calls = out.length := by
          rw [BuiltinName.kept, if_pos (List.all_eq_true.mpr hcalls), hcount]
        rw [← hkept]
        exact hfit _ List.mem_cons_self
  | cons x items ih =>
      apply answersFrom_ask
      intro keep
      apply answersFrom_tested (by simp) hargs hcalls
      intro bool hkeep
      apply ih (isBool_concat hcalls hkeep)
      · exact fun y hy ↦ hitems y (List.mem_cons_of_mem x hy)
      · cases bool with
        | true =>
            intro y hy
            rcases List.mem_append.mp hy with hy | hy
            · exact hout y hy
            · obtain rfl := List.mem_singleton.mp hy
              exact hitems y List.mem_cons_self
        | false => exact hout
      · cases bool with
        | true => simp [hcount, hkeep, Payload.isTrue]
        | false => simp [hcount, hkeep, Payload.isTrue]

theorem answersFrom_findLoop {calls items : List Node}
    (hargs : ∀ a ∈ [fn, xs], a.isMiss = false) (hcalls : ∀ c ∈ calls, c.value.isBool = true)
    (hitems : ∀ x ∈ items, x ∈ xs.value.parts) :
    AnswersFrom B F H .find [fn, xs] draw line calls (Builtin.findLoop F fn xs line items) := by
  induction items generalizing calls with
  | nil =>
      have hclean : Clean B F H (.builtin .find [fn, xs] draw calls line) [fn, xs] := by
        refine ⟨fun i hi ↦ from_arg hi, hargs, ?_⟩
        intro m hm
        rcases List.mem_append.mp hm with hm | hm
        · exact hargs m hm
        · exact isMiss_of_isBool (hcalls m hm)
      exact answersFrom_making hclean.makeMiss
  | cons x items ih =>
      apply answersFrom_ask
      intro keep
      apply answersFrom_tested (by simp) hargs hcalls
      intro bool hkeep
      split
      · apply answersFrom_making
        apply sends_pure
        have hxs : From B F H (.builtin .find [fn, xs] draw (calls ++ [keep]) line) xs :=
          from_arg (by simp)
        exact hxs.part (hitems x List.mem_cons_self)
      · apply ih (isBool_concat hcalls hkeep)
        exact fun y hy ↦ hitems y (List.mem_cons_of_mem x hy)

theorem parts_of_list {v : Node} {items : List Node} (h : v.value = .list items) :
    ∀ x ∈ items, x ∈ v.value.parts := by
  rw [h]
  exact fun x hx ↦ hx

/-! ## Every operation -/

theorem answersFrom_apply :
    AnswersFrom B F H b args draw line [] (b.apply B F H draw line args) := by
  unfold BuiltinName.apply
  split
  · exact answers_making (sends_pure (from_arg List.mem_cons_self))
  · exact answers_making (from_float (List.forall_mem_nil _))
  · exact answers_making from_len
  · exact answers_making from_range
  · exact answersFrom_withList fun _ items hitems ↦ answersFrom_mapLoop hitems (Nat.zero_add _)
  · refine answersFrom_withList fun hargs items hitems ↦ ?_
    exact answersFrom_filterLoop hargs (List.forall_mem_nil _) (parts_of_list hitems)
      (List.forall_mem_nil _) rfl
  · exact answersFrom_withList fun _ items _ ↦ answersFrom_foldLoop (by simp)
  · exact answers_making from_push
  · exact answers_making from_str
  · exact answers_making from_show
  · exact answers_finish gets_num
  · exact answers_making from_abs
  · exact answers_finish gets_sqrt
  · exact answers_making from_trunc
  · exact answers_making (from_bool (from_operands rfl))
  · exact answers_making from_reasons
  · exact answers_making from_note
  · exact answers_making from_contains
  · exact answers_making from_join
  · exact answers_making from_keys
  · exact answers_making from_merge
  · exact answers_making from_get
  · exact answers_making from_has
  · exact answers_making from_put
  · refine answersFrom_withList fun hargs items hitems ↦ ?_
    exact answersFrom_findLoop hargs (List.forall_mem_nil _) (parts_of_list hitems)
  · exact answers_finish gets_typed
  · exact answers_finish gets_matches
  · exact answers_making from_shapeof
  · exact answers_making from_guessBuiltin
  · exact answers_making (from_bool (from_operands rfl))
  · exact answers_making from_confidence
  · exact answers_making from_sure
  · exact answers_making from_steps
  · exact answers_making from_stepsMatching
  · exact answers_making from_at
  · exact answers_making from_blame
  · exact answers_making from_divergeAll
  · exact answers_making from_diverge
  · exact answers_making from_contrastAll
  · exact answers_making from_contrast
  · exact answers_finish gets_raise

theorem gets_optional {P : Node → Prop} {m? : Option (Making Node)}
    (h : ∀ m, m? = some m → Sends m P) :
    Gets ((m?.map Hosting.made).getD Hosting.raise) P := by
  cases m? with
  | none => exact gets_raise
  | some m => exact gets_made (h m rfl)

/-- What an operation gives is made from its operands. -/
theorem gets_perform (o : Operation) : Gets (o.perform B F H) (From B F H o) := by
  cases o with
  | literal term line p h =>
      apply gets_pure
      have hwrites : (Operation.literal term line p h).Writes (constant term line p) := rfl
      apply from_constant h hwrites
      rintro n rfl
      exact List.mem_singleton_self n
  | builtinName b => exact gets_pure (from_builtinNode b)
  | unbound name line => exact gets_made (from_unbound rfl)
  | closure name c line => exact gets_made from_closureNode
  | listLit items line => exact gets_made from_listNode
  | recordLit pairs line => exact gets_made (from_recordNode rfl)
  | missLit reason line => exact gets_made (from_missLit rfl fun h ↦ h)
  | unary op v line =>
      have hv := from_operand (B := B) (F := F) (H := H) (o := .unary op v line) List.mem_cons_self
      exact gets_made (from_unary op hv (by simp [Operation.operands]))
  | why v line => exact gets_made (from_whyNode rfl)
  | snip v line => exact gets_made (from_snip rfl)
  | binary op l r line =>
      apply gets_made
      apply from_binop
      · exact from_operand List.mem_cons_self
      · exact from_operand (List.mem_cons_of_mem l List.mem_cons_self)
      · intro hl hr
        simp [Operation.operands, hl, hr]
  | compiledBinary op l r line =>
      apply gets_made
      apply from_compiledBinop
      · exact from_operand List.mem_cons_self
      · exact from_operand (List.mem_cons_of_mem l List.mem_cons_self)
      · intro hl hr
        simp [Operation.operands, hl, hr]
  | logicLeft isAnd l line => exact gets_optional fun m hm ↦ from_logicLeft rfl hm
  | logicRight isAnd l r line h => exact gets_made (from_logicRight rfl h)
  | rescue l r line => exact gets_made (from_rescue rfl)
  | index obj idx line =>
      apply gets_made
      apply from_index rfl
      intro hfit htext
      apply hfit
      simp [Operation.unchargedSizes, htext]
  | field obj name line =>
      apply gets_made
      apply from_field (from_operand List.mem_cons_self)
      intro hnone
      simp [Operation.operands, hnone]
  | ifBad cond line => exact gets_optional fun m hm ↦ from_ifBad rfl hm
  | ifTaken taken v =>
      exact gets_made (from_passing (by simp [handOn]) (from_operands rfl) List.mem_cons_self)
  | letName name v line =>
      exact gets_made (from_passing (by simp [handOn]) (from_operands rfl) List.mem_cons_self)
  | arg name v line =>
      exact gets_made (from_passing (by simp [handOn]) (from_operands rfl) List.mem_cons_self)
  | contract v spec label line => exact gets_checkContract rfl
  | refuse r fn name expected depth args line h => exact gets_made (from_refuse h)
  | finishCall names result runs merged line => exact gets_made from_finishCall
  | builtin b args draw calls line =>
      intro t v t' h
      exact answersFrom_apply t calls v t' h

/-! ## Runs -/

/-- What holds of a node that a step makes, where it holds of everything below its operands and of
what the node is made from, holds of every value of a run of such steps. -/
theorem Runs.reachable {P : Node → Prop} {Q : Entry → Prop} {run : List Entry} {t : Tally}
    (hmakes : ∀ e n, Q e → e.result.Below n →
      (∀ m ∈ e.operation.operands, ∀ k, m.Below k → P k) → (∀ m ∈ n.links, P m) →
      Makes B F H e.operation n → P n)
    (h : Runs B F H run t) (hrun : ∀ e ∈ run, Q e) : ∀ v, Reachable run v → P v := by
  induction h with
  | start t =>
      rintro v ⟨e, he, _⟩
      exact absurd he List.not_mem_nil
  | @step run t t' o v h hoperands hperform ih =>
      have hold := ih fun e he ↦ hrun e (List.mem_append_left _ he)
      have hknown : ∀ m ∈ o.operands, ∀ k, m.Below k → P k := by
        intro m hm k hk
        obtain ⟨e, he, hbelow⟩ := hoperands m hm
        exact hold k ⟨e, he, hbelow.trans hk⟩
      have hstep : Q ⟨o, v⟩ := hrun ⟨o, v⟩ (List.mem_append_right _ (List.mem_singleton_self _))
      have hfrom : ∀ n, From B F H o n → v.Below n → P n := by
        intro n hn
        induction hn with
        | old hm hbelow => exact fun _ ↦ hknown _ hm _ hbelow
        | new hlinks hmade ih =>
            intro hbelow
            exact hmakes ⟨o, v⟩ _ hstep hbelow hknown (fun m hm ↦ ih m hm (hbelow.tail hm)) hmade
      rintro w ⟨e, he, hbelow⟩
      rcases List.mem_append.mp he with he | he
      · exact hold w ⟨e, he, hbelow⟩
      · obtain rfl := List.mem_singleton.mp he
        exact hfrom w ((gets_perform o t v t' hperform).descend hbelow) hbelow

end

end NucLlm.Whence
