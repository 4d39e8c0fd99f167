import NucLlm.Whence.MakesNodes

/-!
# What builtins make

Most builtins propagate the misses among their arguments before they look at
them.  Those that do not may refuse their arguments with a miss among them.
-/

namespace NucLlm.Whence

section

variable {B : Budgets} {F : FloatOps} {H : Histories} {o : Operation} {v n : Node}
  {op detail reason name : String} {line : ℕ} {inputs args : List Node} {p : Payload}
  {draw : Float64}

theorem from_propagate {rest : Making Node} (h : o.operands = args)
    (hrest : Clean B F H o args → Sends rest (From B F H o)) :
    Sends (Builtin.propagate name args line rest) (From B F H o) := by
  unfold Builtin.propagate
  split
  · rename_i hmiss
    exact from_mergeMiss (from_operands h) (List.any_eq_true.mp hmiss)
  · rename_i hmiss
    exact hrest (clean_operands h (none_of_any hmiss))

theorem From.of_mem_items {xs x : Node} {items : List Node} (h : From B F H o xs)
    (hvalue : xs.value = .list items) (hx : x ∈ items) : From B F H o x := by
  apply h.part
  rw [hvalue]
  exact hx

/-- A list of texts that are not charged. -/
theorem from_texts {texts : List String} (hinputs : ∀ i ∈ inputs, From B F H o i)
    (hsizes : ∀ size ∈ BuiltinName.sizes texts.length texts, size ∈ o.unchargedSizes F H)
    {lop lname : String} {text : String → String} :
    Sends (do
      let items ← leaves name line text Payload.str texts
      derived lop lname line inputs (.list items)) (From B F H o) := by
  have hleaves : ∀ s ∈ texts, Sends (leaf name (text s) line (.str s)) (From B F H o) := by
    intro s hs
    apply from_text (List.forall_mem_nil _)
    intro hfit
    exact hfit _ (hsizes _ (List.mem_cons_of_mem _ (List.mem_map_of_mem hs)))
  refine Sends.bind (from_leaves hleaves) fun items hitems ↦ ?_
  apply from_list hinputs hitems.2
  intro hfit
  rw [hitems.1]
  exact hfit _ (hsizes _ List.mem_cons_self)

/-! ## Lists and texts -/

theorem from_len : Sends (Builtin.len F v line) (From B F H (.builtin .len [v] draw [] line)) := by
  apply from_propagate rfl
  intro hclean
  have hlength : ∀ k : ℕ, BuiltinName.length? v.value = some k →
      Sends (derived "len" "" line [v] (Builtin.natural k))
        (From B F H (.builtin .len [v] draw [] line)) := by
    intro k hk
    apply from_number hclean.inputs_from
    intro hcharged
    apply hcharged.ints
    simp [Operation.unchargedInts, BuiltinName.unchargedInts, hk]
  split
  · rename_i s hvalue
    exact hlength _ (by rw [hvalue]; rfl)
  · rename_i items hvalue
    exact hlength _ (by rw [hvalue]; rfl)
  · rename_i fields hvalue
    exact hlength _ (by rw [hvalue]; rfl)
  · exact hclean.makeMiss

theorem integer_of {i : ℤ} (h : Builtin.integer? p = some i) : p = .num (.int i) := by
  unfold Builtin.integer? at h
  split at h
  · rw [Option.some.inj h]
  · contradiction

/-- The integers from one that fits to another that does. -/
theorem fits_between {lo hi i : ℤ} (hlo : B.Fits (.int lo)) (hhi : B.Fits (.int hi)) (hle : lo ≤ i)
    (hlt : i < hi) : B.Fits (.int i) := by
  rcases Int.le_total 0 i with hsign | hsign
  · exact hhi.of_natAbs_le (by omega)
  · exact hlo.of_natAbs_le (by omega)

theorem from_rangeFrom {lo hi : ℤ} (h : Clean B F H o args)
    (hlo : Charged B F H o → B.Fits (.int lo)) (hhi : Charged B F H o → B.Fits (.int hi)) :
    Sends (Builtin.rangeFrom B lo hi args line) (From B F H o) := by
  have hrest : ∀ tooBig : Bool,
      (tooBig = false → B.Within ((hi - lo).toNat * listBytesPerElem)) →
      Sends (if tooBig then
          makeMiss (sizeReason B "range" "elements" (hi - lo).toNat
            ((hi - lo).toNat * Builtin.rangeBytesPerElem)) line "range" args
        else do
          let items ← leaves "range" line showInteger (fun i ↦ .num (.int i))
            ((List.range (hi - lo).toNat).map fun i : ℕ ↦ lo + i)
          derived "range" s!"{showInteger lo}..{showInteger hi}" line args (.list items))
        (From B F H o) := by
    intro tooBig hfits
    cases tooBig with
    | true => exact h.makeMiss
    | false =>
        have hleaves : ∀ i ∈ (List.range (hi - lo).toNat).map fun k : ℕ ↦ lo + k,
            Sends (leaf "range" (showInteger i) line (.num (.int i))) (From B F H o) := by
          intro i hi'
          obtain ⟨k, hk, rfl⟩ := List.mem_map.mp hi'
          have hlt := List.mem_range.mp hk
          apply from_number (List.forall_mem_nil _)
          exact fun hcharged ↦ fits_between (hlo hcharged) (hhi hcharged) (by omega) (by omega)
        refine Sends.bind (from_leaves hleaves) fun items hitems ↦ ?_
        apply from_list h.inputs_from hitems.2
        intro _
        rw [hitems.1, List.length_map, List.length_range]
        exact hfits rfl
  unfold Builtin.rangeFrom
  dsimp only
  split
  · refine Sends.bind (sends_overValue _) fun tooBig hover ↦ hrest tooBig ?_
    rintro rfl cap hcap
    have hbytes : (hi - lo).toNat * listBytesPerElem ≤
        (hi - lo).toNat * Builtin.rangeBytesPerElem := Nat.mul_le_mul_left _ (by decide)
    exact hbytes.trans (le_of_not_over hover cap hcap)
  · rename_i hnone
    apply hrest false
    intro _ cap _
    simp [Nat.eq_zero_of_not_pos hnone]

theorem from_range :
    Sends (Builtin.range B F args line) (From B F H (.builtin .range args draw [] line)) := by
  have hoperands : (Operation.builtin .range args draw [] line).operands = args :=
    List.append_nil args
  apply from_propagate hoperands
  intro hclean
  split
  · exact hclean.makeMiss
  · have hfits : ∀ i ∈ args.filterMap fun a ↦ Builtin.integer? a.value,
        Charged B F H (.builtin .range args draw [] line) → B.Fits (.int i) := by
      intro i hi hcharged
      obtain ⟨a, ha, hvalue⟩ := List.mem_filterMap.mp hi
      exact (hclean.inputs_from a ha).number (integer_of hvalue) hcharged
    split
    · rename_i hi heq
      rw [heq] at hfits
      exact from_rangeFrom hclean (fun _ ↦ fits_zero) (hfits hi List.mem_cons_self)
    · rename_i lo hi rest heq
      rw [heq] at hfits
      exact from_rangeFrom hclean (hfits lo List.mem_cons_self)
        (hfits hi (List.mem_cons_of_mem lo List.mem_cons_self))
    · exact from_rangeFrom hclean (fun _ ↦ fits_zero) fun _ ↦ fits_zero

theorem from_push {xs x : Node} :
    Sends (Builtin.push B F xs x line) (From B F H (.builtin .push [xs, x] draw [] line)) := by
  have hinputs : ∀ i ∈ [xs, x], From B F H (.builtin .push [xs, x] draw [] line) i :=
    from_operands rfl
  -- A refusal says it was made from both, and looks at the first only.
  have hlosing : ∀ reason, xs.isMiss = false →
      (x.isMiss = true → BuiltinName.losesReasons B .push [xs, x] = true) →
      Sends (makeMiss reason line "push" [xs, x])
        (From B F H (.builtin .push [xs, x] draw [] line)) := by
    intro reason hxs hlose
    apply from_losing rfl
    rintro ⟨a, ha, hmiss⟩
    rcases List.mem_pair.mp ha with rfl | rfl
    · rw [hxs] at hmiss
      contradiction
    · exact hlose hmiss
  unfold Builtin.push
  cases hvalue : xs.value with
  | miss reasons => exact from_mergeMiss hinputs ⟨xs, by simp, isMiss_of_value hvalue⟩
  | list items =>
      have hxs : xs.isMiss = false := isMiss_of_value hvalue
      refine Sends.bind (sends_overValue _) fun tooBig hfits ↦ ?_
      cases tooBig with
      | true =>
          apply hlosing _ hxs
          intro hx
          simp [BuiltinName.losesReasons, hx, hxs, hvalue, hfits]
      | false =>
          apply from_list hinputs
          · intro i hi
            rcases List.mem_append.mp hi with hi | hi
            · exact (hinputs xs (by simp)).of_mem_items hvalue hi
            · exact hinputs i (List.mem_cons_of_mem xs hi)
          · rw [List.length_append]
            exact fun _ ↦ le_of_not_over hfits
  | _ =>
      have hxs : xs.isMiss = false := isMiss_of_value hvalue
      apply hlosing _ hxs
      intro hx
      simp [BuiltinName.losesReasons, hx, hxs, hvalue]

theorem from_contains {hay needle : Node} :
    Sends (Builtin.contains F hay needle line)
      (From B F H (.builtin .contains [hay, needle] draw [] line)) := by
  apply from_propagate rfl
  intro hclean
  split
  · exact from_bool hclean.inputs_from
  · exact from_bool hclean.inputs_from
  · exact hclean.makeMiss

theorem length_intercalate (s : String) (parts : List String) :
    (s.intercalate parts).length = (parts.map String.length).sum +
      s.length * (parts.length - 1) := by
  induction parts with
  | nil => simp
  | cons t parts ih =>
      cases parts with
      | nil => simp
      | cons u parts =>
          rw [String.intercalate_cons_cons, String.length_append, String.length_append, ih]
          simp only [List.map_cons, List.sum_cons, List.length_cons, Nat.add_sub_cancel,
            Nat.mul_add, Nat.mul_one]
          omega

theorem from_joined {xs sep : Node} {items : List Node} {s : String} (h : Clean B F H o [xs, sep])
    (hvalue : xs.value = .list items) :
    Sends (Builtin.joined B F xs sep items s line) (From B F H o) := by
  have hxs : From B F H o xs := h.inputs_from xs (by simp)
  unfold Builtin.joined
  split
  · rename_i x hfound
    have hx : From B F H o x := hxs.of_mem_items hvalue (List.mem_of_find?_eq_some hfound)
    split
    · rename_i hmiss
      exact from_mergeMiss (by simp [hx, hxs]) ⟨x, by simp, hmiss⟩
    · rename_i hmiss
      have hclean : Clean B F H o [x, xs] := by
        have hnone : x.isMiss = false := by simpa using hmiss
        exact ⟨by simp [hx, hxs], by simp [hnone, h.inputs_none xs], h.operands_none⟩
      exact hclean.makeMiss
  · refine Sends.bind (sends_overValue _) fun tooBig hfits ↦ ?_
    cases tooBig with
    | true => exact h.makeMiss
    | false =>
        apply from_text h.inputs_from
        rw [length_intercalate]
        exact fun _ ↦ le_of_not_over hfits

theorem from_join {xs sep : Node} :
    Sends (Builtin.join B F xs sep line)
      (From B F H (.builtin .join [xs, sep] draw [] line)) := by
  apply from_propagate rfl
  intro hclean
  split
  · rename_i items s hitems hsep
    exact from_joined hclean hitems
  · exact hclean.makeMiss

theorem from_str :
    Sends (Builtin.str F H v line) (From B F H (.builtin .str [v] draw [] line)) := by
  apply from_text (from_operands rfl)
  exact fun hfit ↦ hfit _ (List.mem_singleton_self _)

theorem from_show :
    Sends (Builtin.show_ F v line) (From B F H (.builtin .show_ [v] draw [] line)) := by
  apply from_text (from_operands rfl)
  exact fun hfit ↦ hfit _ (List.mem_singleton_self _)

/-! ## Numbers -/

theorem gets_ofOption {α : Type} {a? : Option α} :
    Gets (Hosting.ofOption a?) fun a ↦ a? = some a := by
  cases a? with
  | none => exact gets_raise
  | some a => exact gets_pure rfl

theorem gets_num :
    Gets (Builtin.num B F v line) (From B F H (.builtin .num [v] draw [] line)) := by
  have hinputs : ∀ i ∈ [v], From B F H (.builtin .num [v] draw [] line) i := from_operands rfl
  unfold Builtin.num
  cases hvalue : v.value with
  | miss reasons => exact gets_made (from_mergeMiss hinputs ⟨v, by simp, isMiss_of_value hvalue⟩)
  | num x => exact gets_pure (hinputs v (List.mem_singleton_self v))
  | str s =>
      have hclean : Clean B F H (.builtin .num [v] draw [] line) [v] :=
        clean_operand rfl (isMiss_of_value hvalue)
      dsimp only
      split
      · rename_i body hbody
        unfold Builtin.numberOf
        dsimp only
        split
        · split
          · exact gets_made (from_float hinputs)
          · exact gets_made hclean.makeMiss
        · rename_i hfloat
          split
          · exact gets_made hclean.makeMiss
          · rename_i hdigits
            refine Gets.bind (gets_made (sends_overIntBits _)) fun tooBig hover ↦ ?_
            cases tooBig with
            | true => exact gets_made hclean.makeMiss
            | false =>
                refine Gets.bind gets_ofOption fun k hk ↦ gets_made ?_
                apply from_number hinputs
                intro hcharged
                apply hcharged.ints
                simp [Operation.unchargedInts, BuiltinName.unchargedInts, BuiltinName.numeral,
                  hvalue, hbody, hfloat, hdigits, hover, hk]
      · exact gets_made hclean.makeMiss
  | _ => exact gets_made (clean_operand rfl (isMiss_of_value hvalue)).makeMiss

theorem from_abs : Sends (Builtin.abs F v line) (From B F H (.builtin .abs [v] draw [] line)) := by
  apply from_propagate rfl
  intro hclean
  split
  · rename_i x hvalue
    apply from_number hclean.inputs_from
    exact fun hcharged ↦
      ((hclean.inputs_from v (List.mem_singleton_self v)).number hvalue hcharged).abs
  · exact hclean.makeMiss

theorem gets_sqrt :
    Gets (Builtin.sqrt F v line) (From B F H (.builtin .sqrt [v] draw [] line)) := by
  have hinputs : ∀ i ∈ [v], From B F H (.builtin .sqrt [v] draw [] line) i := from_operands rfl
  unfold Builtin.sqrt
  cases hvalue : v.value with
  | miss reasons => exact gets_made (from_mergeMiss hinputs ⟨v, by simp, isMiss_of_value hvalue⟩)
  | num x =>
      have hclean : Clean B F H (.builtin .sqrt [v] draw [] line) [v] :=
        clean_operand rfl (isMiss_of_value hvalue)
      dsimp only
      split
      · exact Gets.after fun text ↦ gets_made hclean.makeMiss
      · split
        · exact gets_made (from_float hinputs)
        · exact gets_made hclean.makeMiss
  | _ => exact gets_made (clean_operand rfl (isMiss_of_value hvalue)).makeMiss

theorem from_trunc :
    Sends (Builtin.trunc F v line) (From B F H (.builtin .trunc [v] draw [] line)) := by
  apply from_propagate rfl
  intro hclean
  split
  · rename_i x hvalue
    split
    · rename_i k hk
      apply from_number hclean.inputs_from
      intro hcharged
      apply hcharged.ints
      simp [Operation.unchargedInts, BuiltinName.unchargedInts, hvalue, hk]
    · exact hclean.makeMiss
  · exact hclean.makeMiss

/-! ## Misses and notes -/

theorem from_reasons :
    Sends (Builtin.reasons v line) (From B F H (.builtin .reasons [v] draw [] line)) := by
  apply from_texts (from_operands rfl)
  exact fun size hsize ↦ hsize

theorem from_note {label : Node} :
    Sends (Builtin.note F label v line) (From B F H (.builtin .note [label, v] draw [] line)) := by
  have hinputs : ∀ i ∈ [label, v], From B F H (.builtin .note [label, v] draw [] line) i :=
    from_operands rfl
  unfold Builtin.note
  cases hvalue : label.value with
  | str s =>
      apply from_passing (by simp [handOn])
      · simpa using hinputs v (by simp)
      · exact List.mem_singleton_self v
  | _ =>
      apply from_losing rfl
      rintro ⟨a, ha, hmiss⟩
      rcases List.mem_pair.mp ha with rfl | rfl
      · simp [Operation.losesReasons, BuiltinName.losesReasons, hvalue, Payload.isText, hmiss]
      · simp [Operation.losesReasons, BuiltinName.losesReasons, hvalue, Payload.isText, hmiss]

/-! ## Records -/

theorem from_keys :
    Sends (Builtin.keys F v line) (From B F H (.builtin .keys [v] draw [] line)) := by
  apply from_propagate rfl
  intro hclean
  split
  · rename_i fields hvalue
    apply from_texts hclean.inputs_from
    intro size hsize
    simpa [Operation.unchargedSizes, BuiltinName.unchargedSizes, BuiltinName.fieldNames, hvalue]
      using hsize
  · exact hclean.makeMiss

theorem from_merge {a b : Node} :
    Sends (Builtin.merge a b line) (From B F H (.builtin .merge [a, b] draw [] line)) := by
  apply from_propagate rfl
  intro hclean
  split
  · rename_i fields others ha hb
    apply from_record hclean.inputs_from
    have hfroma := hclean.inputs_from a List.mem_cons_self
    have hfromb := hclean.inputs_from b (List.mem_cons_of_mem a List.mem_cons_self)
    intro m hm
    rcases Fields.mem_merge hm with hm | hm
    · apply hfroma.part
      rw [ha]
      exact hm
    · apply hfromb.part
      rw [hb]
      exact hm
  · exact hclean.makeMiss

theorem from_get {r key : Node} :
    Sends (Builtin.get F r key line) (From B F H (.builtin .get [r, key] draw [] line)) := by
  have hinputs : ∀ i ∈ [r, key], From B F H (.builtin .get [r, key] draw [] line) i :=
    from_operands rfl
  unfold Builtin.get
  cases hvalue : key.value with
  | miss reasons =>
      apply from_mergeMiss
      · intro i hi
        exact hinputs i (by simpa [or_comm] using hi)
      · exact ⟨key, by simp, isMiss_of_value hvalue⟩
  | str s =>
      apply from_field (hinputs r (by simp))
      intro hr m hm
      rcases List.mem_pair.mp hm with rfl | rfl
      · exact hr
      · exact isMiss_of_value hvalue
  | _ =>
      have hkey : key.isMiss = false := isMiss_of_value hvalue
      apply from_losing rfl
      rintro ⟨a, ha, hmiss⟩
      rcases List.mem_pair.mp ha with rfl | rfl
      · simp [Operation.losesReasons, BuiltinName.losesReasons, hvalue, hkey, Payload.isText, hmiss]
      · rw [hkey] at hmiss
        contradiction

theorem from_has {r key : Node} :
    Sends (Builtin.has F r key line) (From B F H (.builtin .has [r, key] draw [] line)) := by
  apply from_propagate rfl
  intro hclean
  split
  · exact from_bool hclean.inputs_from
  · exact hclean.makeMiss
  · exact hclean.makeMiss

theorem from_put {r key : Node} :
    Sends (Builtin.put F r key v line) (From B F H (.builtin .put [r, key, v] draw [] line)) := by
  have hinputs : ∀ i ∈ [r, key, v], From B F H (.builtin .put [r, key, v] draw [] line) i :=
    from_operands rfl
  unfold Builtin.put Builtin.withField Builtin.propagate
  dsimp only
  split
  · rename_i hmiss
    apply from_mergeMiss
    · intro i hi
      rcases List.mem_pair.mp hi with rfl | rfl
      · exact hinputs _ (by simp)
      · exact hinputs _ (by simp)
    · exact List.any_eq_true.mp hmiss
  · rename_i hmiss
    have hr : r.isMiss = false := none_of_any hmiss r (by simp)
    have hkey : key.isMiss = false := none_of_any hmiss key (by simp)
    -- The value to put is not looked at before the others are refused.
    have hlosing : ∀ reason, (r.value.isRecord && key.value.isText) = false →
        Sends (makeMiss reason line "put" [r, key, v])
          (From B F H (.builtin .put [r, key, v] draw [] line)) := by
      intro reason hkinds
      apply from_losing rfl
      rintro ⟨a, ha, hlost⟩
      have hv : v.isMiss = true := by
        rcases List.mem_cons.mp ha with rfl | ha
        · rw [hr] at hlost
          contradiction
        · rcases List.mem_pair.mp ha with rfl | rfl
          · rw [hkey] at hlost
            contradiction
          · exact hlost
      simp [Operation.losesReasons, BuiltinName.losesReasons, hr, hkey, hv, hkinds]
    split
    · rename_i fields s hrecord hs
      apply from_record
      · intro i hi
        rcases List.mem_pair.mp hi with rfl | rfl
        · exact hinputs _ (by simp)
        · exact hinputs _ (by simp)
      · intro m hm
        rcases Fields.mem_put hm with rfl | hm
        · exact hinputs _ (by simp)
        · apply (hinputs r (by simp)).part
          rw [hrecord]
          exact hm
    · rename_i fields q hrecord hnotext
      apply hlosing
      cases hkind : key.value with
      | str s => exact absurd hkind (hnotext s)
      | _ => simp [Payload.isText]
    · rename_i hnorecord _
      apply hlosing
      cases hkind : r.value with
      | record fields => exact absurd hkind (hnorecord fields)
      | _ => simp [Payload.isRecord]

/-! ## Types and guesses -/

theorem gets_typed {spec label : Node} :
    Gets (Builtin.typed F v spec label line)
      (From B F H (.builtin .typed [v, spec, label] draw [] line)) := by
  have hinputs : ∀ i ∈ [v, spec, label],
      From B F H (.builtin .typed [v, spec, label] draw [] line) i := from_operands rfl
  unfold Builtin.typed
  dsimp only
  split
  · rename_i hmiss
    exact gets_made (from_mergeMiss hinputs (List.any_eq_true.mp hmiss))
  · rename_i hmiss
    have hclean : Clean B F H (.builtin .typed [v, spec, label] draw [] line) [v, spec, label] :=
      clean_operands rfl (none_of_any hmiss)
    split
    · split
      · apply gets_checkType
        exact ⟨by simpa using hinputs v (by simp), by simpa using hclean.inputs_none v (by simp),
          hclean.operands_none⟩
      · exact gets_made hclean.makeMiss
    · exact gets_made hclean.makeMiss

theorem gets_matches {spec : Node} :
    Gets (Builtin.matches_ v spec line)
      (From B F H (.builtin .matches_ [v, spec] draw [] line)) := by
  unfold Builtin.matches_
  dsimp only
  split
  · exact gets_made (from_bool (from_operands rfl))
  · exact Gets.after fun verdict ↦ gets_made (from_bool (from_operands rfl))

theorem from_shapeof :
    Sends (Builtin.shapeof v line) (From B F H (.builtin .shapeof [v] draw [] line)) := by
  apply from_text (from_operands rfl)
  exact fun hfit ↦ hfit _ (List.mem_singleton_self _)

theorem from_confidence :
    Sends (Builtin.confidence F v line) (From B F H (.builtin .confidence [v] draw [] line)) := by
  apply from_propagate rfl
  intro hclean
  split
  · rename_i node c sources hvalue
    apply from_number hclean.inputs_from
    intro hcharged
    apply (hclean.inputs_from v (List.mem_singleton_self v)).fits hcharged
    rw [hvalue]
    exact List.mem_singleton_self c
  · exact hclean.makeMiss

theorem from_guessBuiltin {conf source : Node} :
    Sends (guess F v conf source line)
      (From B F H (.builtin .guess [v, conf, source] draw [] line)) := by
  have hinputs : ∀ i ∈ [v, conf, source],
      From B F H (.builtin .guess [v, conf, source] draw [] line) i := from_operands rfl
  unfold guess
  dsimp only
  split
  · rename_i hmiss
    exact from_mergeMiss hinputs (List.any_eq_true.mp hmiss)
  · rename_i hmiss
    have hclean : Clean B F H (.builtin .guess [v, conf, source] draw [] line) [v, conf, source] :=
      clean_operands rfl (none_of_any hmiss)
    split
    · exact hclean.makeMiss
    · rename_i c s hc hs
      have hv := hinputs v (by simp)
      intro t
      apply from_guess hinputs hv.unguessed
      · intro hcharged
        apply fits_leastConfidence
        intro k hk
        rcases List.mem_append.mp hk with hk | hk
        · exact fits_guessed (hv.fits hcharged) k hk
        · obtain rfl := List.mem_singleton.mp hk
          exact (hinputs conf (by simp)).number (isConfidence_of_asConfidence hc).1 hcharged
      · rw [← guess_of_confidence (by simpa using hmiss) hc hs]
        exact .guess v conf source line t
    · exact hclean.makeMiss

theorem from_sure {threshold : Node} :
    Sends (sure F v threshold line)
      (From B F H (.builtin .sure [v, threshold] draw [] line)) := by
  have hinputs : ∀ i ∈ [v, threshold], From B F H (.builtin .sure [v, threshold] draw [] line) i :=
    from_operands rfl
  have hv := hinputs v (by simp)
  unfold sure
  dsimp only
  split
  · rename_i hmiss
    exact from_mergeMiss hinputs (List.any_eq_true.mp hmiss)
  · rename_i hmiss
    have hclean : Clean B F H (.builtin .sure [v, threshold] draw [] line) [v, threshold] :=
      clean_operands rfl (none_of_any hmiss)
    split
    · exact hclean.makeMiss
    · rename_i t node confidence sources ht hvalue
      split
      · apply sends_pure
        apply hv.part
        rw [hvalue]
        exact List.mem_singleton_self node
      · have halone : Clean B F H (.builtin .sure [v, threshold] draw [] line) [v] :=
          ⟨by simpa using hv, by simpa using hclean.inputs_none v (by simp), hclean.operands_none⟩
        exact halone.makeMiss
    · exact sends_pure hv

end

end NucLlm.Whence
