import NucLlm.Whence.Makes

/-!
# What operators make

An operator computes a value that is charged, propagates the misses among its
operands, or refuses operands of which none is a miss.
-/

namespace NucLlm.Whence

/-! ## Bits -/

theorem bitLength_add_le (l r : ℤ) : bitLength (l + r) ≤ max (bitLength l) (bitLength r) + 1 := by
  have hl : l.natAbs < 2 ^ max (bitLength l) (bitLength r) :=
    bitLength_le_iff.mp (Nat.le_max_left _ _)
  have hr : r.natAbs < 2 ^ max (bitLength l) (bitLength r) :=
    bitLength_le_iff.mp (Nat.le_max_right _ _)
  rw [bitLength_le_iff, Nat.pow_succ]
  have habs := Int.natAbs_add_le l r
  omega

theorem bitLength_neg (n : ℤ) : bitLength (-n) = bitLength n := by
  simp [bitLength]

theorem bitLength_sub_le (l r : ℤ) : bitLength (l - r) ≤ max (bitLength l) (bitLength r) + 1 := by
  have h := bitLength_add_le l (-r)
  rwa [bitLength_neg, ← Int.sub_eq_add_neg] at h

theorem bitLength_mul_le (l r : ℤ) : bitLength (l * r) ≤ bitLength l + bitLength r := by
  have hl : l.natAbs < 2 ^ bitLength l := bitLength_le_iff.mp (Nat.le_refl _)
  have hr : r.natAbs < 2 ^ bitLength r := bitLength_le_iff.mp (Nat.le_refl _)
  rw [bitLength_le_iff, Nat.pow_add, Int.natAbs_mul]
  exact Nat.mul_lt_mul'' hl hr

/-- A remainder is no larger than what is divided or the divisor. -/
theorem natAbs_fmod_le (l r : ℤ) : (l.fmod r).natAbs ≤ max l.natAbs r.natAbs := by
  rcases Int.lt_trichotomy r 0 with hneg | rfl | hpos
  · have heq := Int.neg_fmod_neg l r
    have hlow := Int.fmod_nonneg_of_pos (-l) (Int.neg_pos_of_neg hneg)
    have hhigh := Int.fmod_lt_of_pos (-l) (Int.neg_pos_of_neg hneg)
    omega
  · simp
  · have hlow := Int.fmod_nonneg_of_pos l hpos
    have hhigh := Int.fmod_lt_of_pos l hpos
    omega

section

variable {B : Budgets} {F : FloatOps} {H : Histories} {o : Operation} {v n : Node}

namespace Budgets.Fits

theorem of_natAbs_le {m n : ℤ} (h : B.Fits (.int n)) (hle : m.natAbs ≤ n.natAbs) :
    B.Fits (.int m) := by
  intro cap hcap
  exact bitLength_le_iff.mpr (Nat.lt_of_le_of_lt hle (bitLength_le_iff.mp (h cap hcap)))

theorem neg {x : Num} (h : B.Fits x) : B.Fits (x.neg F) := by
  cases x with
  | int n => exact h.of_natAbs_le (by simp)
  | float x => trivial

theorem abs {x : Num} (h : B.Fits x) : B.Fits (Builtin.Num.abs F x) := by
  cases x with
  | int n => exact h.of_natAbs_le (Nat.le_of_eq (Int.natAbs_natCast n.natAbs))
  | float x => trivial

end Budgets.Fits

theorem fits_zero : B.Fits (.int 0) := fun _ _ ↦ Nat.zero_le _

theorem fits_floatResult {x : Option Float64} {p : Payload} (h : floatResult x = some p) :
    ∀ y ∈ p.numbers, B.Fits y := by
  obtain ⟨z, _, rfl⟩ := Option.map_eq_some_iff.mp h
  rintro y hy
  obtain rfl := List.mem_singleton.mp hy
  trivial

/-- The result of an operator fits where its growth was charged. -/
theorem fits_numResult {op : ArithOp} {x y : Num} {p : Payload} (hx : B.Fits x) (hy : B.Fits y)
    (hgrowth : ∀ nbits ∈ intGrowth op x y, ∀ cap ∈ B.maxIntBits, nbits ≤ cap)
    (h : numResult F op x y = some p) : ∀ z ∈ p.numbers, B.Fits z := by
  have hint : ∀ {n : ℤ}, B.Fits (.int n) → ∀ z ∈ (Payload.num (.int n)).numbers, B.Fits z := by
    intro n hn z hz
    obtain rfl := List.mem_singleton.mp hz
    exact hn
  unfold numResult at h
  split at h
  · obtain rfl := Option.some.inj h
    exact hint fun cap hcap ↦ (bitLength_add_le _ _).trans (hgrowth _ rfl cap hcap)
  · obtain rfl := Option.some.inj h
    exact hint fun cap hcap ↦ (bitLength_sub_le _ _).trans (hgrowth _ rfl cap hcap)
  · obtain rfl := Option.some.inj h
    exact hint fun cap hcap ↦ (bitLength_mul_le _ _).trans (hgrowth _ rfl cap hcap)
  · rename_i l r
    obtain rfl := Option.some.inj h
    rcases Nat.le_total l.natAbs r.natAbs with hle | hle
    · exact hint (hy.of_natAbs_le ((natAbs_fmod_le l r).trans (by omega)))
    · exact hint (hx.of_natAbs_le ((natAbs_fmod_le l r).trans (by omega)))
  all_goals first
    | exact fits_floatResult h
    | (obtain rfl := Option.some.inj h; exact List.forall_mem_nil _)

theorem growth_of_small {op : ArithOp} {x y : Num} (h : bigInts x y = false) :
    ∀ nbits ∈ intGrowth op x y, ∀ cap ∈ B.maxIntBits, nbits ≤ cap :=
  fun _ hgrowth ↦ le_of_not_over (overIntBits_of_small h hgrowth {})

/-- A compiled operator computes by itself what needs no charge. -/
theorem numResult_of_inlineResult {op : ArithOp} {x y : Num} {p : Payload}
    (h : inlineResult F op (.num x) (.num y) = some p) :
    numResult F op x y = some p ∧
      ∀ nbits ∈ intGrowth op x y, ∀ cap ∈ B.maxIntBits, nbits ≤ cap := by
  have hno : ∀ op, (∀ x y, intGrowth op x y = none) →
      ∀ nbits ∈ intGrowth op x y, ∀ cap ∈ B.maxIntBits, nbits ≤ cap := by
    intro op hnone nbits hnbits
    rw [hnone] at hnbits
    contradiction
  unfold inlineResult at h
  cases op with
  | add | sub | mul =>
      dsimp only at h
      split at h
      · contradiction
      · rename_i hsmall
        exact ⟨h, growth_of_small (by simpa using hsmall)⟩
  | div | mod =>
      dsimp only at h
      split at h
      · contradiction
      · exact ⟨h, hno _ fun _ _ ↦ rfl⟩
  | _ => exact ⟨h, hno _ fun _ _ ↦ rfl⟩

theorem fits_leastConfidence {cs : List Num} (h : ∀ c ∈ cs, B.Fits c) :
    B.Fits (leastConfidence cs) := by
  cases cs with
  | nil => exact fits_zero
  | cons c cs =>
      change B.Fits (cs.foldl (fun least c ↦ if c.less least then c else least) c)
      induction cs generalizing c with
      | nil => exact h c List.mem_cons_self
      | cons d cs ih =>
          apply ih
          intro k hk
          rcases List.mem_cons.mp hk with rfl | hk
          · dsimp only
            split
            · exact h d (List.mem_cons_of_mem c List.mem_cons_self)
            · exact h c List.mem_cons_self
          · exact h k (List.mem_cons_of_mem c (List.mem_cons_of_mem d hk))

theorem fits_guessed {p : Payload} (h : ∀ x ∈ p.numbers, B.Fits x) :
    ∀ c ∈ p.guessed.map Prod.fst, B.Fits c := by
  cases p with
  | guess node confidence sources => exact h
  | _ => exact List.forall_mem_nil _

/-! ## Operands -/

theorem isMiss_of_value {p : Payload} (h : v.value = p) : v.isMiss = p.isMiss := by
  rw [Node.isMiss, h]

theorem none_of_any {vs : List Node} (h : ¬ vs.any Node.isMiss = true) :
    ∀ i ∈ vs, i.isMiss = false := by
  intro i hi
  cases hmiss : i.isMiss with
  | false => rfl
  | true => exact absurd (List.any_eq_true.mpr ⟨i, hi, hmiss⟩) h

theorem Node.unguessed_of_isGuess (h : v.value.isGuess = true) : v.unguessed ∈ v.value.parts := by
  obtain ⟨id, vop, detail, vline, inputs, count, value⟩ := v
  cases value with
  | guess node confidence sources => exact List.mem_singleton_self node
  | _ => contradiction

theorem Node.unguessed_of_certain (h : v.value.isGuess = false) : v.unguessed = v := by
  obtain ⟨id, vop, detail, vline, inputs, count, value⟩ := v
  cases value with
  | guess node confidence sources => contradiction
  | _ => rfl

theorem From.unguessed (hv : From B F H o v) : From B F H o v.unguessed := by
  cases hguess : v.value.isGuess with
  | true => exact hv.part (Node.unguessed_of_isGuess hguess)
  | false => rwa [Node.unguessed_of_certain hguess]

/-! ## Operators on operands that are no misses -/

/-- What an operation is done with where no miss is among its operands. -/
structure Clean (B : Budgets) (F : FloatOps) (H : Histories) (o : Operation) (inputs : List Node) :
    Prop where
  inputs_from : ∀ i ∈ inputs, From B F H o i
  inputs_none : ∀ i ∈ inputs, i.isMiss = false
  operands_none : ∀ m ∈ o.operands, m.isMiss = false

variable {op detail reason : String} {line : ℕ} {inputs : List Node} {p : Payload}

theorem Clean.refusal (h : Clean B F H o inputs) {reasons : List String} :
    Sends (derived op detail line inputs (.miss reasons)) (From B F H o) := by
  apply from_refusal h.inputs_from
  · rintro ⟨i, hi, hmiss⟩
    rw [h.inputs_none i hi] at hmiss
    contradiction
  · exact fun _ ↦ h.operands_none

theorem Clean.makeMiss (h : Clean B F H o inputs) :
    Sends (makeMiss reason line op inputs) (From B F H o) := h.refusal

theorem Clean.makeMissIn (h : Clean B F H o inputs) :
    Sends (makeMissIn reason line op detail inputs) (From B F H o) := h.refusal

theorem scalar_numResult {bop : ArithOp} {x y : Num} (h : numResult F bop x y = some p) :
    p.Scalar := by
  unfold numResult at h
  split at h
  all_goals first
    | (obtain ⟨z, _, rfl⟩ := Option.map_eq_some_iff.mp h; exact scalar_num _)
    | (obtain rfl := Option.some.inj h; exact scalar_num _)
    | (obtain rfl := Option.some.inj h; exact scalar_bool _)

theorem Clean.numResult (h : Clean B F H o inputs) (bop : ArithOp) {x y : Num}
    (hx : Charged B F H o → B.Fits x) (hy : Charged B F H o → B.Fits y)
    (hgrowth : ∀ nbits ∈ intGrowth bop x y, ∀ cap ∈ B.maxIntBits, nbits ≤ cap) :
    Sends
      (match Whence.numResult F bop x y with
        | some p => derived bop.symbol "" line inputs p
        | none => Whence.makeMiss "number too large for float arithmetic" line bop.symbol inputs)
      (From B F H o) := by
  cases hp : Whence.numResult F bop x y with
  | none => exact h.makeMiss
  | some p =>
      apply from_scalar (scalar_numResult hp) h.inputs_from
      exact fun hcharged ↦ fits_numResult (hx hcharged) (hy hcharged) hgrowth hp

theorem Clean.numBinop (h : Clean B F H o inputs) (bop : ArithOp) {x y : Num}
    (hx : Charged B F H o → B.Fits x) (hy : Charged B F H o → B.Fits y) :
    Sends (numBinop B F bop x y line inputs) (From B F H o) := by
  unfold Whence.numBinop
  split
  · exact h.makeMiss
  · cases hgrowth : intGrowth bop x y with
    | none => exact h.numResult bop hx hy (by simp [hgrowth])
    | some nbits =>
        refine Sends.bind (sends_overIntBits nbits) fun tooBig hfits ↦ ?_
        cases tooBig with
        | true => exact h.makeMiss
        | false =>
            apply h.numResult bop hx hy
            rw [hgrowth]
            rintro _ ⟨⟩
            exact le_of_not_over hfits

theorem Clean.concatenated (h : Clean B F H o inputs) {kind unit : String} {count nbytes : ℕ}
    (hp : B.Within nbytes → Sends (derived "+" "concat" line inputs p) (From B F H o)) :
    Sends (concatenated B kind unit count nbytes p line inputs) (From B F H o) := by
  refine Sends.bind (sends_overValue nbytes) fun tooBig hfits ↦ ?_
  cases tooBig with
  | true => exact h.makeMiss
  | false => exact hp (le_of_not_over hfits)

theorem Clean.otherBinop (h : Clean B F H o inputs) (bop : ArithOp) {l r : Payload}
    (hl : ∀ m ∈ l.parts, From B F H o m) (hr : ∀ m ∈ r.parts, From B F H o m) :
    Sends (otherBinop B F bop l r line inputs) (From B F H o) := by
  unfold Whence.otherBinop
  cases bop with
  | eq =>
      cases l.deepEq r with
      | none => exact h.makeMiss
      | some eq => exact from_bool h.inputs_from
  | ne =>
      cases l.deepEq r with
      | none => exact h.makeMiss
      | some eq => exact from_bool h.inputs_from
  | add =>
      dsimp only
      split
      · rename_i items items'
        apply h.concatenated
        intro hwithin
        apply from_list h.inputs_from
        · intro i hi
          rcases List.mem_append.mp hi with hi | hi
          · exact hl i hi
          · exact hr i hi
        · rw [List.length_append]
          exact fun _ ↦ hwithin
      · exact h.makeMiss
  | _ => exact h.makeMiss

theorem Clean.textBinop (h : Clean B F H o inputs) (bop : ArithOp) (l r : String) :
    Sends (textBinop B F bop l r line inputs) (From B F H o) := by
  unfold Whence.textBinop
  split
  · apply h.concatenated
    intro hwithin
    apply from_text h.inputs_from
    rw [String.length_append]
    exact fun _ ↦ hwithin
  · cases strResult bop l r with
    | none => exact h.otherBinop bop (List.forall_mem_nil _) (List.forall_mem_nil _)
    | some b => exact from_bool h.inputs_from

/-! ## Guesses -/

/-- What an operator makes of what its operands are about is the guess's result. -/
theorem from_guessed {m operation : Making Node} {confidence : Num} {sources : List String}
    (hoperation : operation = do
      let result ← m
      if result.isMiss then pure result
      else derived op detail line inputs (mkGuess result confidence sources))
    (hoperates : ∀ t, Operates B F inputs (operation t).1) (hm : Sends m (From B F H o))
    (hinputs : ∀ i ∈ inputs, From B F H o i)
    (hconfidence : Charged B F H o → B.Fits confidence) :
    Sends operation (From B F H o) := by
  intro t
  have hmade := hoperates t
  rw [hoperation, bind_run] at hmade ⊢
  by_cases hmiss : (m t).1.isMiss = true
  · rw [if_pos hmiss]
    exact hm t
  · rw [if_neg hmiss] at hmade ⊢
    exact from_guess hinputs (hm t) hconfidence hmade

theorem From.number {x : Num} (h : From B F H o v) (hvalue : v.value = .num x)
    (hcharged : Charged B F H o) : B.Fits x := by
  apply h.fits hcharged
  rw [hvalue]
  exact List.mem_singleton_self x

/-! ## Operators -/

theorem from_unary (uop : UnOp) (hv : From B F H o v)
    (hoperands : v.isMiss = false → ∀ m ∈ o.operands, m.isMiss = false) :
    Sends (unary F uop line v) (From B F H o) := by
  induction hsize : sizeOf v using Nat.strongRecOn generalizing v with
  | _ n ih =>
      have hinputs : ∀ i ∈ [v], From B F H o i := by simpa using hv
      have hclean : v.isMiss = false → Clean B F H o [v] := by
        intro hnone
        exact ⟨hinputs, by simpa using hnone, hoperands hnone⟩
      obtain ⟨id, vop, detail, vline, vinputs, count, value⟩ := v
      cases value with
      | miss reasons =>
          rw [unary_of_miss rfl]
          exact from_mergeMiss hinputs ⟨_, List.mem_singleton_self _, rfl⟩
      | guess node confidence sources =>
          have hlt : sizeOf node < n := by
            rw [← hsize]
            simp only [Node.mk.sizeOf_spec, Payload.guess.sizeOf_spec]
            omega
          have hnode : From B F H o node := hv.part (List.mem_singleton_self node)
          have hresult := ih _ hlt hnode (fun _ ↦ hoperands rfl) rfl
          apply from_guessed (unary_of_guess rfl) (.unary uop _ line) hresult hinputs
          exact fun hcharged ↦ hv.fits hcharged _ (List.mem_singleton_self _)
      | num x =>
          cases uop with
          | neg => exact from_number hinputs fun hcharged ↦ (hv.number rfl hcharged).neg
          | not => exact (hclean rfl).makeMiss
      | bool b =>
          cases uop with
          | neg => exact (hclean rfl).makeMiss
          | not => exact from_bool hinputs
      | _ =>
          cases uop with
          | neg => exact (hclean rfl).makeMiss
          | not => exact (hclean rfl).makeMiss

theorem from_binop {l r : Node} (bop : ArithOp) (hl : From B F H o l) (hr : From B F H o r)
    (hoperands : l.isMiss = false → r.isMiss = false → ∀ m ∈ o.operands, m.isMiss = false) :
    Sends (binop B F bop l r line) (From B F H o) := by
  induction hsize : sizeOf l + sizeOf r using Nat.strongRecOn generalizing l r with
  | _ n ih =>
      have hinputs : ∀ i ∈ [l, r], From B F H o i := by simp [hl, hr]
      have hclean : l.isMiss = false → r.isMiss = false → Clean B F H o [l, r] := by
        intro hnone hnone'
        exact ⟨hinputs, by simp [hnone, hnone'], hoperands hnone hnone'⟩
      rw [binop]
      split
      · rename_i x y hx hy
        apply (hclean (isMiss_of_value hx) (isMiss_of_value hy)).numBinop bop
        · exact hl.number hx
        · exact hr.number hy
      · rename_i s s' hs hs'
        exact (hclean (isMiss_of_value hs) (isMiss_of_value hs')).textBinop bop s s'
      · split
        · rename_i hmiss
          apply from_mergeMiss hinputs
          simpa using hmiss
        · rename_i hmiss
          have hnone : l.isMiss = false ∧ r.isMiss = false := by simpa using hmiss
          split
          · rename_i hguess
            have hlt : sizeOf l.unguessed + sizeOf r.unguessed < n := by
              have hleft := l.sizeOf_unguessed_le
              have hright := r.sizeOf_unguessed_le
              rcases Bool.or_eq_true_iff.mp hguess with h | h
              · have hsmaller := Node.sizeOf_unguessed_lt h
                omega
              · have hsmaller := Node.sizeOf_unguessed_lt h
                omega
            have hresult := ih _ hlt hl.unguessed hr.unguessed
              (fun _ _ ↦ hoperands hnone.1 hnone.2) rfl
            rw [← binop_of_guess (by simpa using hmiss) hguess]
            apply from_guessed (binop_of_guess (by simpa using hmiss) hguess) (.binop bop l r line)
              hresult hinputs
            intro hcharged
            apply fits_leastConfidence
            rw [List.map_append]
            intro c hc
            rcases List.mem_append.mp hc with hc | hc
            · exact fits_guessed (hl.fits hcharged) c hc
            · exact fits_guessed (hr.fits hcharged) c hc
          · exact (hclean hnone.1 hnone.2).otherBinop bop (fun m ↦ hl.part) (fun m ↦ hr.part)

theorem from_inlineResult {bop : ArithOp} {l r : Node} (hl : From B F H o l) (hr : From B F H o r)
    (h : inlineResult F bop l.value r.value = some p) :
    Sends (derived op detail line [l, r] p) (From B F H o) := by
  have hinputs : ∀ i ∈ [l, r], From B F H o i := by simp [hl, hr]
  cases hx : l.value <;> cases hy : r.value
  case num.num x y =>
    rw [hx, hy] at h
    obtain ⟨hresult, hgrowth⟩ := numResult_of_inlineResult (B := B) h
    apply from_scalar (scalar_numResult hresult) hinputs
    exact fun hcharged ↦
      fits_numResult (hl.number hx hcharged) (hr.number hy hcharged) hgrowth hresult
  case str.str s s' =>
    rw [hx, hy] at h
    obtain ⟨b, _, rfl⟩ := Option.map_eq_some_iff.mp h
    exact from_bool hinputs
  all_goals
    rw [hx, hy] at h
    contradiction

theorem from_compiledBinop {l r : Node} (bop : ArithOp) (hl : From B F H o l) (hr : From B F H o r)
    (hoperands : l.isMiss = false → r.isMiss = false → ∀ m ∈ o.operands, m.isMiss = false) :
    Sends (compiledBinop B F bop l r line) (From B F H o) := by
  unfold compiledBinop
  split
  · rename_i p hp
    exact from_inlineResult hl hr hp
  · exact from_binop bop hl hr hoperands

end

end NucLlm.Whence
