import NucLlm.Whence.MakesRuns

/-!
# Results without budgets

What integer an operation comes to, and what size of a text or a list, where no
budget stops it.  The operation gives that result or a miss, and it gives no
text and no list that it charges and that is over the budget.
-/

namespace NucLlm.Whence

/-- What a guess is about in the end, and everything else itself. -/
def Node.certain : Node → Node
  | .mk _ _ _ _ _ _ (.guess node _ _) => node.certain
  | v => v

/-- The integer that a value is, or that it is a guess about. -/
def Node.int? (v : Node) : Option ℤ := Builtin.integer? v.certain.value

/-! ## Integers -/

/-- What an operator makes of two integers that is an integer. -/
def ArithOp.integer? : ArithOp → ℤ → ℤ → Option ℤ
  | add, l, r => some (l + r)
  | sub, l, r => some (l - r)
  | mul, l, r => some (l * r)
  | mod, l, r => if r = 0 then none else some (l.fmod r)
  | _, _, _ => none

/-- What an operator makes of values that are integers or guesses about integers. -/
def ArithOp.ofNodes (op : ArithOp) (l r : Node) : Option ℤ :=
  l.int?.bind fun x ↦ r.int?.bind fun y ↦ op.integer? x y

/-- The integer that decimal digits stand for, and an integer itself. -/
def Payload.toInt? : Payload → Option ℤ
  | .num (.int n) => some n
  | .str s =>
      let t := Builtin.strip s.toList
      (Builtin.unsignedNumber t).bind fun body ↦
        if Lexer.isFloatText body then none
        else
          let n : ℕ := body.foldl (fun n c ↦ 10 * n + (c.toNat - '0'.toNat)) 0
          some (if Lexer.signText t = ['-'] then -n else n)
  | _ => none

namespace BuiltinName

/-- The integer that a builtin comes to. -/
def integer? (F : FloatOps) : BuiltinName → List Node → Option ℤ
  | len, [v] => (length? v.value).map Int.ofNat
  | num, [v] => v.value.toInt?
  | abs, [v] => (Builtin.integer? v.value).map fun n ↦ n.natAbs
  | trunc, [v] =>
      match v.value with
      | .num x => Builtin.Num.toInteger F x
      | _ => none
  | _, _ => none

end BuiltinName

namespace Operation

/-- The integer that an operation comes to. -/
def integer? (F : FloatOps) : Operation → Option ℤ
  | .literal _ _ p _ => Builtin.integer? p
  | .unary .neg v _ => v.int?.map Neg.neg
  | .binary op l r _ | .compiledBinary op l r _ => op.ofNodes l r
  | .builtin b args _ _ _ => b.integer? F args
  | _ => none

end Operation

/-- A value is the integer, or a miss. -/
def Comes (n : ℤ) (v : Node) : Prop := v.isMiss = true ∨ v.int? = some n

section

variable {B : Budgets} {F : FloatOps} {H : Histories} {v l r : Node} {n : ℤ}
  {op detail reason : String} {line : ℕ} {inputs : List Node} {p : Payload}

theorem Node.certain_of_isGuess (h : v.value.isGuess = false) : v.certain = v := by
  obtain ⟨id, vop, vdetail, vline, vinputs, count, value⟩ := v
  cases value with
  | guess node confidence sources => contradiction
  | _ => rw [certain]; simp

theorem Node.certain_unguessed (v : Node) : v.unguessed.certain = v.certain := by
  obtain ⟨id, vop, vdetail, vline, vinputs, count, value⟩ := v
  cases value with
  | guess node confidence sources => rw [unguessed, certain]
  | _ => rfl

theorem Node.int?_unguessed (v : Node) : v.unguessed.int? = v.int? := by
  rw [int?, certain_unguessed, int?]

theorem Node.int?_of_value {x : Num} (h : v.value = .num x) :
    v.int? = Builtin.integer? (.num x) := by
  rw [int?, certain_of_isGuess (by rw [h]; rfl), h]

theorem comes_miss {reasons : List String} :
    Sends (derived op detail line inputs (.miss reasons)) (Comes n) := fun _ ↦ .inl rfl

theorem comes_makeMiss : Sends (makeMiss reason line op inputs) (Comes n) := comes_miss

theorem comes_mergeMiss : Sends (mergeMiss op detail line inputs) (Comes n) := comes_miss

theorem comes_int : Sends (derived op detail line inputs (.num (.int n))) (Comes n) := by
  intro t
  right
  rw [Node.int?_of_value rfl]
  rfl

theorem comes_guess {node : Node} {confidence : Num} {sources : List String} (h : Comes n node)
    (hmiss : node.isMiss = false) :
    Sends (derived op detail line inputs (mkGuess node confidence sources)) (Comes n) := by
  intro t
  right
  rcases h with h | h
  · rw [hmiss] at h
    contradiction
  · exact h

/-- What an operator makes of what its operands are about is what it makes of them. -/
theorem comes_guessed {m : Making Node} {confidence : Num} {sources : List String}
    (hm : Sends m (Comes n)) :
    Sends (do
      let result ← m
      if result.isMiss then pure result
      else derived op detail line inputs (mkGuess result confidence sources)) (Comes n) := by
  refine Sends.bind hm fun result hresult ↦ ?_
  split
  · exact sends_pure hresult
  · rename_i hmiss
    exact comes_guess hresult (by simpa using hmiss)

theorem comes_unary_neg (h : v.int?.map Neg.neg = some n) :
    Sends (unary F .neg line v) (Comes n) := by
  induction hsize : sizeOf v using Nat.strongRecOn generalizing v with
  | _ k ih =>
      obtain ⟨id, vop, vdetail, vline, vinputs, count, value⟩ := v
      cases value with
      | guess node confidence sources =>
          rw [unary_of_guess rfl]
          have hlt : sizeOf node < k := by
            rw [← hsize]
            simp only [Node.mk.sizeOf_spec, Payload.guess.sizeOf_spec]
            omega
          exact comes_guessed (ih _ hlt h rfl)
      | num x =>
          rw [Node.int?_of_value rfl] at h
          cases x with
          | int k =>
              obtain rfl := Option.some.inj h
              exact comes_int
          | float x => contradiction
      | miss reasons =>
          rw [unary_of_miss rfl]
          exact comes_mergeMiss
      | _ =>
          rw [Node.int?, Node.certain_of_isGuess rfl] at h
          contradiction

theorem ArithOp.numResult_of_integer {bop : ArithOp} {x y : ℤ} (h : bop.integer? x y = some n) :
    numResult F bop (.int x) (.int y) = some (.num (.int n)) := by
  cases bop with
  | mod =>
      rw [ArithOp.integer?] at h
      split at h
      · contradiction
      · rw [← Option.some.inj h, numResult]
  | _ => first | contradiction | (rw [← Option.some.inj h]; rfl)

theorem ArithOp.ofNodes_of_values {bop : ArithOp} {x y : Num} (hl : l.value = .num x)
    (hr : r.value = .num y) (h : bop.ofNodes l r = some n) :
    numResult F bop x y = some (.num (.int n)) := by
  rw [ArithOp.ofNodes, Node.int?_of_value hl, Node.int?_of_value hr] at h
  cases x with
  | float x => contradiction
  | int x =>
      cases y with
      | float y => contradiction
      | int y => exact ArithOp.numResult_of_integer h

theorem comes_numBinop {bop : ArithOp} {x y : Num}
    (h : numResult F bop x y = some (.num (.int n))) :
    Sends (numBinop B F bop x y line inputs) (Comes n) := by
  simp only [numBinop, h]
  split
  · exact comes_makeMiss
  · cases intGrowth bop x y with
    | none => exact comes_int
    | some nbits =>
        refine Sends.bind (sends_overIntBits nbits) fun tooBig _ ↦ ?_
        cases tooBig with
        | true => exact comes_makeMiss
        | false => exact comes_int

theorem comes_binop {bop : ArithOp} (h : bop.ofNodes l r = some n) :
    Sends (binop B F bop l r line) (Comes n) := by
  induction hsize : sizeOf l + sizeOf r using Nat.strongRecOn generalizing l r with
  | _ k ih =>
      rw [binop]
      split
      · rename_i x y hx hy
        exact comes_numBinop (ArithOp.ofNodes_of_values hx hy h)
      · rename_i s s' hs hs'
        rw [ArithOp.ofNodes, Node.int?, Node.certain_of_isGuess (by rw [hs]; rfl), hs] at h
        contradiction
      · rename_i hnums _
        split
        · exact comes_mergeMiss
        · split
          · rename_i hguess
            have hlt : sizeOf l.unguessed + sizeOf r.unguessed < k := by
              have hleft := l.sizeOf_unguessed_le
              have hright := r.sizeOf_unguessed_le
              rcases Bool.or_eq_true_iff.mp hguess with h | h
              · have hsmaller := Node.sizeOf_unguessed_lt h
                omega
              · have hsmaller := Node.sizeOf_unguessed_lt h
                omega
            apply comes_guessed (ih _ hlt _ rfl)
            rw [ArithOp.ofNodes, Node.int?_unguessed, Node.int?_unguessed]
            exact h
          · rename_i hguess
            -- Neither is a guess, and not both are numbers.
            have hnone : l.value.isGuess = false ∧ r.value.isGuess = false := by simpa using hguess
            rw [ArithOp.ofNodes, Node.int?, Node.int?, Node.certain_of_isGuess hnone.1,
              Node.certain_of_isGuess hnone.2] at h
            obtain ⟨x, hx, h⟩ := Option.bind_eq_some_iff.mp h
            obtain ⟨y, hy, -⟩ := Option.bind_eq_some_iff.mp h
            exact absurd (integer_of hy) (hnums _ _ (integer_of hx))

theorem comes_compiledBinop {bop : ArithOp} (h : bop.ofNodes l r = some n) :
    Sends (compiledBinop B F bop l r line) (Comes n) := by
  unfold compiledBinop
  split
  · rename_i p hp
    cases hl : l.value <;> cases hr : r.value
    case num.num x y =>
      rw [hl, hr] at hp
      have hresult := (numResult_of_inlineResult (B := B) hp).1
      obtain rfl := Option.some.inj ((ArithOp.ofNodes_of_values hl hr h).symm.trans hresult)
      exact comes_int
    case str.str s s' =>
      rw [ArithOp.ofNodes, Node.int?, Node.certain_of_isGuess (by rw [hl]; rfl), hl] at h
      contradiction
    all_goals
      rw [hl, hr] at hp
      contradiction
  · exact comes_binop h

/-! ### Builtins -/

theorem comes_propagate {name : String} {args : List Node} {rest : Making Node}
    (h : Sends rest (Comes n)) : Sends (Builtin.propagate name args line rest) (Comes n) := by
  unfold Builtin.propagate
  split
  · exact comes_mergeMiss
  · exact h

theorem comes_len (h : (BuiltinName.length? v.value).map Int.ofNat = some n) :
    Sends (Builtin.len F v line) (Comes n) := by
  apply comes_propagate
  cases hvalue : v.value <;> rw [hvalue] at h
  case str s =>
    obtain rfl := Option.some.inj h
    exact comes_int
  case list items =>
    obtain rfl := Option.some.inj h
    exact comes_int
  case record fields =>
    obtain rfl := Option.some.inj h
    exact comes_int
  all_goals contradiction

theorem gets_comes_num (h : v.value.toInt? = some n) : Gets (Builtin.num B F v line) (Comes n) := by
  unfold Builtin.num
  cases hvalue : v.value with
  | miss reasons => exact gets_made comes_mergeMiss
  | num x =>
      apply gets_pure
      right
      rw [hvalue] at h
      rw [Node.int?_of_value hvalue]
      cases x with
      | int k => exact h
      | float x => contradiction
  | str s =>
      rw [hvalue] at h
      obtain ⟨body, hbody, h⟩ := Option.bind_eq_some_iff.mp h
      dsimp only
      rw [hbody]
      dsimp only
      unfold Builtin.numberOf
      split at h
      · contradiction
      · rename_i hint
        rw [if_neg hint]
        split
        · exact gets_made comes_makeMiss
        · refine Gets.bind (gets_made (sends_overIntBits _)) fun tooBig _ ↦ ?_
          cases tooBig with
          | true => exact gets_made comes_makeMiss
          | false =>
              refine Gets.bind gets_ofOption fun k hk ↦ ?_
              apply gets_made
              unfold Lexer.intOf at hk
              split at hk
              · contradiction
              · obtain rfl := Option.some.inj hk
                obtain rfl := Option.some.inj h
                exact comes_int
  | _ =>
      rw [hvalue] at h
      contradiction

theorem comes_abs (h : ((Builtin.integer? v.value).map fun n ↦ (n.natAbs : ℤ)) = some n) :
    Sends (Builtin.abs F v line) (Comes n) := by
  apply comes_propagate
  obtain ⟨k, hk, rfl⟩ := Option.map_eq_some_iff.mp h
  rw [integer_of hk]
  exact comes_int

theorem comes_trunc {x : Num} (hvalue : v.value = .num x) (h : Builtin.Num.toInteger F x = some n) :
    Sends (Builtin.trunc F v line) (Comes n) := by
  apply comes_propagate
  rw [hvalue]
  dsimp only
  rw [h]
  exact comes_int

/-- A builtin that makes no call gives what it finishes with. -/
theorem gets_answered {g : Asking} {P : Node → Prop} (h : Answers g fun _ ↦ P)
    (calls : List Node) :
    Gets (fun t ↦ (g t).1.answered calls (g t).2) P :=
  fun t v t' hv ↦ h t calls v t' hv

theorem answers_comes {b : BuiltinName} {args : List Node} {draw : Float64}
    (h : b.integer? F args = some n) :
    Answers (b.apply B F H draw line args) fun _ ↦ Comes n := by
  unfold BuiltinName.integer? at h
  split at h
  · exact answers_making (comes_len h)
  · exact answers_finish (gets_comes_num h)
  · exact answers_making (comes_abs h)
  · split at h
    · rename_i x hvalue
      exact answers_making (comes_trunc hvalue h)
    · contradiction
  · contradiction

/-- An operation that comes to an integer gives it or a miss. -/
theorem gets_comes (o : Operation) (h : o.integer? F = some n) :
    Gets (o.perform B F H) (Comes n) := by
  unfold Operation.integer? at h
  split at h
  · rename_i term line p hp
    have hvalue : (constant term line p).value = .num (.int n) := integer_of h
    apply gets_pure
    right
    rw [Node.int?_of_value hvalue]
    rfl
  · exact gets_made (comes_unary_neg h)
  · exact gets_made (comes_binop h)
  · exact gets_made (comes_compiledBinop h)
  · exact gets_answered (answers_comes h) _
  · contradiction

end

/-! ## Texts and lists -/

/-- The size of what `+` makes of two texts or of two lists. -/
def Payload.joinedSize : Payload → Payload → Option ℕ
  | .str l, .str r => some (l.length + r.length)
  | .list l, .list r => some ((l.length + r.length) * listBytesPerElem)
  | _, _ => none

namespace BuiltinName

/-- The size of what a builtin that charges it comes to. -/
def grown : BuiltinName → List Node → Option ℕ
  | push, [xs, _] =>
      match xs.value with
      | .list items => some ((items.length + 1) * listBytesPerElem)
      | _ => none
  | range, args =>
      if args.all fun a ↦ (Builtin.integer? a.value).isSome then
        match args.filterMap fun a ↦ Builtin.integer? a.value with
        | [hi] => some ((hi - 0).toNat * listBytesPerElem)
        | lo :: hi :: _ => some ((hi - lo).toNat * listBytesPerElem)
        | [] => none
      else none
  | join, [xs, sep] =>
      match xs.value, sep.value with
      | .list items, .str s =>
          if items.all fun x ↦ x.value.isText then
            some (s.intercalate (items.filterMap fun x ↦ Builtin.text? x.value)).length
          else none
      | _, _ => none
  | _, _ => none

end BuiltinName

namespace Operation

/-- The size of the text or list that an operation that charges it comes to. -/
def grown : Operation → Option ℕ
  | .binary .add l r _ | .compiledBinary .add l r _ => l.certain.value.joinedSize r.certain.value
  | .builtin b args _ _ _ => b.grown args
  | _ => none

end Operation

/-- A value is of the size, and the size is within the budget, or it is a miss. -/
def Grows (B : Budgets) (size : ℕ) (v : Node) : Prop :=
  v.isMiss = true ∨ v.certain.value.size? = some size ∧ B.Within size

section

variable {B : Budgets} {F : FloatOps} {H : Histories} {v l r : Node} {size : ℕ}
  {op detail reason : String} {line : ℕ} {inputs : List Node} {p : Payload}

theorem grows_makeMiss : Sends (makeMiss reason line op inputs) (Grows B size) := fun _ ↦ .inl rfl

theorem grows_mergeMiss : Sends (mergeMiss op detail line inputs) (Grows B size) := fun _ ↦ .inl rfl

theorem grows_value (hguess : p.isGuess = false) (hsize : p.size? = some size)
    (hwithin : B.Within size) : Sends (derived op detail line inputs p) (Grows B size) := by
  intro t
  have hcertain : (derived op detail line inputs p t).1.certain =
      (derived op detail line inputs p t).1 := Node.certain_of_isGuess hguess
  right
  rw [hcertain]
  exact ⟨hsize, hwithin⟩

theorem grows_guessed {m : Making Node} {confidence : Num} {sources : List String}
    (hm : Sends m (Grows B size)) :
    Sends (do
      let result ← m
      if result.isMiss then pure result
      else derived op detail line inputs (mkGuess result confidence sources)) (Grows B size) := by
  refine Sends.bind hm fun result hresult ↦ ?_
  split
  · exact sends_pure hresult
  · rename_i hmiss
    intro t
    right
    exact hresult.resolve_left hmiss

theorem grows_concatenated {kind unit : String} {count : ℕ} (hguess : p.isGuess = false)
    (hsize : p.size? = some size) :
    Sends (concatenated B kind unit count size p line inputs) (Grows B size) := by
  refine Sends.bind (sends_overValue size) fun tooBig hfits ↦ ?_
  cases tooBig with
  | true => exact grows_makeMiss
  | false => exact grows_value hguess hsize (le_of_not_over hfits)

theorem grows_binop (h : l.certain.value.joinedSize r.certain.value = some size) :
    Sends (binop B F .add l r line) (Grows B size) := by
  induction hsize : sizeOf l + sizeOf r using Nat.strongRecOn generalizing l r with
  | _ k ih =>
      rw [binop]
      split
      · rename_i x y hx hy
        rw [Node.certain_of_isGuess (by rw [hx]; rfl), hx] at h
        contradiction
      · rename_i s s' hs hs'
        rw [Node.certain_of_isGuess (by rw [hs]; rfl), Node.certain_of_isGuess (by rw [hs']; rfl),
          hs, hs'] at h
        obtain rfl := Option.some.inj h
        exact grows_concatenated rfl (congrArg some (String.length_append s s'))
      · rename_i hstrs
        split
        · exact grows_mergeMiss
        · split
          · rename_i hguess
            have hlt : sizeOf l.unguessed + sizeOf r.unguessed < k := by
              have hleft := l.sizeOf_unguessed_le
              have hright := r.sizeOf_unguessed_le
              rcases Bool.or_eq_true_iff.mp hguess with h | h
              · have hsmaller := Node.sizeOf_unguessed_lt h
                omega
              · have hsmaller := Node.sizeOf_unguessed_lt h
                omega
            apply grows_guessed (ih _ hlt _ rfl)
            rw [Node.certain_unguessed, Node.certain_unguessed]
            exact h
          · rename_i hguess
            have hnone : l.value.isGuess = false ∧ r.value.isGuess = false := by simpa using hguess
            rw [Node.certain_of_isGuess hnone.1, Node.certain_of_isGuess hnone.2] at h
            cases hl : l.value <;> cases hr : r.value <;> rw [hl, hr] at h
            case list.list items items' =>
              obtain rfl := Option.some.inj h
              apply grows_concatenated rfl
              simp only [Payload.size?, List.length_append]
            case str.str s s' => exact absurd hr (hstrs s s' hl)
            all_goals contradiction

theorem grows_compiledBinop (h : l.certain.value.joinedSize r.certain.value = some size) :
    Sends (compiledBinop B F .add l r line) (Grows B size) := by
  unfold compiledBinop
  split
  · rename_i p hp
    cases hl : l.value <;> cases hr : r.value
    case num.num x y =>
      rw [Node.certain_of_isGuess (by rw [hl]; rfl), hl] at h
      contradiction
    all_goals
      rw [hl, hr] at hp
      contradiction
  · exact grows_binop h

/-! ### Builtins -/

theorem grows_propagate {name : String} {args : List Node} {rest : Making Node}
    (h : Sends rest (Grows B size)) :
    Sends (Builtin.propagate name args line rest) (Grows B size) := by
  unfold Builtin.propagate
  split
  · exact grows_mergeMiss
  · exact h

theorem grows_push {xs x : Node} {items : List Node} (hvalue : xs.value = .list items)
    (h : (items.length + 1) * listBytesPerElem = size) :
    Sends (Builtin.push B F xs x line) (Grows B size) := by
  subst h
  unfold Builtin.push
  rw [hvalue]
  dsimp only
  refine Sends.bind (sends_overValue _) fun tooBig hfits ↦ ?_
  cases tooBig with
  | true => exact grows_makeMiss
  | false =>
      apply grows_value rfl _ (le_of_not_over hfits)
      simp [Payload.size?]

theorem length_leaves {α : Type} {detail : α → String} {value : α → Payload} (as : List α) :
    Sends (leaves op line detail value as) fun items ↦ items.length = as.length := by
  induction as with
  | nil => exact sends_pure rfl
  | cons a as ih =>
      refine Sends.bind (P := fun _ ↦ True) (fun _ ↦ trivial) fun v _ ↦ ?_
      refine Sends.bind ih fun vs hvs ↦ ?_
      apply sends_pure
      rw [List.length_cons, List.length_cons, hvs]

/-- A range is charged more than its list is counted. -/
theorem grows_rangeFrom {lo hi : ℤ} {args : List Node}
    (h : (hi - lo).toNat * listBytesPerElem = size) :
    Sends (Builtin.rangeFrom B lo hi args line) (Grows B size) := by
  subst h
  have hitems : B.Within ((hi - lo).toNat * listBytesPerElem) → Sends (do
      let items ← leaves "range" line showInteger (fun i ↦ .num (.int i))
        ((List.range (hi - lo).toNat).map fun i : ℕ ↦ lo + i)
      derived "range" s!"{showInteger lo}..{showInteger hi}" line args (.list items))
      (Grows B ((hi - lo).toNat * listBytesPerElem)) := by
    intro hwithin
    refine Sends.bind (length_leaves _) fun items hlength ↦ ?_
    apply grows_value rfl _ hwithin
    rw [Payload.size?, hlength, List.length_map, List.length_range]
  unfold Builtin.rangeFrom
  dsimp only
  split
  · refine Sends.bind (sends_overValue _) fun tooBig hover ↦ ?_
    cases tooBig with
    | true => exact grows_makeMiss
    | false =>
        apply hitems
        intro cap hcap
        have hbytes : (hi - lo).toNat * listBytesPerElem ≤
            (hi - lo).toNat * Builtin.rangeBytesPerElem := Nat.mul_le_mul_left _ (by decide)
        exact hbytes.trans (le_of_not_over hover cap hcap)
  · rename_i hnone
    apply hitems
    intro cap _
    simp [Nat.eq_zero_of_not_pos hnone]

theorem grown_range {args : List Node} (h : BuiltinName.grown .range args = some size) :
    args.all (fun a ↦ (Builtin.integer? a.value).isSome) = true ∧
      ((∃ hi, args.filterMap (fun a ↦ Builtin.integer? a.value) = [hi] ∧
          (hi - 0).toNat * listBytesPerElem = size) ∨
        ∃ lo hi rest, args.filterMap (fun a ↦ Builtin.integer? a.value) = lo :: hi :: rest ∧
          (hi - lo).toNat * listBytesPerElem = size) := by
  rw [BuiltinName.grown] at h
  split at h
  · rename_i hall
    refine ⟨hall, ?_⟩
    split at h
    · rename_i hi hints
      exact .inl ⟨hi, hints, Option.some.inj h⟩
    · rename_i lo hi rest hints
      exact .inr ⟨lo, hi, rest, hints, Option.some.inj h⟩
    · contradiction
  · contradiction

theorem grows_range {args : List Node} (h : BuiltinName.grown .range args = some size) :
    Sends (Builtin.range B F args line) (Grows B size) := by
  obtain ⟨hall, hbounds⟩ := grown_range h
  have hints : args.find? (fun a ↦ (Builtin.integer? a.value).isNone) = none := by
    rw [List.find?_eq_none]
    intro a ha
    have hinteger := List.all_eq_true.mp hall a ha
    simpa [Option.isSome_iff_ne_none] using hinteger
  apply grows_propagate
  rw [hints]
  dsimp only
  rcases hbounds with ⟨hi, heq, hsize⟩ | ⟨lo, hi, rest, heq, hsize⟩
  · rw [heq]
    exact grows_rangeFrom hsize
  · rw [heq]
    exact grows_rangeFrom hsize

theorem grown_join {xs sep : Node} (h : BuiltinName.grown .join [xs, sep] = some size) :
    ∃ items s, xs.value = .list items ∧ sep.value = .str s ∧
      items.all (fun x ↦ x.value.isText) = true ∧
      (s.intercalate (items.filterMap fun x ↦ Builtin.text? x.value)).length = size := by
  rw [BuiltinName.grown] at h
  split at h
  · rename_i items s hxs hsep
    split at h
    · rename_i hall
      exact ⟨items, s, hxs, hsep, hall, Option.some.inj h⟩
    · contradiction
  · contradiction

theorem grows_join {xs sep : Node} (h : BuiltinName.grown .join [xs, sep] = some size) :
    Sends (Builtin.join B F xs sep line) (Grows B size) := by
  obtain ⟨items, s, hxs, hsep, hall, rfl⟩ := grown_join h
  have htexts : items.find? (fun x ↦ !x.value.isText) = none := by
    rw [List.find?_eq_none]
    intro x hx
    simp [List.all_eq_true.mp hall x hx]
  apply grows_propagate
  rw [hxs, hsep]
  dsimp only
  unfold Builtin.joined
  rw [htexts]
  dsimp only
  rw [length_intercalate]
  refine Sends.bind (sends_overValue _) fun tooBig hfits ↦ ?_
  cases tooBig with
  | true => exact grows_makeMiss
  | false =>
      apply grows_value rfl _ (le_of_not_over hfits)
      rw [Payload.size?, length_intercalate]

theorem answers_grows {b : BuiltinName} {args : List Node} {draw : Float64}
    (h : b.grown args = some size) :
      Answers (b.apply B F H draw line args) fun _ ↦ Grows B size := by
  have hgrown := h
  unfold BuiltinName.grown at h
  split at h
  · split at h
    · rename_i items hvalue
      exact answers_making (grows_push hvalue (Option.some.inj h))
    · contradiction
  · exact answers_making (grows_range hgrown)
  · exact answers_making (grows_join hgrown)
  · contradiction

/-- An operation that charges the size of what it comes to gives it within the budget or a miss. -/
theorem gets_grows (o : Operation) (h : o.grown = some size) :
    Gets (o.perform B F H) (Grows B size) := by
  unfold Operation.grown at h
  split at h
  · exact gets_made (grows_binop h)
  · exact gets_made (grows_compiledBinop h)
  · exact gets_answered (answers_grows h) _
  · contradiction

/-! ## Runs -/

/-- Each value of a run is what its operation gives. -/
theorem Runs.performed {run : List Entry} {t : Tally} (h : Runs B F H run t) :
    ∀ e ∈ run, ∃ s s', e.operation.perform B F H s = some (e.result, s') := by
  induction h with
  | start t => exact List.forall_mem_nil _
  | @step run t t' o v h hoperands hperform ih =>
      intro e he
      rcases List.mem_append.mp he with he | he
      · exact ih e he
      · obtain rfl := List.mem_singleton.mp he
        exact ⟨t, t', hperform⟩

theorem below_certain (v : Node) : v.Below v.certain := by
  induction hsize : sizeOf v using Nat.strongRecOn generalizing v with
  | _ k ih =>
      obtain ⟨id, vop, vdetail, vline, vinputs, count, value⟩ := v
      cases value with
      | guess node confidence sources =>
          have hlt : sizeOf node < k := by
            rw [← hsize]
            simp only [Node.mk.sizeOf_spec, Payload.guess.sizeOf_spec]
            omega
          rw [Node.certain]
          refine Relation.ReflTransGen.head ?_ (ih _ hlt node rfl)
          exact List.mem_append_right _ (List.mem_singleton_self node)
      | _ => rw [Node.certain_of_isGuess rfl]

end

end NucLlm.Whence
