import Mathlib.Logic.Relation
import NucLlm.Lib.Lists
import NucLlm.Whence.Operators

/-!
# Guesses

A guess is a value with a confidence and sources.  Operators compute with what
their guesses are about and are as confident as the least confident of them.
-/

namespace NucLlm.Whence

/-! ## The builtins -/

/-- A builtin's parameters, with the kinds that they are of where that is declared. -/
abbrev Sig := List (String × Option (List String))

/-- `_sig_fits`. -/
def sigFits (sig : Sig) (payloads : List Payload) : Bool :=
  sig.length = payloads.length &&
    (sig.zip payloads).all fun p ↦ p.1.2.all fun kinds ↦ kinds.contains p.2.kind

/-- `_sig_text`. -/
def sigText (name : String) (sig : Sig) : String :=
  let params := ", ".intercalate (sig.map Prod.fst)
  s!"{name}({params})"

/-- `_order_hint`. -/
def orderHint (name : String) (sig : Sig) (args : List Node) : String :=
  let payloads := args.map Node.value
  if sig.length ≠ args.length ∨ args.length < 2 then ""
  else if payloads.any Payload.isMiss then ""
  else if sigFits sig payloads then ""
  else if payloads.permutations.any (sigFits sig) then s!" (arguments fit {sigText name sig})"
  else ""

/-- A number from 0 to 1. -/
def asConfidence : Payload → Option Num
  | .num c =>
      if ((Num.int 0).less c || (Num.int 0).equal c) && (c.less (.int 1) || c.equal (.int 1)) then
        some c
      else none
  | _ => none

def guessSig : Sig := [("value", none), ("conf", some ["num"]), ("source", some ["str"])]

/-- `b_guess`. -/
def guess (F : FloatOps) (value conf source : Node) (line : ℕ) : Making Node :=
  let args := [value, conf, source]
  let hint := orderHint "guess" guessSig args
  let refuse (wanted : String) (p : Payload) : Making Node :=
    makeMiss s!"guess {wanted}, got {p.show F}{hint}" line "guess" args
  if args.any Node.isMiss then mergeMiss "builtin" "guess" line args
  else match asConfidence conf.value, source.value with
    | none, _ => refuse "confidence must be a number between 0 and 1" conf.value
    | some c, .str s =>
        let earlier := value.value.guessed
        derived "guess" s line args
          (mkGuess value.unguessed (leastConfidence (earlier.map Prod.fst ++ [c]))
            (earlier.flatMap Prod.snd ++ [s]))
    | some _, p => refuse "source must be a string" p

def sureSig : Sig := [("v", none), ("threshold", some ["num"])]

/-- `b_sure`. -/
def sure (F : FloatOps) (v threshold : Node) (line : ℕ) : Making Node :=
  let args := [v, threshold]
  let hint := orderHint "sure" sureSig args
  if args.any Node.isMiss then mergeMiss "builtin" "sure" line args
  else match asConfidence threshold.value, v.value with
    | none, _ =>
        makeMiss ("sure threshold must be a number between 0 and 1, got " ++
          s!"{threshold.value.show F}{hint}") line "sure" args
    | some t, .guess node confidence sources =>
        if t.less confidence || t.equal confidence then pure node
        else
          let names := ", ".intercalate sources
          makeMiss (s!"guess confidence {F.fmt2g confidence} below threshold {F.fmt2g t} " ++
            s!"({names})") line "sure" [v]
    | some _, _ => pure v

/-! ## Runs -/

/-- The nodes that a payload is made of. -/
def Payload.parts : Payload → List Node
  | .list items => items
  | .record fields => fields.map Prod.snd
  | .guess node _ _ => [node]
  | .explanation root => [root]
  | _ => []

section

variable (B : Budgets) (F : FloatOps)

/-- One more value of a run.  Operators and `guess` are the operations that make guesses: every
other one computes a payload that is no guess, passes on a payload or takes a value apart. -/
inductive ValueStep : List Node → List Node → Prop where
  | operation {made : List Node} {v : Node} (hinputs : ∀ m ∈ v.inputs, m ∈ made)
      (hparts : ∀ m ∈ v.value.parts, m ∈ made) (hvalue : v.value.isGuess = false) :
      ValueStep made (v :: made)
  | passOn {made : List Node} {v w : Node} (hw : w ∈ made) (hinputs : ∀ m ∈ v.inputs, m ∈ made)
      (hvalue : v.value = w.value) : ValueStep made (v :: made)
  | part {made : List Node} {v m : Node} (hv : v ∈ made) (hm : m ∈ v.inputs ++ v.value.parts) :
      ValueStep made (m :: made)
  | unary {made : List Node} {v : Node} (hv : v ∈ made) (op : UnOp) (line : ℕ) (t : Tally) :
      ValueStep made ((unary F op line v t).1 :: made)
  | binop {made : List Node} {l r : Node} (hl : l ∈ made) (hr : r ∈ made) (op : ArithOp) (line : ℕ)
      (t : Tally) : ValueStep made ((binop B F op l r line t).1 :: made)
  | compiledBinop {made : List Node} {l r : Node} (hl : l ∈ made) (hr : r ∈ made) (op : ArithOp)
      (line : ℕ) (t : Tally) : ValueStep made ((compiledBinop B F op l r line t).1 :: made)
  | guess {made : List Node} {value conf source : Node} (hvalue : value ∈ made)
      (hconf : conf ∈ made) (hsource : source ∈ made) (line : ℕ) (t : Tally) :
      ValueStep made ((guess F value conf source line t).1 :: made)
  | sure {made : List Node} {v threshold : Node} (hv : v ∈ made) (hthreshold : threshold ∈ made)
      (line : ℕ) (t : Tally) : ValueStep made ((sure F v threshold line t).1 :: made)

/-- The values that a run may have made so far. -/
abbrev MadeBy (made : List Node) : Prop := Relation.ReflTransGen (ValueStep B F) [] made

/-- What an operator or `guess` makes of these values. -/
inductive Operates : List Node → Node → Prop where
  | unary (op : UnOp) (v : Node) (line : ℕ) (t : Tally) : Operates [v] (unary F op line v t).1
  | binop (op : ArithOp) (l r : Node) (line : ℕ) (t : Tally) :
      Operates [l, r] (binop B F op l r line t).1
  | guess (value conf source : Node) (line : ℕ) (t : Tally) :
      Operates [value, conf, source] (guess F value conf source line t).1

/-- A value of a run. -/
structure RunValue where
  value : Node
  made : List Node
  madeBy : MadeBy B F made
  mem : value ∈ made

/-! ## Expressions -/

/-- An expression of operators over values of runs; a binary operator may be compiled. -/
inductive OpExpr where
  | leaf (v : RunValue B F)
  | unary (op : UnOp) (line : ℕ) (operand : OpExpr)
  | binary (compiled : Bool) (op : ArithOp) (line : ℕ) (left right : OpExpr)

namespace OpExpr

variable {B F}

/-- The value, where the leaves are read so. -/
def eval (read : Node → Node) : OpExpr B F → Making Node
  | leaf v => pure (read v.value)
  | unary op line operand => do
      let v ← operand.eval read
      Whence.unary F op line v
  | binary compiled op line left right => do
      let l ← left.eval read
      let r ← right.eval read
      if compiled then Whence.compiledBinop B F op l r line else Whence.binop B F op l r line

/-- The confidences and sources of the leaves that are guesses. -/
def guesses : OpExpr B F → List (Num × List String)
  | leaf v => v.value.value.guessed
  | unary _ _ operand => operand.guesses
  | binary _ _ _ left right => left.guesses ++ right.guesses

end OpExpr

/-! ## The value of an operation -/

section Values

variable {α β : Type}

@[simp] theorem bind_run (m : Making α) (f : α → Making β) (t : Tally) :
    (m >>= f) t = f (m t).1 (m t).2 := rfl

@[simp] theorem pure_run (a : α) (t : Tally) : (pure a : Making α) t = (a, t) := rfl

@[simp] theorem value_derived (op detail : String) (line : ℕ) (inputs : List Node) (p : Payload)
    (t : Tally) : (derived op detail line inputs p t).1.value = p := rfl

@[simp] theorem inputs_derived (op detail : String) (line : ℕ) (inputs : List Node) (p : Payload)
    (t : Tally) : (derived op detail line inputs p t).1.inputs = inputs := rfl

@[simp] theorem value_makeMiss (reason : String) (line : ℕ) (op : String) (inputs : List Node)
    (t : Tally) :
    (makeMiss reason line op inputs t).1.value = mkMiss [s!"{reason} (line {line})"] := rfl

@[simp] theorem value_mergeMiss (op detail : String) (line : ℕ) (operands : List Node) (t : Tally) :
    (mergeMiss op detail line operands t).1.value =
      mkMiss (operands.flatMap fun v ↦ v.value.reasons) := rfl

end Values

/-- What an operation makes of operands with these values is decided by the values. -/
def Decided (m m' : Making Node) : Prop := ∀ t t', (m t).1.value = (m' t').1.value

variable {B F}

theorem decided_numBinop (op : ArithOp) (l r : Num) (line : ℕ) (operands operands' : List Node) :
    Decided (numBinop B F op l r line operands) (numBinop B F op l r line operands') := by
  intro t t'
  unfold numBinop
  by_cases hzero : isZeroDivision op r = true
  · simp [hzero]
  · rw [if_neg hzero, if_neg hzero]
    cases intGrowth op l r with
    | none => cases numResult F op l r <;> simp
    | some nbits =>
        have hover : (overIntBits B nbits t).1 = (overIntBits B nbits t').1 := rfl
        simp only [bind_run, hover]
        split
        · simp
        · cases numResult F op l r <;> simp

theorem decided_concatenated (kind unit : String) (count nbytes : ℕ) (p : Payload) (line : ℕ)
    (operands operands' : List Node) :
    Decided (concatenated B kind unit count nbytes p line operands)
      (concatenated B kind unit count nbytes p line operands') := by
  intro t t'
  unfold concatenated
  rw [bind_run, bind_run]
  have hover : (overValue B nbytes t).1 = (overValue B nbytes t').1 := rfl
  rw [hover]
  split
  · simp
  · simp

theorem decided_otherBinop (op : ArithOp) (l r : Payload) (line : ℕ)
    (operands operands' : List Node) :
    Decided (otherBinop B F op l r line operands) (otherBinop B F op l r line operands') := by
  intro t t'
  unfold otherBinop
  cases op with
  | eq => cases l.deepEq r <;> simp
  | ne => cases l.deepEq r <;> simp
  | add =>
      dsimp only
      split
      · exact decided_concatenated _ _ _ _ _ line operands operands' t t'
      · simp
  | _ => simp

theorem decided_textBinop (op : ArithOp) (l r : String) (line : ℕ)
    (operands operands' : List Node) :
    Decided (textBinop B F op l r line operands) (textBinop B F op l r line operands') := by
  intro t t'
  unfold textBinop
  split
  · exact decided_concatenated _ _ _ _ _ line operands operands' t t'
  · cases strResult op l r with
    | none => exact decided_otherBinop op _ _ line operands operands' t t'
    | some b => simp

theorem binop_of_miss {op : ArithOp} {l r : Node} {line : ℕ} (h : (l.isMiss || r.isMiss) = true) :
    binop B F op l r line = mergeMiss op.symbol "" line [l, r] := by
  rw [binop]
  split
  · rename_i hl hr
    simp [Node.isMiss, hl, hr, Payload.isMiss] at h
  · rename_i hl hr
    simp [Node.isMiss, hl, hr, Payload.isMiss] at h
  · rw [if_pos h]

theorem binop_of_guess {op : ArithOp} {l r : Node} {line : ℕ}
    (hmiss : (l.isMiss || r.isMiss) = false) (h : (l.value.isGuess || r.value.isGuess) = true) :
    binop B F op l r line = (do
      let result ← binop B F op l.unguessed r.unguessed line
      if result.isMiss then pure result
      else
        let guessed := l.value.guessed ++ r.value.guessed
        derived op.symbol "guess" line [l, r]
          (mkGuess result (leastConfidence (guessed.map Prod.fst))
            (guessed.flatMap Prod.snd))) := by
  rw [binop]
  split
  · rename_i hl hr
    simp [hl, hr, Payload.isGuess] at h
  · rename_i hl hr
    simp [hl, hr, Payload.isGuess] at h
  · rw [if_neg (by simp [hmiss]), dif_pos h]

theorem binop_of_certain {op : ArithOp} {l r : Node} {line : ℕ}
    (hmiss : (l.isMiss || r.isMiss) = false)
    (hguess : (l.value.isGuess || r.value.isGuess) = false) :
    binop B F op l r line =
      match l.value, r.value with
      | .num a, .num b => numBinop B F op a b line [l, r]
      | .str a, .str b => textBinop B F op a b line [l, r]
      | a, b => otherBinop B F op a b line [l, r] := by
  rw [binop, if_neg (by simp [hmiss]), dif_neg (by simp [hguess])]
  generalize l.value = p, r.value = q
  cases p with
  | num a => cases q <;> rfl
  | str a => cases q <;> rfl
  | _ => rfl

/-- Where no operand is a guess, the values of the operands decide the value of the result. -/
theorem decided_binop {op : ArithOp} {l r l' r' : Node} {line : ℕ} (hl : l.value = l'.value)
    (hr : r.value = r'.value) (hguess : (l.value.isGuess || r.value.isGuess) = false) :
    Decided (binop B F op l r line) (binop B F op l' r' line) := by
  intro t t'
  have hmiss : (l.isMiss || r.isMiss) = (l'.isMiss || r'.isMiss) := by
    unfold Node.isMiss
    rw [hl, hr]
  by_cases h : (l.isMiss || r.isMiss) = true
  · rw [binop_of_miss h, binop_of_miss (hmiss ▸ h)]
    simp [hl, hr]
  · have hguess' : (l'.value.isGuess || r'.value.isGuess) = false := by
      rw [← hl, ← hr]
      exact hguess
    have h : (l.isMiss || r.isMiss) = false := by simpa using h
    rw [binop_of_certain h hguess, binop_of_certain (hmiss ▸ h) hguess', ← hl, ← hr]
    cases l.value with
    | num a =>
        cases r.value with
        | num b => exact decided_numBinop op a b line _ _ t t'
        | _ => exact decided_otherBinop op _ _ line _ _ t t'
    | str a =>
        cases r.value with
        | str b => exact decided_textBinop op a b line _ _ t t'
        | _ => exact decided_otherBinop op _ _ line _ _ t t'
    | _ => exact decided_otherBinop op _ _ line _ _ t t'

theorem unary_of_guess {op : UnOp} {line : ℕ} {v node : Node} {confidence : Num}
    {sources : List String} (h : v.value = .guess node confidence sources) :
    unary F op line v = (do
      let result ← unary F op line node
      if result.isMiss then pure result
      else derived op.symbol "guess" line [v] (mkGuess result confidence sources)) := by
  obtain ⟨id, vop, detail, vline, inputs, count, value⟩ := v
  obtain rfl : value = .guess node confidence sources := h
  rw [unary]

theorem unary_of_miss {op : UnOp} {line : ℕ} {v : Node} (h : v.isMiss = true) :
    unary F op line v = mergeMiss op.symbol "" line [v] := by
  obtain ⟨id, vop, detail, vline, inputs, count, value⟩ := v
  cases value with
  | miss reasons => rw [unary]
  | _ => contradiction

/-- Where the operand is no guess, its value decides the value of the result. -/
theorem decided_unary {op : UnOp} {v v' : Node} {line : ℕ} (hv : v.value = v'.value)
    (hguess : v.value.isGuess = false) : Decided (unary F op line v) (unary F op line v') := by
  intro t t'
  obtain ⟨id, vop, detail, vline, inputs, count, value⟩ := v
  obtain ⟨id', vop', detail', vline', inputs', count', value'⟩ := v'
  obtain rfl : value = value' := hv
  cases value with
  | guess node confidence sources => contradiction
  | _ => cases op <;> rfl

/-! ## What an operation makes -/

/-- The operation makes a node of these operands, no guess, and with no parts but these. -/
def MakesFrom (m : Making Node) (operands parts : List Node) : Prop :=
  ∀ t, (m t).1.inputs = operands ∧ (m t).1.value.isGuess = false ∧
    ∀ k ∈ (m t).1.value.parts, k ∈ parts

theorem makesFrom_derived (op detail : String) (line : ℕ) (operands parts : List Node) {p : Payload}
    (hguess : p.isGuess = false) (hparts : ∀ k ∈ p.parts, k ∈ parts) :
    MakesFrom (derived op detail line operands p) operands parts :=
  fun _ ↦ ⟨rfl, hguess, hparts⟩

theorem makesFrom_makeMiss (reason : String) (line : ℕ) (op : String) (operands parts : List Node) :
    MakesFrom (makeMiss reason line op operands) operands parts :=
  makesFrom_derived _ _ _ _ _ rfl nofun

theorem makesFrom_mergeMiss (op detail : String) (line : ℕ) (operands parts : List Node) :
    MakesFrom (mergeMiss op detail line operands) operands parts :=
  makesFrom_derived _ _ _ _ _ rfl nofun

/-- A payload without parts that is no guess. -/
def Payload.isAtom (p : Payload) : Prop := p.isGuess = false ∧ p.parts = []

theorem isAtom_numResult {op : ArithOp} {l r : Num} {p : Payload}
    (h : numResult F op l r = some p) : p.isAtom := by
  have hfloat : ∀ {x : Option Float64}, floatResult x = some p → p.isAtom := by
    intro x hx
    obtain ⟨y, _, rfl⟩ := Option.map_eq_some_iff.mp hx
    exact ⟨rfl, rfl⟩
  unfold numResult at h
  split at h
  all_goals first
    | exact hfloat h
    | (obtain rfl := Option.some.inj h; exact ⟨rfl, rfl⟩)

theorem makesFrom_atom (op detail : String) (line : ℕ) (operands parts : List Node) {p : Payload}
    (h : p.isAtom) : MakesFrom (derived op detail line operands p) operands parts := by
  apply makesFrom_derived _ _ _ _ _ h.1
  intro k hk
  rw [h.2] at hk
  contradiction

theorem makesFrom_numResult (op : ArithOp) (l r : Num) (line : ℕ) (operands parts : List Node) :
    MakesFrom
      (match numResult F op l r with
        | some p => derived op.symbol "" line operands p
        | none => makeMiss "number too large for float arithmetic" line op.symbol operands)
      operands parts := by
  cases h : numResult F op l r with
  | none => exact makesFrom_makeMiss _ _ _ _ _
  | some p => exact makesFrom_atom _ _ _ _ _ (isAtom_numResult h)

theorem makesFrom_numBinop (op : ArithOp) (l r : Num) (line : ℕ) (operands parts : List Node) :
    MakesFrom (numBinop B F op l r line operands) operands parts := by
  unfold numBinop
  split
  · exact makesFrom_makeMiss _ _ _ _ _
  · have hresult := @makesFrom_numResult F op l r line operands parts
    cases intGrowth op l r with
    | none => exact hresult
    | some nbits =>
        intro t
        simp only [bind_run]
        split
        · exact makesFrom_makeMiss _ _ _ _ _ _
        · exact hresult _

theorem makesFrom_concatenated (kind unit : String) (count nbytes : ℕ) {p : Payload} (line : ℕ)
    (operands parts : List Node) (hguess : p.isGuess = false) (hparts : ∀ k ∈ p.parts, k ∈ parts) :
    MakesFrom (concatenated B kind unit count nbytes p line operands) operands parts := by
  intro t
  unfold concatenated
  rw [bind_run]
  split
  · exact makesFrom_makeMiss _ _ _ _ _ _
  · exact makesFrom_derived _ _ _ _ _ hguess hparts _

theorem makesFrom_otherBinop (op : ArithOp) (l r : Payload) (line : ℕ) (operands : List Node) :
    MakesFrom (otherBinop B F op l r line operands) operands (l.parts ++ r.parts) := by
  unfold otherBinop
  cases op with
  | eq =>
      cases l.deepEq r with
      | none => exact makesFrom_makeMiss _ _ _ _ _
      | some eq => exact makesFrom_atom _ _ _ _ _ ⟨rfl, rfl⟩
  | ne =>
      cases l.deepEq r with
      | none => exact makesFrom_makeMiss _ _ _ _ _
      | some eq => exact makesFrom_atom _ _ _ _ _ ⟨rfl, rfl⟩
  | add =>
      dsimp only
      split
      · exact makesFrom_concatenated _ _ _ _ line operands _ rfl fun k hk ↦ hk
      · exact makesFrom_makeMiss _ _ _ _ _
  | _ => exact makesFrom_makeMiss _ _ _ _ _

theorem makesFrom_textBinop (op : ArithOp) (l r : String) (line : ℕ) (operands parts : List Node) :
    MakesFrom (textBinop B F op l r line operands) operands parts := by
  unfold textBinop
  split
  · exact makesFrom_concatenated _ _ _ _ line operands _ rfl nofun
  · cases strResult op l r with
    | none =>
        intro t
        obtain ⟨hinputs, hguess, hparts⟩ :=
          makesFrom_otherBinop (B := B) (F := F) op (.str l) (.str r) line operands t
        exact ⟨hinputs, hguess, fun k hk ↦ nomatch hparts k hk⟩
    | some b => exact makesFrom_atom _ _ _ _ _ ⟨rfl, rfl⟩

theorem makesFrom_binop {op : ArithOp} {l r : Node} {line : ℕ}
    (hguess : (l.value.isGuess || r.value.isGuess) = false) :
    MakesFrom (binop B F op l r line) [l, r] (l.value.parts ++ r.value.parts) := by
  rw [binop]
  split
  · exact makesFrom_numBinop op _ _ line _ _
  · exact makesFrom_textBinop op _ _ line _ _
  · split
    · exact makesFrom_mergeMiss _ _ _ _ _
    · rw [dif_neg (by simp [hguess])]
      exact makesFrom_otherBinop op _ _ line _

theorem makesFrom_unary {op : UnOp} {v : Node} {line : ℕ} (hguess : v.value.isGuess = false) :
    MakesFrom (unary F op line v) [v] v.value.parts := by
  obtain ⟨id, vop, detail, vline, inputs, count, value⟩ := v
  cases value with
  | guess node confidence sources => contradiction
  | miss reasons =>
      rw [unary]
      exact makesFrom_mergeMiss _ _ _ _ _
  | num n =>
      cases op with
      | neg => exact makesFrom_atom _ _ _ _ _ ⟨rfl, rfl⟩
      | not => exact makesFrom_makeMiss _ _ _ _ _
  | bool b =>
      cases op with
      | neg => exact makesFrom_makeMiss _ _ _ _ _
      | not => exact makesFrom_atom _ _ _ _ _ ⟨rfl, rfl⟩
  | _ =>
      cases op with
      | neg => exact makesFrom_makeMiss _ _ _ _ _
      | not => exact makesFrom_makeMiss _ _ _ _ _

/-! ## Confidences -/

/-- A confidence in units of `2 ^ -1074`. -/
def confidenceUnits (c : Num) : ℤ :=
  match c.exact with
  | .units n => n
  | _ => 0

/-- A number from 0 to 1. -/
def IsConfidence (c : Num) : Prop := ∃ n, c.exact = .units n ∧ 0 ≤ n ∧ n ≤ 2 ^ 1074

theorem IsConfidence.less_iff {c d : Num} (hc : IsConfidence c) (hd : IsConfidence d) :
    c.less d = true ↔ confidenceUnits c < confidenceUnits d := by
  obtain ⟨m, hm, _⟩ := hc
  obtain ⟨n, hn, _⟩ := hd
  simp [Num.less, confidenceUnits, hm, hn]

theorem isConfidence_of_asConfidence {p : Payload} {c : Num} (h : asConfidence p = some c) :
    p = .num c ∧ IsConfidence c := by
  unfold asConfidence at h
  split at h
  · split at h
    · rename_i hrange
      obtain rfl := Option.some.inj h
      refine ⟨rfl, ?_⟩
      have hzero : (Num.int 0).exact = .units 0 := by rw [Num.exact, zero_mul]
      have hone : (Num.int 1).exact = .units (2 ^ 1074) := by
        rw [Num.exact, one_mul]
      unfold IsConfidence
      simp only [Num.less, Num.equal, Num.isNaN, hzero, hone] at hrange
      generalize Num.exact _ = x at hrange ⊢
      generalize (2 : ℤ) ^ 1074 = bound at hrange ⊢
      cases x with
      | nan => simp at hrange
      | infinity negative => cases negative <;> simp at hrange
      | units n =>
          refine ⟨n, rfl, ?_⟩
          simp only [reduceCtorEq, decide_false, Bool.not_false, Bool.true_and, Exact.units.injEq,
            Bool.and_eq_true, Bool.or_eq_true, decide_eq_true_eq] at hrange
          omega
    · contradiction
  · contradiction

/-- The one of less confidence, or else the first. -/
def lesser (c d : Num) : Num := if confidenceUnits d < confidenceUnits c then d else c

instance : Std.Associative lesser where
  assoc a b c := by
    unfold lesser
    split_ifs <;> first | rfl | omega

theorem leastConfidence_cons {c : Num} {cs : List Num} (h : ∀ d ∈ c :: cs, IsConfidence d) :
    leastConfidence (c :: cs) = cs.foldl lesser c := by
  change cs.foldl (fun least c ↦ if c.less least then c else least) c = _
  induction cs generalizing c with
  | nil => rfl
  | cons d cs ih =>
      have hc := h c List.mem_cons_self
      have hd := h d (List.mem_cons_of_mem c List.mem_cons_self)
      have hstep : (if d.less c then d else c) = lesser c d := by
        unfold lesser
        by_cases hlt : confidenceUnits d < confidenceUnits c
        · rw [if_pos hlt, if_pos ((hd.less_iff hc).mpr hlt)]
        · rw [if_neg hlt, if_neg (mt (hd.less_iff hc).mp hlt)]
      rw [List.foldl_cons, List.foldl_cons, hstep]
      apply ih
      intro k hk
      rcases List.mem_cons.mp hk with rfl | hk
      · unfold lesser
        split
        · exact hd
        · exact hc
      · exact h k (List.mem_cons_of_mem c (List.mem_cons_of_mem d hk))

theorem foldl_lesser (c : Num) (cs : List Num) :
    cs.foldl lesser c ∈ c :: cs ∧
      ∀ d ∈ c :: cs, confidenceUnits (cs.foldl lesser c) ≤ confidenceUnits d := by
  induction cs generalizing c with
  | nil => simp
  | cons d cs ih =>
      obtain ⟨hmem, hleast⟩ := ih (lesser c d)
      have hlesser : lesser c d ∈ [c, d] := by
        unfold lesser
        split <;> simp
      have hle : confidenceUnits (lesser c d) ≤ confidenceUnits c ∧
          confidenceUnits (lesser c d) ≤ confidenceUnits d := by
        unfold lesser
        split <;> omega
      rw [List.foldl_cons]
      constructor
      · rcases List.mem_cons.mp hmem with heq | hmem
        · rw [heq]
          exact List.mem_append_left cs hlesser
        · exact List.mem_cons_of_mem c (List.mem_cons_of_mem d hmem)
      · have hfirst := hleast _ List.mem_cons_self
        intro k hk
        rcases List.mem_cons.mp hk with rfl | hk
        · exact Int.le_trans hfirst hle.1
        · rcases List.mem_cons.mp hk with rfl | hk
          · exact Int.le_trans hfirst hle.2
          · exact hleast k (List.mem_cons_of_mem _ hk)

/-- The least confidence is one of them, and none is less. -/
theorem leastConfidence_spec {cs : List Num} (hne : cs ≠ []) (h : ∀ c ∈ cs, IsConfidence c) :
    leastConfidence cs ∈ cs ∧ ∀ c ∈ cs, c.less (leastConfidence cs) = false := by
  obtain ⟨c, cs, rfl⟩ := List.exists_cons_of_ne_nil hne
  obtain ⟨hmem, hleast⟩ := foldl_lesser c cs
  rw [leastConfidence_cons h]
  constructor
  · exact hmem
  · intro d hd
    rw [← Bool.not_eq_true, (h d hd).less_iff (h _ hmem)]
    exact Int.not_lt.mpr (hleast d hd)

theorem isConfidence_least {cs : List Num} (hne : cs ≠ []) (h : ∀ c ∈ cs, IsConfidence c) :
    IsConfidence (leastConfidence cs) :=
  h _ (leastConfidence_spec hne h).1

/-- The least confidence of two lists is the lesser of theirs. -/
theorem leastConfidence_append {cs ds : List Num} (hcs : cs ≠ []) (hds : ds ≠ [])
    (h : ∀ c ∈ cs ++ ds, IsConfidence c) :
    leastConfidence (cs ++ ds) = lesser (leastConfidence cs) (leastConfidence ds) := by
  obtain ⟨c, cs, rfl⟩ := List.exists_cons_of_ne_nil hcs
  obtain ⟨d, ds, rfl⟩ := List.exists_cons_of_ne_nil hds
  have hleft : ∀ k ∈ c :: cs, IsConfidence k := fun k hk ↦ h k (List.mem_append_left _ hk)
  have hright : ∀ k ∈ d :: ds, IsConfidence k := fun k hk ↦ h k (List.mem_append_right _ hk)
  have hall : ∀ k ∈ c :: (cs ++ d :: ds), IsConfidence k := h
  rw [leastConfidence_cons hleft, leastConfidence_cons hright, List.cons_append,
    leastConfidence_cons hall, List.foldl_append, List.foldl_cons]
  exact List.foldl_assoc

theorem keepFirst_eq (texts : List String) : keepFirst texts = Lists.addNew [] texts := by
  unfold keepFirst Lists.addNew
  congr 1
  funext out r
  by_cases h : r ∈ out <;> simp [h]

theorem nodup_keepFirst (texts : List String) : (keepFirst texts).Nodup := by
  rw [keepFirst_eq]
  exact Lists.addNew_nodup List.nodup_nil

theorem keepFirst_of_nodup {texts : List String} (h : texts.Nodup) : keepFirst texts = texts := by
  rw [keepFirst_eq]
  induction texts using List.reverseRecOn with
  | nil => rfl
  | append_singleton texts a ih =>
      have hsplit := List.nodup_append.mp h
      rw [Lists.addNew_append, ih hsplit.1]
      apply if_neg
      intro ha
      exact hsplit.2.2 a ha a List.mem_cons_self rfl

theorem keepFirst_append (texts texts' : List String) :
    keepFirst (keepFirst texts ++ keepFirst texts') = keepFirst (texts ++ texts') := by
  simp only [keepFirst_eq, Lists.addNew_append, Lists.addNew_addNew]

/-! ## Sound guesses -/

/-- A guess is about something certain, with a confidence. -/
def SoundGuess : Payload → Prop
  | .guess node confidence sources =>
      node.value.isGuess = false ∧ node.isMiss = false ∧ IsConfidence confidence ∧ sources.Nodup
  | _ => True

/-- So are all guesses below the node. -/
inductive GuessesSound : Node → Prop where
  | mk {v : Node} (hguess : SoundGuess v.value)
      (hbelow : ∀ m ∈ v.inputs ++ v.value.parts, GuessesSound m) : GuessesSound v

theorem soundGuess_of_not {p : Payload} (h : p.isGuess = false) : SoundGuess p := by
  cases p with
  | guess node confidence sources => contradiction
  | _ => trivial

theorem GuessesSound.guess {v : Node} (h : GuessesSound v) : SoundGuess v.value := by
  cases h with
  | mk hguess _ => exact hguess

theorem GuessesSound.inside {v : Node} (h : GuessesSound v) :
    ∀ m ∈ v.inputs ++ v.value.parts, GuessesSound m := by
  cases h with
  | mk _ hbelow => exact hbelow

theorem GuessesSound.parts {v : Node} (h : GuessesSound v) : ∀ m ∈ v.value.parts, GuessesSound m :=
  fun m hm ↦ h.inside m (List.mem_append_right _ hm)

/-- The confidences and sources of a guess are those of a sound one. -/
theorem GuessesSound.guessed {v : Node} (h : GuessesSound v) :
    ∀ g ∈ v.value.guessed, IsConfidence g.1 ∧ g.2.Nodup := by
  intro g hg
  have hguess := h.guess
  cases hv : v.value with
  | guess node confidence sources =>
      rw [hv] at hguess hg
      obtain rfl := List.mem_singleton.mp hg
      exact ⟨hguess.2.2.1, hguess.2.2.2⟩
  | _ =>
      rw [hv] at hg
      contradiction

theorem guessed_eq_nil_iff (p : Payload) : p.guessed = [] ↔ p.isGuess = false := by
  cases p <;> simp [Payload.guessed, Payload.isGuess]

theorem unguessed_of_not {v : Node} (h : v.value.isGuess = false) : v.unguessed = v := by
  obtain ⟨id, op, detail, line, inputs, count, value⟩ := v
  cases value with
  | guess node confidence sources => contradiction
  | _ => rfl

/-- What a sound guess is about is neither a guess nor, unless the value is one, a miss. -/
theorem GuessesSound.unguessed {v : Node} (h : GuessesSound v) :
    GuessesSound v.unguessed ∧ v.unguessed.value.isGuess = false ∧
      (v.value.isGuess = true → v.unguessed.isMiss = false) := by
  have hguess := h.guess
  have hparts := h.parts
  obtain ⟨id, op, detail, line, inputs, count, value⟩ := v
  cases value with
  | guess node confidence sources =>
      exact ⟨hparts node List.mem_cons_self, hguess.1, fun _ ↦ hguess.2.1⟩
  | _ => exact ⟨h, rfl, nofun⟩

theorem MakesFrom.sound {m : Making Node} {operands parts : List Node}
    (h : MakesFrom m operands parts) (hoperands : ∀ k ∈ operands, GuessesSound k)
    (hparts : ∀ k ∈ parts, GuessesSound k) (t : Tally) : GuessesSound (m t).1 := by
  obtain ⟨hinputs, hguess, hmade⟩ := h t
  constructor
  · exact soundGuess_of_not hguess
  · intro k hk
    rcases List.mem_append.mp hk with hk | hk
    · exact hoperands k (hinputs ▸ hk)
    · exact hparts k (hmade k hk)

/-- A guess that an operator makes. -/
theorem sound_guess (op detail : String) (line : ℕ) {operands : List Node} {result : Node}
    (guessed : List (Num × List String)) (hoperands : ∀ k ∈ operands, GuessesSound k)
    (hresult : GuessesSound result) (hguess : result.value.isGuess = false)
    (hmiss : result.isMiss = false) (hne : guessed ≠ [])
    (hguessed : ∀ g ∈ guessed, IsConfidence g.1) (t : Tally) :
    GuessesSound (derived op detail line operands
      (mkGuess result (leastConfidence (guessed.map Prod.fst))
        (guessed.flatMap Prod.snd)) t).1 := by
  constructor
  · refine ⟨hguess, hmiss, ?_, nodup_keepFirst _⟩
    apply isConfidence_least
    · simpa using hne
    · intro c hc
      obtain ⟨g, hg, rfl⟩ := List.mem_map.mp hc
      exact hguessed g hg
  · intro k hk
    rcases List.mem_append.mp hk with hk | hk
    · exact hoperands k hk
    · obtain rfl := List.mem_singleton.mp hk
      exact hresult

theorem sound_binop {l r : Node} (hl : GuessesSound l) (hr : GuessesSound r) (op : ArithOp)
    (line : ℕ) (t : Tally) : GuessesSound (binop B F op l r line t).1 := by
  have hoperands : ∀ k ∈ [l, r], GuessesSound k := by simp [hl, hr]
  by_cases hmiss : (l.isMiss || r.isMiss) = true
  · rw [binop_of_miss hmiss]
    exact (makesFrom_mergeMiss op.symbol "" line [l, r] []).sound hoperands nofun t
  · by_cases hguess : (l.value.isGuess || r.value.isGuess) = true
    · rw [binop_of_guess (by simpa using hmiss) hguess, bind_run]
      obtain ⟨hl', hl'guess, _⟩ := hl.unguessed
      obtain ⟨hr', hr'guess, _⟩ := hr.unguessed
      have hmakes : MakesFrom (binop B F op l.unguessed r.unguessed line) _ _ :=
        makesFrom_binop (by simp [hl'guess, hr'guess])
      have hresult : GuessesSound (binop B F op l.unguessed r.unguessed line t).1 := by
        apply hmakes.sound _ _ t
        · simp [hl', hr']
        · intro k hk
          rcases List.mem_append.mp hk with hk | hk
          · exact hl'.parts k hk
          · exact hr'.parts k hk
      split
      · exact hresult
      · rename_i hkeep
        apply sound_guess _ _ _ _ hoperands hresult (hmakes t).2.1 (by simpa using hkeep)
        · intro hnil
          rw [List.append_eq_nil_iff, guessed_eq_nil_iff, guessed_eq_nil_iff] at hnil
          simp [hnil.1, hnil.2] at hguess
        · intro g hg
          rcases List.mem_append.mp hg with hg | hg
          · exact (hl.guessed g hg).1
          · exact (hr.guessed g hg).1
    · apply (makesFrom_binop (by simpa using hguess)).sound hoperands _ t
      intro k hk
      rcases List.mem_append.mp hk with hk | hk
      · exact hl.parts k hk
      · exact hr.parts k hk

theorem inlineResult_isAtom {op : ArithOp} {l r p : Payload} (h : inlineResult F op l r = some p) :
    p.isAtom := by
  unfold inlineResult at h
  split at h
  · cases op with
    | add | sub | mul | div | mod =>
        dsimp only at h
        split at h
        · contradiction
        · exact isAtom_numResult h
    | _ => exact isAtom_numResult h
  · obtain ⟨b, _, rfl⟩ := Option.map_eq_some_iff.mp h
    exact ⟨rfl, rfl⟩
  · contradiction

theorem sound_compiledBinop {l r : Node} (hl : GuessesSound l) (hr : GuessesSound r) (op : ArithOp)
    (line : ℕ) (t : Tally) : GuessesSound (compiledBinop B F op l r line t).1 := by
  unfold compiledBinop
  cases h : inlineResult F op l.value r.value with
  | none => exact sound_binop hl hr op line t
  | some p =>
      have hmakes := makesFrom_atom op.symbol "" line [l, r] [] (inlineResult_isAtom h)
      apply hmakes.sound _ nofun t
      simp [hl, hr]

theorem sound_unary {v : Node} (hv : GuessesSound v) (op : UnOp) (line : ℕ) (t : Tally) :
    GuessesSound (unary F op line v t).1 := by
  have hoperands : ∀ k ∈ [v], GuessesSound k := by simp [hv]
  cases hvalue : v.value with
  | guess node confidence sources =>
      have hguess := hv.guess
      have hparts := hv.parts
      rw [hvalue] at hguess hparts
      have hnode : GuessesSound node := hparts node List.mem_cons_self
      have hmakes : MakesFrom (unary F op line node) _ _ := makesFrom_unary hguess.1
      have hresult := hmakes.sound (by simp [hnode]) hnode.parts t
      rw [unary_of_guess hvalue, bind_run]
      split
      · exact hresult
      · rename_i hkeep
        have hsound := sound_guess op.symbol "guess" line [(confidence, sources)] hoperands hresult
          (hmakes t).2.1 (by simpa using hkeep) (List.cons_ne_nil _ _) (by simpa using hguess.2.2.1)
        simpa [leastConfidence] using hsound (unary F op line node t).2
  | _ =>
      apply (makesFrom_unary (by rw [hvalue]; rfl)).sound hoperands _ t
      exact hv.parts

theorem sound_guessBuiltin {value conf source : Node} (hvalue : GuessesSound value)
    (hconf : GuessesSound conf) (hsource : GuessesSound source) (line : ℕ) (t : Tally) :
    GuessesSound (guess F value conf source line t).1 := by
  have hargs : ∀ k ∈ [value, conf, source], GuessesSound k := by simp [hvalue, hconf, hsource]
  have hrefuse : ∀ reason : String,
      GuessesSound (makeMiss reason line "guess" [value, conf, source] t).1 :=
    fun reason ↦ (makesFrom_makeMiss reason line "guess" _ []).sound hargs nofun t
  unfold guess
  dsimp only
  split
  · exact (makesFrom_mergeMiss "builtin" "guess" line _ []).sound hargs nofun t
  · rename_i hmiss
    obtain ⟨hnode, hcertain, hpresent⟩ := hvalue.unguessed
    have hvmiss : value.unguessed.isMiss = false := by
      by_cases hguess : value.value.isGuess = true
      · exact hpresent hguess
      · rw [unguessed_of_not (by simpa using hguess)]
        simp only [List.any_cons, Bool.or_eq_true, not_or] at hmiss
        simpa using hmiss.1
    cases hc : asConfidence conf.value with
    | none => exact hrefuse _
    | some c =>
        cases hs : source.value with
        | str s =>
            have hguessed : ∀ g ∈ value.value.guessed ++ [(c, [s])], IsConfidence g.1 := by
              intro g hg
              rcases List.mem_append.mp hg with hg | hg
              · exact (hvalue.guessed g hg).1
              · obtain rfl := List.mem_singleton.mp hg
                exact (isConfidence_of_asConfidence hc).2
            have hsound := sound_guess "guess" s line _ hargs hnode hcertain hvmiss
              (List.append_ne_nil_of_right_ne_nil _ (List.cons_ne_nil _ _)) hguessed
            simpa using hsound t
        | _ => exact hrefuse _

theorem sound_sure {v threshold : Node} (hv : GuessesSound v) (hthreshold : GuessesSound threshold)
    (line : ℕ) (t : Tally) : GuessesSound (sure F v threshold line t).1 := by
  have hargs : ∀ k ∈ [v, threshold], GuessesSound k := by simp [hv, hthreshold]
  unfold sure
  dsimp only
  split
  · exact (makesFrom_mergeMiss "builtin" "sure" line _ []).sound hargs nofun t
  · cases asConfidence threshold.value with
    | none => exact (makesFrom_makeMiss _ line "sure" _ []).sound hargs nofun t
    | some c =>
        cases hvalue : v.value with
        | guess node confidence sources =>
            dsimp only
            split
            · have hparts := hv.parts
              rw [hvalue] at hparts
              exact hparts node List.mem_cons_self
            · apply (makesFrom_makeMiss _ line "sure" [v] []).sound _ nofun t
              simp [hv]
        | _ => exact hv

/-- In a run every guess is sound. -/
theorem MadeBy.sound {made : List Node} (h : MadeBy B F made) : ∀ v ∈ made, GuessesSound v := by
  induction h with
  | refl => exact nofun
  | tail _ hstep ih =>
      cases hstep with
      | operation hinputs hparts hvalue =>
          rintro v (_ | ⟨_, hv⟩)
          · constructor
            · exact soundGuess_of_not hvalue
            · intro m hm
              rcases List.mem_append.mp hm with hm | hm
              · exact ih m (hinputs m hm)
              · exact ih m (hparts m hm)
          · exact ih v hv
      | passOn hw hinputs hvalue =>
          rintro v (_ | ⟨_, hv⟩)
          · constructor
            · rw [hvalue]
              exact (ih _ hw).guess
            · intro m hm
              rcases List.mem_append.mp hm with hm | hm
              · exact ih m (hinputs m hm)
              · rw [hvalue] at hm
                exact (ih _ hw).parts m hm
          · exact ih v hv
      | part hv hm =>
          rintro w (_ | ⟨_, hw⟩)
          · exact (ih _ hv).inside _ hm
          · exact ih w hw
      | unary hv op line t =>
          rintro w (_ | ⟨_, hw⟩)
          · exact sound_unary (ih _ hv) op line t
          · exact ih w hw
      | binop hl hr op line t =>
          rintro w (_ | ⟨_, hw⟩)
          · exact sound_binop (ih _ hl) (ih _ hr) op line t
          · exact ih w hw
      | compiledBinop hl hr op line t =>
          rintro w (_ | ⟨_, hw⟩)
          · exact sound_compiledBinop (ih _ hl) (ih _ hr) op line t
          · exact ih w hw
      | guess hvalue hconf hsource line t =>
          rintro w (_ | ⟨_, hw⟩)
          · exact sound_guessBuiltin (ih _ hvalue) (ih _ hconf) (ih _ hsource) line t
          · exact ih w hw
      | sure hv hthreshold line t =>
          rintro w (_ | ⟨_, hw⟩)
          · exact sound_sure (ih _ hv) (ih _ hthreshold) line t
          · exact ih w hw

theorem guess_of_confidence {value conf source : Node} {c : Num} {s : String} {line : ℕ}
    (hmiss : [value, conf, source].any Node.isMiss = false) (hc : asConfidence conf.value = some c)
    (hs : source.value = .str s) :
    guess F value conf source line = derived "guess" s line [value, conf, source]
      (mkGuess value.unguessed (leastConfidence (value.value.guessed.map Prod.fst ++ [c]))
        (value.value.guessed.flatMap Prod.snd ++ [s])) := by
  unfold guess
  simp only [hmiss, hc, hs, Bool.false_eq_true, if_false]

/-! ## Compiled operators -/

theorem bitLength_le {n : ℤ} {k : ℕ} (hlow : -2 ^ k < n) (hhigh : n < 2 ^ k) : bitLength n ≤ k := by
  rw [bitLength_le_iff]
  have hcast : ((2 ^ k : ℕ) : ℤ) = 2 ^ k := by push_cast; rfl
  omega

/-- Small integers stay within every bound on integers. -/
theorem overIntBits_of_small {op : ArithOp} {l r : Num} {nbits : ℕ} (h : bigInts l r = false)
    (hgrowth : intGrowth op l r = some nbits) (t : Tally) : (overIntBits B nbits t).1 = false := by
  have hbits : nbits ≤ 128 := by
    cases l with
    | float x => cases op <;> simp [intGrowth] at hgrowth
    | int l =>
        cases r with
        | float y => cases op <;> simp [intGrowth] at hgrowth
        | int r =>
            simp only [bigInts, mulFastCut, Bool.not_eq_false', Bool.and_eq_true] at h
            have hl : bitLength l ≤ 64 :=
              bitLength_le (of_decide_eq_true h.1.1.1) (of_decide_eq_true h.1.1.2)
            have hr : bitLength r ≤ 64 :=
              bitLength_le (of_decide_eq_true h.1.2) (of_decide_eq_true h.2)
            cases op <;> simp [intGrowth] at hgrowth <;> omega
  change (B.maxIntBits.any fun cap ↦ decide (cap < nbits)) = false
  cases hcap : B.maxIntBits with
  | none => rfl
  | some cap =>
      have hmin := B.minMaxIntBits cap hcap
      simp only [Option.any_some, decide_eq_false_iff_not]
      omega

theorem value_numBinop_of_small {op : ArithOp} {l r : Num} {p : Payload} (line : ℕ)
    (operands : List Node) (hsmall : intGrowth op l r = none ∨ bigInts l r = false)
    (hzero : isZeroDivision op r = false) (hresult : numResult F op l r = some p) (t : Tally) :
    (numBinop B F op l r line operands t).1.value = p := by
  unfold numBinop
  rw [if_neg (by simp [hzero]), hresult]
  cases hgrowth : intGrowth op l r with
  | none => rfl
  | some nbits =>
      have hsmall : bigInts l r = false := by simpa [hgrowth] using hsmall
      simp [overIntBits_of_small hsmall hgrowth]

/-- A compiled operator computes what `binop` does. -/
theorem value_compiledBinop (op : ArithOp) (l r : Node) (line : ℕ) (t : Tally) :
    (compiledBinop B F op l r line t).1.value = (binop B F op l r line t).1.value := by
  unfold compiledBinop
  cases h : inlineResult F op l.value r.value with
  | none => rfl
  | some p =>
      rw [binop]
      unfold inlineResult at h
      split at h
      · rename_i a b hl hr
        rw [hl, hr]
        cases op with
        | add | sub | mul =>
            dsimp only at h
            split at h
            · contradiction
            · rename_i hsmall
              exact (value_numBinop_of_small line _ (.inr (by simpa using hsmall)) rfl h t).symm
        | div | mod =>
            dsimp only at h
            split at h
            · contradiction
            · rename_i hzero
              have hdiv : ∀ op, isZeroDivision op b = false := by
                intro op
                simp only [isZeroDivision, Bool.and_eq_false_iff]
                exact .inr (by simpa using hzero)
              cases a <;> cases b <;>
                exact (value_numBinop_of_small line _ (.inl rfl) (hdiv _) h t).symm
        | _ =>
            cases a <;> cases b <;>
              exact (value_numBinop_of_small line _ (.inl rfl) rfl h t).symm
      · rename_i a b hl hr
        obtain ⟨verdict, hverdict, rfl⟩ := Option.map_eq_some_iff.mp h
        rw [hl, hr]
        unfold textBinop
        have hadd : op ≠ .add := by
          rintro rfl
          contradiction
        simp [hadd, hverdict]
      · contradiction

/-! ## The homomorphism -/

/-- `u` is the value without guesses and `v` the value with guesses of these confidences and
sources. -/
structure Wraps (guesses : List (Num × List String)) (v u : Node) : Prop where
  certain : u.value.isGuess = false
  value : v.unguessed.value = u.value
  guessed : v.value.guessed = if u.isMiss || guesses.isEmpty then []
    else [(leastConfidence (guesses.map Prod.fst), keepFirst (guesses.flatMap Prod.snd))]

section Wraps

variable {guesses guesses' : List (Num × List String)} {v u v' u' : Node}

theorem Wraps.eq_of_certain (h : Wraps guesses v u) (hv : v.value.isGuess = false) :
    v.value = u.value := by
  rw [← h.value, unguessed_of_not hv]

theorem Wraps.isGuess_iff (h : Wraps guesses v u) :
    v.value.isGuess = true ↔ u.isMiss = false ∧ guesses ≠ [] := by
  rw [← Bool.not_eq_false, ← guessed_eq_nil_iff, h.guessed]
  cases u.isMiss <;> simp

theorem Wraps.isMiss (h : Wraps guesses v u) : v.isMiss = u.isMiss := by
  by_cases hv : v.value.isGuess = true
  · rw [(h.isGuess_iff.mp hv).1]
    unfold Node.isMiss
    cases hvalue : v.value <;> simp_all [Payload.isGuess, Payload.isMiss]
  · unfold Node.isMiss
    rw [h.eq_of_certain (by simpa using hv)]

theorem Wraps.reasons (h : Wraps guesses v u) : v.value.reasons = u.value.reasons := by
  by_cases hv : v.value.isGuess = true
  · have hmiss := (h.isGuess_iff.mp hv).1
    unfold Node.isMiss at hmiss
    have hu : u.value.reasons = [] := by
      cases hvalue : u.value <;> simp_all [Payload.isMiss, Payload.reasons]
    rw [hu]
    cases hvalue : v.value <;> simp_all [Payload.isGuess, Payload.reasons]
  · rw [h.eq_of_certain (by simpa using hv)]

/-- A value without guesses wraps itself. -/
theorem wraps_of_eq (hu : u.value.isGuess = false) (hvalue : v.value = u.value)
    (hguesses : u.isMiss = true ∨ guesses = []) : Wraps guesses v u := by
  have hv : v.value.isGuess = false := hvalue ▸ hu
  refine ⟨hu, by rw [unguessed_of_not hv, hvalue], ?_⟩
  rw [(guessed_eq_nil_iff v.value).mpr hv]
  rcases hguesses with hmiss | rfl
  · simp [hmiss]
  · simp

theorem wraps_guess (op detail : String) (line : ℕ) (operands : List Node) {result : Node}
    (given : List (Num × List String)) (hu : u.value.isGuess = false)
    (hresult : result.value = u.value) (hmiss : result.isMiss = false) (hne : guesses ≠ [])
    (hleast : leastConfidence (given.map Prod.fst) = leastConfidence (guesses.map Prod.fst))
    (hsources : keepFirst (given.flatMap Prod.snd) = keepFirst (guesses.flatMap Prod.snd))
    (t : Tally) :
    Wraps guesses (derived op detail line operands
      (mkGuess result (leastConfidence (given.map Prod.fst)) (given.flatMap Prod.snd)) t).1 u := by
  have humiss : u.isMiss = false := by
    unfold Node.isMiss at hmiss ⊢
    rwa [← hresult]
  refine ⟨hu, hresult, ?_⟩
  change [(_, _)] = _
  rw [hleast, hsources]
  simp [humiss, hne]

/-- The confidences and sources of two guesses together. -/
theorem combined {given given' : List (Num × List String)}
    (hconf : ∀ g ∈ guesses ++ guesses', IsConfidence g.1)
    (hgiven : given = if guesses.isEmpty then []
      else [(leastConfidence (guesses.map Prod.fst), keepFirst (guesses.flatMap Prod.snd))])
    (hgiven' : given' = if guesses'.isEmpty then []
      else [(leastConfidence (guesses'.map Prod.fst), keepFirst (guesses'.flatMap Prod.snd))]) :
    leastConfidence ((given ++ given').map Prod.fst) =
        leastConfidence ((guesses ++ guesses').map Prod.fst) ∧
      keepFirst ((given ++ given').flatMap Prod.snd) =
        keepFirst ((guesses ++ guesses').flatMap Prod.snd) := by
  have hkeep : ∀ texts, keepFirst (keepFirst texts) = keepFirst texts := by
    intro texts
    exact keepFirst_of_nodup (nodup_keepFirst texts)
  by_cases h : guesses = []
  · by_cases h' : guesses' = []
    · simp [hgiven, hgiven', h, h']
    · simp [hgiven, hgiven', h, h', hkeep, leastConfidence]
  · by_cases h' : guesses' = []
    · simp [hgiven, hgiven', h, h', hkeep, leastConfidence]
    · have hleft : ∀ c ∈ guesses.map Prod.fst, IsConfidence c := by
        intro c hc
        obtain ⟨g, hg, rfl⟩ := List.mem_map.mp hc
        exact hconf g (List.mem_append_left _ hg)
      have hright : ∀ c ∈ guesses'.map Prod.fst, IsConfidence c := by
        intro c hc
        obtain ⟨g, hg, rfl⟩ := List.mem_map.mp hc
        exact hconf g (List.mem_append_right _ hg)
      have hne : guesses.map Prod.fst ≠ [] := by simpa using h
      have hne' : guesses'.map Prod.fst ≠ [] := by simpa using h'
      have hall : ∀ c ∈ guesses.map Prod.fst ++ guesses'.map Prod.fst, IsConfidence c := by
        intro c hc
        rcases List.mem_append.mp hc with hc | hc
        · exact hleft c hc
        · exact hright c hc
      have htwo : ∀ c ∈ [leastConfidence (guesses.map Prod.fst),
          leastConfidence (guesses'.map Prod.fst)], IsConfidence c := by
        simp [isConfidence_least hne hleft, isConfidence_least hne' hright]
      have hleast := leastConfidence_append hne hne' hall
      rw [← List.map_append] at hleast
      constructor
      · rw [hleast]
        simpa [hgiven, hgiven', h, h'] using leastConfidence_cons htwo
      · simp [hgiven, hgiven', h, h', keepFirst_append]

theorem value_unguessed {v v' : Node} (h : v.value = v'.value) :
    v.unguessed.value = v'.unguessed.value := by
  obtain ⟨id, op, detail, line, inputs, count, value⟩ := v
  obtain ⟨id', op', detail', line', inputs', count', value'⟩ := v'
  obtain rfl : value = value' := h
  cases value with
  | _ => rfl

/-- Only the values count. -/
theorem Wraps.congr (h : Wraps guesses v u) (hv : v'.value = v.value) (hu : u'.value = u.value) :
    Wraps guesses v' u' := by
  have humiss : u'.isMiss = u.isMiss := by
    unfold Node.isMiss
    rw [hu]
  constructor
  · rw [hu]
    exact h.certain
  · rw [value_unguessed hv, hu]
    exact h.value
  · rw [hv, humiss]
    exact h.guessed

theorem wraps_leaf (hv : GuessesSound v) : Wraps v.value.guessed v v.unguessed := by
  obtain ⟨_, hcertain, hpresent⟩ := hv.unguessed
  by_cases hguess : v.value.isGuess = true
  · refine ⟨hcertain, rfl, ?_⟩
    rw [hpresent hguess]
    have hsound := hv.guess
    cases hvalue : v.value with
    | guess node confidence sources =>
        rw [hvalue] at hsound
        simp [Payload.guessed, leastConfidence, keepFirst_of_nodup hsound.2.2.2]
    | _ =>
        rw [hvalue] at hguess
        contradiction
  · have hcertain : v.value.isGuess = false := by simpa using hguess
    rw [unguessed_of_not hcertain]
    apply wraps_of_eq hcertain rfl
    exact .inr ((guessed_eq_nil_iff v.value).mpr hcertain)

/-- Where neither value is a miss, a guess has what is guessed. -/
theorem Wraps.guessed_of_present (h : Wraps guesses v u) (hmiss : v.isMiss = false) :
    v.value.guessed = if guesses.isEmpty then []
      else [(leastConfidence (guesses.map Prod.fst), keepFirst (guesses.flatMap Prod.snd))] := by
  rw [h.guessed, ← h.isMiss, hmiss, Bool.false_or]

theorem Wraps.guesses_of_certain (h : Wraps guesses v u) (hmiss : v.isMiss = false)
    (hv : v.value.isGuess = false) : guesses = [] := by
  by_contra hne
  have hguess := h.isGuess_iff.mpr ⟨by rw [← h.isMiss, hmiss], hne⟩
  rw [hv] at hguess
  contradiction

/-- `binop` on wrapped operands wraps what it makes without guesses. -/
theorem Wraps.binop {l r u w : Node} (hl : Wraps guesses l u) (hr : Wraps guesses' r w)
    (hconf : ∀ g ∈ guesses ++ guesses', IsConfidence g.1) (op : ArithOp) (line : ℕ) (t t' : Tally) :
    Wraps (guesses ++ guesses') (binop B F op l r line t).1 (binop B F op u w line t').1 := by
  have hcertain : (u.value.isGuess || w.value.isGuess) = false := by simp [hl.certain, hr.certain]
  have hmade : (Whence.binop B F op u w line t').1.value.isGuess = false :=
    (makesFrom_binop hcertain t').2.1
  by_cases hmiss : (l.isMiss || r.isMiss) = true
  · have hmiss' : (u.isMiss || w.isMiss) = true := by rwa [← hl.isMiss, ← hr.isMiss]
    apply wraps_of_eq hmade
    · rw [binop_of_miss hmiss, binop_of_miss hmiss']
      simp [hl.reasons, hr.reasons]
    · rw [binop_of_miss hmiss']
      exact .inl rfl
  · have hmiss : (l.isMiss || r.isMiss) = false := by simpa using hmiss
    obtain ⟨hlmiss, hrmiss⟩ := Bool.or_eq_false_iff.mp hmiss
    by_cases hguess : (l.value.isGuess || r.value.isGuess) = true
    · -- The same is computed inside, and then wrapped with all that is guessed.
      have hinside : (l.unguessed.value.isGuess || r.unguessed.value.isGuess) = false := by
        rw [hl.value, hr.value]
        exact hcertain
      rw [binop_of_guess hmiss hguess, bind_run]
      have hdecided : Decided (Whence.binop B F op l.unguessed r.unguessed line)
          (Whence.binop B F op u w line) := decided_binop hl.value hr.value hinside
      have hvalue := hdecided t t'
      split
      · rename_i hresult
        apply wraps_of_eq hmade hvalue
        unfold Node.isMiss at hresult ⊢
        rw [hvalue] at hresult
        exact .inl hresult
      · rename_i hresult
        obtain ⟨hleast, hsources⟩ := combined hconf (hl.guessed_of_present hlmiss)
          (hr.guessed_of_present hrmiss)
        apply wraps_guess _ _ _ _ _ hmade hvalue (by simpa using hresult) _ hleast hsources
        intro hnil
        obtain ⟨rfl, rfl⟩ := List.append_eq_nil_iff.mp hnil
        rcases Bool.or_eq_true_iff.mp hguess with hguess | hguess
        · exact (hl.isGuess_iff.mp hguess).2 rfl
        · exact (hr.isGuess_iff.mp hguess).2 rfl
    · have hguess : (l.value.isGuess || r.value.isGuess) = false := by simpa using hguess
      obtain ⟨hlguess, hrguess⟩ := Bool.or_eq_false_iff.mp hguess
      apply wraps_of_eq hmade
      · exact decided_binop (hl.eq_of_certain hlguess) (hr.eq_of_certain hrguess) hguess t t'
      · simp [hl.guesses_of_certain hlmiss hlguess, hr.guesses_of_certain hrmiss hrguess]

theorem Wraps.compiledBinop {l r u w : Node} (hl : Wraps guesses l u) (hr : Wraps guesses' r w)
    (hconf : ∀ g ∈ guesses ++ guesses', IsConfidence g.1) (op : ArithOp) (line : ℕ) (t t' : Tally) :
    Wraps (guesses ++ guesses') (compiledBinop B F op l r line t).1
      (compiledBinop B F op u w line t').1 :=
  (hl.binop hr hconf op line t t').congr (value_compiledBinop op l r line t)
    (value_compiledBinop op u w line t')

theorem Wraps.unary (h : Wraps guesses v u) (op : UnOp) (line : ℕ) (t t' : Tally) :
    Wraps guesses (unary F op line v t).1 (unary F op line u t').1 := by
  have hmade : (Whence.unary F op line u t').1.value.isGuess = false :=
    (makesFrom_unary h.certain t').2.1
  cases hvalue : v.value with
  | guess node confidence sources =>
      have hnode : node.value = u.value := by
        rw [← h.value]
        obtain ⟨id, vop, detail, vline, inputs, count, value⟩ := v
        obtain rfl : value = .guess node confidence sources := hvalue
        rfl
      have hguessed : v.value.guessed = [(confidence, sources)] := by
        rw [hvalue]
        rfl
      obtain ⟨hpresent, hne⟩ := h.isGuess_iff.mp (by rw [hvalue]; rfl)
      have hdecided : Decided (Whence.unary F op line node) (Whence.unary F op line u) :=
        decided_unary hnode (by rw [hnode]; exact h.certain)
      have hresult := hdecided t t'
      rw [unary_of_guess hvalue, bind_run]
      split
      · rename_i hmiss
        apply wraps_of_eq hmade hresult
        unfold Node.isMiss at hmiss ⊢
        rw [hresult] at hmiss
        exact .inl hmiss
      · rename_i hmiss
        have hwhole : (confidence, sources) =
            (leastConfidence (guesses.map Prod.fst), keepFirst (guesses.flatMap Prod.snd)) := by
          have hall := h.guessed
          rw [hguessed, hpresent] at hall
          simpa [hne] using hall
        obtain ⟨hconfidence, hsources⟩ := Prod.mk.inj hwhole
        have hwraps := wraps_guess op.symbol "guess" line [v] [(confidence, sources)] hmade hresult
          (by simpa using hmiss) hne hconfidence
          (by simp [hsources, keepFirst_of_nodup (nodup_keepFirst _)])
        simpa [leastConfidence] using hwraps (Whence.unary F op line node t).2
  | _ =>
      have hcertain : v.value.isGuess = false := by
        rw [hvalue]
        rfl
      apply wraps_of_eq hmade
      · exact decided_unary (h.eq_of_certain hcertain) hcertain t t'
      · by_cases hmiss : v.isMiss = true
        · rw [h.isMiss] at hmiss
          rw [unary_of_miss hmiss]
          exact .inl rfl
        · exact .inr (h.guesses_of_certain (by simpa using hmiss) hcertain)

end Wraps

theorem OpExpr.isConfidence (e : OpExpr B F) : ∀ g ∈ e.guesses, IsConfidence g.1 := by
  induction e with
  | leaf v =>
      intro g hg
      exact ((v.madeBy.sound v.value v.mem).guessed g hg).1
  | unary op line operand ih => exact ih
  | binary compiled op line left right ihleft ihright =>
      intro g hg
      rcases List.mem_append.mp hg with hg | hg
      · exact ihleft g hg
      · exact ihright g hg

/-- An expression wraps what it is without guesses. -/
theorem OpExpr.wraps (e : OpExpr B F) (t t' : Tally) :
    Wraps e.guesses (e.eval (fun v ↦ v) t).1 (e.eval Node.unguessed t').1 := by
  induction e generalizing t t' with
  | leaf v => exact wraps_leaf (v.madeBy.sound v.value v.mem)
  | unary op line operand ih => exact (ih t t').unary op line _ _
  | binary compiled op line left right ihleft ihright =>
      have hconf := (OpExpr.binary compiled op line left right).isConfidence
      cases compiled with
      | false => exact (ihleft _ _).binop (ihright _ _) hconf op line _ _
      | true => exact (ihleft _ _).compiledBinop (ihright _ _) hconf op line _ _

end

/-- Guesses propagate as the values inside of them do: an expression is a miss exactly where it is
one with every guess replaced by what it is about, with the same reasons.  Otherwise it is a guess
exactly where some operand is one: about the value without guesses, with the least confidence of
the operands and all of their sources.  In every run a guess is about something that is neither a
guess nor a miss, and its confidence is a number from 0 to 1. -/
theorem guesses_propagate (B : Budgets) (F : FloatOps) :
    (∀ (e : OpExpr B F) (t t' : Tally),
      let v := (e.eval (fun v ↦ v) t).1
      let u := (e.eval Node.unguessed t').1
      v.isMiss = u.isMiss ∧ v.value.reasons = u.value.reasons ∧
        (v.isMiss = false →
          (v.value.isGuess = true ↔ e.guesses ≠ []) ∧
          (v.value.isGuess = false → v.value = u.value) ∧
          ∀ node confidence sources, v.value = .guess node confidence sources →
            node.value = u.value ∧
            (confidence ∈ e.guesses.map Prod.fst ∧
              ∀ c ∈ e.guesses.map Prod.fst, c.less confidence = false) ∧
            sources = keepFirst (e.guesses.flatMap Prod.snd))) ∧
      ∀ made, MadeBy B F made → ∀ v ∈ made, ∀ node confidence sources,
        v.value = .guess node confidence sources →
          node.value.isGuess = false ∧ node.isMiss = false ∧ IsConfidence confidence := by
  constructor
  · intro e t t' v u
    have hwraps : Wraps e.guesses v u := e.wraps t t'
    refine ⟨hwraps.isMiss, hwraps.reasons, ?_⟩
    intro hmiss
    have humiss : u.isMiss = false := hwraps.isMiss ▸ hmiss
    refine ⟨?_, hwraps.eq_of_certain, ?_⟩
    · rw [hwraps.isGuess_iff]
      simp [humiss]
    · intro node confidence sources hvalue
      obtain ⟨_, hne⟩ := hwraps.isGuess_iff.mp (by rw [hvalue]; rfl)
      have hnode : v.unguessed.value = node.value := by
        generalize v = v at hvalue
        obtain ⟨id, op, detail, line, inputs, count, value⟩ := v
        obtain rfl : value = .guess node confidence sources := hvalue
        rfl
      have hguessed := hwraps.guessed_of_present hmiss
      rw [hvalue] at hguessed
      have hconfidence : confidence = leastConfidence (e.guesses.map Prod.fst) ∧
          sources = keepFirst (e.guesses.flatMap Prod.snd) := by
        simpa [Payload.guessed, hne] using hguessed
      obtain ⟨rfl, rfl⟩ := hconfidence
      refine ⟨by rw [← hnode, hwraps.value], ?_, rfl⟩
      apply leastConfidence_spec
      · simpa using hne
      · intro c hc
        obtain ⟨g, hg, rfl⟩ := List.mem_map.mp hc
        exact e.isConfidence g hg
  · intro made hmade v hv node confidence sources hvalue
    have hsound := (hmade.sound v hv).guess
    rw [hvalue] at hsound
    exact ⟨hsound.1, hsound.2.1, hsound.2.2.1⟩

end NucLlm.Whence
