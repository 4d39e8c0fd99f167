import NucLlm.Whence.Double
import NucLlm.Whence.Show

/-!
# Operators

What the operators make of values.  A miss among the operands is passed on, and
a guess among them makes the result a guess.  Every operation makes its node
anew, and the growth of values is charged to budgets.
-/

namespace NucLlm.Whence

/-! ## Making nodes -/

/-- The budgets of an interpreter; a bound on integers is at least
`MIN_MAX_INT_BITS`. -/
structure Budgets where
  maxValue : Option ℕ
  maxIntBits : Option ℕ
  minMaxIntBits : ∀ m ∈ maxIntBits, 128 ≤ m

/-- The identity of the next node, and the largest sizes charged so far. -/
structure Tally where
  next : ℕ := 0
  peakValue : ℕ := 0
  peakIntBits : ℕ := 0

abbrev Making (α : Type) := StateM Tally α

/-- `derived`. -/
def derived (op detail : String) (line : ℕ) (inputs : List Node) (value : Payload) : Making Node :=
  modifyGet fun t ↦
    (.mk (.made t.next) op detail line inputs 1 value, { t with next := t.next + 1 })

/-- `mk_miss` without a detail of its own. -/
def makeMiss (reason : String) (line : ℕ) (op : String) (inputs : List Node) : Making Node :=
  derived op reason line inputs (mkMiss [s!"{reason} (line {line})"])

/-- `merge_miss`. -/
def mergeMiss (op detail : String) (line : ℕ) (operands : List Node) : Making Node :=
  derived op detail line operands (mkMiss (operands.flatMap fun v ↦ v.value.reasons))

/-- `_over_value`. -/
def overValue (B : Budgets) (nbytes : ℕ) : Making Bool :=
  modifyGet fun t ↦
    (B.maxValue.any fun cap ↦ cap < nbytes, { t with peakValue := max t.peakValue nbytes })

/-- `_over_int_bits`. -/
def overIntBits (B : Budgets) (nbits : ℕ) : Making Bool :=
  modifyGet fun t ↦
    (B.maxIntBits.any fun cap ↦ cap < nbits, { t with peakIntBits := max t.peakIntBits nbits })

/-- The reason of `_int_size_miss`. -/
def intSizeReason (B : Budgets) (nbits : ℕ) : String :=
  let cap := B.maxIntBits.getD 0
  s!"integer too large: {showInteger nbits} bits, over max_int_bits {cap} " ++
    "(raise it with --max-int-bits N, or 0 for unbounded)"

/-- The reason of `_size_miss`. -/
def sizeReason (B : Budgets) (kind unit : String) (count nbytes : ℕ) : String :=
  let cap := B.maxValue.getD 0
  s!"{kind} too large: {showInteger count} {unit} is {showInteger nbytes} bytes, " ++
    s!"over max_value {cap} (raise it with --max-value N, or 0 for unbounded)"

/-! ## Equality -/

namespace Payload

/-- `isinstance(p, _OPAQUE)`. -/
def isOpaque : Payload → Bool
  | .closure _ | .builtin _ | .miss _ | .explanation _ => true
  | _ => false

end Payload

mutual

/-- `deep_eq` of the payloads of two nodes, without a memo. -/
def Node.deepEq : Node → Payload → Option Bool
  | .mk _ _ _ _ _ _ value, r => value.deepEq r

/-- `deep_eq` without a memo: nothing where it meets something opaque. -/
def Payload.deepEq (l r : Payload) : Option Bool :=
  if l.isOpaque || r.isOpaque then none
  else match l, r with
    | .bool b, .bool b' => some (b = b')
    | .num n, .num n' => some (n.equal n')
    | .str s, .str s' => some (s = s')
    | .list items, .list items' =>
        if items.length = items'.length then deepEqItems items items' else some false
    | .record fields, .record fields' =>
        if (Fields.keys fields).all (Fields.keys fields').contains &&
            (Fields.keys fields').all (Fields.keys fields).contains then
          deepEqFields fields fields'
        else some false
    | .guess node _ _, .guess node' _ _ => node.deepEq node'.value
    | _, _ => some false

/-- The last pair comes first off the stack. -/
def deepEqItems : List Node → List Node → Option Bool
  | v :: vs, w :: ws =>
      match deepEqItems vs ws with
      | some true => v.deepEq w.value
      | verdict => verdict
  | _, _ => some true

def deepEqFields : List (String × Node) → List (String × Node) → Option Bool
  | [], _ => some true
  | (key, v) :: fields, fields' =>
      match deepEqFields fields fields' with
      | some true => ((Fields.get? fields' key).map fun w ↦ v.deepEq w.value).getD (some true)
      | verdict => verdict

end

mutual

/-- The kind of the first opaque payload, depth first. -/
def Payload.opaqueKind : Payload → Option String
  | .closure _ | .builtin _ => some "functions"
  | .explanation _ => some "explanations"
  | .miss _ => some "misses"
  | .list items => opaqueKindItems items
  | .record fields => opaqueKindFields fields
  | _ => none

def Node.opaqueKind : Node → Option String
  | .mk _ _ _ _ _ _ value => value.opaqueKind

def opaqueKindItems : List Node → Option String
  | [] => none
  | v :: vs => v.opaqueKind.or (opaqueKindItems vs)

def opaqueKindFields : List (String × Node) → Option String
  | [] => none
  | (_, v) :: fields => v.opaqueKind.or (opaqueKindFields fields)

end

/-- `_incomparable_kind`. -/
def incomparableKind (l r : Payload) : String := (l.opaqueKind.or r.opaqueKind).getD "functions"

/-! ## Unary operators -/

def UnOp.symbol : UnOp → String
  | .neg => "-"
  | .not => "not"

def Num.neg (F : FloatOps) : Num → Num
  | .int n => .int (-n)
  | .float x => .float (F.neg x)

/-- `_unary`. -/
def unary (F : FloatOps) (op : UnOp) (line : ℕ) (v : Node) : Making Node :=
  match op, v with
  | op, .mk _ _ _ _ _ _ (.guess node confidence sources) => do
      let result ← unary F op line node
      if result.isMiss then pure result
      else derived op.symbol "guess" line [v] (mkGuess result confidence sources)
  | op, .mk _ _ _ _ _ _ (.miss _) => mergeMiss op.symbol "" line [v]
  | .neg, .mk _ _ _ _ _ _ (.num n) => derived "-" "negate" line [v] (.num (n.neg F))
  | .neg, .mk _ _ _ _ _ _ p => makeMiss s!"cannot negate {p.show F}" line "-" [v]
  | .not, .mk _ _ _ _ _ _ (.bool b) => derived "not" "" line [v] (.bool !b)
  | .not, .mk _ _ _ _ _ _ p => makeMiss s!"'not' needs true/false, got {p.show F}" line "not" [v]

/-! ## Binary operators -/

/-- The binary operators but `and` and `or`. -/
inductive ArithOp where
  | add | sub | mul | div | mod
  | eq | ne | lt | le | gt | ge
deriving DecidableEq

namespace ArithOp

def symbol : ArithOp → String
  | add => "+"
  | sub => "-"
  | mul => "*"
  | div => "/"
  | mod => "%"
  | eq => "=="
  | ne => "!="
  | lt => "<"
  | le => "<="
  | gt => ">"
  | ge => ">="

end ArithOp

section

variable (B : Budgets) (F : FloatOps)

/-- The bits that the result of an operator on two integers may take, where that is checked. -/
def intGrowth : ArithOp → Num → Num → Option ℕ
  | .add, .int l, .int r | .sub, .int l, .int r => some (max (bitLength l) (bitLength r) + 1)
  | .mul, .int l, .int r => some (bitLength l + bitLength r)
  | _, _, _ => none

def floatResult (x : Option Float64) : Option Payload := x.map fun x ↦ .num (.float x)

/-- `_NUM_OPS[op](l, r)`; nothing on an `OverflowError`. -/
def numResult : ArithOp → Num → Num → Option Payload
  | .add, .int l, .int r => some (.num (.int (l + r)))
  | .sub, .int l, .int r => some (.num (.int (l - r)))
  | .mul, .int l, .int r => some (.num (.int (l * r)))
  | .mod, .int l, .int r => some (.num (.int (l.fmod r)))
  | .add, l, r => floatResult (F.add l r)
  | .sub, l, r => floatResult (F.sub l r)
  | .mul, l, r => floatResult (F.mul l r)
  | .div, l, r => floatResult (F.div l r)
  | .mod, l, r => floatResult (F.mod l r)
  | .eq, l, r => some (.bool (l.equal r))
  | .ne, l, r => some (.bool !(l.equal r))
  | .lt, l, r => some (.bool (l.less r))
  | .le, l, r => some (.bool (l.less r || l.equal r))
  | .gt, l, r => some (.bool (r.less l))
  | .ge, l, r => some (.bool (r.less l || l.equal r))

/-- `_STR_OPS[op](l, r)`. -/
def strResult : ArithOp → String → String → Option Bool
  | .eq, l, r => some (l = r)
  | .ne, l, r => some (l ≠ r)
  | .lt, l, r => some (l < r)
  | .le, l, r => some (l ≤ r)
  | .gt, l, r => some (r < l)
  | .ge, l, r => some (r ≤ l)
  | _, _, _ => none

def isZeroDivision (op : ArithOp) (r : Num) : Bool :=
  (op = .div || op = .mod) && r.equal (.int 0)

/-- The part of `binop` for two numbers. -/
def numBinop (op : ArithOp) (l r : Num) (line : ℕ) (operands : List Node) : Making Node :=
  if isZeroDivision op r then
    makeMiss (if op = .div then "division by zero" else "modulo by zero") line op.symbol operands
  else do
    let tooBig ← match intGrowth op l r with
      | some nbits => overIntBits B nbits
      | none => pure false
    if tooBig then
      makeMiss (intSizeReason B ((intGrowth op l r).getD 0)) line op.symbol operands
    else match numResult F op l r with
      | some p => derived op.symbol "" line operands p
      | none => makeMiss "number too large for float arithmetic" line op.symbol operands

/-- `l + r` on texts or lists of `count` places in all. -/
def concatenated (kind unit : String) (count nbytes : ℕ) (p : Payload) (line : ℕ)
    (operands : List Node) : Making Node := do
  let tooBig ← overValue B nbytes
  if tooBig then makeMiss (sizeReason B kind unit count nbytes) line "+" operands
  else derived "+" "concat" line operands p

/-- `_LIST_BYTES_PER_ELEM`. -/
def listBytesPerElem : ℕ := 8

/-- The part of `binop` for operands that are neither a miss nor a guess. -/
def otherBinop (op : ArithOp) (l r : Payload) (line : ℕ) (operands : List Node) : Making Node :=
  let comparison (negated : Bool) : Making Node :=
    match l.deepEq r with
    | none => makeMiss s!"cannot compare {incomparableKind l r} with ==" line op.symbol operands
    | some eq => derived op.symbol "" line operands (.bool (eq != negated))
  match op with
  | .eq => comparison false
  | .ne => comparison true
  | .lt | .le | .gt | .ge =>
      makeMiss s!"cannot order {l.show F} and {r.show F}" line op.symbol operands
  | .add =>
      match l, r with
      | .list l, .list r =>
          let nelem := l.length + r.length
          concatenated B "list" "elements" nelem (nelem * listBytesPerElem) (.list (l ++ r)) line
            operands
      | l, r => makeMiss s!"cannot add {l.show F} and {r.show F}" line op.symbol operands
  | .sub | .mul | .div | .mod =>
      makeMiss s!"cannot apply '{op.symbol}' to {l.show F} and {r.show F}" line op.symbol operands

/-- The part of `binop` for two texts. -/
def textBinop (op : ArithOp) (l r : String) (line : ℕ) (operands : List Node) : Making Node :=
  if op = .add then
    let nchars := l.length + r.length
    concatenated B "string" "characters" nchars nchars (.str (l ++ r)) line operands
  else match strResult op l r with
    | some b => derived op.symbol "" line operands (.bool b)
    | none => otherBinop B F op (.str l) (.str r) line operands

/-- What a guess is about, and everything else itself. -/
def Node.unguessed (v : Node) : Node :=
  match v with
  | .mk _ _ _ _ _ _ (.guess node _ _) => node
  | v => v

/-- The confidence and the sources of a guess. -/
def Payload.guessed : Payload → List (Num × List String)
  | .guess _ confidence sources => [(confidence, sources)]
  | _ => []

/-- `min`, of what is not empty. -/
def leastConfidence : List Num → Num
  | [] => .int 0
  | c :: cs => cs.foldl (fun least c ↦ if c.less least then c else least) c

theorem Node.sizeOf_unguessed_le (v : Node) : sizeOf v.unguessed ≤ sizeOf v := by
  unfold unguessed
  split
  · simp only [Node.mk.sizeOf_spec, Payload.guess.sizeOf_spec]
    omega
  · exact Nat.le_refl _

theorem Node.sizeOf_unguessed_lt {v : Node} (h : v.value.isGuess = true) :
    sizeOf v.unguessed < sizeOf v := by
  unfold unguessed
  split
  · simp only [Node.mk.sizeOf_spec, Payload.guess.sizeOf_spec]
    omega
  · rename_i hnot
    obtain ⟨id, op, detail, line, inputs, count, value⟩ := v
    cases value with
    | guess node confidence sources => exact absurd rfl (hnot id op detail line inputs count node
        confidence sources)
    | _ => contradiction

/-- `binop`. -/
def binop (op : ArithOp) (left right : Node) (line : ℕ) : Making Node :=
  match left.value, right.value with
  | .num l, .num r => numBinop B F op l r line [left, right]
  | .str l, .str r => textBinop B F op l r line [left, right]
  | _, _ =>
      if left.isMiss || right.isMiss then mergeMiss op.symbol "" line [left, right]
      else if _h : left.value.isGuess || right.value.isGuess then do
        -- `_guess_binop`
        let result ← binop op left.unguessed right.unguessed line
        if result.isMiss then pure result
        else
          let guessed := left.value.guessed ++ right.value.guessed
          derived op.symbol "guess" line [left, right]
            (mkGuess result (leastConfidence (guessed.map Prod.fst)) (guessed.flatMap Prod.snd))
      else otherBinop B F op left.value right.value line [left, right]
termination_by sizeOf left + sizeOf right
decreasing_by
  have hleft := left.sizeOf_unguessed_le
  have hright := right.sizeOf_unguessed_le
  rcases Bool.or_eq_true_iff.mp ‹_› with h | h
  · have hlt := Node.sizeOf_unguessed_lt h
    omega
  · have hlt := Node.sizeOf_unguessed_lt h
    omega

/-! ## Compiled operators -/

/-- `_MUL_FAST_CUT`. -/
def mulFastCut : ℤ := 2 ^ 64

/-- Two integers that are not both small. -/
def bigInts : Num → Num → Bool
  | .int l, .int r => !(-mulFastCut < l && l < mulFastCut && -mulFastCut < r && r < mulFastCut)
  | _, _ => false

/-- What the closure of an operator computes by itself. -/
def inlineResult (op : ArithOp) (l r : Payload) : Option Payload :=
  match l, r with
  | .num l, .num r =>
      match op with
      | .add | .sub | .mul => if bigInts l r then none else numResult F op l r
      | .div | .mod => if r.equal (.int 0) then none else numResult F op l r
      | _ => numResult F op l r
  | .str l, .str r => (strResult op l r).map Payload.bool
  | _, _ => none

/-- The closure of `_compile_binop`, on the values of its operands. -/
def compiledBinop (op : ArithOp) (left right : Node) (line : ℕ) : Making Node :=
  match inlineResult F op left.value right.value with
  | some p => derived op.symbol "" line [left, right] p
  | none => binop B F op left right line

end

end NucLlm.Whence
