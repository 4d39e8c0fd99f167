import NucLlm.Lib.Loop
import NucLlm.Whence.Double
import NucLlm.Whence.Show

/-!
# Provenance graphs

The objects of the host that make up histories: nodes and payloads, each with an
identity of its own, so that any sharing of either can be told.  Objects are
immutable and refer to older ones only.
-/

namespace NucLlm.Whence

/-- What a payload holds. -/
inductive Cell (N : Type) where
  | bool (b : Bool)
  | num (n : Num)
  | str (s : String)
  | list (items : List N)
  | record (fields : List (String × N))
  | miss (reasons : List String)
  | guess (node : N) (confidence : Num) (sources : List String)
  | closure (name : Option String)
  | builtin (name : String)
  | explanation (root : N)

namespace Cell

variable {N : Type}

/-- The nodes that are part of a value. -/
def elements : Cell N → List N
  | .list items => items
  | .record fields => fields.map Prod.snd
  | .guess node _ _ => [node]
  | _ => []

/-- `isinstance(p, _OPAQUE)`. -/
def isOpaque : Cell N → Bool
  | .closure _ | .builtin _ | .miss _ | .explanation _ => true
  | _ => false

def isMiss : Cell N → Bool
  | .miss _ => true
  | _ => false

def reasons : Cell N → List String
  | .miss reasons => reasons
  | _ => []

/-- `isinstance(x, Miss) and isinstance(y, Miss) and x.reasons == y.reasons`. -/
def sameReasons (x y : Cell N) : Bool :=
  x.isMiss && y.isMiss && decide (x.reasons = y.reasons)

end Cell

/-- Nodes `N` and payloads `P`; equality on each is identity.  The fields of a record
are kept in the order of their names. -/
structure Provenance (N P : Type) where
  id : N → NodeId
  op : N → String
  detail : N → String
  line : N → ℕ
  count : N → ℕ
  inputs : N → List N
  value : N → P
  cell : P → Cell N
  age : N → ℕ
  age_inputs : ∀ n, ∀ m ∈ inputs n, age m < age n
  size : P → ℕ
  size_elements : ∀ p, ∀ m ∈ (cell p).elements, size (value m) < size p
  fields_ordered : ∀ p fields, cell p = .record fields → (fields.map Prod.fst).Pairwise (· < ·)

namespace Provenance

/-- A graph whose nodes are told apart by their `id`. -/
structure Identified (N P : Type) extends Provenance N P where
  id_injective : Function.Injective id

variable {N P : Type} (G : Provenance N P)

/-! ## Snapshots -/

/-- The value below a payload as a renderer sees it, which reads no history. -/
def viewWithin : ℕ → P → Payload
  | 0, _ => default
  | k + 1, p =>
      let node (m : N) : Node :=
        .mk (G.id m) (G.op m) (G.detail m) (G.line m) [] (G.count m) (viewWithin k (G.value m))
      match G.cell p with
      | .bool b => .bool b
      | .num n => .num n
      | .str s => .str s
      | .list items => .list (items.map node)
      | .record fields => .record (fields.map fun f ↦ (f.1, node f.2))
      | .miss reasons => .miss reasons
      | .guess m confidence sources => .guess (node m) confidence sources
      | .closure name => .closure (.mk 0 name [] none [])
      | .builtin name => .builtin name
      | .explanation _ => .explanation default

/-- A node as a renderer sees it. -/
def view (n : N) : Node :=
  .mk (G.id n) (G.op n) (G.detail n) (G.line n) [] (G.count n)
    (G.viewWithin (G.size (G.value n) + 1) (G.value n))

/-- `show_payload`. -/
def showPayload (F : FloatOps) (p : P) : String := (G.viewWithin (G.size p + 1) p).show F

/-! ## Structural equality -/

/-- What two payloads say of each other's equality before their elements are compared. -/
inductive Comparison (P : Type) where
  | undecided
  | differ
  | agree (pairs : List (P × P))

def settled {P : Type} (same : Bool) : Comparison P := if same then .agree [] else .differ

def valuePairs (ms ms' : List N) : List (P × P) :=
  (ms.zip ms').map fun p ↦ (G.value p.1, G.value p.2)

/-- The pass of `deep_eq` over one pair. -/
def compare (l r : P) : Comparison P :=
  if (G.cell l).isOpaque || (G.cell r).isOpaque then .undecided
  else match G.cell l, G.cell r with
    | .bool b, .bool b' => settled (b = b')
    | .num n, .num n' => settled (n.equal n')
    | .str s, .str s' => settled (s = s')
    | .list items, .list items' =>
        if items.length = items'.length then .agree (G.valuePairs items items') else .differ
    | .record fields, .record fields' =>
        let known (fs : List (String × N)) (key : String) : Bool := fs.any fun f ↦ f.1 = key
        if fields.all (fun f ↦ known fields' f.1) && fields'.all (fun f ↦ known fields f.1) then
          .agree (fields.filterMap fun f ↦
            (fields'.find? fun f' ↦ f'.1 = f.1).map fun f' ↦ (G.value f.2, G.value f'.2))
        else .differ
    | .guess m _ _, .guess m' _ _ => .agree [(G.value m, G.value m')]
    | _, _ => .differ

variable [DecidableEq N] [DecidableEq P]

/-- The stack, the last pair first, and the pairs seen so far. -/
structure EqState (P : Type) where
  stack : List (P × P)
  seen : List (P × P)

/-- `key in memo`. -/
def remembered (memo : Option (List (P × P))) (p : P × P) : Bool :=
  memo.any fun known ↦ known.contains p

def deepEqBody (memo : Option (List (P × P))) (s : EqState P) :
    Pass (EqState P) (Option Bool × List (P × P)) :=
  match s.stack with
  | [] => .done (some true, s.seen)
  | (l, r) :: stack =>
      if remembered memo (l, r) then .again { s with stack := stack }
      else match G.compare l r with
        | .undecided => .done (none, s.seen)
        | .differ => .done (some false, s.seen)
        | .agree pairs => .again ⟨pairs.reverse ++ stack, s.seen ++ [(l, r)]⟩

/-- The payloads of the elements of a payload. -/
def parts : Ranked P where
  next p := (G.cell p).elements.map G.value
  rank := G.size
  rank_next p q hq := by
    obtain ⟨m, hm, rfl⟩ := List.mem_map.mp hq
    exact G.size_elements p m hm

/-- `deep_eq`: its verdict, and the pairs to remember as equal. -/
def deepEq (memo : Option (List (P × P))) (l r : P) : Option Bool × List (P × P) :=
  (whileLoop (G.deepEqBody memo) (G.parts.paths 1 l + 1) ⟨[(l, r)], []⟩).getD (none, [])

/-- `same_payload`, with the memo it hands on. -/
def samePayload (F : FloatOps) (x y : P) (memo : List (P × P)) : Bool × List (P × P) :=
  if x = y then (true, memo)
  else if (G.cell x).isMiss || (G.cell y).isMiss then ((G.cell x).sameReasons (G.cell y), memo)
  else match G.deepEq (some memo) x y with
    | (none, _) => (decide (G.showPayload F x = G.showPayload F y), memo)
    | (some true, seen) => (true, memo ++ seen)
    | (some false, _) => (false, memo)

/-! ## Divergence -/

/-- `NAMING_OPS`. -/
def namingOps : List String := ["let", "note", "snipped"]

inductive Difference where
  | step
  | value
deriving DecidableEq

/-- A stack entry: a pair of nodes, and whether its inputs have been pushed. -/
structure Entry (N : Type) where
  left : N
  right : N
  expanded : Bool

structure DivergeState (N P : Type) where
  stack : List (Entry N)
  memo : List ((N × N) × Bool)
  vals : List (P × P)
  origins : List (N × N × Difference)

def memoGet? (memo : List ((N × N) × Bool)) (p : N × N) : Option Bool :=
  (memo.find? fun e ↦ e.1 = p).map Prod.snd

/-- `key in memo`. -/
def inMemo (memo : List ((N × N) × Bool)) (p : N × N) : Bool := (memoGet? memo p).isSome

def sameShape (p : N × N) : Bool :=
  decide (G.op p.1 = G.op p.2) && decide ((G.inputs p.1).length = (G.inputs p.2).length)

def inputPairs (p : N × N) : List (N × N) := (G.inputs p.1).zip (G.inputs p.2)

/-- The step itself is the same in both histories but for the value. -/
def sameStep (p : N × N) : Bool :=
  decide (G.count p.1 = G.count p.2) &&
    (namingOps.contains (G.op p.1) || decide (G.detail p.1 = G.detail p.2))

/-- The pass over a pair whose inputs have been compared. -/
def settle (F : FloatOps) (s : DivergeState N P) (p : N × N) : DivergeState N P :=
  let differs (memo : List ((N × N) × Bool)) (kind : Difference) : DivergeState N P :=
    { s with memo := (p, false) :: memo, origins := s.origins ++ [(p.1, p.2, kind)] }
  if !(G.inputPairs p).all (fun q ↦ (memoGet? s.memo q).getD false) then
    { s with memo := (p, false) :: s.memo }
  else if !G.sameStep p then differs s.memo .step
  else match G.samePayload F (G.value p.1) (G.value p.2) s.vals with
    | (true, vals) => { s with memo := (p, true) :: s.memo, vals := vals }
    | (false, vals) => { differs s.memo .value with vals := vals }

def divergeBody (F : FloatOps) (s : DivergeState N P) :
    Pass (DivergeState N P) (List (N × N × Difference)) :=
  match s.stack with
  | [] => .done s.origins
  | ⟨na, nb, expanded⟩ :: stack =>
      let s := { s with stack := stack }
      if inMemo s.memo (na, nb) then .again s
      else if na = nb then .again { s with memo := ((na, nb), true) :: s.memo }
      else if expanded then .again (G.settle F s (na, nb))
      else if !G.sameShape (na, nb) then
        .again { s with
          memo := ((na, nb), false) :: s.memo
          origins := s.origins ++ [(na, nb, .step)] }
      else
        let fresh := (G.inputPairs (na, nb)).filter fun q ↦ !inMemo s.memo q
        .again { s with
          stack := (fresh.map fun q ↦ ⟨q.1, q.2, false⟩).reverse ++ ⟨na, nb, true⟩ :: stack }

/-- The inputs of the nodes. -/
def history : Ranked N := ⟨G.inputs, G.age, G.age_inputs⟩

/-- `diverge`. -/
def diverge (F : FloatOps) (a b : N) : List (N × N × Difference) :=
  (whileLoop (G.divergeBody F) (G.history.paths 2 a + 1) ⟨[⟨a, b, false⟩], [], [], []⟩).getD []

end Provenance

end NucLlm.Whence
