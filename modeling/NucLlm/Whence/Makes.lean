import NucLlm.Whence.Operations
import NucLlm.Whence.Queries

/-!
# What operations make

A node that an operation makes has a value of its own, passes one on, or is a
miss.  A value of its own is charged to the budgets of the interpreter where
the operation charges it; some operations do not.
-/

namespace NucLlm.Whence

/-! ## Budgets -/

/-- The numbers in a payload. -/
def Payload.numbers : Payload → List Num
  | .num n => [n]
  | .guess _ confidence _ => [confidence]
  | _ => []

/-- The size of a text or a list, as `max_value` counts it. -/
def Payload.size? : Payload → Option ℕ
  | .str s => some s.length
  | .list items => some (items.length * listBytesPerElem)
  | _ => none

namespace Budgets

/-- The number is within the budget of integers. -/
def Fits (B : Budgets) : Num → Prop
  | .int n => ∀ cap ∈ B.maxIntBits, bitLength n ≤ cap
  | .float _ => True

/-- The size is within the budget of values. -/
def Within (B : Budgets) (size : ℕ) : Prop := ∀ cap ∈ B.maxValue, size ≤ cap

end Budgets

/-! ## What is not charged -/

def Payload.isBool : Payload → Bool
  | .bool _ => true
  | _ => false

/-- The answer of a predicate that holds. -/
def Payload.isTrue : Payload → Bool
  | .bool b => b
  | _ => false

/-- The integers in the record of a step. -/
def stepInts (s : Node × ℕ) : List ℤ :=
  [(s.1.line : ℤ), (s.2 : ℤ), (s.1.inputs.length : ℤ), (s.1.count : ℤ)]

/-- The texts in the record of a step. -/
def stepTexts (F : FloatOps) (s : Node × ℕ) : List String := [s.1.op, s.1.detail, s.1.show F]

namespace BuiltinName

section

variable (B : Budgets) (F : FloatOps) (H : Histories)

/-- The pairs of steps at which the histories of these roots diverge, with the roots. -/
def divergences (ra rb : Node) : List (Node × Node × Node × Node × Provenance.Difference) :=
  (H.diverge ra rb).map fun d ↦ (ra, rb, d)

/-- What `diverge` finds. -/
def differences : List Node → List (Node × Node × Node × Node × Provenance.Difference)
  | [a, b] => divergences H (historyRoot a) (historyRoot b)
  | [runs] =>
      match itemsOf runs with
      | [] => []
      | first :: rest => rest.flatMap fun run ↦ divergences H (historyRoot first) (historyRoot run)
  | _ => []

/-- The steps of a divergence, with their depths. -/
def divergedSteps (d : Node × Node × Node × Node × Provenance.Difference) : List (Node × ℕ) :=
  let (ra, rb, a, b, _) := d
  [(a, Builtin.depthIn (walkSteps ra) a), (b, Builtin.depthIn (walkSteps rb) b)]

/-- The steps that the builtin makes records of, with their depths. -/
def listed : BuiltinName → List Node → List (Node × ℕ)
  | steps, [v] => walkSteps (historyRoot v)
  | steps, [v, pat] =>
      match pat.value with
      | .str pattern => (walkSteps (historyRoot v)).filter fun s ↦ matchesStep pattern s.1
      | _ => []
  | blame, [v] => (walkSteps (historyRoot v)).filter fun s ↦ isOriginMiss s.1
  | diverge, args => (differences H args).flatMap divergedSteps
  | _, _ => []

/-- The integer that `num` reads from a text, where its digits are not too many. -/
def numeral : Payload → Option ℤ
  | .str s =>
      let t := Builtin.strip s.toList
      (Builtin.unsignedNumber t).bind fun body ↦
        if Lexer.isFloatText body || Lexer.showIntDigits < body.length ||
            B.maxIntBits.any (fun cap ↦ cap < Builtin.digitBits body.length) then none
        else (Lexer.intOf body).map fun n : ℕ ↦ if Lexer.signText t = ['-'] then -(n : ℤ) else n
  | _ => none

/-- The length that `len` gives. -/
def length? : Payload → Option ℕ
  | .str s => some s.length
  | .list items => some items.length
  | .record fields => some fields.length
  | _ => none

/-- The integers that the builtin makes and does not charge, or charges for less. -/
def unchargedInts : BuiltinName → List Node → List ℤ
  | len, [v] => ((length? v.value).map Int.ofNat).toList
  | num, [v] => (numeral B v.value).toList
  | trunc, [v] =>
      match v.value with
      | .num n => (Builtin.Num.toInteger F n).toList
      | _ => []
  | diverge, [runs] =>
      (List.range (itemsOf runs).length).map Int.ofNat ++
        (listed H diverge [runs]).flatMap stepInts
  | b, args => (listed H b args).flatMap stepInts

def fieldNames (v : Node) : List String :=
  match v.value with
  | .record fields => Fields.keys fields
  | _ => []

/-- The text of `contrast`, where it makes one. -/
def contrastText : List Node → Option String
  | [a, b] => some (H.contrast (historyRoot a) (historyRoot b))
  | [runs] =>
      match runs.value with
      | .list items =>
          let blocks := match items with
            | [] => []
            | first :: rest => Builtin.contrastBlocks H (historyRoot first) 1 rest
          some (if blocks.isEmpty then Builtin.noDivergence else "\n\n".intercalate blocks)
      | _ => none
  | _ => none

/-- How many items `filter` keeps, where every answer is a truth value. -/
def kept (calls : List Node) : ℕ :=
  if calls.all fun keep ↦ keep.value.isBool then calls.countP fun keep ↦ keep.value.isTrue else 0

/-- The sizes of a list of `count` items and of texts. -/
def sizes (count : ℕ) (texts : List String) : List ℕ :=
  count * listBytesPerElem :: texts.map String.length

/-- The sizes of the texts and lists that the builtin makes and does not charge. -/
def unchargedSizes (b : BuiltinName) (args calls : List Node) : List ℕ :=
  match b, args with
  | str, [v] => [(Builtin.fullShow F H v.value).length]
  | show_, [v] => [(v.value.show F).length]
  | map, [_, xs] =>
      match xs.value with
      | .list items => sizes items.length []
      | _ => []
  | filter, _ => sizes (kept calls) []
  | keys, [v] => sizes (fieldNames v).length (fieldNames v)
  | reasons, [v] => sizes v.value.reasons.length v.value.reasons
  | shapeof, [v] => [v.value.kind.length]
  | contrast, args => ((contrastText H args).map String.length).toList
  | diverge, args =>
      sizes (differences H args).length
        ((differences H args).map (fun d ↦ Builtin.differenceText d.2.2.2.2) ++
          (listed H diverge args).flatMap (stepTexts F))
  | steps, args | blame, args =>
      sizes (listed H b args).length ((listed H b args).flatMap (stepTexts F))
  | _, _ => []

end

end BuiltinName

namespace Operation

section

variable (B : Budgets) (F : FloatOps) (H : Histories)

/-- The integers that the operation makes and does not charge, or charges for less. -/
def unchargedInts : Operation → List ℤ
  | .literal _ _ p _ =>
      match p with
      | .num (.int n) => [n]
      | _ => []
  | .builtin b args _ _ _ => b.unchargedInts B F H args
  | _ => []

/-- The sizes of the texts and lists that the operation makes and does not charge. -/
def unchargedSizes : Operation → List ℕ
  | .index obj _ _ => if obj.value.isText then [1] else []
  | .builtin b args _ calls _ => b.unchargedSizes F H args calls
  | _ => []

end

/-- The integers that are not charged are within the budget. -/
def IntsFit (B : Budgets) (F : FloatOps) (H : Histories) (o : Operation) : Prop :=
  ∀ n ∈ o.unchargedInts B F H, B.Fits (.int n)

/-- The texts and lists that are not charged are within the budget. -/
def SizesFit (B : Budgets) (F : FloatOps) (H : Histories) (o : Operation) : Prop :=
  ∀ size ∈ o.unchargedSizes F H, B.Within size

/-- The operation makes this node as it stands in the source. -/
def Writes : Operation → Node → Prop
  | .literal term line p _, n => n = constant term line p
  | .listLit items _, n => n.op = "list" ∧ n.inputs = items ∧ n.value = .list items
  | _, _ => False

end Operation

/-! ## Steps that lose reasons -/

def Payload.isRecord : Payload → Bool
  | .record _ => true
  | _ => false

namespace BuiltinName

/-- The builtin refuses its arguments, with a miss among the values it says it was made from. -/
def losesReasons (B : Budgets) : BuiltinName → List Node → Bool
  | push, [xs, x] =>
      x.isMiss && !xs.isMiss &&
        (match xs.value with
        | .list items => B.maxValue.any fun cap ↦ cap < (items.length + 1) * listBytesPerElem
        | _ => true)
  | note, [label, v] => !label.value.isText && (label.isMiss || v.isMiss)
  | get, [r, name] => r.isMiss && !name.isMiss && !name.value.isText
  | put, [r, name, v] =>
      v.isMiss && !r.isMiss && !name.isMiss && !(r.value.isRecord && name.value.isText)
  | steps, [v, pat] => (historyRoot v).isMiss && !pat.isMiss && !pat.value.isText
  | at_, [v, pat] =>
      match pat.value with
      | .miss _ => false
      | .str pattern => (historyRoot v).isMiss && (findStep (historyRoot v) pattern).isNone
      | _ => v.isMiss
  | _, _ => false

end BuiltinName

namespace Operation

/-- The operation makes a miss of its own while a miss is among the values it was made from: a
reason that is the name of nothing, a call that is refused with a miss among its arguments, or a
builtin that refuses its arguments before it propagates them. -/
def losesReasons (B : Budgets) : Operation → Bool
  | .missLit reason _ => reason.op = "name" && isOriginMiss reason
  | .refuse .missCallee .. | .refuse .notCallable .. => false
  | .refuse _ _ _ _ _ args _ _ => args.any Node.isMiss
  | .builtin b args _ _ _ => b.losesReasons B args
  | _ => false

/-- The operation merges the calls of a tail loop that ends in a miss, and decisions of `if`s. -/
def mergesMiss : Operation → Bool
  | .finishCall _ result runs merged _ => result.isMiss && decide (merged ≠ 1) && !runs.isEmpty
  | _ => false

end Operation

/-! ## How a node comes by its value -/

/-- The numbers below the operands fit, and so do the integers that are not charged. -/
structure Charged (B : Budgets) (F : FloatOps) (H : Histories) (o : Operation) : Prop where
  known : ∀ m ∈ o.operands, ∀ k, m.Below k → ∀ x ∈ k.value.numbers, B.Fits x
  ints : o.IntsFit B F H

/-- The names of the steps that hand on the value of an input. -/
def handOn : List String := ["let", "arg", "note", "if", "call", "fold", "rescue"]

/-- What an operation may do at a node that it makes. -/
inductive Makes (B : Budgets) (F : FloatOps) (H : Histories) (o : Operation) (n : Node) :
    Prop where
  | computes (hmiss : n.isMiss = false)
      (hguess : n.value.isGuess = true → Operates B F n.inputs n)
      (hnumbers : Charged B F H o → ∀ x ∈ n.value.numbers, B.Fits x)
      (hsize : o.SizesFit B F H → ∀ size ∈ n.value.size?, B.Within size ∨ o.Writes n)
  | passes {v : Node} (hv : v ∈ n.inputs) (hvalue : n.value = v.value) (hop : n.op ∈ handOn)
  | cutsOff {v : Node} (hv : v ∈ o.operands) (hvalue : n.value = v.value) (hop : n.op = "snipped")
      (hinputs : n.inputs = [])
  | merges {v : Node} (hv : v ∈ o.operands) (hvalue : n.value = v.value) (hop : n.op = "if")
      (hmerges : n.isMiss = true → o.mergesMiss = true) (hinputs : ∀ i ∈ n.inputs, i.isMiss = false)
  | propagates (hmiss : ∃ i ∈ n.inputs, i.isMiss = true)
      (hvalue : n.value = mkMiss (n.inputs.flatMap fun v ↦ v.value.reasons))
  | refuses (hmiss : n.isMiss = true)
      (hlose : (∃ i ∈ n.inputs, i.isMiss = true) → o.losesReasons B = true)
      (hoperands : (∀ i ∈ n.inputs, i.isMiss = false) → ∀ m ∈ o.operands, m.isMiss = false)

/-- A node below an operand, or made from such nodes. -/
inductive From (B : Budgets) (F : FloatOps) (H : Histories) (o : Operation) : Node → Prop where
  | old {m n : Node} (hm : m ∈ o.operands) (h : m.Below n) : From B F H o n
  | new {n : Node} (hlinks : ∀ m ∈ n.links, From B F H o m) (hmakes : Makes B F H o n) :
      From B F H o n

section

variable {B : Budgets} {F : FloatOps} {H : Histories} {o : Operation} {v n : Node}

theorem from_operand (h : n ∈ o.operands) : From B F H o n := .old h .refl

theorem From.link (h : From B F H o v) (hn : n ∈ v.links) : From B F H o n := by
  cases h with
  | old hm h => exact .old hm (h.tail hn)
  | new hlinks _ => exact hlinks n hn

theorem From.part (h : From B F H o v) (hn : n ∈ v.value.parts) : From B F H o n :=
  h.link (List.mem_append_right _ hn)

theorem From.input (h : From B F H o v) (hn : n ∈ v.inputs) : From B F H o n :=
  h.link (List.mem_append_left _ hn)

theorem From.descend (h : From B F H o v) (hn : v.Below n) : From B F H o n := by
  induction hn with
  | refl => exact h
  | tail _ hlink ih => exact ih.link hlink

theorem below_of_reach (h : history.Reach v n) : v.Below n := by
  induction h with
  | refl => exact .refl
  | tail _ hedge ih => exact ih.tail (List.mem_append_left _ hedge)

theorem From.reach (h : From B F H o v) (hn : history.Reach v n) : From B F H o n :=
  h.descend (below_of_reach hn)

theorem mkMiss_numbers (reasons : List String) : (mkMiss reasons).numbers = [] := rfl

/-- The numbers of a node that an operation makes fit where what it is made from does. -/
theorem Makes.fits (h : Makes B F H o n) (hcharged : Charged B F H o)
    (hlinks : ∀ m ∈ n.links, ∀ x ∈ m.value.numbers, B.Fits x) :
    ∀ x ∈ n.value.numbers, B.Fits x := by
  have hoperand : ∀ m ∈ o.operands, ∀ x ∈ m.value.numbers, B.Fits x :=
    fun m hm ↦ hcharged.known m hm m .refl
  cases h with
  | computes _ _ hnumbers _ => exact hnumbers hcharged
  | passes hv hvalue _ =>
      rw [hvalue]
      exact hlinks _ (List.mem_append_left _ hv)
  | cutsOff hv hvalue _ _ =>
      rw [hvalue]
      exact hoperand _ hv
  | merges hv hvalue _ _ _ =>
      rw [hvalue]
      exact hoperand _ hv
  | propagates _ hvalue =>
      rw [hvalue, mkMiss_numbers]
      simp
  | refuses hmiss _ _ =>
      cases hvalue : n.value with
      | miss reasons => simp [Payload.numbers]
      | _ => simp [Node.isMiss, hvalue, Payload.isMiss] at hmiss

theorem From.fits (h : From B F H o n) (hcharged : Charged B F H o) :
    ∀ x ∈ n.value.numbers, B.Fits x := by
  induction h with
  | old hm h => exact hcharged.known _ hm _ h
  | new hlinks hmakes ih => exact hmakes.fits hcharged ih

/-! ## Rules -/

/-- A computation that gives a value that satisfies `P`. -/
def Sends {α : Type} (m : Making α) (P : α → Prop) : Prop := ∀ t, P (m t).1

theorem sends_pure {α : Type} {P : α → Prop} {a : α} (h : P a) : Sends (pure a) P := fun _ ↦ h

theorem Sends.bind {α β : Type} {P : α → Prop} {Q : β → Prop} {m : Making α} {f : α → Making β}
    (hm : Sends m P) (hf : ∀ a, P a → Sends (f a) Q) : Sends (m >>= f) Q := by
  intro t
  rw [bind_run]
  exact hf _ (hm t) _

theorem le_of_not_over {cap? : Option ℕ} {k : ℕ} (h : (cap?.any fun cap ↦ cap < k) = false) :
    ∀ cap ∈ cap?, k ≤ cap := by
  rintro cap rfl
  simpa using h

theorem sends_overValue (nbytes : ℕ) :
    Sends (overValue B nbytes) fun tooBig ↦ (B.maxValue.any fun cap ↦ cap < nbytes) = tooBig :=
  fun _ ↦ rfl

theorem sends_overIntBits (nbits : ℕ) :
    Sends (overIntBits B nbits) fun tooBig ↦ (B.maxIntBits.any fun cap ↦ cap < nbits) = tooBig :=
  fun _ ↦ rfl

/-! ### Nodes -/

variable {op detail reason : String} {line count : ℕ} {inputs : List Node} {p : Payload}

theorem sends_derivedTimes {P : Node → Prop}
    (h : ∀ id, P (.mk id op detail line inputs count p)) :
    Sends (derivedTimes op detail line inputs count p) P :=
  fun _ ↦ h _

/-- A node made from known ones. -/
theorem from_node {id : NodeId} (hinputs : ∀ i ∈ inputs, From B F H o i)
    (hparts : ∀ m ∈ p.parts, From B F H o m)
    (hmakes : Makes B F H o (.mk id op detail line inputs count p)) :
    From B F H o (.mk id op detail line inputs count p) := by
  refine .new (fun m hm ↦ ?_) hmakes
  rcases List.mem_append.mp hm with hm | hm
  · exact hinputs m hm
  · exact hparts m hm

/-- A value of its own makes no guess. -/
theorem operates_of_certain {n : Node} (hguess : n.value.isGuess = false) :
    n.value.isGuess = true → Operates B F n.inputs n := by
  intro h
  rw [hguess] at h
  contradiction

/-- A node with a value of its own. -/
theorem from_value (hmiss : p.isMiss = false) (hguess : p.isGuess = false)
    (hinputs : ∀ i ∈ inputs, From B F H o i)
    (hparts : ∀ m ∈ p.parts, From B F H o m)
    (hnumbers : Charged B F H o → ∀ x ∈ p.numbers, B.Fits x)
    (hsize : o.SizesFit B F H → ∀ size ∈ p.size?, B.Within size) :
    Sends (derived op detail line inputs p) (From B F H o) :=
  fun _ ↦ from_node hinputs hparts
    (.computes hmiss (operates_of_certain hguess) hnumbers
      fun hfit size hmem ↦ .inl (hsize hfit size hmem))

/-- A value without parts and a size. -/
structure Payload.Scalar (p : Payload) : Prop where
  miss : p.isMiss = false
  guess : p.isGuess = false
  parts : p.parts = []
  size : p.size? = none

theorem scalar_bool (b : Bool) : (Payload.bool b).Scalar := ⟨rfl, rfl, rfl, rfl⟩

theorem scalar_num (x : Num) : (Payload.num x).Scalar := ⟨rfl, rfl, rfl, rfl⟩

theorem from_scalar (hp : p.Scalar) (hinputs : ∀ i ∈ inputs, From B F H o i)
    (hnumbers : Charged B F H o → ∀ x ∈ p.numbers, B.Fits x) :
    Sends (derived op detail line inputs p) (From B F H o) := by
  apply from_value hp.miss hp.guess hinputs
  · simp [hp.parts]
  · exact hnumbers
  · simp [hp.size]

theorem from_bool {b : Bool} (hinputs : ∀ i ∈ inputs, From B F H o i) :
    Sends (derived op detail line inputs (.bool b)) (From B F H o) :=
  from_scalar (scalar_bool b) hinputs fun _ ↦ List.forall_mem_nil _

theorem from_number {x : Num} (hinputs : ∀ i ∈ inputs, From B F H o i)
    (hx : Charged B F H o → B.Fits x) :
    Sends (derived op detail line inputs (.num x)) (From B F H o) := by
  apply from_scalar (scalar_num x) hinputs
  intro hcharged y hy
  obtain rfl := List.mem_singleton.mp hy
  exact hx hcharged

theorem from_float {x : Float64} (hinputs : ∀ i ∈ inputs, From B F H o i) :
    Sends (derived op detail line inputs (.num (.float x))) (From B F H o) :=
  from_number hinputs fun _ ↦ trivial

theorem from_text {s : String} (hinputs : ∀ i ∈ inputs, From B F H o i)
    (hsize : o.SizesFit B F H → B.Within s.length) :
    Sends (derived op detail line inputs (.str s)) (From B F H o) := by
  apply from_value rfl rfl hinputs
  · simp [Payload.parts]
  · simp [Payload.numbers]
  · rintro hfit size ⟨⟩
    exact hsize hfit

theorem from_list {items : List Node} (hinputs : ∀ i ∈ inputs, From B F H o i)
    (hitems : ∀ i ∈ items, From B F H o i)
    (hsize : o.SizesFit B F H → B.Within (items.length * listBytesPerElem)) :
    Sends (derived op detail line inputs (.list items)) (From B F H o) := by
  apply from_value rfl rfl hinputs
  · exact hitems
  · simp [Payload.numbers]
  · rintro hfit size ⟨⟩
    exact hsize hfit

theorem from_record {fields : List (String × Node)} (hinputs : ∀ i ∈ inputs, From B F H o i)
    (hfields : ∀ m ∈ fields.map Prod.snd, From B F H o m) :
    Sends (derived op detail line inputs (.record fields)) (From B F H o) := by
  apply from_value rfl rfl hinputs
  · exact hfields
  · simp [Payload.numbers]
  · simp [Payload.size?]

/-- A guess whose confidence is a number that fits. -/
theorem from_guess {node : Node} {confidence : Num} {sources : List String} {t : Tally}
    (hinputs : ∀ i ∈ inputs, From B F H o i) (hnode : From B F H o node)
    (hconfidence : Charged B F H o → B.Fits confidence)
    (hmade : Operates B F inputs
      (derived op detail line inputs (mkGuess node confidence sources) t).1) :
    From B F H o (derived op detail line inputs (mkGuess node confidence sources) t).1 := by
  apply from_node hinputs
  · intro k hk
    obtain rfl := List.mem_singleton.mp hk
    exact hnode
  · apply Makes.computes rfl
    · exact fun _ ↦ hmade
    · intro hcharged x hx
      obtain rfl := List.mem_singleton.mp hx
      exact hconfidence hcharged
    · simp [Node.value, mkGuess, Payload.size?]

/-- A node with the value of an input. -/
theorem from_passing (hop : op ∈ handOn) (hinputs : ∀ i ∈ inputs, From B F H o i)
    (hv : v ∈ inputs) :
    Sends (derived op detail line inputs v.value) (From B F H o) := by
  intro t
  apply from_node hinputs
  · exact fun m hm ↦ (hinputs v hv).part hm
  · exact .passes hv rfl hop

/-- A miss that merges the reasons of its operands. -/
theorem from_mergeMiss (hinputs : ∀ i ∈ inputs, From B F H o i)
    (hmiss : ∃ i ∈ inputs, i.isMiss = true) :
    Sends (mergeMiss op detail line inputs) (From B F H o) := by
  intro t
  apply from_node hinputs
  · simp [mkMiss, Payload.parts]
  · exact .propagates hmiss rfl

/-- A miss of a reason of its own. -/
theorem from_refusal {reasons : List String} (hinputs : ∀ i ∈ inputs, From B F H o i)
    (hlose : (∃ i ∈ inputs, i.isMiss = true) → o.losesReasons B = true)
    (hoperands : (∀ i ∈ inputs, i.isMiss = false) → ∀ m ∈ o.operands, m.isMiss = false) :
    Sends (derived op detail line inputs (.miss reasons)) (From B F H o) := by
  intro t
  apply from_node hinputs
  · simp [Payload.parts]
  · exact .refuses rfl hlose hoperands

section Operands

variable {args : List Node} (h : o.operands = args)

include h

theorem from_operands : ∀ a ∈ args, From B F H o a := by
  intro a ha
  rw [← h] at ha
  exact from_operand ha

/-- A refusal that loses reasons where a miss is among the operands. -/
theorem from_losing (hlose : (∃ a ∈ args, a.isMiss = true) → o.losesReasons B = true) :
    Sends (makeMiss reason line op args) (From B F H o) := by
  subst h
  exact from_refusal (fun i hi ↦ from_operand hi) hlose fun hnone ↦ hnone

end Operands

theorem from_leaves {α : Type} {as : List α} {detail : α → String}
    {value : α → Payload} (h : ∀ a ∈ as, Sends (leaf op (detail a) line (value a)) (From B F H o)) :
    Sends (leaves op line detail value as) fun items ↦
      items.length = as.length ∧ ∀ i ∈ items, From B F H o i := by
  induction as with
  | nil => exact sends_pure (by simp)
  | cons a as ih =>
      refine Sends.bind (h a List.mem_cons_self) fun v hv ↦ ?_
      refine Sends.bind (ih fun b hb ↦ h b (List.mem_cons_of_mem a hb)) fun vs hvs ↦ ?_
      apply sends_pure
      simp [hv, hvs.1]
      exact hvs.2

/-! ### Computations of the host -/

/-- A computation that gives, if it gives one, a value that satisfies `P`. -/
def Gets {α : Type} (m : Hosting α) (P : α → Prop) : Prop := ∀ t a t', m t = some (a, t') → P a

section

variable {α β : Type} {P : α → Prop} {Q : β → Prop}

theorem gets_pure {a : α} (h : P a) : Gets (pure a) P := by
  rintro t b t' ⟨⟩
  exact h

theorem gets_raise : Gets (Hosting.raise : Hosting α) P := by
  rintro t a t' ⟨⟩

theorem gets_made {m : Making α} (h : Sends m P) : Gets (Hosting.made m) P := by
  intro t a t' ha
  have heq : m t = (a, t') := Option.some.inj ha
  have hm := h t
  rwa [heq] at hm

theorem Gets.bind {m : Hosting α} {f : α → Hosting β} (hm : Gets m P)
    (hf : ∀ a, P a → Gets (f a) Q) : Gets (m >>= f) Q := by
  intro t b t' hb
  obtain ⟨⟨a, t₁⟩, ha, hb⟩ := Option.bind_eq_some_iff.mp hb
  exact hf a (hm t a t₁ ha) t₁ b t' hb

theorem gets_any (m : Hosting α) : Gets m fun _ ↦ True := fun _ _ _ _ ↦ trivial

theorem Gets.after {m : Hosting α} {f : α → Hosting β} (hf : ∀ a, Gets (f a) Q) :
    Gets (m >>= f) Q :=
  (gets_any m).bind fun a _ ↦ hf a

end

/-- A builtin that gives, with what its calls return, a value that satisfies `P`. -/
def Answers (g : Asking) (P : List Node → Node → Prop) : Prop :=
  ∀ t calls v t', (g t).1.answered calls (g t).2 = some (v, t') → P calls v

section

variable {P : List Node → Node → Prop}

theorem answers_finish {m : Hosting Node} (h : Gets m (P [])) : Answers (Asking.finish m) P := by
  intro t calls v t' hv
  unfold Asking.finish at hv
  cases hm : m t with
  | none => simp [hm, Script.answered] at hv
  | some r =>
      obtain ⟨w, s⟩ := r
      cases calls with
      | nil =>
          obtain ⟨rfl, rfl⟩ : w = v ∧ s = t' := by simpa [hm, Script.answered] using hv
          exact h t w s hm
      | cons c calls => simp [hm, Script.answered] at hv

theorem answers_making {m : Making Node} (h : Sends m (P [])) : Answers (Asking.making m) P :=
  answers_finish (gets_made h)

theorem answers_ask {fn : Node} {args : List Node} {resume : Node → Asking}
    (h : ∀ v, Answers (resume v) fun calls ↦ P (v :: calls)) :
    Answers (Asking.ask fn args line resume) P := by
  intro t calls v t' hv
  cases calls with
  | nil => simp [Asking.ask, Script.answered] at hv
  | cons c calls => exact h c t calls v t' hv

end

end

end NucLlm.Whence
