import Mathlib.Data.Int.Notation
import NucLlm.Whence.Ast

/-!
# Whence values

A value is its provenance node: what computed it, from which nodes, and its
payload.  A node carries its identity; nodes are immutable, so a node is the
tree below it and sharing is visible through identities alone.
-/

namespace NucLlm.Whence

/-- A double, by its bits. -/
abbrev Float64 := BitVec 64

inductive Num where
  | int (n : ℤ)
  | float (x : Float64)
deriving DecidableEq

/-- The host's arithmetic on doubles.  `none` is an `OverflowError`, or for
`trunc` also a `ValueError`. -/
structure FloatOps where
  /-- The double a literal spells. -/
  parse : String → Float64
  repr : Float64 → String
  /-- `"%.2g" % x`. -/
  fmt2g : Num → String
  /-- `x + y` for two numbers that are not both integers. -/
  add : Num → Num → Option Float64
  sub : Num → Num → Option Float64
  mul : Num → Num → Option Float64
  /-- `x / y` where `y` is not zero; both may be integers. -/
  div : Num → Num → Option Float64
  mod : Num → Num → Option Float64
  neg : Float64 → Float64
  abs : Float64 → Float64
  sqrt : Num → Option Float64
  /-- `int(x)`. -/
  trunc : Float64 → Option ℤ
  isFinite : Float64 → Bool

/-- The identity of a node: literals are one node each, and so are the
builtins; every other node is made by a step of the run. -/
inductive NodeId where
  | literal (term : ℕ)
  | builtin (name : String)
  | made (n : ℕ)
deriving DecidableEq

mutual

inductive Node where
  | mk (id : NodeId) (op detail : String) (line : ℕ) (inputs : List Node) (count : ℕ)
      (value : Payload)

inductive Payload where
  | bool (b : Bool)
  | num (n : Num)
  | str (s : String)
  | list (items : List Node)
  | record (fields : List (String × Node))
  | miss (reasons : List String)
  | guess (node : Node) (confidence : Num) (sources : List String)
  | closure (c : Closure)
  | builtin (name : String)
  | explanation (root : Node)

/-- A type that a value is checked against: a payload, or the name of a type
that was not in scope. -/
inductive Spec where
  | known (p : Payload)
  | unbound (name : String)

/-- A closure of an entry of the table of functions: the frames it was made in,
innermost first, and the contracts of its value and of its annotated parameters. -/
inductive Closure where
  | mk (fn : ℕ) (name : Option String) (env : List ℕ) (ret : Option Spec)
      (paramSpecs : List Spec)

end

instance : Inhabited Payload := ⟨.bool false⟩

instance : Inhabited Node := ⟨.mk (.made 0) "" "" 0 [] 1 default⟩

namespace Node

def id : Node → NodeId
  | .mk id _ _ _ _ _ _ => id

def op : Node → String
  | .mk _ op _ _ _ _ _ => op

def detail : Node → String
  | .mk _ _ detail _ _ _ _ => detail

def line : Node → ℕ
  | .mk _ _ _ line _ _ _ => line

def inputs : Node → List Node
  | .mk _ _ _ _ inputs _ _ => inputs

def count : Node → ℕ
  | .mk _ _ _ _ _ count _ => count

def value : Node → Payload
  | .mk _ _ _ _ _ _ value => value

def label (v : Node) : String :=
  if v.detail = "" then v.op
  else if v.op = "" then v.detail
  else s!"{v.op} {v.detail}"

end Node

namespace Payload

def isMiss : Payload → Bool
  | .miss _ => true
  | _ => false

def isGuess : Payload → Bool
  | .guess .. => true
  | _ => false

/-- The reasons of a miss; nothing else has any. -/
def reasons : Payload → List String
  | .miss reasons => reasons
  | _ => []

/-- `isinstance(p, (Closure, Builtin))`. -/
def isFunction : Payload → Bool
  | .closure _ | .builtin _ => true
  | _ => false

/-- `_kind`. -/
def kind : Payload → String
  | .miss _ => "miss"
  | .bool _ => "bool"
  | .num _ => "num"
  | .str _ => "str"
  | .list _ => "list"
  | .record _ => "record"
  | .closure _ | .builtin _ => "fn"
  | .guess .. => "guess"
  | .explanation _ => "value"

end Payload

/-- `_is_miss`. -/
def Node.isMiss (v : Node) : Bool := v.value.isMiss

/-! ## Identity of payloads

A payload is the same object as another when it is the same tree. -/

mutual

def Node.same : Node → Node → Bool
  | .mk id op detail line inputs count value, .mk id' op' detail' line' inputs' count' value' =>
      id = id' && op = op' && detail = detail' && line = line' && sameNodes inputs inputs' &&
        count = count' && value.same value'
termination_by structural v => v

def Payload.same : Payload → Payload → Bool
  | .bool b, .bool b' => b = b'
  | .num n, .num n' => n = n'
  | .str s, .str s' => s = s'
  | .list items, .list items' => sameNodes items items'
  | .record fields, .record fields' => sameFields fields fields'
  | .miss reasons, .miss reasons' => reasons = reasons'
  | .guess node confidence sources, .guess node' confidence' sources' =>
      node.same node' && confidence = confidence' && sources = sources'
  | .closure c, .closure c' => c.same c'
  | .builtin name, .builtin name' => name = name'
  | .explanation root, .explanation root' => root.same root'
  | _, _ => false
termination_by structural v => v

def Spec.same : Spec → Spec → Bool
  | .known p, .known p' => p.same p'
  | .unbound name, .unbound name' => name = name'
  | _, _ => false
termination_by structural v => v

def Closure.same : Closure → Closure → Bool
  | .mk fn name env ret paramSpecs, .mk fn' name' env' ret' paramSpecs' =>
      fn = fn' && name = name' && env = env' && sameRet ret ret' && sameSpecs paramSpecs paramSpecs'
termination_by structural v => v

def sameNodes : List Node → List Node → Bool
  | [], [] => true
  | v :: vs, v' :: vs' => v.same v' && sameNodes vs vs'
  | _, _ => false
termination_by structural v => v

def sameFields : List (String × Node) → List (String × Node) → Bool
  | [], [] => true
  | (key, v) :: fields, (key', v') :: fields' =>
      key = key' && v.same v' && sameFields fields fields'
  | _, _ => false
termination_by structural v => v

def sameRet : Option Spec → Option Spec → Bool
  | none, none => true
  | some spec, some spec' => spec.same spec'
  | _, _ => false
termination_by structural v => v

def sameSpecs : List Spec → List Spec → Bool
  | [], [] => true
  | spec :: specs, spec' :: specs' => spec.same spec' && sameSpecs specs specs'
  | _, _ => false
termination_by structural v => v

end

mutual

theorem Node.eq_of_same : ∀ {v w : Node}, v.same w = true → v = w
  | .mk id op detail line inputs count value,
      .mk id' op' detail' line' inputs' count' value', h => by
      simp only [Node.same, Bool.and_eq_true, decide_eq_true_eq] at h
      obtain ⟨⟨⟨⟨⟨⟨rfl, rfl⟩, rfl⟩, rfl⟩, hinputs⟩, rfl⟩, hvalue⟩ := h
      rw [eq_of_sameNodes hinputs, Payload.eq_of_same hvalue]

theorem Payload.eq_of_same : ∀ {p q : Payload}, p.same q = true → p = q
  | .bool _, q, h | .num _, q, h | .str _, q, h | .miss _, q, h | .builtin _, q, h => by
      cases q <;> simp_all [Payload.same]
  | .list items, q, h => by
      cases q <;> simp only [Payload.same, Bool.false_eq_true] at h
      rw [eq_of_sameNodes h]
  | .record fields, q, h => by
      cases q <;> simp only [Payload.same, Bool.false_eq_true] at h
      rw [eq_of_sameFields h]
  | .guess node confidence sources, q, h => by
      cases q <;> simp only [Payload.same, Bool.false_eq_true, Bool.and_eq_true,
        decide_eq_true_eq] at h
      rw [Node.eq_of_same h.1.1, h.1.2, h.2]
  | .closure c, q, h => by
      cases q <;> simp only [Payload.same, Bool.false_eq_true] at h
      rw [Closure.eq_of_same h]
  | .explanation root, q, h => by
      cases q <;> simp only [Payload.same, Bool.false_eq_true] at h
      rw [Node.eq_of_same h]

theorem Spec.eq_of_same : ∀ {spec spec' : Spec}, spec.same spec' = true → spec = spec'
  | .known p, spec', h => by
      cases spec' <;> simp only [Spec.same, Bool.false_eq_true] at h
      rw [Payload.eq_of_same h]
  | .unbound _, spec', h => by cases spec' <;> simp_all [Spec.same]

theorem Closure.eq_of_same : ∀ {c c' : Closure}, c.same c' = true → c = c'
  | .mk fn name env ret paramSpecs, .mk fn' name' env' ret' paramSpecs', h => by
      simp only [Closure.same, Bool.and_eq_true, decide_eq_true_eq] at h
      obtain ⟨⟨⟨⟨rfl, rfl⟩, rfl⟩, hret⟩, hspecs⟩ := h
      rw [eq_of_sameRet hret, eq_of_sameSpecs hspecs]

theorem eq_of_sameNodes : ∀ {vs ws : List Node}, sameNodes vs ws = true → vs = ws
  | [], ws, h => by cases ws <;> simp_all [sameNodes]
  | v :: vs, ws, h => by
      cases ws <;> simp only [sameNodes, Bool.false_eq_true, Bool.and_eq_true] at h
      rw [Node.eq_of_same h.1, eq_of_sameNodes h.2]

theorem eq_of_sameFields : ∀ {fs gs : List (String × Node)}, sameFields fs gs = true → fs = gs
  | [], gs, h => by cases gs <;> simp_all [sameFields]
  | (key, v) :: fs, gs, h => by
      rcases gs with _ | ⟨⟨key', v'⟩, gs⟩ <;>
        simp only [sameFields, Bool.false_eq_true, Bool.and_eq_true, decide_eq_true_eq] at h
      rw [h.1.1, Node.eq_of_same h.1.2, eq_of_sameFields h.2]

theorem eq_of_sameRet : ∀ {r r' : Option Spec}, sameRet r r' = true → r = r'
  | none, r', h => by cases r' <;> simp_all [sameRet]
  | some spec, r', h => by
      cases r' <;> simp only [sameRet, Bool.false_eq_true] at h
      rw [Spec.eq_of_same h]

theorem eq_of_sameSpecs : ∀ {ss ss' : List Spec}, sameSpecs ss ss' = true → ss = ss'
  | [], ss', h => by cases ss' <;> simp_all [sameSpecs]
  | spec :: ss, ss', h => by
      cases ss' <;> simp only [sameSpecs, Bool.false_eq_true, Bool.and_eq_true] at h
      rw [Spec.eq_of_same h.1, eq_of_sameSpecs h.2]

end

mutual

theorem Node.same_self : ∀ v : Node, v.same v = true
  | .mk _ _ _ _ inputs _ value => by
      simp [Node.same, sameNodes_self inputs, Payload.same_self value]

theorem Payload.same_self : ∀ p : Payload, p.same p = true
  | .bool _ | .num _ | .str _ | .miss _ | .builtin _ => by simp [Payload.same]
  | .list items => by simp [Payload.same, sameNodes_self items]
  | .record fields => by simp [Payload.same, sameFields_self fields]
  | .guess node _ _ => by simp [Payload.same, Node.same_self node]
  | .closure c => by simp [Payload.same, Closure.same_self c]
  | .explanation root => by simp [Payload.same, Node.same_self root]

theorem Spec.same_self : ∀ spec : Spec, spec.same spec = true
  | .known p => by simp [Spec.same, Payload.same_self p]
  | .unbound _ => by simp [Spec.same]

theorem Closure.same_self : ∀ c : Closure, c.same c = true
  | .mk _ _ _ ret paramSpecs => by
      simp [Closure.same, sameRet_self ret, sameSpecs_self paramSpecs]

theorem sameNodes_self : ∀ vs : List Node, sameNodes vs vs = true
  | [] => by simp [sameNodes]
  | v :: vs => by simp [sameNodes, Node.same_self v, sameNodes_self vs]

theorem sameFields_self : ∀ fields : List (String × Node), sameFields fields fields = true
  | [] => by simp [sameFields]
  | (_, v) :: fields => by simp [sameFields, Node.same_self v, sameFields_self fields]

theorem sameRet_self : ∀ ret : Option Spec, sameRet ret ret = true
  | none => by simp [sameRet]
  | some spec => by simp [sameRet, Spec.same_self spec]

theorem sameSpecs_self : ∀ specs : List Spec, sameSpecs specs specs = true
  | [] => by simp [sameSpecs]
  | spec :: specs => by simp [sameSpecs, Spec.same_self spec, sameSpecs_self specs]

end

instance : DecidableEq Node := fun v w ↦
  decidable_of_iff (v.same w = true) ⟨Node.eq_of_same, fun h ↦ h ▸ Node.same_self v⟩

instance : DecidableEq Payload := fun p q ↦
  decidable_of_iff (p.same q = true) ⟨Payload.eq_of_same, fun h ↦ h ▸ Payload.same_self p⟩

/-- `Miss` and `Guess` keep the first occurrence of each text. -/
def keepFirst (texts : List String) : List String :=
  texts.foldl (fun out r ↦ if out.contains r then out else out ++ [r]) []

def mkMiss (reasons : List String) : Payload := .miss (keepFirst reasons)

def mkGuess (node : Node) (confidence : Num) (sources : List String) : Payload :=
  .guess node confidence (keepFirst sources)

/-! ## Record fields

The fields of a record are a map from names, kept in the order of the names. -/

namespace Fields

def get? (fields : List (String × Node)) (key : String) : Option Node :=
  (fields.find? (·.1 = key)).map Prod.snd

def put (key : String) (v : Node) : List (String × Node) → List (String × Node)
  | [] => [(key, v)]
  | f :: fields =>
      if key = f.1 then (key, v) :: fields
      else if key < f.1 then (key, v) :: f :: fields
      else f :: put key v fields

/-- `merged_with`. -/
def merge (fields others : List (String × Node)) : List (String × Node) :=
  others.foldl (fun m f ↦ put f.1 f.2 m) fields

/-- `PMap.from_dict`. -/
def ofDict (pairs : List (String × Node)) : List (String × Node) := merge [] pairs

def keys (fields : List (String × Node)) : List String := fields.map Prod.fst

end Fields

theorem Fields.mem_put {key : String} {v : Node} {fields : List (String × Node)} {m : Node}
    (h : m ∈ (Fields.put key v fields).map Prod.snd) : m = v ∨ m ∈ fields.map Prod.snd := by
  induction fields with
  | nil => exact .inl (by simpa [Fields.put] using h)
  | cons f fields ih =>
      rw [Fields.put] at h
      split at h
      · rcases List.mem_cons.mp h with h | h
        · exact .inl h
        · exact .inr (List.mem_cons_of_mem _ h)
      · split at h
        · exact List.mem_cons.mp h
        · rcases List.mem_cons.mp h with h | h
          · exact .inr (h ▸ List.mem_cons_self)
          · exact (ih h).imp_right (List.mem_cons_of_mem _)

/-- What is put into a map one after the other. -/
theorem mem_foldl_fields (put : String → Node → List (String × Node) → List (String × Node))
    (hput : ∀ key v fields m, m ∈ (put key v fields).map Prod.snd → m = v ∨ m ∈ fields.map Prod.snd)
    {pairs fields : List (String × Node)} {m : Node}
    (h : m ∈ (pairs.foldl (fun fields p ↦ put p.1 p.2 fields) fields).map Prod.snd) :
    m ∈ fields.map Prod.snd ∨ m ∈ pairs.map Prod.snd := by
  induction pairs generalizing fields with
  | nil => exact .inl h
  | cons p pairs ih =>
      rcases ih h with h | h
      · rcases hput _ _ _ _ h with rfl | h
        · exact .inr List.mem_cons_self
        · exact .inl h
      · exact .inr (List.mem_cons_of_mem _ h)

theorem Fields.mem_merge {fields others : List (String × Node)} {m : Node}
    (h : m ∈ (Fields.merge fields others).map Prod.snd) :
    m ∈ fields.map Prod.snd ∨ m ∈ others.map Prod.snd :=
  mem_foldl_fields Fields.put (fun _ _ _ _ ↦ Fields.mem_put) h

theorem Fields.mem_ofDict {pairs : List (String × Node)} {m : Node}
    (h : m ∈ (Fields.ofDict pairs).map Prod.snd) : m ∈ pairs.map Prod.snd :=
  (Fields.mem_merge h).resolve_left List.not_mem_nil

/-- `d[key] = v` on a dict that keeps the order of its keys. -/
def dictSet (key : String) (v : Node) : List (String × Node) → List (String × Node)
  | [] => [(key, v)]
  | p :: pairs => if p.1 = key then (key, v) :: pairs else p :: dictSet key v pairs

end NucLlm.Whence
