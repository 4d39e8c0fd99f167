import NucLlm.Whence.Operators

/-!
# Contracts

A type is a tag or a record of types; a value has it or it does not.  The
contract of a parameter or of a return value is checked where the value crosses
it, and a value that breaks a contract becomes a miss.
-/

namespace NucLlm.Whence

/-! ## Computations of the host -/

/-- A computation that makes nodes or raises. -/
abbrev Hosting (α : Type) := StateT Tally Option α

namespace Hosting

variable {α : Type}

def raise : Hosting α := fun _ ↦ none

/-- A computation that does not raise. -/
def made (m : Making α) : Hosting α := fun t ↦ some (m t)

/-- `raise` where there is nothing. -/
def ofOption : Option α → Hosting α
  | some a => pure a
  | none => raise

end Hosting

/-- `mk_miss` with a detail. -/
def makeMissIn (reason : String) (line : ℕ) (op detail : String) (inputs : List Node) :
    Making Node :=
  derived op (if detail = "" then reason else detail) line inputs
    (mkMiss [s!"{reason} (line {line})"])

/-! ## Types -/

def shapeKey : String := "__shape"

mutual

/-- `_spec_ok`. -/
def Payload.specOk : Payload → Bool
  | .str _ => true
  | .record fields => specOkFields fields
  | _ => false
termination_by structural p => p

def Node.specOk : Node → Bool
  | .mk _ _ _ _ _ _ value => value.specOk
termination_by structural v => v

def specOkFields : List (String × Node) → Bool
  | [] => true
  | (key, v) :: fields => (key = shapeKey || v.specOk) && specOkFields fields
termination_by structural fields => fields

end

/-- The name that a record of types has in messages. -/
def shapeName (fields : List (String × Node)) : String :=
  match (Fields.get? fields shapeKey).map Node.value with
  | some (.str name) => name
  | _ => "record"

mutual

/-- `_type_match`: whether the payload has the type, and the name of the type.  Nothing where
the host would read the fields of what has none. -/
def Payload.typeMatch : Payload → Payload → Option (Bool × String)
  | .str tag, p => some (tag = "any" || p.kind = tag, tag)
  | .record fields, .record found => (typeMatchFields fields found).map (·, shapeName fields)
  | .record fields, _ => some (false, shapeName fields)
  | _, _ => none
termination_by structural spec => spec

def Node.typeMatch : Node → Payload → Option (Bool × String)
  | .mk _ _ _ _ _ _ value, p => value.typeMatch p
termination_by structural spec => spec

def typeMatchFields : List (String × Node) → List (String × Node) → Option Bool
  | [], _ => some true
  | (key, spec) :: fields, found =>
      if key = shapeKey then typeMatchFields fields found
      else match (Fields.get? found key).map Node.value with
        | none | some (.miss _) => some false
        | some p =>
            match spec.typeMatch p with
            | some (true, _) => typeMatchFields fields found
            | some (false, _) => some false
            | none => none
termination_by structural fields => fields

end

theorem typeMatchFields_nil (found : List (String × Node)) :
    typeMatchFields [] found = some true := by rw [typeMatchFields]

mutual

/-- `_match_why`, where the host does not raise. -/
def Payload.matchWhy : Payload → Payload → String → Option (Option String)
  | .record fields, .record found, path => matchWhyFields fields found path
  | _, _, _ => some none
termination_by structural spec => spec

def Node.matchWhy : Node → Payload → String → Option (Option String)
  | .mk _ _ _ _ _ _ value, p, path => value.matchWhy p path
termination_by structural spec => spec

/-- The fields come in the order of their names. -/
def matchWhyFields : List (String × Node) → List (String × Node) → String → Option (Option String)
  | [], _, _ => some none
  | (key, spec) :: fields, found, path =>
      let here := s!"{path}'{key}'"
      if key = shapeKey then matchWhyFields fields found path
      else match (Fields.get? found key).map Node.value with
        | none => some (some s!"no field {here}")
        | some (.miss _) => some (some s!"field {here} is a miss")
        | some p =>
            match spec.typeMatch p with
            | none => none
            | some (true, _) => matchWhyFields fields found path
            | some (false, expected) =>
                match spec.matchWhy p (here ++ ".") with
                | none => none
                | some (some deeper) => some (some deeper)
                | some none => some (some s!"field {here} expected {expected}, got {p.kind}")
termination_by structural fields => fields

end

theorem matchWhyFields_nil (found : List (String × Node)) (path : String) :
    matchWhyFields [] found path = some none := by rw [matchWhyFields]

/-- `_mismatch_reason`. -/
def mismatchReason (label : String) (p spec : Payload) (expected : String) : Option String :=
  (spec.matchWhy p "").map fun
    | none => s!"{label} expected {expected}, got {p.kind}"
    | some clause => s!"{label} expected {expected}, got {p.kind} ({clause})"

/-! ## Checks -/

section

variable (F : FloatOps)

/-- A value that passes the check, or the miss that names the mismatch. -/
def checkType (v : Node) (spec : Payload) (label : String) (line : ℕ) : Hosting Node := do
  let (ok, expected) ← Hosting.ofOption (spec.typeMatch v.value)
  if ok then pure v
  else do
    let reason ← Hosting.ofOption (mismatchReason label v.value spec expected)
    Hosting.made (makeMissIn reason line "typed" label [v])

/-- `_check_contract`. -/
def checkContract (result : Node) (spec : Option Spec) (label : String) (line : ℕ) :
    Hosting Node :=
  match spec with
  | none => pure result
  | some spec =>
      if result.isMiss then pure result
      else match spec with
        | .unbound name =>
            Hosting.made (makeMissIn s!"{label}: type '{name}' is not in scope here" line "typed"
              label [result])
        | .known spec =>
            if spec.specOk then checkType result spec label line
            else
              Hosting.made (makeMissIn
                s!"typed spec must be a type name or a shape, got {spec.show F}" line "typed" label
                [result])

end

end NucLlm.Whence
