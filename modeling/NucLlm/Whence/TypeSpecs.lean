import Mathlib
import NucLlm.Whence.Builtins

/-!
# Types of values

A type says what it is to have it.  The walk that checks a value and the walk
that explains a mismatch both decide it, and so do `typed`, `matches` and the
contracts of functions.
-/

namespace NucLlm.Whence

mutual

/-- A payload has the type that a payload stands for. -/
def Payload.HasType : Payload → Payload → Prop
  | .str tag, p => tag = "any" ∨ p.kind = tag
  | .record fields, p => ∃ found, p = .record found ∧ HasFields fields found
  | _, _ => False
termination_by structural spec => spec

def Node.HasType : Node → Payload → Prop
  | .mk _ _ _ _ _ _ value, p => value.HasType p
termination_by structural spec => spec

/-- A record has each field of a record of types. -/
def HasFields : List (String × Node) → List (String × Node) → Prop
  | [], _ => True
  | (key, spec) :: fields, found =>
      (key = shapeKey ∨
        ∃ v, Fields.get? found key = some v ∧ v.isMiss = false ∧ spec.HasType v.value) ∧
        HasFields fields found
termination_by structural fields => fields

end

/-! ## One field -/

section

variable {key : String} {spec v : Node} {fields found : List (String × Node)} {path : String}

theorem isMiss_iff : v.isMiss = true ↔ ∃ reasons, v.value = .miss reasons := by
  unfold Node.isMiss
  cases v.value <;> simp [Payload.isMiss]

theorem typeMatchFields_shape :
    typeMatchFields ((shapeKey, spec) :: fields) found = typeMatchFields fields found := by
  rw [typeMatchFields, if_pos rfl]

theorem typeMatchFields_absent (hkey : key ≠ shapeKey) (hget : Fields.get? found key = none) :
    typeMatchFields ((key, spec) :: fields) found = some false := by
  simp [typeMatchFields, hkey, hget]

theorem typeMatchFields_miss (hkey : key ≠ shapeKey) (hget : Fields.get? found key = some v)
    (hmiss : v.isMiss = true) : typeMatchFields ((key, spec) :: fields) found = some false := by
  obtain ⟨reasons, hvalue⟩ := isMiss_iff.mp hmiss
  simp [typeMatchFields, hkey, hget, hvalue]

theorem typeMatchFields_match {name : String} (hkey : key ≠ shapeKey)
    (hget : Fields.get? found key = some v) (hmiss : v.isMiss = false)
    (hmatch : spec.typeMatch v.value = some (true, name)) :
    typeMatchFields ((key, spec) :: fields) found = typeMatchFields fields found := by
  rw [typeMatchFields, if_neg hkey, hget, Option.map_some]
  split
  · contradiction
  · rename_i reasons hvalue
    rw [isMiss_iff.mpr ⟨reasons, Option.some.inj hvalue⟩] at hmiss
    contradiction
  · rename_i p hvalue
    obtain rfl := Option.some.inj hvalue
    rw [hmatch]

theorem typeMatchFields_mismatch {name : String} (hkey : key ≠ shapeKey)
    (hget : Fields.get? found key = some v)
    (hmatch : spec.typeMatch v.value = some (false, name)) :
    typeMatchFields ((key, spec) :: fields) found = some false := by
  rw [typeMatchFields, if_neg hkey, hget, Option.map_some]
  split
  · contradiction
  · rfl
  · rename_i p hvalue
    obtain rfl := Option.some.inj hvalue
    rw [hmatch]

/-- The path to a field. -/
def fieldPath (path key : String) : String := s!"{path}'{key}'"

theorem matchWhyFields_shape :
    matchWhyFields ((shapeKey, spec) :: fields) found path = matchWhyFields fields found path := by
  rw [matchWhyFields]
  exact if_pos rfl

theorem matchWhyFields_absent (hkey : key ≠ shapeKey) (hget : Fields.get? found key = none) :
    matchWhyFields ((key, spec) :: fields) found path =
      some (some s!"no field {fieldPath path key}") := by
  simp [matchWhyFields, hkey, hget, fieldPath]

theorem matchWhyFields_miss (hkey : key ≠ shapeKey) (hget : Fields.get? found key = some v)
    (hmiss : v.isMiss = true) :
    matchWhyFields ((key, spec) :: fields) found path =
      some (some s!"field {fieldPath path key} is a miss") := by
  obtain ⟨reasons, hvalue⟩ := isMiss_iff.mp hmiss
  simp [matchWhyFields, hkey, hget, hvalue, fieldPath]

theorem matchWhyFields_match {name : String} (hkey : key ≠ shapeKey)
    (hget : Fields.get? found key = some v) (hmiss : v.isMiss = false)
    (hmatch : spec.typeMatch v.value = some (true, name)) :
    matchWhyFields ((key, spec) :: fields) found path = matchWhyFields fields found path := by
  rw [matchWhyFields, if_neg hkey, hget, Option.map_some]
  split
  · contradiction
  · rename_i reasons hvalue
    rw [isMiss_iff.mpr ⟨reasons, Option.some.inj hvalue⟩] at hmiss
    contradiction
  · rename_i p hvalue
    obtain rfl := Option.some.inj hvalue
    rw [hmatch]

/-- What is said of a field that has not its type: what is wrong inside it, or else the field. -/
def saidOf (path key expected : String) (v : Node) : Option String → String
  | some deeper => deeper
  | none => s!"field {fieldPath path key} expected {expected}, got {v.value.kind}"

theorem matchWhyFields_mismatch {name : String} {why : Option String} (hkey : key ≠ shapeKey)
    (hget : Fields.get? found key = some v) (hmiss : v.isMiss = false)
    (hmatch : spec.typeMatch v.value = some (false, name))
    (hwhy : spec.matchWhy v.value (fieldPath path key ++ ".") = some why) :
    matchWhyFields ((key, spec) :: fields) found path =
      some (some (saidOf path key name v why)) := by
  rw [matchWhyFields, if_neg hkey, hget, Option.map_some]
  split
  · contradiction
  · rename_i reasons hvalue
    rw [isMiss_iff.mpr ⟨reasons, Option.some.inj hvalue⟩] at hmiss
    contradiction
  · rename_i p hvalue
    obtain rfl := Option.some.inj hvalue
    rw [fieldPath] at hwhy
    rw [hmatch]
    dsimp only
    rw [hwhy]
    cases why <;> rfl

end

/-- Only of a record that has not the type of a record is more to say. -/
theorem records_of_matchWhy {spec p : Payload} {path clause : String}
    (h : spec.matchWhy p path = some (some clause)) :
    ∃ fields found, spec = .record fields ∧ p = .record found := by
  cases spec with
  | record fields =>
      cases p with
      | record found => exact ⟨fields, found, rfl, rfl⟩
      | _ => simp [Payload.matchWhy] at h
  | _ => simp [Payload.matchWhy] at h

theorem Node.matchWhy_eq (spec : Node) (p : Payload) (path : String) :
    spec.matchWhy p path = spec.value.matchWhy p path := by
  cases spec
  rfl

/-! ## The check decides the type -/

/-- The check ends with a verdict, and with the right one. -/
def Decides (spec p : Payload) : Prop :=
  ∃ ok name, spec.typeMatch p = some (ok, name) ∧ (ok = true ↔ spec.HasType p)

mutual

theorem Payload.decides : ∀ (spec p : Payload), spec.specOk = true → Decides spec p
  | .str tag, p, _ => by
      refine ⟨_, tag, rfl, ?_⟩
      simp [Payload.HasType]
  | .record fields, p, hok => by
      cases p with
      | record found =>
          obtain ⟨ok, hmatch, hiff⟩ := decidesFields fields found hok
          refine ⟨ok, shapeName fields, by simp [Payload.typeMatch, hmatch], ?_⟩
          rw [hiff]
          simp [Payload.HasType]
      | _ => exact ⟨false, shapeName fields, rfl, by simp [Payload.HasType]⟩
  | .bool _, _, hok => by contradiction
  | .num _, _, hok => by contradiction
  | .list _, _, hok => by contradiction
  | .miss _, _, hok => by contradiction
  | .guess _ _ _, _, hok => by contradiction
  | .closure _, _, hok => by contradiction
  | .builtin _, _, hok => by contradiction
  | .explanation _, _, hok => by contradiction

theorem Node.decides : ∀ (spec : Node) (p : Payload), spec.specOk = true →
    ∃ ok name, spec.typeMatch p = some (ok, name) ∧ (ok = true ↔ spec.HasType p)
  | .mk _ _ _ _ _ _ value, p, hok => value.decides p hok

theorem decidesFields : ∀ (fields found : List (String × Node)), specOkFields fields = true →
    ∃ ok, typeMatchFields fields found = some ok ∧ (ok = true ↔ HasFields fields found)
  | [], found, _ => ⟨true, typeMatchFields_nil found, by simp [HasFields]⟩
  | (key, spec) :: fields, found, hok => by
      rw [specOkFields, Bool.and_eq_true, Bool.or_eq_true, decide_eq_true_eq] at hok
      obtain ⟨rest, hrest, hiff⟩ := decidesFields fields found hok.2
      rw [HasFields]
      by_cases hkey : key = shapeKey
      · subst hkey
        exact ⟨rest, by rw [typeMatchFields_shape, hrest], by simp [hiff]⟩
      · have hspec := hok.1.resolve_left hkey
        cases hget : Fields.get? found key with
        | none => exact ⟨false, typeMatchFields_absent hkey hget, by simp [hkey]⟩
        | some v =>
            by_cases hmiss : v.isMiss = true
            · exact ⟨false, typeMatchFields_miss hkey hget hmiss, by simp [hkey, hmiss]⟩
            · have hnone : v.isMiss = false := by simpa using hmiss
              obtain ⟨ok, name, hmatch, hhas⟩ := spec.decides v.value hspec
              cases ok with
              | true =>
                  refine ⟨rest, by rw [typeMatchFields_match hkey hget hnone hmatch, hrest], ?_⟩
                  simp [hkey, hnone, hhas.mp rfl, hiff]
              | false =>
                  refine ⟨false, typeMatchFields_mismatch hkey hget hmatch, ?_⟩
                  have hnot : ¬spec.HasType v.value := fun h ↦ by simpa using hhas.mpr h
                  simp [hkey, hnot]

end

/-! ## The explanation names what is wrong -/

/-- A text about a field of a record of types that a record has not, or not with its type. -/
inductive Fault : List (String × Node) → List (String × Node) → String → String → Prop where
  | absent {fields found : List (String × Node)} {path key : String} {spec : Node}
      (hmem : (key, spec) ∈ fields) (hkey : key ≠ shapeKey) (hget : Fields.get? found key = none) :
      Fault fields found path s!"no field {fieldPath path key}"
  | miss {fields found : List (String × Node)} {path key : String} {spec v : Node}
      (hmem : (key, spec) ∈ fields) (hkey : key ≠ shapeKey) (hget : Fields.get? found key = some v)
      (hmiss : v.isMiss = true) : Fault fields found path s!"field {fieldPath path key} is a miss"
  | mismatch {fields found : List (String × Node)} {path key expected : String} {spec v : Node}
      (hmem : (key, spec) ∈ fields) (hkey : key ≠ shapeKey) (hget : Fields.get? found key = some v)
      (hmiss : v.isMiss = false) (hhas : ¬spec.HasType v.value)
      (hmatch : spec.typeMatch v.value = some (false, expected)) :
      Fault fields found path s!"field {fieldPath path key} expected {expected}, got {v.value.kind}"
  | inside {fields found inner innerFound : List (String × Node)} {path key clause : String}
      {spec v : Node} (hmem : (key, spec) ∈ fields) (hkey : key ≠ shapeKey)
      (hget : Fields.get? found key = some v) (hspec : spec.value = .record inner)
      (hvalue : v.value = .record innerFound)
      (hfault : Fault inner innerFound (fieldPath path key ++ ".") clause) :
      Fault fields found path clause

theorem Fault.cons {f : String × Node} {fields found : List (String × Node)} {path clause : String}
    (h : Fault fields found path clause) : Fault (f :: fields) found path clause := by
  cases h with
  | absent hmem hkey hget => exact .absent (List.mem_cons_of_mem f hmem) hkey hget
  | miss hmem hkey hget hmiss => exact .miss (List.mem_cons_of_mem f hmem) hkey hget hmiss
  | mismatch hmem hkey hget hmiss hhas hmatch =>
      exact .mismatch (List.mem_cons_of_mem f hmem) hkey hget hmiss hhas hmatch
  | inside hmem hkey hget hspec hvalue hfault =>
      exact .inside (List.mem_cons_of_mem f hmem) hkey hget hspec hvalue hfault

/-- The explanation of a mismatch of a record: there is one just if the record has not the fields,
and it names one that is wrong. -/
def Explains (fields found : List (String × Node)) (path : String) : Prop :=
  ∃ why, matchWhyFields fields found path = some why ∧ (why = none ↔ HasFields fields found) ∧
    ∀ clause, why = some clause → Fault fields found path clause

/-- What a mismatch says of a payload. -/
def Explained (spec p : Payload) (path : String) : Prop :=
  ∃ why, spec.matchWhy p path = some why ∧
    ∀ fields found, spec = .record fields → p = .record found →
      (why = none ↔ HasFields fields found) ∧
        ∀ clause, why = some clause → Fault fields found path clause

mutual

theorem Payload.explained : ∀ (spec p : Payload) (path : String), spec.specOk = true →
    Explained spec p path
  | .record fields, .record found, path, hok => by
      obtain ⟨why, hwhy, hspec⟩ := explainsFields fields found path hok
      refine ⟨why, hwhy, ?_⟩
      rintro _ _ ⟨rfl⟩ ⟨rfl⟩
      exact hspec
  | .record fields, .bool _, path, _ => ⟨none, rfl, by intro _ _ _ h; contradiction⟩
  | .record fields, .num _, path, _ => ⟨none, rfl, by intro _ _ _ h; contradiction⟩
  | .record fields, .str _, path, _ => ⟨none, rfl, by intro _ _ _ h; contradiction⟩
  | .record fields, .list _, path, _ => ⟨none, rfl, by intro _ _ _ h; contradiction⟩
  | .record fields, .miss _, path, _ => ⟨none, rfl, by intro _ _ _ h; contradiction⟩
  | .record fields, .guess _ _ _, path, _ => ⟨none, rfl, by intro _ _ _ h; contradiction⟩
  | .record fields, .closure _, path, _ => ⟨none, rfl, by intro _ _ _ h; contradiction⟩
  | .record fields, .builtin _, path, _ => ⟨none, rfl, by intro _ _ _ h; contradiction⟩
  | .record fields, .explanation _, path, _ => ⟨none, rfl, by intro _ _ _ h; contradiction⟩
  | .str tag, p, path, _ => ⟨none, rfl, by intro _ _ h; contradiction⟩
  | .bool _, _, _, hok => by contradiction
  | .num _, _, _, hok => by contradiction
  | .list _, _, _, hok => by contradiction
  | .miss _, _, _, hok => by contradiction
  | .guess _ _ _, _, _, hok => by contradiction
  | .closure _, _, _, hok => by contradiction
  | .builtin _, _, _, hok => by contradiction
  | .explanation _, _, _, hok => by contradiction

theorem Node.explained : ∀ (spec : Node) (p : Payload) (path : String), spec.specOk = true →
    ∃ why, spec.matchWhy p path = some why ∧
      ∀ fields found, spec.value = .record fields → p = .record found →
        (why = none ↔ HasFields fields found) ∧
          ∀ clause, why = some clause → Fault fields found path clause
  | .mk _ _ _ _ _ _ value, p, path, hok => value.explained p path hok

theorem explainsFields : ∀ (fields found : List (String × Node)) (path : String),
    specOkFields fields = true → Explains fields found path
  | [], found, path, _ =>
      ⟨none, matchWhyFields_nil found path, by simp [HasFields], by intro _ h; contradiction⟩
  | (key, spec) :: fields, found, path, hok => by
      rw [specOkFields, Bool.and_eq_true, Bool.or_eq_true, decide_eq_true_eq] at hok
      obtain ⟨rest, hrest, hiff, hfault⟩ := explainsFields fields found path hok.2
      by_cases hkey : key = shapeKey
      · subst hkey
        refine ⟨rest, by rw [matchWhyFields_shape, hrest], ?_, fun clause h ↦
          (hfault clause h).cons⟩
        simp [HasFields, hiff]
      · have hspec := hok.1.resolve_left hkey
        cases hget : Fields.get? found key with
        | none =>
            refine ⟨_, matchWhyFields_absent hkey hget, by simp [HasFields, hkey, hget], ?_⟩
            rintro _ ⟨rfl⟩
            exact .absent List.mem_cons_self hkey hget
        | some v =>
            by_cases hmiss : v.isMiss = true
            · refine ⟨_, matchWhyFields_miss hkey hget hmiss,
                by simp [HasFields, hkey, hget, hmiss], ?_⟩
              rintro _ ⟨rfl⟩
              exact .miss List.mem_cons_self hkey hget hmiss
            · have hnone : v.isMiss = false := by simpa using hmiss
              obtain ⟨ok, name, hmatch, hhas⟩ := spec.decides v.value hspec
              cases ok with
              | true =>
                  refine ⟨rest, by rw [matchWhyFields_match hkey hget hnone hmatch, hrest], ?_,
                    fun clause h ↦ (hfault clause h).cons⟩
                  simp [HasFields, hkey, hget, hnone, hhas.mp rfl, hiff]
              | false =>
                  have hnot : ¬spec.HasType v.value := fun h ↦ by simpa using hhas.mpr h
                  obtain ⟨why, hwhy, hinside⟩ :=
                    spec.explained v.value (fieldPath path key ++ ".") hspec
                  refine ⟨_, matchWhyFields_mismatch hkey hget hnone hmatch hwhy,
                    by simp [HasFields, hkey, hget, hnot], ?_⟩
                  rintro _ ⟨rfl⟩
                  cases why with
                  | none => exact .mismatch List.mem_cons_self hkey hget hnone hnot hmatch
                  | some deeper =>
                      have hrecords := hwhy
                      rw [Node.matchWhy_eq] at hrecords
                      obtain ⟨inner, innerFound, hinner, hvalue⟩ := records_of_matchWhy hrecords
                      obtain ⟨_, hclause⟩ := hinside inner innerFound hinner hvalue
                      exact .inside List.mem_cons_self hkey hget hinner hvalue (hclause deeper rfl)

end

/-! ## Three checks, one verdict -/

section

variable {F : FloatOps} {value : Node} {spec : Payload} {line : ℕ} {t : Tally}

/-- A check lets the value pass, or makes a miss of it. -/
theorem checkType_verdict {ok : Bool} {name : String} (label : String) (hok : spec.specOk = true)
    (hmatch : spec.typeMatch value.value = some (ok, name)) (hmiss : value.isMiss = false) :
    (checkType value spec label line t).map (fun r ↦ !r.1.isMiss) = some ok := by
  cases ok with
  | true =>
      have hpass : checkType value spec label line t = some (value, t) := by
        unfold checkType
        rw [hmatch]
        rfl
      simp [hpass, hmiss]
  | false =>
      obtain ⟨why, hwhy, _⟩ := spec.explained value.value "" hok
      obtain ⟨reason, hreason⟩ : ∃ reason,
        mismatchReason label value.value spec name = some reason := by
        rw [mismatchReason, hwhy]
        exact ⟨_, rfl⟩
      have hfail : checkType value spec label line t =
          some (makeMissIn reason line "typed" label [value] t) := by
        unfold checkType
        rw [hmatch]
        change (do
          let reason ← Hosting.ofOption (mismatchReason label value.value spec name)
          Hosting.made (makeMissIn reason line "typed" label [value])) t = _
        rw [hreason]
        rfl
      rw [hfail]
      rfl

/-- A check of a value that ends with the verdict: the value passes, or a miss comes out. -/
def Passes (check : Hosting Node) (t : Tally) (ok : Bool) : Prop :=
  (check t).map (fun r ↦ !r.1.isMiss) = some ok

theorem specOk_not_miss {v : Node} (hok : v.value.specOk = true) : v.isMiss = false := by
  unfold Node.isMiss
  cases hvalue : v.value with
  | miss reasons =>
      rw [hvalue] at hok
      contradiction
  | _ => rfl

theorem isMiss_mergeMiss (op detail : String) (operands : List Node) :
    (mergeMiss op detail line operands t).1.isMiss = true := rfl

/-- `typed` with a label that is a text. -/
theorem typed_passes {specNode label : Node} {text : String} {ok : Bool} {name : String}
    (hlabel : label.value = .str text) (hok : specNode.value.specOk = true)
    (hmatch : specNode.value.typeMatch value.value = some (ok, name)) :
    Passes (Builtin.typed F value specNode label line) t (ok && !value.isMiss) := by
  have hspec : specNode.isMiss = false := specOk_not_miss hok
  have htext : label.isMiss = false := by
    rw [Node.isMiss, hlabel]
    rfl
  unfold Passes Builtin.typed
  cases hmiss : value.isMiss with
  | true =>
      simp [hmiss, Hosting.made, isMiss_mergeMiss]
  | false =>
      have hcheck :
        (checkType value specNode.value text line t).map (fun r ↦ !r.1.isMiss) = some ok :=
        checkType_verdict text hok hmatch hmiss
      simpa [hmiss, hspec, htext, hlabel, hok] using hcheck

/-- The contract of a function. -/
theorem checkContract_passes {ok : Bool} {name : String} (label : String) (hok : spec.specOk = true)
    (hmatch : spec.typeMatch value.value = some (ok, name)) :
    Passes (checkContract F value (some (.known spec)) label line) t (ok && !value.isMiss) := by
  unfold Passes checkContract
  cases hmiss : value.isMiss with
  | true => simp [hmiss, pure, StateT.pure]
  | false =>
      have hcheck : (checkType value spec label line t).map (fun r ↦ !r.1.isMiss) = some ok :=
        checkType_verdict label hok hmatch hmiss
      simpa [hmiss, hok] using hcheck

theorem matches_says {specNode : Node} {ok : Bool} {name : String}
    (hok : specNode.value.specOk = true)
    (hmatch : specNode.value.typeMatch value.value = some (ok, name)) :
    (Builtin.matches_ value specNode line t).map (fun r ↦ r.1.value) =
      some (.bool (ok && !value.isMiss)) := by
  have hspec : specNode.isMiss = false := specOk_not_miss hok
  unfold Builtin.matches_
  cases hmiss : value.isMiss with
  | true => simp [Hosting.made, value_derived]
  | false =>
      simp only [hspec, hok, Bool.or_false, Bool.not_true, Bool.false_eq_true, if_false, hmatch]
      simp [Hosting.ofOption, Hosting.made]

end

/-- `typed`, `matches` and the contract of a function agree on the value. -/
def SameVerdict (F : FloatOps) (value specNode label : Node) (line : ℕ) (t : Tally) : Prop :=
  ∃ ok, (Builtin.matches_ value specNode line t).map (fun r ↦ r.1.value) = some (.bool ok) ∧
    Passes (Builtin.typed F value specNode label line) t ok ∧
    ∀ name, Passes (checkContract F value (some (.known specNode.value)) name line) t ok

/-- The walkers over a type agree. -/
structure WalkersAgree (spec : Payload) : Prop where
  /-- The check ends with a verdict, and with the right one. -/
  decides : ∀ p, Decides spec p
  /-- A record fails the check just if there is a clause, and the clause names what is wrong. -/
  explains : ∀ fields found path, spec = .record fields →
    ∃ ok name why, spec.typeMatch (.record found) = some (ok, name) ∧
      spec.matchWhy (.record found) path = some why ∧ (ok = false ↔ ∃ clause, why = some clause) ∧
      ∀ clause, why = some clause → Fault fields found path clause
  verdicts : ∀ F value specNode label text line t, specNode.value = spec → label.value = .str text →
    SameVerdict F value specNode label line t

/-- The walkers agree over every type that is accepted. -/
theorem typeWalkers_agree {spec : Payload} (hok : spec.specOk = true) : WalkersAgree spec := by
  constructor
  · exact fun p ↦ spec.decides p hok
  · rintro fields found path rfl
    obtain ⟨ok, name, hmatch, hhas⟩ := Payload.decides _ (.record found) hok
    obtain ⟨why, hwhy, hspec⟩ := Payload.explained _ (.record found) path hok
    obtain ⟨hiff, hfault⟩ := hspec fields found rfl rfl
    refine ⟨ok, name, why, hmatch, hwhy, ?_, hfault⟩
    have hfields : ok = true ↔ HasFields fields found := by
      rw [hhas]
      simp [Payload.HasType]
    rw [← Option.ne_none_iff_exists', ne_eq, hiff, ← hfields, Bool.not_eq_true]
  · rintro F value specNode label text line t rfl hlabel
    obtain ⟨ok, name, hmatch, _⟩ := Payload.decides _ value.value hok
    refine ⟨ok && !value.isMiss, matches_says hok hmatch, typed_passes hlabel hok hmatch, ?_⟩
    exact fun label ↦ checkContract_passes label hok hmatch

/-- A type as a program writes it out. -/
def writtenType (term : ℕ) (spec : Payload) : Node := .mk (.literal term) "literal" "" 1 [] 1 spec

/-- `{ name: "str", at: { x: "num", y: "num" } }`. -/
def placeSpec : Payload :=
  .record [("name", writtenType 0 (.str "str")),
    ("at", writtenType 1 (.record [("x", writtenType 2 (.str "num")),
      ("y", writtenType 3 (.str "num"))]))]

theorem typeWalkers_agree_place : WalkersAgree placeSpec := typeWalkers_agree (by decide)

end NucLlm.Whence
