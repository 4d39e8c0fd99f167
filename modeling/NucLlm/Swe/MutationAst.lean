import NucLlm.Lib.Tree
import NucLlm.Swe.Shrink

/-!
# Mutants of a module

A mutant changes one node of the syntax tree in place and takes the change back; its id holds the
position of the site in the walk.  Triage finds the site of a mutant by that position.
-/

namespace NucLlm.Swe.Mutation

local instance lawfulText : LawfulBEq Text := inferInstance

local instance lawfulPlace : LawfulBEq Place := inferInstance

/-! ## Syntax trees -/

inductive CmpOp where
  | lt | ltE | gt | gtE | eq | notEq | is | isNot | isIn | notIn
deriving DecidableEq

inductive BoolOp where
  | and | or
deriving DecidableEq

inductive UnaryOp where
  | not | usub | uadd | invert
deriving DecidableEq

inductive Operator where
  | add | sub | mult | div | mod | floorDiv | pow | lShift | rShift | bitOr | bitXor | bitAnd
  | matMult
deriving DecidableEq

/-- The value of a constant; floats are of a type `F`. -/
inductive Value (F : Type) where
  | none
  | bool (b : Bool)
  | int (n : ℤ)
  | float (f : F)
  | str (s : Text)
  | other (repr : Text)

/-- The class of a node with what it holds besides its child nodes.  Operator nodes have no children
and are part of the class. -/
inductive Kind (F : Type) where
  | module
  | functionDef (name : Text)
  | asyncFunctionDef (name : Text)
  | classDef (name : Text)
  | expr
  | assign
  | augAssign
  | annAssign
  | ifStmt
  | whileStmt
  | forStmt
  | withStmt
  | tryStmt
  | otherStmt (cls : Text)
  | compare (ops : List CmpOp)
  | boolOp (op : BoolOp)
  | unaryOp (op : UnaryOp)
  | binOp (op : Operator)
  | constant (value : Value F)
  | joinedStr
  | other (cls : Text)

/-- A node of a tree, with the field of its parent that it is in. -/
structure NodeData (F : Type) where
  field : String
  kind : Kind F
  lineno : ℕ
  endLineno : Option ℕ

abbrev Ast (F : Type) := Tree (NodeData F)

variable {F : Type}

def kind (n : Ast F) : Kind F := n.data.kind

def setKind (k : Kind F) (n : Ast F) : Ast F := .node { n.data with kind := k } n.children

def fieldIdx (field : String) (n : Ast F) : ℕ := n.children.findIdx fun c ↦ c.data.field = field

/-- The node in a field, or the first one if the field is a list. -/
def attr (field : String) (n : Ast F) : Option (Ast F) := n.children[fieldIdx field n]?

/-- `setattr` of a field with one node. -/
def setAttr (field : String) (v : Ast F) (n : Ast F) : Ast F :=
  .node n.data (n.children.set (fieldIdx field n) v)

/-- The part of the language that is not modelled: `ast.unparse`, floats, and what is a word. -/
structure Host (F : Type) where
  alphabet : Alphabet
  unparse : Ast F → Text
  reprFloat : F → Text
  addOne : F → F

/-! ## Sites -/

inductive Op where
  | cmp | bool | not | const | arith | ifneg | fconst
deriving DecidableEq

def Op.name : Op → Text
  | cmp => "cmp".toList
  | bool => "bool".toList
  | not => "not".toList
  | const => "const".toList
  | arith => "arith".toList
  | ifneg => "ifneg".toList
  | fconst => "fconst".toList

namespace CmpOp

/-- `_CMP_SWAP`. -/
def swap : CmpOp → CmpOp
  | lt => ltE | ltE => lt | gt => gtE | gtE => gt | eq => notEq | notEq => eq
  | is => isNot | isNot => is | isIn => notIn | notIn => isIn

def name : CmpOp → Text
  | lt => "Lt".toList | ltE => "LtE".toList | gt => "Gt".toList | gtE => "GtE".toList
  | eq => "Eq".toList | notEq => "NotEq".toList | is => "Is".toList | isNot => "IsNot".toList
  | isIn => "In".toList | notIn => "NotIn".toList

end CmpOp

namespace BoolOp

def swap : BoolOp → BoolOp
  | and => or
  | or => and

def name : BoolOp → Text
  | and => "And".toList
  | or => "Or".toList

end BoolOp

namespace Operator

/-- `_ARITH_SWAP`. -/
def swap : Operator → Option Operator
  | add => some sub
  | sub => some add
  | mult => some add
  | div => some mult
  | mod => some mult
  | _ => none

def name : Operator → Text
  | add => "Add".toList | sub => "Sub".toList | mult => "Mult".toList | div => "Div".toList
  | mod => "Mod".toList | floorDiv => "FloorDiv".toList | pow => "Pow".toList
  | lShift => "LShift".toList | rShift => "RShift".toList | bitOr => "BitOr".toList
  | bitXor => "BitXor".toList | bitAnd => "BitAnd".toList | matMult => "MatMult".toList

end Operator

def reprBool : Bool → Text
  | true => "True".toList
  | false => "False".toList

def reprInt (n : ℤ) : Text := (if n < 0 then ['-'] else []) ++ str n.natAbs

def arrow (old new : Text) : Text := old ++ " -> ".toList ++ new

/-- A mutation site: `apply` changes the node in place, `undo` restores it. -/
structure Site (F : Type) where
  node : Ast F
  op : Op
  description : Text
  apply : Ast F → Ast F
  undo : Ast F → Ast F

/-- Where the docstring stands in a definition: the value of the first statement of its body. -/
def docstringIn (n : Ast F) : Option Place := do
  let first ← attr "body" n
  let value ← attr "value" first
  match kind first, kind value with
  | .expr, .constant (.str _) => some [fieldIdx "body" n, fieldIdx "value" first]
  | _, _ => none

def docstringAt (t : Ast F) (p : Place) : Option Place := do
  let n ← t.get p
  match kind n with
  | .module | .functionDef _ | .classDef _ => (docstringIn n).map (p ++ ·)
  | _ => none

/-- `_docstring_ids`. -/
def docstringIds (t : Ast F) : List Place := t.walk.filterMap (docstringAt t)

/-- A node that is made by a mutation, and has no position. -/
def notNode (field : String) (operand : Ast F) : Ast F :=
  .node ⟨field, .unaryOp .not, 0, none⟩
    [.node { operand.data with field := "operand" } operand.children]

/-- What `_sites` yields for a node. -/
def siteOf (isDocstring : Bool) (n : Ast F) : Option (Site F) :=
  match kind n with
  | .compare [old] =>
      some ⟨n, .cmp, arrow old.name old.swap.name, setKind (.compare [old.swap]),
        setKind (.compare [old])⟩
  | .boolOp old =>
      some ⟨n, .bool, arrow old.name old.swap.name, setKind (.boolOp old.swap),
        setKind (.boolOp old)⟩
  | .unaryOp .not =>
      (attr "operand" n).map fun old ↦
        ⟨n, .not, "drop 'not'".toList, setAttr "operand" (notNode "operand" old),
          setAttr "operand" old⟩
  | .constant value =>
      if isDocstring then none
      else
        match value with
        | .bool old =>
            some ⟨n, .const, arrow (reprBool old) (reprBool !old),
              setKind (.constant (.bool !old)), setKind (.constant (.bool old))⟩
        | .int old =>
            some ⟨n, .const, arrow (reprInt old) (reprInt (old + 1)),
              setKind (.constant (.int (old + 1))), setKind (.constant (.int old))⟩
        | _ => none
  | .binOp old =>
      old.swap.map fun new ↦
        ⟨n, .arith, arrow old.name new.name, setKind (.binOp new), setKind (.binOp old)⟩
  | .ifStmt =>
      (attr "test" n).map fun old ↦
        ⟨n, .ifneg, "negate if-condition".toList, setAttr "test" (notNode "test" old),
          setAttr "test" old⟩
  | _ => none

/-- What `_late_sites` yields for a node. -/
def lateSiteOf (h : Host F) (isDocstring : Bool) (n : Ast F) : Option (Site F) :=
  match kind n with
  | .constant (.float old) =>
      if isDocstring then none
      else some ⟨n, .fconst, arrow (h.reprFloat old) (h.reprFloat (h.addOne old)),
        setKind (.constant (.float (h.addOne old))), setKind (.constant (.float old))⟩
  | _ => none

/-! ## Mutants -/

structure Mutant where
  id : Text
  path : Text
  lineno : ℕ
  endLineno : ℕ
  op : Op
  description : Text
  source : Text

/-- The module with a body. -/
def root (body : List (Ast F)) : Ast F := .node ⟨"", .module, 0, none⟩ body

/-- `os.path.basename`. -/
def basename (path : Text) : Text := (path.reverse.takeWhile (· ≠ '/')).reverse

def mutantId (path : Text) (lineno : ℕ) (op : Op) (i : ℕ) : Text :=
  basename path ++ ":".toList ++ str lineno ++ ":".toList ++ op.name ++ "#".toList ++ str i

def moduleText (parts : List Text) : Text := "\n\n".toList.intercalate parts ++ "\n".toList

/-- The mutant of a site at a place, `mutated` being the tree with the change.  The owner of a node
is the top-level statement it is in. -/
def mutantOf (h : Host F) (path : Text) (parts : List Text) (p : Place) (i : ℕ) (site : Site F)
    (mutated : Ast F) : Mutant :=
  let idx := p.headD 0
  let mutatedStmt := (mutated.children[idx]?.map h.unparse).getD []
  { id := mutantId path site.node.data.lineno site.op i
    path := path
    lineno := site.node.data.lineno
    endLineno :=
      match site.node.data.endLineno with
      | some (n + 1) => n + 1
      | _ => site.node.data.lineno
    op := site.op
    description := site.description
    source := moduleText (parts.take idx ++ [mutatedStmt] ++ parts.drop (idx + 1)) }

/-- The loop of `generate` over one walk.  The children of a node are queued before its site is
yielded, and the tree that the walk goes on with is the one after `undo`. -/
def pass (h : Host F) (sites : Bool → Ast F → Option (Site F)) (docs : List Place) (path : Text)
    (parts ops : List Text) :
    ℕ → List Place → Ast F → ℕ → List (Place × Mutant) × Ast F × ℕ
  | 0, _, t, i => ([], t, i)
  | _ + 1, [], t, i => ([], t, i)
  | fuel + 1, p :: queue, t, i =>
      let queue := queue ++ t.childPlaces p
      match (t.get p).bind (sites (p ∈ docs)) with
      | none => pass h sites docs path parts ops fuel queue t i
      | some site =>
          if ops ≠ [] ∧ site.op.name ∉ ops then
            pass h sites docs path parts ops fuel queue t (i + 1)
          else
            let mutated := t.modifyAt site.apply p
            let rest := pass h sites docs path parts ops fuel queue
              (mutated.modifyAt site.undo p) (i + 1)
            ((p, mutantOf h path parts p i site mutated) :: rest.1, rest.2)

/-- `generate`, with the place of each mutant. -/
def generateAt (h : Host F) (body : List (Ast F)) (path : Text) (ops : List Text) :
    List (Place × Mutant) :=
  let t := root body
  let parts := body.map h.unparse
  let legacy := pass h siteOf (docstringIds t) path parts ops t.size [[]] t 0
  let t' := legacy.2.1
  let late := pass h (lateSiteOf h) (docstringIds t') path parts ops t'.size [[]] t' legacy.2.2
  legacy.1 ++ late.1

def generate (h : Host F) (body : List (Ast F)) (path : Text) (ops : List Text) : List Mutant :=
  (generateAt h body path ops).map Prod.snd

/-! ## Triage -/

def counterNames : List Text :=
  ["fast_hits", "direct_hits", "direct_fallbacks", "peak_depth"].map String.toList

def budgetNames : List Text :=
  ["HOST_RESERVE", "FAST_MAX_DEPTH", "GC_RELIEF_THRESHOLD", "FRAME_SLACK", "_hleft", "hleft",
    "cdepth", "cost", "extra", "gc_relief", "set_threshold"].map String.toList

inductive SiteClass where
  | counter | budget | noneGuard | errorMessage | other
deriving DecidableEq

structure TriageSite where
  index : ℕ
  op : Op
  line : ℕ
  enclosing : Text
  assign : Text
  text : Text
  kind : SiteClass

def isStmt (n : Ast F) : Bool :=
  match kind n with
  | .functionDef _ | .asyncFunctionDef _ | .classDef _ | .expr | .assign | .augAssign | .annAssign
  | .ifStmt | .whileStmt | .forStmt | .withStmt | .tryStmt | .otherStmt _ => true
  | _ => false

/-- The compound statements that `describe` never quotes whole. -/
def isCompound (n : Ast F) : Bool :=
  match kind n with
  | .ifStmt | .whileStmt | .forStmt | .functionDef _ | .classDef _ | .withStmt | .tryStmt => true
  | _ => false

/-- The variables of `describe`. -/
structure Described where
  chain : List Text
  assign : Text
  text : Option Text

/-- One step of the loop of `describe`, from a node to its parent. -/
def describeStep (h : Host F) (d : Described) (cur parent : Ast F) : Described where
  text :=
    match d.text with
    | some text => some text
    | none =>
        if isStmt parent then some (if isCompound parent then h.unparse cur else h.unparse parent)
        else none
  assign :=
    if d.assign = [] then
      match kind parent with
      | .assign => ((attr "targets" parent).map h.unparse).getD []
      | .augAssign | .annAssign => ((attr "target" parent).map h.unparse).getD []
      | _ => []
    else d.assign
  chain :=
    match kind parent with
    | .functionDef name | .asyncFunctionDef name | .classDef name => d.chain ++ [name]
    | _ => d.chain

/-- The nodes above a place, the nearest one first, each after the node it is the parent of. -/
def ancestors (t : Ast F) (p : Place) : List (Ast F × Ast F) :=
  (List.range p.length).reverse.filterMap fun k ↦ do
    let parent ← t.get (p.take k)
    let cur ← t.get (p.take (k + 1))
    pure (cur, parent)

/-- `describe`: the enclosing definitions, the assignment target and the statement of a node. -/
def describe (h : Host F) (t : Ast F) (p : Place) (n : Ast F) : Text × Text × Text :=
  let text :=
    match kind n with
    | .ifStmt | .whileStmt => (attr "test" n).map h.unparse
    | _ => none
  let d := (ancestors t p).foldl (fun d a ↦ describeStep h d a.1 a.2) ⟨[], [], text⟩
  (".".toList.intercalate d.chain.reverse, d.assign, d.text.getD (h.unparse n))

/-- `_mentions`: a name stands in a text with no word character before it and none after it. -/
def mentions (A : Alphabet) (text : Text) (names : List Text) : Bool :=
  names.any fun name ↦ (List.range (text.length + 1)).any fun i ↦
    name.isPrefixOf (text.drop i) && !(text.take i).getLast?.any A.word &&
      !(text.drop (i + name.length)).head?.any A.word

def isNoneGuard (n : Ast F) : Bool :=
  let test :=
    match kind n with
    | .ifStmt => (attr "test" n).getD n
    | _ => n
  match kind test, (attr "comparators" test).map kind with
  | .compare [op], some (.constant .none) => op = .is ∨ op = .isNot
  | _, _ => false

def isFormatMod (n : Ast F) (op : Op) : Bool :=
  match kind n, (attr "left" n).map kind with
  | .binOp .mod, some (.constant (.str _)) => op = .arith
  | .binOp .mod, some .joinedStr => op = .arith
  | _, _ => false

def classify (h : Host F) (n : Ast F) (op : Op) (assign text : Text) : SiteClass :=
  if mentions h.alphabet assign counterNames ∨ mentions h.alphabet text counterNames then .counter
  else if mentions h.alphabet assign budgetNames ∨ mentions h.alphabet text budgetNames then .budget
  else if (op = .cmp ∨ op = .ifneg) ∧ isNoneGuard n then .noneGuard
  else if isFormatMod n op then .errorMessage
  else .other

/-- The sites at some places. -/
def found (sites : Bool → Ast F → Option (Site F)) (docs : List Place) (t : Ast F)
    (places : List Place) : List (Place × Site F) :=
  places.filterMap fun p ↦ ((t.get p).bind (sites (p ∈ docs))).map fun site ↦ (p, site)

/-- The sites that a walk yields, with their places. -/
def sitesIn (sites : Bool → Ast F → Option (Site F)) (t : Ast F) : List (Place × Site F) :=
  found sites (docstringIds t) t t.walk

/-- The mutant of a site that is chosen. -/
def chosen (h : Host F) (path : Text) (parts ops : List Text) (t : Ast F)
    (s : (Place × Site F) × ℕ) : Option (Place × Mutant) :=
  if ops ≠ [] ∧ s.1.2.op.name ∉ ops then none
  else some (s.1.1, mutantOf h path parts s.1.1 s.2 s.1.2 (t.modifyAt s.1.2.apply s.1.1))

def triageSite (h : Host F) (t : Ast F) (p : Place) (site : Site F) (i : ℕ) : TriageSite :=
  let d := describe h t p site.node
  { index := i
    op := site.op
    line := site.node.data.lineno
    enclosing := d.1
    assign := d.2.1
    text := d.2.2
    kind := classify h site.node site.op d.2.1 d.2.2 }

/-- `triage.sites`: the sites of a module by their index. -/
def sites (h : Host F) (body : List (Ast F)) : List (ℕ × TriageSite) :=
  (sitesIn siteOf (root body)).zipIdx.map fun s ↦
    (s.2, triageSite h (root body) s.1.1 s.1.2 s.2)

/-- `site_index`: `int(mutant_id.rsplit("#", 1)[1])`. -/
def siteIndex (A : Alphabet) (id : Text) : ℕ := A.value (id.reverse.takeWhile (· ≠ '#')).reverse

/-- The class of a mutant, in `triage` and `filter_ambiguous`: that of its site, if it has one. -/
def classOf (h : Host F) (body : List (Ast F)) (id : Text) : SiteClass :=
  (((sites h body).lookup (siteIndex h.alphabet id)).map TriageSite.kind).getD .other

end NucLlm.Swe.Mutation
