import NucLlm.Whence.Contracts
import NucLlm.Whence.Evaluation
import NucLlm.Whence.Guesses
import NucLlm.Whence.History
import NucLlm.Whence.Lexer
import NucLlm.Whence.Provenance

/-!
# Builtins

What each builtin makes of its arguments.  Those that call their arguments are
resumed with what the calls return.  The text of an explanation, the text of a
contrast and the pairs of steps at which two histories diverge are parameters.
-/

namespace NucLlm.Whence

/-- The renderings and the comparison of histories. -/
structure Histories where
  /-- `render_why`. -/
  explain : Node → String
  /-- `render_contrast`. -/
  contrast : Node → Node → String
  diverge : Node → Node → List (Node × Node × Provenance.Difference)
  diverge_steps : ∀ a b, ∀ d ∈ diverge a b, history.Reach a d.1 ∧ history.Reach b d.2.1

/-! ## Builtins at work -/

/-- A builtin with the calls it makes. -/
abbrev Asking := Tally → Script Node Tally × Tally

namespace Asking

def finish (m : Hosting Node) : Asking := fun t ↦
  match m t with
  | some (v, t') => (.done v, t')
  | none => (.raised, t)

/-- `yield _Call(fn, args, line)`. -/
def ask (fn : Node) (args : List Node) (line : ℕ) (resume : Node → Asking) : Asking := fun t ↦
  (.call fn args line (fun v s ↦ (resume v s).1) (fun v s ↦ (resume v s).2), t)

/-- A builtin that makes a node. -/
def making (m : Making Node) : Asking := finish (Hosting.made m)

end Asking

/-- `leaf`. -/
def leaf (op detail : String) (line : ℕ) (value : Payload) : Making Node :=
  derived op detail line [] value

def leaves {α : Type} (op : String) (line : ℕ) (detail : α → String) (value : α → Payload) :
    List α → Making (List Node)
  | [] => pure []
  | a :: as => do
      let v ← leaf op (detail a) line (value a)
      let vs ← leaves op line detail value as
      pure (v :: vs)

namespace Builtin

/-- `_propagate`, with what comes after it. -/
def propagate (name : String) (args : List Node) (line : ℕ) (rest : Making Node) : Making Node :=
  if args.any Node.isMiss then mergeMiss "builtin" name line args else rest

def propagating (name : String) (args : List Node) (line : ℕ) (rest : Asking) : Asking :=
  if args.any Node.isMiss then Asking.making (mergeMiss "builtin" name line args) else rest

def natural (n : ℕ) : Payload := .num (.int n)

section

variable (B : Budgets) (F : FloatOps) (H : Histories)

/-! ## Lists and texts -/

/-- `b_len`. -/
def len (v : Node) (line : ℕ) : Making Node :=
  propagate "len" [v] line
    (match v.value with
    | .str s => derived "len" "" line [v] (natural s.length)
    | .list items => derived "len" "" line [v] (natural items.length)
    | .record fields => derived "len" "" line [v] (natural fields.length)
    | p => makeMiss s!"len of {p.show F}" line "len" [v])

def integer? : Payload → Option ℤ
  | .num (.int n) => some n
  | _ => none

/-- `_RANGE_BYTES_PER_ELEM`. -/
def rangeBytesPerElem : ℕ := 157

/-- The part of `b_range` for two integers. -/
def rangeFrom (lo hi : ℤ) (args : List Node) (line : ℕ) : Making Node := do
  let nelem := (hi - lo).toNat
  let nbytes := nelem * rangeBytesPerElem
  let tooBig ← if 0 < nelem then overValue B nbytes else pure false
  if tooBig then makeMiss (sizeReason B "range" "elements" nelem nbytes) line "range" args
  else do
    let items ← leaves "range" line showInteger (fun i ↦ .num (.int i))
      ((List.range nelem).map fun i : ℕ ↦ lo + i)
    derived "range" s!"{showInteger lo}..{showInteger hi}" line args (.list items)

/-- `b_range`. -/
def range (args : List Node) (line : ℕ) : Making Node :=
  propagate "range" args line
    (match args.find? fun a ↦ (integer? a.value).isNone with
    | some a => makeMiss s!"range needs integers, got {a.value.show F}" line "range" args
    | none =>
        match args.filterMap fun a ↦ integer? a.value with
        | [hi] => rangeFrom B 0 hi args line
        | lo :: hi :: _ => rangeFrom B lo hi args line
        | [] => rangeFrom B 0 0 args line)

def overFunctions (name : String) : Sig := [(name, some ["fn"]), ("xs", some ["list"])]

/-- What a builtin over a function and a list makes of arguments of the wrong kinds; `xs` are the
items otherwise. -/
def withList (name : String) (sig : Sig) (fn xs : Node) (args : List Node) (line : ℕ)
    (rest : List Node → Asking) : Asking :=
  let hint := orderHint name sig args
  let refuse (wanted : String) (p : Payload) : Asking :=
    Asking.making (makeMiss s!"{name} needs a {wanted}, got {p.show F}{hint}" line name args)
  propagating name args line
    (match xs.value with
    | .list items => if fn.value.isFunction then rest items else refuse "function" fn.value
    | p => refuse "list" p)

def mapLoop (fn xs : Node) (line : ℕ) : List Node → List Node → Asking
  | [], out => Asking.making (derived "map" "" line [xs] (.list out))
  | x :: items, out => Asking.ask fn [x] line fun v ↦ mapLoop fn xs line items (out ++ [v])

/-- `b_map`. -/
def map (fn xs : Node) (line : ℕ) : Asking :=
  withList F "map" (overFunctions "fn") fn xs [fn, xs] line fun items ↦
    mapLoop fn xs line items []

/-- What a builtin makes of the answer of a predicate. -/
def tested (name : String) (keep xs : Node) (line : ℕ) (rest : Bool → Asking) : Asking :=
  match keep.value with
  | .miss _ => Asking.making (mergeMiss name "predicate missed" line [keep, xs])
  | .bool b => rest b
  | p =>
      Asking.making
        (makeMiss s!"{name} predicate must return true/false, got {p.show F}" line name [keep, xs])

def filterLoop (fn xs : Node) (line : ℕ) : List Node → List Node → Asking
  | [], out => Asking.making (derived "filter" "" line [xs] (.list out))
  | x :: items, out =>
      Asking.ask fn [x] line fun keep ↦ tested F "filter" keep xs line fun b ↦
        filterLoop fn xs line items (if b then out ++ [x] else out)

/-- `b_filter`. -/
def filter (fn xs : Node) (line : ℕ) : Asking :=
  withList F "filter" (overFunctions "fn") fn xs [fn, xs] line fun items ↦
    filterLoop F fn xs line items []

def foldLoop (fn xs : Node) (count line : ℕ) : List Node → Node → Asking
  | [], acc => Asking.making (derived "fold" s!"{count} items" line [acc, xs] acc.value)
  | x :: items, acc => Asking.ask fn [acc, x] line fun v ↦ foldLoop fn xs count line items v

def foldSig : Sig := [("fn", some ["fn"]), ("acc", none), ("xs", some ["list"])]

/-- `b_fold`. -/
def fold (fn acc xs : Node) (line : ℕ) : Asking :=
  withList F "fold" foldSig fn xs [fn, acc, xs] line fun items ↦
    foldLoop fn xs items.length line items acc

def findLoop (fn xs : Node) (line : ℕ) : List Node → Asking
  | [] => Asking.making (makeMiss "find: no element matched" line "find" [fn, xs])
  | x :: items =>
      Asking.ask fn [x] line fun keep ↦ tested F "find" keep xs line fun b ↦
        if b then Asking.making (pure x) else findLoop fn xs line items

/-- `b_find`. -/
def find (fn xs : Node) (line : ℕ) : Asking :=
  withList F "find" (overFunctions "fn") fn xs [fn, xs] line fun items ↦
    findLoop F fn xs line items

def pushSig : Sig := [("xs", some ["list"]), ("x", none)]

/-- `b_push`. -/
def push (xs x : Node) (line : ℕ) : Making Node :=
  match xs.value with
  | .miss _ => mergeMiss "push" "" line [xs, x]
  | .list items => do
      let nelem := items.length + 1
      let nbytes := nelem * listBytesPerElem
      let tooBig ← overValue B nbytes
      if tooBig then makeMiss (sizeReason B "list" "elements" nelem nbytes) line "push" [xs, x]
      else derived "push" "" line [xs, x] (.list (items ++ [x]))
  | p =>
      let hint := orderHint "push" pushSig [xs, x]
      makeMiss s!"push needs a list, got {p.show F}{hint}" line "push" [xs, x]

/-- `full_show`. -/
def fullShow (p : Payload) : String :=
  let ctx := ShowCtx.start fullShowNest fullShowNodes
  match p with
  | .miss reasons => "miss: " ++ "; ".intercalate reasons
  | .explanation root => H.explain root
  | .str s => s
  | .list items =>
      let (parts, cut, _) := fullItems F 0 items ctx
      "[" ++ commaSep parts cut ++ "]"
  | .record fields =>
      let (parts, cut, _) := fullFields F 0 fields ctx
      "@\x7b" ++ commaSep parts cut ++ "\x7d"
  | p => (p.renderFull F 0 ctx).1

/-- `b_str`. -/
def str (v : Node) (line : ℕ) : Making Node :=
  derived "str" "" line [v] (.str (fullShow F H v.value))

/-- `b_show`. -/
def show_ (v : Node) (line : ℕ) : Making Node :=
  derived "show" "" line [v] (.str (v.value.show F))

/-- `nd in h`. -/
def occurs (part whole : List Char) : Bool := whole.tails.any part.isPrefixOf

def containsSig : Sig := [("hay", some ["str", "list"]), ("needle", none)]

/-- `b_contains`. -/
def contains (hay needle : Node) (line : ℕ) : Making Node :=
  let args := [hay, needle]
  let refuse (p : Payload) : Making Node :=
    let hint := orderHint "contains" containsSig args
    makeMiss s!"contains needs a string or list, got {p.show F}{hint}" line "contains" args
  propagate "contains" args line
    (match hay.value, needle.value with
    | .str h, .str nd => derived "contains" "" line args (.bool (occurs nd.toList h.toList))
    | .list items, nd =>
        derived "contains" "" line args (.bool (items.any fun x ↦ x.value.deepEq nd = some true))
    | p, _ => refuse p)

def joinSig : Sig := [("xs", some ["list"]), ("sep", some ["str"])]

def text? : Payload → Option String
  | .str s => some s
  | _ => none

/-- The part of `b_join` for a list and a text. -/
def joined (xs sep : Node) (items : List Node) (s : String) (line : ℕ) : Making Node :=
  match items.find? fun x ↦ !x.value.isText with
  | some x =>
      if x.isMiss then mergeMiss "join" "element missed" line [x, xs]
      else makeMiss s!"join: element {x.value.show F} is not a string" line "join" [x, xs]
  | none => do
      let parts := items.filterMap fun x ↦ text? x.value
      let nchars := (parts.map String.length).sum + s.length * (parts.length - 1)
      let tooBig ← overValue B nchars
      if tooBig then
        makeMiss (sizeReason B "string" "characters" nchars nchars) line "join" [xs, sep]
      else derived "join" "" line [xs, sep] (.str (s.intercalate parts))

/-- `b_join`. -/
def join (xs sep : Node) (line : ℕ) : Making Node :=
  let args := [xs, sep]
  propagate "join" args line
    (match xs.value, sep.value with
    | .list items, .str s => joined B F xs sep items s line
    | _, _ =>
        let hint := orderHint "join" joinSig args
        makeMiss s!"join needs (list, string){hint}" line "join" args)

/-! ## Numbers -/

/-- The characters that `strip` takes off. -/
def isSpace (c : Char) : Bool :=
  let n := c.toNat
  (9 ≤ n && n ≤ 13) || (28 ≤ n && n ≤ 32) || n = 0x85 || n = 0xa0 || n = 0x1680 ||
    (0x2000 ≤ n && n ≤ 0x200a) || n = 0x2028 || n = 0x2029 || n = 0x202f || n = 0x205f ||
    n = 0x3000

/-- `s.strip()`. -/
def strip (s : List Char) : List Char :=
  ((s.dropWhile isSpace).reverse.dropWhile isSpace).reverse

/-- `_NUM_RE`: the text after the sign. -/
def unsignedNumber (t : List Char) : Option (List Char) :=
  let body := t.drop (Lexer.signText t).length
  if body.head?.any Lexer.isDigit && Lexer.numberText body = body then some body else none

/-- The bits that so many digits may take at most, rounded down. -/
def digitBits (ndigits : ℕ) : ℕ := ndigits * 33219 / 10000

/-- The part of `b_num` for the text of a number, without its sign. -/
def numberOf (v : Node) (p : Payload) (t body : List Char) (line : ℕ) : Hosting Node :=
  if Lexer.isFloatText body then
    let x := F.parse (String.ofList t)
    if F.isFinite x then Hosting.made (derived "num" "" line [v] (.num (.float x)))
    else Hosting.made (makeMiss s!"num: {p.show F} is out of range" line "num" [v])
  else if Lexer.showIntDigits < body.length then
    Hosting.made (makeMiss ("num: " ++ Lexer.numTextLimit body.length) line "num" [v])
  else do
    let tooBig ← Hosting.made (overIntBits B (digitBits body.length))
    if tooBig then
      Hosting.made (makeMiss (intSizeReason B (digitBits body.length)) line "num" [v])
    else do
      let n ← Hosting.ofOption (Lexer.intOf body)
      Hosting.made
        (derived "num" "" line [v] (.num (.int (if Lexer.signText t = ['-'] then -n else n))))

/-- `b_num`. -/
def num (v : Node) (line : ℕ) : Hosting Node :=
  match v.value with
  | .miss _ => Hosting.made (mergeMiss "builtin" "num" line [v])
  | .num _ => pure v
  | .str s =>
      let t := strip s.toList
      match unsignedNumber t with
      | some body => numberOf B F v (.str s) t body line
      | none =>
          Hosting.made
            (makeMiss s!"num: cannot parse {(Payload.str s).show F}" line "num" [v])
  | p => Hosting.made (makeMiss s!"num of {p.show F}" line "num" [v])

def Num.abs : Num → Num
  | .int n => .int n.natAbs
  | .float x => .float (F.abs x)

/-- `b_abs`. -/
def abs (v : Node) (line : ℕ) : Making Node :=
  propagate "abs" [v] line
    (match v.value with
    | .num n => derived "abs" "" line [v] (.num (Num.abs F n))
    | p => makeMiss s!"abs of {p.show F}" line "abs" [v])

/-- `"%r" % n`, which raises for more than 4300 digits. -/
def numRepr : Num → Option String
  | .int n => if n.natAbs < 10 ^ 4300 then some (toString n) else none
  | .float x => some (F.repr x)

/-- `b_sqrt`. -/
def sqrt (v : Node) (line : ℕ) : Hosting Node :=
  match v.value with
  | .miss _ => Hosting.made (mergeMiss "builtin" "sqrt" line [v])
  | .num n =>
      if n.less (.int 0) then do
        let text ← Hosting.ofOption (numRepr F n)
        Hosting.made (makeMiss s!"sqrt of negative number {text}" line "sqrt" [v])
      else match F.sqrt n with
        | some x => Hosting.made (derived "sqrt" "" line [v] (.num (.float x)))
        | none => Hosting.made (makeMiss "number too large for float arithmetic" line "sqrt" [v])
  | p => Hosting.made (makeMiss s!"sqrt of {p.show F}" line "sqrt" [v])

/-- `int(p)`; nothing on an `OverflowError` or a `ValueError`. -/
def Num.toInteger : Num → Option ℤ
  | .int n => some n
  | .float x => F.trunc x

/-- `b_trunc`. -/
def trunc (v : Node) (line : ℕ) : Making Node :=
  propagate "trunc" [v] line
    (match v.value with
    | .num n =>
        match Num.toInteger F n with
        | some n => derived "trunc" "" line [v] (.num (.int n))
        | none => makeMiss "number too large for float arithmetic" line "trunc" [v]
    | p => makeMiss s!"trunc of {p.show F}" line "trunc" [v])

/-- `b_rand`, with the next draw. -/
def rand (draw : Float64) (line : ℕ) : Making Node := leaf "rand" "" line (.num (.float draw))

/-! ## Misses and notes -/

/-- `b_missed`. -/
def missed (v : Node) (line : ℕ) : Making Node := derived "missed" "" line [v] (.bool v.isMiss)

/-- `b_reasons`. -/
def reasons (v : Node) (line : ℕ) : Making Node := do
  let items ← leaves "reason" line (fun _ ↦ "") Payload.str v.value.reasons
  derived "reasons" "" line [v] (.list items)

def noteSig : Sig := [("label", some ["str"]), ("v", none)]

/-- `b_note`. -/
def note (label v : Node) (line : ℕ) : Making Node :=
  match label.value with
  | .str s => derived "note" s line [v] v.value
  | p =>
      let hint := orderHint "note" noteSig [label, v]
      makeMiss s!"note label must be a string, got {p.show F}{hint}" line "note" [label, v]

/-! ## Records -/

/-- `b_keys`. -/
def keys (v : Node) (line : ℕ) : Making Node :=
  propagate "keys" [v] line
    (match v.value with
    | .record fields => do
        let items ← leaves "key" line (fun _ ↦ "") Payload.str (Fields.keys fields)
        derived "keys" "" line [v] (.list items)
    | p => makeMiss s!"keys needs a record, got {p.show F}" line "keys" [v])

/-- `b_merge`. -/
def merge (a b : Node) (line : ℕ) : Making Node :=
  propagate "merge" [a, b] line
    (match a.value, b.value with
    | .record fields, .record others =>
        derived "merge" "" line [a, b] (.record (Fields.merge fields others))
    | _, _ => makeMiss "merge needs two records" line "merge" [a, b])

end

end Builtin

/-- `_field`. -/
def field (F : FloatOps) (obj : Node) (name : String) (line : ℕ) : Making Node :=
  match obj.value with
  | .miss _ => mergeMiss "field" ("." ++ name) line [obj]
  | .record fields =>
      match Fields.get? fields name with
      | some v => pure v
      | none =>
          let names := ", ".intercalate (Fields.keys fields)
          let shown := if names = "" then "(none)" else names
          makeMiss s!"no field '{name}' (record has: {shown})" line "field" [obj]
  | p => makeMiss s!"cannot access .{name} on {p.show F}" line "field" [obj]

namespace Builtin

section

variable (B : Budgets) (F : FloatOps) (H : Histories)

def recordSig (rest : Sig) : Sig := [("r", some ["record"]), ("name", some ["str"])] ++ rest

/-- `b_get`. -/
def get (r name : Node) (line : ℕ) : Making Node :=
  match name.value with
  | .miss _ => mergeMiss "get" "" line [name, r]
  | .str key => field F r key line
  | p =>
      let hint := orderHint "get" (recordSig []) [r, name]
      makeMiss s!"get field name must be a string, got {p.show F}{hint}" line "get" [r, name]

/-- What `has` and `put` make of a record and a name; the others of their arguments come last. -/
def withField (builtin : String) (sig : Sig) (r name : Node) (args : List Node) (line : ℕ)
    (rest : List (String × Node) → String → Making Node) : Making Node :=
  let hint := orderHint builtin sig args
  propagate builtin [r, name] line
    (match r.value, name.value with
    | .record fields, .str key => rest fields key
    | .record _, p =>
        makeMiss s!"{builtin} field name must be a string, got {p.show F}{hint}" line builtin args
    | p, _ => makeMiss s!"{builtin} needs a record, got {p.show F}{hint}" line builtin args)

/-- `b_has`. -/
def has (r name : Node) (line : ℕ) : Making Node :=
  withField F "has" (recordSig []) r name [r, name] line fun fields key ↦
    derived "has" key line [r, name] (.bool (Fields.get? fields key).isSome)

/-- `b_put`. -/
def put (r name v : Node) (line : ℕ) : Making Node :=
  withField F "put" (recordSig [("v", none)]) r name [r, name, v] line fun fields key ↦
    derived "put" key line [r, v] (.record (Fields.put key v fields))

/-! ## Types and guesses -/

def typeSig (rest : Sig) : Sig := [("value", none), ("spec", some ["str", "record"])] ++ rest

/-- `b_typed`. -/
def typed (value spec label : Node) (line : ℕ) : Hosting Node :=
  let args := [value, spec, label]
  let hint := orderHint "typed" (typeSig [("label", some ["str"])]) args
  let refuse (wanted : String) (p : Payload) : Hosting Node :=
    Hosting.made (makeMiss s!"typed {wanted}, got {p.show F}{hint}" line "typed" args)
  if args.any Node.isMiss then Hosting.made (mergeMiss "builtin" "typed" line args)
  else match label.value with
    | .str s =>
        if spec.value.specOk then checkType value spec.value s line
        else refuse "spec must be a type name or a shape" spec.value
    | p => refuse "label must be a string" p

/-- `b_matches`. -/
def matches_ (value spec : Node) (line : ℕ) : Hosting Node :=
  let verdict (ok : Bool) : Hosting Node :=
    Hosting.made (derived "matches" "" line [value, spec] (.bool ok))
  if value.isMiss || spec.isMiss || !spec.value.specOk then verdict false
  else do
    let (ok, _) ← Hosting.ofOption (spec.value.typeMatch value.value)
    verdict ok

/-- `b_shapeof`. -/
def shapeof (v : Node) (line : ℕ) : Making Node :=
  derived "shapeof" "" line [v] (.str v.value.kind)

/-- `b_is_guess`. -/
def isGuess (v : Node) (line : ℕ) : Making Node :=
  derived "is_guess" "" line [v] (.bool v.value.isGuess)

/-- `b_confidence`. -/
def confidence (v : Node) (line : ℕ) : Making Node :=
  propagate "confidence" [v] line
    (match v.value with
    | .guess _ c _ => derived "confidence" "" line [v] (.num c)
    | p => makeMiss s!"confidence: not a guess, got {p.show F}" line "confidence" [v])

/-! ## Provenance as data -/

/-- `_step_record`. -/
def stepRecord (line : ℕ) (step : Node × ℕ) : Making Node := do
  let (node, depth) := step
  let part (detail : String) (p : Payload) : Making Node := leaf "step" detail line p
  let op ← part "op" (.str node.op)
  let detail ← part "detail" (.str node.detail)
  let at_ ← part "line" (natural node.line)
  let text ← part "show" (.str (node.show F))
  let deep ← part "depth" (natural depth)
  let inputs ← part "inputs" (natural node.inputs.length)
  let count ← part "count" (natural node.count)
  derived "step" node.label line [node]
    (.record (Fields.ofDict [("op", op), ("detail", detail), ("line", at_), ("show", text),
      ("depth", deep), ("inputs", inputs), ("count", count), ("value", node)]))

def stepRecords (line : ℕ) : List (Node × ℕ) → Making (List Node)
  | [] => pure []
  | s :: ss => do
      let v ← stepRecord F line s
      let vs ← stepRecords line ss
      pure (v :: vs)

def stepSig : Sig := [("v", none), ("pat", some ["str"])]

/-- `b_steps` of one argument. -/
def steps (v : Node) (line : ℕ) : Making Node := do
  let root := historyRoot v
  let items ← stepRecords F line (walkSteps root)
  derived "steps" s!"{items.length} steps" line [root] (.list items)

/-- `b_steps` of two arguments. -/
def stepsMatching (v pat : Node) (line : ℕ) : Making Node :=
  let root := historyRoot v
  match pat.value with
  | .miss _ => mergeMiss "steps" "" line [pat, v]
  | .str pattern => do
      let items ← stepRecords F line ((walkSteps root).filter fun s ↦ matchesStep pattern s.1)
      derived "steps" s!"{items.length} steps matching {pattern}" line [root, pat] (.list items)
  | p =>
      let hint := orderHint "steps" stepSig [v, pat]
      makeMiss s!"steps needs a string step name, got {p.show F}{hint}" line "steps" [root, pat]

/-- `b_at`. -/
def at_ (v pat : Node) (line : ℕ) : Making Node :=
  match pat.value with
  | .miss _ => mergeMiss "at" "" line [pat, v]
  | .str pattern =>
      let root := historyRoot v
      match findStep root pattern with
      | some node => pure node
      | none =>
          makeMiss s!"no step named '{pattern}' in the history of {root.show F}" line "at"
            [root, pat]
  | p =>
      let hint := orderHint "at" stepSig [v, pat]
      makeMiss s!"at needs a string step name, got {p.show F}{hint}" line "at" [v, pat]

/-- `b_blame`. -/
def blame (v : Node) (line : ℕ) : Making Node := do
  let root := historyRoot v
  let items ← stepRecords F line ((walkSteps root).filter fun s ↦ isOriginMiss s.1)
  derived "blame" s!"{items.length} origins" line [root] (.list items)

def differenceText : Provenance.Difference → String
  | .step => "step"
  | .value => "value"

/-- The depth of a step in a walk. -/
def depthIn (walk : List (Node × ℕ)) (v : Node) : ℕ :=
  ((walk.find? fun s ↦ s.1 = v).map Prod.snd).getD 0

/-- A record of `_diverge_records`. -/
def divergeRecord (ra rb : Node) (which : Option ℕ) (line : ℕ)
    (d : Node × Node × Provenance.Difference) : Making Node := do
  let (na, nb, difference) := d
  let kind ← leaf "diverge" "kind" line (.str (differenceText difference))
  let a ← stepRecord F line (na, depthIn (walkSteps ra) na)
  let b ← stepRecord F line (nb, depthIn (walkSteps rb) nb)
  let fields := [("kind", kind), ("a", a), ("b", b)]
  match which with
  | none =>
      derived "diverge" (differenceText difference) line [na, nb] (.record (Fields.ofDict fields))
  | some run => do
      let which ← leaf "diverge" "which" line (natural run)
      derived "diverge" (differenceText difference) line [na, nb]
        (.record (Fields.ofDict (fields ++ [("which", which)])))

/-- `_diverge_records`. -/
def divergeRecords (ra rb : Node) (which : Option ℕ) (line : ℕ) :
    List (Node × Node × Provenance.Difference) → Making (List Node)
  | [] => pure []
  | d :: ds => do
      let v ← divergeRecord F ra rb which line d
      let vs ← divergeRecords ra rb which line ds
      pure (v :: vs)

/-- `b_diverge` of two arguments. -/
def diverge (a b : Node) (line : ℕ) : Making Node := do
  let ra := historyRoot a
  let rb := historyRoot b
  let items ← divergeRecords F ra rb none line (H.diverge ra rb)
  derived "diverge" s!"{items.length} origins" line [ra, rb] (.list items)

/-- The runs of a list against the first, from the run of the given number on. -/
def divergeRuns (ra : Node) (line : ℕ) : ℕ → List Node → Making (List Node)
  | _, [] => pure []
  | which, run :: runs => do
      let rb := historyRoot run
      let items ← divergeRecords F ra rb (some which) line (H.diverge ra rb)
      let rest ← divergeRuns ra line (which + 1) runs
      pure (items ++ rest)

/-- What `diverge` and `contrast` of one argument make of what is no list. -/
def withRuns (name : String) (runs : Node) (line : ℕ) (rest : List Node → Making Node) :
    Making Node :=
  match runs.value with
  | .miss _ => mergeMiss name "" line [runs]
  | .list items => rest items
  | p => makeMiss s!"{name} needs two values or a list of runs, got {p.show F}" line name [runs]

/-- `b_diverge` of one argument. -/
def divergeAll (runs : Node) (line : ℕ) : Making Node :=
  withRuns F "diverge" runs line fun items ↦ do
    let found ← match items with
      | [] => pure []
      | first :: rest => divergeRuns F H (historyRoot first) line 1 rest
    derived "diverge" s!"{found.length} origins across {items.length} runs" line [runs]
      (.list found)

/-- `b_contrast` of two arguments. -/
def contrast (a b : Node) (line : ℕ) : Making Node :=
  let ra := historyRoot a
  let rb := historyRoot b
  derived "contrast" "" line [ra, rb] (.str (H.contrast ra rb))

def noDivergence : String := "no divergence"

/-- A block for each run that differs from the first. -/
def contrastBlocks (ra : Node) : ℕ → List Node → List String
  | _, [] => []
  | which, run :: runs =>
      let text := H.contrast ra (historyRoot run)
      let rest := contrastBlocks ra (which + 1) runs
      if text = noDivergence then rest else s!"run {which} vs run 0:\n{text}" :: rest

/-- `b_contrast` of one argument. -/
def contrastAll (runs : Node) (line : ℕ) : Making Node :=
  withRuns F "contrast" runs line fun items ↦
    let blocks := match items with
      | [] => []
      | first :: rest => contrastBlocks H (historyRoot first) 1 rest
    let text := if blocks.isEmpty then noDivergence else "\n\n".intercalate blocks
    derived "contrast" s!"{items.length} runs" line [runs] (.str text)

end

end Builtin

/-! ## The table -/

inductive BuiltinName where
  | print | rand | len | range | map | filter | fold | push | str | show_ | num | abs | sqrt | trunc
  | missed | reasons | note | contains | join | keys | merge | get | has | put | find | typed
  | matches_ | shapeof | guess | is_guess | confidence | sure | steps | at_ | blame | diverge
  | contrast
deriving DecidableEq

namespace BuiltinName

def text : BuiltinName → String
  | print => "print"
  | rand => "rand"
  | len => "len"
  | range => "range"
  | map => "map"
  | filter => "filter"
  | fold => "fold"
  | push => "push"
  | str => "str"
  | show_ => "show"
  | num => "num"
  | abs => "abs"
  | sqrt => "sqrt"
  | trunc => "trunc"
  | missed => "missed"
  | reasons => "reasons"
  | note => "note"
  | contains => "contains"
  | join => "join"
  | keys => "keys"
  | merge => "merge"
  | get => "get"
  | has => "has"
  | put => "put"
  | find => "find"
  | typed => "typed"
  | matches_ => "matches"
  | shapeof => "shapeof"
  | guess => "guess"
  | is_guess => "is_guess"
  | confidence => "confidence"
  | sure => "sure"
  | steps => "steps"
  | at_ => "at"
  | blame => "blame"
  | diverge => "diverge"
  | contrast => "contrast"

open Builtin Asking in
/-- A builtin at work on its arguments, with the next draw of the run. -/
def apply (B : Budgets) (F : FloatOps) (H : Histories) (draw : Float64) (line : ℕ) :
    BuiltinName → List Node → Asking
  | print, [v] => making (pure v)
  | rand, [] => making (Builtin.rand draw line)
  | len, [v] => making (Builtin.len F v line)
  | range, args => making (Builtin.range B F args line)
  | map, [fn, xs] => Builtin.map F fn xs line
  | filter, [fn, xs] => Builtin.filter F fn xs line
  | fold, [fn, acc, xs] => Builtin.fold F fn acc xs line
  | push, [xs, x] => making (Builtin.push B F xs x line)
  | str, [v] => making (Builtin.str F H v line)
  | show_, [v] => making (Builtin.show_ F v line)
  | num, [v] => finish (Builtin.num B F v line)
  | abs, [v] => making (Builtin.abs F v line)
  | sqrt, [v] => finish (Builtin.sqrt F v line)
  | trunc, [v] => making (Builtin.trunc F v line)
  | missed, [v] => making (Builtin.missed v line)
  | reasons, [v] => making (Builtin.reasons v line)
  | note, [label, v] => making (Builtin.note F label v line)
  | contains, [hay, needle] => making (Builtin.contains F hay needle line)
  | join, [xs, sep] => making (Builtin.join B F xs sep line)
  | keys, [v] => making (Builtin.keys F v line)
  | merge, [a, b] => making (Builtin.merge a b line)
  | get, [r, name] => making (Builtin.get F r name line)
  | has, [r, name] => making (Builtin.has F r name line)
  | put, [r, name, v] => making (Builtin.put F r name v line)
  | find, [fn, xs] => Builtin.find F fn xs line
  | typed, [value, spec, label] => finish (Builtin.typed F value spec label line)
  | matches_, [value, spec] => finish (Builtin.matches_ value spec line)
  | shapeof, [v] => making (Builtin.shapeof v line)
  | guess, [value, conf, source] => making (Whence.guess F value conf source line)
  | is_guess, [v] => making (Builtin.isGuess v line)
  | confidence, [v] => making (Builtin.confidence F v line)
  | sure, [v, threshold] => making (Whence.sure F v threshold line)
  | steps, [v] => making (Builtin.steps F v line)
  | steps, [v, pat] => making (Builtin.stepsMatching F v pat line)
  | at_, [v, pat] => making (Builtin.at_ F v pat line)
  | blame, [v] => making (Builtin.blame F v line)
  | diverge, [runs] => making (Builtin.divergeAll F H runs line)
  | diverge, [a, b] => making (Builtin.diverge F H a b line)
  | contrast, [runs] => making (Builtin.contrastAll F H runs line)
  | contrast, [a, b] => making (Builtin.contrast H a b line)
  -- the arguments are counted before
  | _, _ => finish Hosting.raise

end BuiltinName

end NucLlm.Whence
