import NucLlm.Whence.Token
import NucLlm.Whence.Value

/-!
# Values as text

`show` bounds what it prints of a payload; a full rendering stops only at a
depth and at a number of nodes, and names the misses whose reasons it prints.
-/

namespace NucLlm.Whence

/-- `int.bit_length`. -/
def bitLength (n : ℤ) : ℕ := if n = 0 then 0 else n.natAbs.log2 + 1

theorem bitLength_le_iff {n : ℤ} {k : ℕ} : bitLength n ≤ k ↔ n.natAbs < 2 ^ k := by
  unfold bitLength
  split
  · rename_i hzero
    rw [hzero]
    exact iff_of_true (Nat.zero_le k) (Nat.two_pow_pos k)
  · rename_i hne
    exact Nat.log2_lt (Int.natAbs_ne_zero.mpr hne)

/-- `show_int`. -/
def showInteger (n : ℤ) : String :=
  if n.natAbs < 2 ^ showIntBits then toString n else s!"<integer, {bitLength n} bits>"

def clipText (limit : ℕ) (s : String) : String := String.ofList (s.toList.take limit) ++ "…"

/-- `quote_str`. -/
def quoteUpTo (limit : Option ℕ) (s : String) : String :=
  let text := String.join (s.toList.map quoteChar)
  match limit with
  | none => s!"\"{text}\""
  | some k =>
      let text := if k < text.length then clipText k text else text
      s!"\"{text}\""

def Payload.isText : Payload → Bool
  | .str _ => true
  | _ => false

/-- What `show_payload` keeps of a text that is not a string's. -/
def clipShown (limit : Option ℕ) (p : Payload) (s : String) : String :=
  match limit with
  | none => s
  | some k => if !p.isText && k + 2 < s.length then clipText k s else s

def showNest : ℕ := 3

def commaSep (parts : List String) (cut : Bool) : String :=
  ", ".intercalate parts ++ if cut then ", …" else ""

/-- The items shown where there is a limit. -/
def shownHead (limit : Option ℕ) (k : ℕ) (parts : List String) : String :=
  match limit with
  | none => commaSep parts false
  | some _ => commaSep (parts.take k) (k < parts.length)

def closureText : Option String → String
  | some name => s!"<fn {name}>"
  | none => "<fn>"

def builtinText (name : String) : String := s!"<builtin {name}>"

section

variable (F : FloatOps)

def Num.render : Num → String
  | .int n => showInteger n
  | .float x => F.repr x

/-- The start of a guess's text. -/
def guessHead (confidence : Num) (sources : List String) : String :=
  let names := ", ".intercalate sources
  s!"guess {F.fmt2g confidence} ({names}): "

mutual

/-- `_show` without a context. -/
def Payload.render (limit : Option ℕ) (nest : ℕ) : Payload → String
  | .bool b => if b then "true" else "false"
  | .num n => n.render F
  | .str s => quoteUpTo limit s
  | .list items =>
      if showNest ≤ nest then (if items.isEmpty then "[]" else "[…]")
      else "[" ++ shownHead limit 6 (showItems (limit.map fun _ ↦ 12) (nest + 1) items) ++ "]"
  | .record fields =>
      if showNest ≤ nest then (if fields.isEmpty then "@\x7b\x7d" else "@\x7b…\x7d")
      else
        "@\x7b" ++ shownHead limit 4 (showFields (limit.map fun _ ↦ 12) (nest + 1) fields) ++ "\x7d"
  | .miss reasons =>
      match limit with
      | none => "miss " ++ quoteUpTo none ("; ".intercalate reasons)
      | some _ => "miss"
  | .guess node confidence sources =>
      guessHead F confidence sources ++ node.showIn (limit.map fun _ ↦ 12) (nest + 1)
  | .closure (.mk _ name _ _ _) => closureText name
  | .builtin name => builtinText name
  | .explanation _ => "<why>"

/-- `show_payload` of a node's payload. -/
def Node.showIn (limit : Option ℕ) (nest : ℕ) : Node → String
  | .mk _ _ _ _ _ _ value => clipShown limit value (value.render limit nest)

def showItems (limit : Option ℕ) (nest : ℕ) : List Node → List String
  | [] => []
  | v :: vs => v.showIn limit nest :: showItems limit nest vs

def showFields (limit : Option ℕ) (nest : ℕ) : List (String × Node) → List String
  | [] => []
  | (key, v) :: fields => (s!"{key}: " ++ v.showIn limit nest) :: showFields limit nest fields

end

/-- `show_payload` with its default limit. -/
def Payload.show (p : Payload) : String := clipShown (some 40) p (p.render F (some 40) 0)

/-- The text of a node; a builtin's own node shows its name. -/
def Node.show (v : Node) : String :=
  match v.id with
  | .builtin name => name
  | _ => v.value.show F

/-! ## Full renderings -/

/-- `_FullCtx`. -/
structure ShowCtx where
  cap : ℕ
  left : ℕ
  misses : List Node
  depthStopped : Bool
  nodeStopped : Bool

namespace ShowCtx

/-- `_FullCtx(cap, budget)`. -/
def start (cap budget : ℕ) : ShowCtx := ⟨cap, budget, [], false, false⟩

/-- `name_miss` where the node is a miss. -/
def see (ctx : ShowCtx) (v : Node) : ShowCtx :=
  if v.isMiss && !ctx.misses.any (·.id = v.id) then { ctx with misses := ctx.misses ++ [v] }
  else ctx

/-- `spend`: nothing is left to spend on `none`. -/
def spend (ctx : ShowCtx) : Option ShowCtx :=
  if ctx.left = 0 then none else some { ctx with left := ctx.left - 1 }

def stopNodes (ctx : ShowCtx) : ShowCtx := { ctx with nodeStopped := true }

def stopDepth (ctx : ShowCtx) (nonempty : Bool) : ShowCtx :=
  { ctx with depthStopped := ctx.depthStopped || nonempty }

end ShowCtx

mutual

/-- `_show` with a context. -/
def Payload.renderFull (nest : ℕ) : Payload → ShowCtx → String × ShowCtx
  | .list items, ctx =>
      if ctx.cap ≤ nest then
        (if items.isEmpty then "[]" else "[…]", ctx.stopDepth !items.isEmpty)
      else
        let (parts, cut, ctx) := fullItems (nest + 1) items ctx
        ("[" ++ commaSep parts cut ++ "]", ctx)
  | .record fields, ctx =>
      if ctx.cap ≤ nest then
        (if fields.isEmpty then "@\x7b\x7d" else "@\x7b…\x7d", ctx.stopDepth !fields.isEmpty)
      else
        let (parts, cut, ctx) := fullFields (nest + 1) fields ctx
        ("@\x7b" ++ commaSep parts cut ++ "\x7d", ctx)
  | .guess node confidence sources, ctx =>
      match ctx.spend with
      | none => (guessHead F confidence sources ++ "…", ctx.stopNodes)
      | some ctx =>
          let (text, ctx) := node.fullIn (nest + 1) (ctx.see node)
          (guessHead F confidence sources ++ text, ctx)
  | p, ctx => (p.render F none nest, ctx)

def Node.fullIn (nest : ℕ) : Node → ShowCtx → String × ShowCtx
  | .mk _ _ _ _ _ _ value, ctx => value.renderFull nest ctx

/-- The texts of the items, and whether the nodes ran out before the last. -/
def fullItems (nest : ℕ) : List Node → ShowCtx → List String × Bool × ShowCtx
  | [], ctx => ([], false, ctx)
  | v :: vs, ctx =>
      match ctx.spend with
      | none => ([], true, ctx.stopNodes)
      | some ctx =>
          let (text, ctx) := v.fullIn nest (ctx.see v)
          let (parts, cut, ctx) := fullItems nest vs ctx
          (text :: parts, cut, ctx)

def fullFields (nest : ℕ) : List (String × Node) → ShowCtx → List String × Bool × ShowCtx
  | [], ctx => ([], false, ctx)
  | (key, v) :: fields, ctx =>
      match ctx.spend with
      | none => ([], true, ctx.stopNodes)
      | some ctx =>
          let (text, ctx) := v.fullIn nest (ctx.see v)
          let (parts, cut, ctx) := fullFields nest fields ctx
          (s!"{key}: {text}" :: parts, cut, ctx)

end

def fullShowNest : ℕ := 24

def fullShowNodes : ℕ := 20000

/-- The misses that `full_show_named` names; the items of an outermost list or record are
not nested in it. -/
def Node.namedMisses (v : Node) : List Node :=
  let ctx := ShowCtx.start fullShowNest fullShowNodes
  match v.value with
  | .miss _ => [v]
  | .explanation _ | .str _ => []
  | .list items => (fullItems F 0 items ctx).2.2.misses
  | .record fields => (fullFields F 0 fields ctx).2.2.misses
  | p => (p.renderFull F 0 ctx).2.misses

end

end NucLlm.Whence
