import NucLlm.Lib.Exec
import NucLlm.Errand.Syntax
import Mathlib.Algebra.Order.Floor.Ring
import Mathlib.Data.Rat.Floor
import Mathlib.Data.List.Infix

/-!
# The Errand interpreter

Values with trails, consumed budgets, mandatory preflight and policy retries.
Everything time- or chance-dependent is injected: the k-th reading of the clock
or the generator and the k-th answer of the transport are given by functions of
`k`.  The live ledgers form the chain from the innermost flow outwards.  A log
keeps what an observer sees: the flows that open and close, the sends with what
was left at that moment, the attempts and the waits, failures, refusals and the
ledgers after every spend.
-/

namespace NucLlm.Errand

/-- What `json.dumps` is given: the trail of a value. -/
inductive Json where
  | null
  | bool (b : Bool)
  | int (n : ℤ)
  | num (q : ℚ)
  | str (s : String)
  | arr (xs : List Json)
  | obj (fields : List (String × Json))

namespace Json

def ofOption {α : Type} (f : α → Json) : Option α → Json
  | none => null
  | some a => f a

def ofValue : Value → Json
  | .str s => str s
  | .int n => int n
  | .float q => num q
  | .bool b => bool b

end Json

/-- `Ok(value, prov)` or `Miss(reasons, prov)`. -/
inductive Val where
  | ok (value : Value) (prov : Json)
  | miss (reasons : List String) (prov : Json)

namespace Val

def prov : Val → Json
  | ok _ prov => prov
  | miss _ prov => prov

def isMiss : Val → Bool
  | ok _ _ => false
  | miss _ _ => true

def reasons : Val → List String
  | ok _ _ => []
  | miss reasons _ => reasons

end Val

def why : Val → Json
  | .miss reasons prov =>
      .obj [("ok", .bool false), ("reasons", .arr (reasons.map .str)), ("prov", prov)]
  | .ok value prov => .obj [("ok", .bool true), ("value", .ofValue value), ("prov", prov)]

structure Message where
  role : String
  content : String

structure Request where
  model : String
  messages : List Message
  maxTokens : ℕ
  temperature : ℕ := 0
  stream : Bool := false

structure Reply where
  text : String
  promptTokens : Option ℤ
  completionTokens : Option ℤ
  status : ℤ
  dry : Bool

/-- What `transport.send` does: reply, raise `TransportError`, or raise
anything else. -/
inductive SendResult where
  | reply (r : Reply)
  | transportError (msg : String) (status : Option ℤ) (retryable : Bool)
  | crash (msg : String)

/-- What `json.loads` makes of a text: a value, a `ValueError`, or another exception. -/
inductive Loaded where
  | parsed (value : Json)
  | valueError (msg : String)
  | raised (msg : String)

/-- String functions of the host and its number formats. -/
structure Texts where
  strip : String → String
  stripChars : String → String → String
  lower : String → String
  split : String → List String
  repr : String → String
  reprFloat : ℚ → String
  fixed1 : ℚ → String
  dumps : Json → Except String String
  loads : String → Loaded

/-- What `Interp(...)` is constructed with.  `sleep` may raise, as it does on a delay that no
timestamp holds. -/
structure Host where
  count : String → ℕ
  perMessage : ℤ
  clock : ℕ → ℚ
  rng : ℕ → ℚ
  sleep : ℚ → Option String
  send : ℕ → Lane → Request → ℚ → SendResult
  dryRun : Bool
  defaultTimeoutS : ℚ
  texts : Texts

/-- `round(q, 3)`, ties to even. -/
def round3 (q : ℚ) : ℚ :=
  let x := q * 1000
  let f := ⌊x⌋
  let n := if x - f < 1 / 2 then f
    else if 1 / 2 < x - f then f + 1
    else if f % 2 = 0 then f else f + 1
  n / 1000

/-! ## Tokens and projection -/

/-- `CharsTokenizer.count` with its default figures. -/
def charsCount (text : String) : ℕ := (⌊(text.length : ℚ) / 4 + 999 / 1000⌋ + 5).toNat

/-- The measured points `E1_POINTS`: prompt tokens and seconds. -/
def e1Points : List (ℚ × ℚ) := [(0, 24 / 10), (134, 233 / 10), (904, 1431 / 10), (3998, 7703 / 10)]

/-- The loop of `qwen36_prefill_s` over consecutive points, and its last
segment's slope beyond them. -/
def e1Curve (tokens : ℚ) : List (ℚ × ℚ) → ℚ
  | (x₀, y₀) :: (x₁, y₁) :: rest =>
      if tokens ≤ x₁ then y₀ + (y₁ - y₀) * (tokens - x₀) / (x₁ - x₀)
      else match rest with
        | [] => y₁ + (y₁ - y₀) / (x₁ - x₀) * (tokens - x₁)
        | p :: rest => e1Curve tokens ((x₁, y₁) :: p :: rest)
  | _ => 0

def qwen36PrefillS (tokens : ℕ) : ℚ := e1Curve tokens e1Points

structure Projection where
  promptTokens : ℕ
  replyTokens : ℕ
  ttftS : ℚ
  decodeS : ℚ
  cold : Bool

def Projection.totalS (p : Projection) : ℚ := p.ttftS + p.decodeS

/-- `lane.cold_after is not None and (idle_s is None or idle_s >= lane.cold_after)`. -/
def isCold (lane : Lane) (idleS : Option ℚ) : Bool :=
  match lane.coldAfter, idleS with
  | none, _ => false
  | some _, none => true
  | some after, some idle => decide (after ≤ idle)

def project (lane : Lane) (promptTokens replyTokens : ℕ) (idleS : Option ℚ) : Projection :=
  let ttft := match lane.prefill with
    | .e1 => qwen36PrefillS promptTokens
    | .rate r => lane.fixed + promptTokens / r
  let cold := isCold lane idleS
  ⟨promptTokens, replyTokens, if cold then ttft + lane.coldPenalty else ttft,
    replyTokens / lane.decode, cold⟩

/-! ## Ledgers -/

/-- One row of `per_lane`. -/
structure LaneRow where
  lane : String
  calls : ℕ
  seconds : ℚ
  tokensIn : ℤ
  tokensOut : ℤ

structure Ledger where
  name : Option String
  limitS : Option ℚ
  limitTokens : Option ℕ
  spentS : ℚ := 0
  tokensIn : ℤ := 0
  tokensOut : ℤ := 0
  perLane : List LaneRow := []
  calls : ℕ := 0

namespace Ledger

/-- `per_lane.setdefault(lane, ...)` and the additions to its row. -/
def addRow (seconds : ℚ) (lane : String) (tokensIn tokensOut : ℤ) : List LaneRow → List LaneRow
  | [] => [⟨lane, 1, seconds, tokensIn, tokensOut⟩]
  | row :: rows =>
      if row.lane = lane then
        ⟨lane, row.calls + 1, row.seconds + seconds, row.tokensIn + tokensIn,
          row.tokensOut + tokensOut⟩ :: rows
      else row :: addRow seconds lane tokensIn tokensOut rows

/-- `spend` on this ledger alone; the parents are the rest of the chain. -/
def spend (seconds : ℚ) (lane : Option String) (tokensIn tokensOut : ℤ) (l : Ledger) : Ledger :=
  { l with
    spentS := l.spentS + seconds
    tokensIn := l.tokensIn + tokensIn
    tokensOut := l.tokensOut + tokensOut
    perLane := match lane with
      | none => l.perLane
      | some name => addRow seconds name tokensIn tokensOut l.perLane }

/-- `remaining_s` of the innermost ledger of the chain. -/
def remainingS : List Ledger → Option ℚ
  | [] => none
  | l :: up =>
      match l.limitS, remainingS up with
      | none, r => r
      | some limit, none => some (max 0 (limit - l.spentS))
      | some limit, some r => some (min (max 0 (limit - l.spentS)) r)

/-- The loop of `tightest`: the best binding so far and the chain left. -/
def tightestFrom : Option (ℚ × Option String) → List Ledger → Option String
  | best, [] => best.bind Prod.snd
  | best, l :: up =>
      match l.limitS, best with
      | none, _ => tightestFrom best up
      | some limit, none => tightestFrom (some (limit - l.spentS, l.name)) up
      | some limit, some (r, name) =>
          if limit - l.spentS < r then tightestFrom (some (limit - l.spentS, l.name)) up
          else tightestFrom (some (r, name)) up

def tightest (chain : List Ledger) : Option String := tightestFrom none chain

def laneSummary (row : LaneRow) : String × Json :=
  (row.lane, .obj [("calls", .int row.calls), ("seconds", .num (round3 row.seconds)),
    ("tokens_in", .int row.tokensIn), ("tokens_out", .int row.tokensOut)])

/-- `summary()` of `l` with the parents `up`. -/
def summary (l : Ledger) (up : List Ledger) : Json :=
  .obj [("budget", .ofOption .str l.name), ("limit_s", .ofOption .num l.limitS),
    ("spent_s", .num (round3 l.spentS)),
    ("remaining_s", .ofOption (fun r ↦ .num (round3 r)) (remainingS (l :: up))),
    ("tokens_in", .int l.tokensIn), ("tokens_out", .int l.tokensOut), ("calls", .int l.calls),
    ("per_lane", .obj (l.perLane.map laneSummary))]

end Ledger

/-! ## Expectations -/

def reprList (tx : Texts) (xs : List String) : String :=
  "[" ++ ", ".intercalate (xs.map tx.repr) ++ "]"

/-- `text[:60]`. -/
def clip60 (text : String) : String := String.ofList (text.toList.take 60)

def punct : String := ".,;:!?\"'`)]\x7d"

/-- The matched option of `one_of`: the whole normalised reply first, then its
first word. -/
def matchOneOf (tx : Texts) (opts : List String) (text : String) : Option String :=
  let norm := tx.lower (tx.strip (tx.stripChars (tx.strip text) punct))
  let first := match tx.split norm with
    | [] => ""
    | w :: _ => tx.stripChars w punct
  (opts.find? fun opt ↦ norm = tx.lower opt) <|> opts.find? fun opt ↦ first = tx.lower opt

/-- Why a reply gives no value: its clause fails it, or the check itself raises. -/
inductive Unmet where
  | reason (text : String)
  | raised (msg : String)

/-- The value of the reply, or why there is none. -/
def checkExpect (tx : Texts) : Option Expect → String → Except Unmet String
  | none, text => .ok text
  | some .nonempty, text =>
      if tx.strip text = "" then .error (.reason "expect nonempty: empty reply") else .ok text
  | some (.contains needle), text =>
      if needle.toList <:+: text.toList then .ok text
      else .error <| .reason
        s!"expect contains {tx.repr needle}: not in reply {tx.repr (clip60 text)}"
  | some .json, text =>
      match tx.loads text with
      | .parsed _ => .ok text
      | .valueError ex => .error (.reason s!"expect json: {ex}")
      | .raised msg => .error (.raised msg)
  | some (.oneOf first rest), text =>
      match matchOneOf tx (first :: rest) text with
      | some opt => .ok opt
      | none =>
          .error <| .reason
            s!"expect one_of {reprList tx (first :: rest)}: reply {tx.repr (clip60 text)}"

/-! ## The machine -/

/-- Host exceptions, and the end of the fuel. -/
inductive Err where
  | keyError (msg : String)
  | indexError
  | attributeError
  | assertion
  | raised (msg : String)
  | outOfFuel

/-- The tokens of a prompt: its estimate, the limit its task names for itself,
and what this execution has been charged so far. -/
structure PromptTokens where
  estimate : ℕ
  taskLimit : Option ℕ
  charged : ℤ

/-- What an observer sees: flows called by the host, ledgers opened and closed, and the task
executions, which `call` numbers. -/
inductive Event where
  | called (flow : String)
  | opened (ledgers : List Ledger)
  | closed (ledger : Ledger) (up : List Ledger)
  | begin (call : ℕ) (retry : ℕ)
  | send (call : ℕ) (lane : Lane) (request : Request) (timeout projected : ℚ)
      (taskLeft : Option ℚ) (tokens : PromptTokens) (ledgers : List Ledger)
  | attempted (call : ℕ) (lane : String) (seconds : ℚ) (tokensIn tokensOut : ℤ)
  | failed (call : ℕ) (retryable : Bool)
  | refused (call : ℕ)
  | waited (call : ℕ) (seconds : ℚ)
  | spent (call : ℕ) (ledgers : List Ledger)

structure St where
  ledgers : List Ledger
  laneLastCall : List (String × ℚ)
  taskCalls : ℕ
  clockReads : ℕ
  rngReads : ℕ
  sends : ℕ
  log : List Event

def St.init : St := ⟨[], [], 0, 0, 0, 0, []⟩

abbrev M (α : Type) := Exec Err St α

abbrev Env := List (String × Val)

section Machine

variable (host : Host) (prog : Program)

def readClock : M ℚ := do
  let s ← Exec.get
  Exec.modify fun s ↦ { s with clockReads := s.clockReads + 1 }
  pure (host.clock s.clockReads)

def readRng : M ℚ := do
  let s ← Exec.get
  Exec.modify fun s ↦ { s with rngReads := s.rngReads + 1 }
  pure (host.rng s.rngReads)

def note (ev : Event) : M Unit := Exec.modify fun s ↦ { s with log := s.log ++ [ev] }

/-- `ledger.spend(...)`: the innermost ledger and every parent. -/
def spend (call : ℕ) (seconds : ℚ) (lane : Option String) (tokensIn tokensOut : ℤ) : M Unit := do
  Exec.modify fun s ↦
    { s with ledgers := s.ledgers.map (Ledger.spend seconds lane tokensIn tokensOut) }
  let s ← Exec.get
  note (.spent call s.ledgers)

/-- The first integer that rounds beyond the largest double. -/
@[irreducible] def floatLimit : ℕ := 2 ^ 1024 - 2 ^ 970

/-- An integer becomes a float where it meets one, or raises. -/
def toFloat (n : ℕ) : M ℚ :=
  if n < floatLimit then pure n else Exec.fail (.raised "OverflowError")

def lookupEnv (env : Env) (name : String) : M Val :=
  Exec.ofOption (.keyError name) ((env.find? (·.1 = name)).map Prod.snd)

/-- How a value prints and interpolates. -/
def render : Val → String
  | .miss reasons _ => "miss(" ++ "; ".intercalate reasons ++ ")"
  | .ok (.bool true) _ => "true"
  | .ok (.bool false) _ => "false"
  | .ok (.float q) _ => host.texts.reprFloat q
  | .ok (.int n) _ => toString n
  | .ok (.str s) _ => s

def literalProv (line : ℕ) : Json := .obj [("kind", .str "literal"), ("line", .int line)]

/-- The loop of `_interpolate` over the parts left, with the text and the
inputs collected so far. -/
def interpolateFrom (line : ℕ) (env : Env) (out : String) (inputs : List Json) :
    List Part → M Val
  | [] => pure (.ok (.str out) (if inputs.isEmpty then literalProv line
      else .obj [("kind", .str "string"), ("line", .int line), ("inputs", .arr inputs)]))
  | .text s :: parts => interpolateFrom line env (out ++ s) inputs parts
  | .ref name :: parts => do
      let v ← lookupEnv env name
      match v with
      | .miss reasons _ =>
          pure (.miss (s!"string at line {line}: \x7b{name}\x7d missed" :: reasons)
            (.obj [("kind", .str "string"), ("line", .int line), ("inputs", .arr [why v])]))
      | .ok _ prov =>
          interpolateFrom line env (out ++ render host v)
            (inputs ++ [.obj [("name", .str name), ("prov", prov)]]) parts

def interpolate (s : Str) (env : Env) : M Val := interpolateFrom host s.line env "" [] s.parts

/-- `.value` of an interpolation that must be a string. -/
def interpolateText (s : Str) (env : Env) : M String := do
  match (← interpolate host s env) with
  | .ok (.str text) _ => pure text
  | _ => Exec.fail .attributeError

def builtinProv (name : String) (line : ℕ) (inputs : Option (List Json)) : Json :=
  .obj ([("kind", .str "builtin"), ("name", .str name), ("line", .int line)] ++
    match inputs with
    | none => []
    | some js => [("inputs", .arr js)])

def builtin (name : String) (args : List Val) (line : ℕ) : M Val :=
  match args with
  | [a] =>
      let tx := host.texts
      let prov := builtinProv name line (some [why a])
      if name = "why" then
        match tx.dumps (why a) with
        | .ok text => pure (.ok (.str text) (builtinProv "why" line none))
        | .error msg => Exec.fail (.raised msg)
      else if name = "missed" then
        pure (.ok (.bool a.isMiss) (builtinProv "missed" line none))
      else match a with
        | .miss reasons _ =>
            pure (.miss (s!"{name} at line {line}: argument missed" :: reasons) prov)
        | .ok (.str s) _ =>
            if name = "len" then pure (.ok (.int s.length) prov)
            else if name = "lower" then pure (.ok (.str (tx.lower s)) prov)
            else pure (.ok (.str (tx.strip s)) prov)
        | .ok _ _ =>
            let got := tx.repr (render host a)
            pure (.miss [s!"{name} at line {line}: wants a string, got {got}"] prov)
  | _ => Exec.fail (.raised "ValueError")

/-! ## Tasks: preflight, attempts, retries -/

/-- What one task execution has fixed once its preflight has passed. -/
structure Call where
  id : ℕ
  task : Task
  lane : Lane
  request : Request
  proj : Projection
  limitS : Option ℚ
  taskLimitS : Option ℚ
  taskLimitTokens : Option ℕ
  tokensBefore : ℤ
  bound : Option String
  base : List (String × Json)
  inputs : Json

/-- The smaller of the limits that are there. -/
def minLimit : Option ℚ → Option ℚ → Option ℚ
  | none, r => r
  | some t, none => some t
  | some t, some r => some (min t r)

def Call.left (c : Call) (spentHere : ℚ) : Option ℚ := c.limitS.map (· - spentHere)

def Call.timeout (c : Call) (spentHere : ℚ) : ℚ :=
  match c.left spentHere with
  | none => host.defaultTimeoutS
  | some left => max 0 left

/-- The prompt tokens charged to the innermost ledger of a chain. -/
def headTokens (ledgers : List Ledger) : ℤ := (ledgers.head?.map Ledger.tokensIn).getD 0

/-- A send as the observer sees it, with what is left at that moment. -/
def Call.sendEvent (c : Call) (spentHere : ℚ) (ledgers : List Ledger) : Event :=
  .send c.id c.lane c.request (c.timeout host spentHere) c.proj.totalS
    (c.taskLimitS.map (· - spentHere))
    ⟨c.proj.promptTokens, c.taskLimitTokens, headTokens ledgers - c.tokensBefore⟩ ledgers

/-- `transport.send`. -/
def sendRequest (c : Call) (spentHere : ℚ) : M SendResult := do
  let s ← Exec.get
  note (c.sendEvent host spentHere s.ledgers)
  Exec.modify fun s ↦ { s with sends := s.sends + 1 }
  match host.send s.sends c.lane c.request (c.timeout host spentHere) with
  | .crash msg => Exec.fail (.raised msg)
  | r => pure r

/-- What an attempt came to: the value, or a message and whether it may be
retried; the tokens to charge, and the status for the record. -/
structure Attempt where
  outcome : Except (String × Bool) String
  tokensIn : ℤ
  tokensOut : ℤ
  status : Option ℤ

/-- The first option of `one_of`, else the text: what a dry reply stands for. -/
def dryValue (c : Call) (r : Reply) : String :=
  match c.task.expect with
  | some (.oneOf first _) => first
  | _ => r.text

def judge (c : Call) : SendResult → M Attempt
  | .transportError msg _ retryable =>
      pure ⟨.error (msg, retryable), c.proj.promptTokens, 0, none⟩
  | .crash msg => Exec.fail (.raised msg)
  | .reply r =>
      let tin := r.promptTokens.getD c.proj.promptTokens
      if r.dry then pure ⟨.ok (dryValue c r), tin, c.task.reply, some r.status⟩
      else
        let tout := r.completionTokens.getD (host.count r.text - host.perMessage)
        match checkExpect host.texts c.task.expect r.text with
        | .ok val => pure ⟨.ok val, tin, tout, some r.status⟩
        | .error (.reason text) => pure ⟨.error (text, true), tin, tout, some r.status⟩
        | .error (.raised msg) => Exec.fail (.raised msg)

/-- The seconds an attempt is charged: projected in a dry run, measured else. -/
def attemptSeconds (c : Call) (t₀ : ℚ) : M ℚ :=
  if host.dryRun then pure c.proj.totalS
  else do
    let t₁ ← readClock host
    pure (t₁ - t₀)

def attemptRecord (n : ℕ) (seconds : ℚ) (a : Attempt) : Json :=
  .obj [("n", .int n), ("seconds", .num (round3 seconds)), ("tokens_in", .int a.tokensIn),
    ("tokens_out", .int a.tokensOut), ("status", .ofOption .int a.status),
    ("error", match a.outcome with
      | .ok _ => .null
      | .error (msg, _) => .str msg)]

def Call.missProv (c : Call) (spentHere : ℚ) (recs : List Json) : Json :=
  .obj (c.base ++ [("prompt_tokens", .int c.proj.promptTokens), ("attempts", .arr recs),
    ("seconds", .num (round3 spentHere)), ("inputs", c.inputs)])

def Call.okProv (c : Call) (spentHere : ℚ) (recs : List Json) : Json :=
  .obj (c.base ++ [("prompt_tokens", .int c.proj.promptTokens),
    ("projected_s", .num (round3 c.proj.totalS)), ("seconds", .num (round3 spentHere)),
    ("attempts", .arr recs), ("inputs", c.inputs)])

def showBound : Option String → String
  | none => "None"
  | some name => name

def Call.noBudget (c : Call) (n : ℕ) (delay left : ℚ) (msg : String) : String :=
  let f := host.texts.fixed1
  s!"task {c.task.name}: no budget for attempt {n + 1} (needs {f delay} s wait + " ++
    s!"{f c.proj.totalS} s, {f left} s left in {showBound c.bound}) after: {msg}"

/-- `left is not None and delay + proj.total_s > left`: what is left then. -/
def Call.overrun (c : Call) (spentHere delay : ℚ) : Option ℚ :=
  match c.left spentHere with
  | some left => if left < delay + c.proj.totalS then some left else none
  | none => none

/-- `if not self.dry_run: self.sleep(delay)`. -/
def sleepFor (delay : ℚ) : M Unit :=
  if host.dryRun then pure ()
  else match host.sleep delay with
    | none => pure ()
    | some msg => Exec.fail (.raised msg)

/-- The attempts from the `n`-th on, `rem` of them left. -/
def attempts (c : Call) : ℕ → ℕ → ℚ → List Json → M Val
  | 0, _, _, _ => Exec.fail .assertion
  | rem + 1, n, spentBefore, recs => do
      let t₀ ← readClock host
      let result ← sendRequest host c spentBefore
      let seconds ← attemptSeconds host c t₀
      let a ← judge host c result
      note (.attempted c.id c.lane.name seconds a.tokensIn a.tokensOut)
      let spentHere := spentBefore + seconds
      spend c.id seconds (some c.lane.name) a.tokensIn a.tokensOut
      let recs := recs ++ [attemptRecord n seconds a]
      match a.outcome with
      | .ok value => pure (.ok (.str value) (c.okProv spentHere recs))
      | .error (msg, retryable) => do
          note (.failed c.id retryable)
          if !retryable || rem = 0 then
            let verb := if retryable then "gave up after" else "final failure at"
            pure (.miss [s!"task {c.task.name}: {verb} attempt {n}: {msg}"]
              (c.missProv spentHere recs))
          else do
            let factor ← toFloat (2 ^ (n - 1))
            let r ← readRng host
            let delay := c.task.backoffS * factor * (1 / 2 + r)
            match c.overrun spentHere delay with
            | some left => do
                note (.refused c.id)
                pure (.miss [c.noBudget host n delay left msg] (c.missProv spentHere recs))
            | none => do
                sleepFor host delay
                note (.waited c.id delay)
                spend c.id delay none 0 0
                attempts c rem (n + 1) (spentHere + delay) recs

/-- The reason preflight refuses the task, if it does. -/
def refusal (c : Call) (ledger : Option Ledger) : Option String :=
  let f := host.texts.fixed1
  let p := c.proj.promptTokens
  let ctxOver := c.lane.ctx.filter fun ctx ↦ decide (ctx < p + c.task.reply)
  let taskOver := c.taskLimitTokens.filter fun limit ↦ decide (limit < p)
  let ledgerOver := (ledger.bind Ledger.limitTokens).filter fun limit ↦ decide (limit < p)
  let timeOver := c.limitS.filter fun limit ↦ decide (limit < c.proj.totalS)
  match ctxOver, taskOver, ledgerOver, timeOver with
  | some ctx, _, _, _ =>
      some <| s!"preflight: {p} prompt + {c.task.reply} reply tokens exceed lane " ++
        s!"{c.lane.name} ctx {ctx}"
  | none, some limit, _, _ =>
      some s!"preflight: {p} prompt tokens exceed budget {showBound c.task.budget} tokens {limit}"
  | none, none, some limit, _ =>
      let name := showBound (ledger.bind Ledger.name)
      some s!"preflight: {p} prompt tokens exceed budget {name} tokens {limit}"
  | none, none, none, some limit =>
      some <| s!"preflight: task {c.task.name} on {c.lane.name} projected {f c.proj.totalS} s " ++
        s!"(ttft {f c.proj.ttftS} + decode {f c.proj.decodeS}) > budget {showBound c.bound} " ++
        s!"remaining {f limit} s"
  | none, none, none, none => none

def systemMessage (t : Task) (env : Env) : M (List Message) :=
  match t.system with
  | none => pure []
  | some s => do
      let text ← interpolateText host s env
      pure [⟨"system", text⟩]

/-- The messages of the request and their tokens. -/
def messages (t : Task) (env : Env) : M (List Message × ℕ) := do
  let system ← systemMessage host t env
  let user ← interpolateText host t.user env
  let msgs := system ++ [⟨"user", user⟩]
  pure (msgs, (msgs.map fun m ↦ host.count m.content).sum)

/-- The index of the first argument that missed. -/
def firstMiss (args : List Val) : Option (ℕ × Val) :=
  (args.zipIdx.find? fun p ↦ p.1.isMiss).map fun p ↦ (p.2, p.1)

/-- Count the execution, on the interpreter and on the innermost ledger. -/
def openCall (t : Task) : M ℕ := do
  Exec.modify fun s ↦ { s with
    taskCalls := s.taskCalls + 1
    ledgers := s.ledgers.modifyHead fun l ↦ { l with calls := l.calls + 1 } }
  let s ← Exec.get
  note (.begin s.taskCalls t.retry)
  pure s.taskCalls

/-- The budget a task names for itself. -/
def taskBudget (t : Task) : M (Option Budget) :=
  match t.budget with
  | none => pure none
  | some name => do
      let b ← Exec.ofOption (.keyError name) (prog.budget? name)
      pure (some b)

def task (t : Task) (args : List Val) (line : ℕ) : M Val := do
  let lane ← Exec.ofOption (.keyError t.lane) (prog.lane? t.lane)
  let base : List (String × Json) :=
    [("kind", .str "task"), ("task", .str t.name), ("lane", .str lane.name), ("line", .int line)]
  let inputs := Json.arr (args.map why)
  match firstMiss args with
  | some (i, a) => do
      let param ← Exec.ofOption .indexError t.params[i]?
      pure (.miss (s!"task {t.name} at line {line}: argument {i + 1} ({param}) missed" ::
        a.reasons) (.obj (base ++ [("inputs", inputs)])))
  | none => do
      let (msgs, promptTokens) ← messages host t (t.params.zip args)
      let now ← readClock host
      let s ← Exec.get
      let last := (s.laneLastCall.find? (·.1 = lane.name)).map Prod.snd
      let _ ← toFloat t.reply
      let proj := project lane promptTokens t.reply (last.map (now - ·))
      let id ← openCall t
      let budget ← taskBudget prog t
      let s ← Exec.get
      let taskLimitS := budget.bind Budget.timeS
      let remaining := Ledger.remainingS s.ledgers
      let bound := match taskLimitS, remaining with
        | some _, none => t.budget
        | some limit, some r => if limit ≤ r then t.budget else Ledger.tightest s.ledgers
        | none, _ => Ledger.tightest s.ledgers
      let request : Request := { model := lane.model, messages := msgs, maxTokens := t.reply }
      let limitS := minLimit taskLimitS remaining
      let c : Call := ⟨id, t, lane, request, proj, limitS, taskLimitS, budget.bind Budget.tokens,
        headTokens s.ledgers, bound, base, inputs⟩
      match refusal host c s.ledgers.head? with
      | some reason => do
          note (.refused c.id)
          pure (.miss [reason] (.obj (base ++ [("prompt_tokens", .int promptTokens),
            ("projected_s", .num (round3 proj.totalS)), ("refused", .bool true),
            ("inputs", inputs)])))
      | none => do
          Exec.modify fun s ↦ { s with laneLastCall := (lane.name, now) :: s.laneLastCall }
          attempts host c (t.retry + 1) 1 0 []

/-! ## Expressions, blocks and flows -/

structure FlowResult where
  flow : String
  emitted : List Val
  miss : Option (List String × Json)
  seconds : ℚ
  ledger : Json

/-- An argument of `run_flow`: a value of the script, or a raw host value. -/
inductive Arg where
  | val (v : Val)
  | raw (x : Value)

def Arg.toVal (name : String) : Arg → Val
  | .val v => v
  | .raw x => .ok x (.obj [("kind", .str "param"), ("name", .str name)])

def ledgerFor (budgetName : Option String) : M Ledger :=
  match budgetName with
  | none => pure { name := none, limitS := none, limitTokens := none }
  | some name => do
      let b ← Exec.ofOption (.keyError name) (prog.budget? name)
      pure { name := some b.name, limitS := b.timeS, limitTokens := b.tokens }

def cmpProv (op : CmpOp) (line : ℕ) (left right : Val) : Json :=
  .obj [("kind", .str "cmp"), ("op", .str op.text), ("line", .int line),
    ("inputs", .arr [why left, why right])]

def compareVals (op : CmpOp) (line : ℕ) (left right : Val) : Val :=
  match left, right with
  | .ok x _, .ok y _ =>
      let eq := decide (x = y)
      .ok (.bool (match op with
        | .eq => eq
        | .ne => !eq)) (cmpProv op line left right)
  | _, _ =>
      .miss (s!"{op.text} at line {line}: an operand missed" :: (left.reasons ++ right.reasons))
        (cmpProv op line left right)

def rescueProv (line : ℕ) (left right : Val) : Json :=
  .obj [("kind", .str "rescue"), ("line", .int line), ("recovered", why left),
    ("prov", right.prov)]

def flowProv (name : String) (line : ℕ) (more : List (String × Json)) : Json :=
  .obj ([("kind", .str "flow"), ("flow", .str name), ("line", .int line)] ++ more)

/-- What a call of a flow gives its caller. -/
def flowValue (name : String) (line : ℕ) (res : FlowResult) : Val :=
  match res.miss, res.emitted.getLast? with
  | some (reasons, prov), _ =>
      .miss (s!"flow {name} at line {line} missed" :: reasons)
        (flowProv name line [("inner", why (.miss reasons prov))])
  | none, none => .miss [s!"flow {name} at line {line} emitted nothing"] (flowProv name line [])
  | none, some last =>
      let prov := flowProv name line [("emitted", .int res.emitted.length),
        ("ledger", res.ledger), ("prov", last.prov)]
      match last with
      | .miss reasons _ => .miss reasons prov
      | .ok value _ => .ok value prov

def ifProv (line : ℕ) (cond : Val) : Json :=
  .obj [("kind", .str "if"), ("line", .int line), ("condition", cond.prov)]

/-- Open the ledger of a flow below the chain that is there. -/
def pushLedger (l : Ledger) : M Unit := do
  Exec.modify fun s ↦ { s with ledgers := l :: s.ledgers }
  let s ← Exec.get
  note (.opened s.ledgers)

/-- Close the innermost ledger; its parents keep what was spent under it. -/
def popLedger : M (Option Ledger × List Ledger) := do
  let s ← Exec.get
  match s.ledgers with
  | [] => pure (none, [])
  | l :: up => do
      Exec.modify fun s ↦ { s with ledgers := s.ledgers.tail }
      note (.closed l up)
      pure (some l, up)

/-- The seconds of a flow: those of its ledger in a dry run, measured else. -/
def flowSeconds (t₀ : ℚ) (ledger : Ledger) : M ℚ :=
  if host.dryRun then pure ledger.spentS
  else do
    let t₁ ← readClock host
    pure (t₁ - t₀)

mutual

/-- `_expr`, with the depth of the recursion bounded by the first argument. -/
def expr : ℕ → Expr → Env → M Val
  | 0, _, _ => Exec.fail .outOfFuel
  | _ + 1, .num value line, _ => pure (.ok value (literalProv line))
  | _ + 1, .bool value line, _ => pure (.ok (.bool value) (literalProv line))
  | _ + 1, .name name _, env => lookupEnv env name
  | _ + 1, .str s, env => interpolate host s env
  | fuel + 1, .rescue left right line, env => do
      let l ← expr fuel left env
      match l with
      | .ok _ _ => pure l
      | .miss lreasons _ => do
          let r ← expr fuel right env
          match r with
          | .miss reasons _ =>
              pure (.miss (reasons ++ ["(rescue of: " ++ "; ".intercalate lreasons ++ ")"])
                (rescueProv line l r))
          | .ok value _ => pure (.ok value (rescueProv line l r))
  | fuel + 1, .cmp op left right line, env => do
      let l ← expr fuel left env
      let r ← expr fuel right env
      pure (compareVals op line l r)
  | fuel + 1, .call name args line, env => do
      let vals ← exprs fuel args env
      if (builtins.find? (·.1 = name)).isSome then builtin host name vals line
      else match prog.task? name with
        | some t => task host prog t vals line
        | none => do
            let flow ← Exec.ofOption (.keyError name) (prog.flow? name)
            match firstMiss vals with
            | some (i, a) =>
                pure (.miss (s!"flow {name} at line {line}: argument {i + 1} missed" :: a.reasons)
                  (flowProv name line [("inputs", .arr (vals.map why))]))
            | none => do
                let res ← runFlow fuel name (flow.params.zip (vals.map .val))
                pure (flowValue name line res)

/-- The arguments of a call, left to right. -/
def exprs : ℕ → List Expr → Env → M (List Val)
  | 0, _, _ => Exec.fail .outOfFuel
  | _ + 1, [], _ => pure []
  | fuel + 1, e :: es, env => do
      let v ← expr fuel e env
      let vs ← exprs fuel es env
      pure (v :: vs)

/-- `_block` from a statement on: the miss that ended the flow, if one did, and
everything emitted. -/
def block : ℕ → List Stmt → Env → List Val → M (Option (List String × Json) × List Val)
  | 0, _, _, _ => Exec.fail .outOfFuel
  | _ + 1, [], _, emitted => pure (none, emitted)
  | fuel + 1, .letStmt name e _ :: stmts, env, emitted => do
      let v ← expr fuel e env
      block fuel stmts ((name, v) :: env) emitted
  | fuel + 1, .emitStmt e _ :: stmts, env, emitted => do
      let v ← expr fuel e env
      block fuel stmts env (emitted ++ [v])
  | fuel + 1, .ifStmt cond thenBody elseBody line :: stmts, env, emitted => do
      let c ← expr fuel cond env
      match c with
      | .miss reasons _ =>
          pure (some (s!"if at line {line}: condition missed" :: reasons, ifProv line c), emitted)
      | .ok (.bool b) _ => do
          let (m, emitted) ← block fuel (if b then thenBody else elseBody) env emitted
          match m with
          | some m => pure (some m, emitted)
          | none => block fuel stmts env emitted
      | .ok _ _ =>
          let got := host.texts.repr (render host c)
          pure (some ([s!"if at line {line}: condition is {got}, not a boolean"], ifProv line c),
            emitted)

def runFlow : ℕ → String → List (String × Arg) → M FlowResult
  | 0, _, _ => Exec.fail .outOfFuel
  | fuel + 1, name, args => do
      let flow ← Exec.ofOption (.keyError s!"no flow {name}") (prog.flow? name)
      if flow.params.any (fun p ↦ (args.find? (·.1 = p)).isNone) ||
          args.any (fun a ↦ !flow.params.contains a.1) then
        Exec.fail (.keyError s!"flow {name}: missing or unexpected arguments")
      else do
        let env := flow.params.filterMap fun p ↦
          (args.find? (·.1 = p)).map fun a ↦ (p, a.2.toVal p)
        let ledger ← ledgerFor prog flow.budget
        pushLedger ledger
        let t₀ ← readClock host
        let (miss, emitted) ← block fuel flow.body env []
        let (own, up) ← popLedger
        let ledger := own.getD ledger
        let seconds ← flowSeconds host t₀ ledger
        pure ⟨name, emitted, miss, seconds, ledger.summary up⟩

end

/-- The host calls a flow, with no parent ledger. -/
def St.enter (s : St) (flow : String) : St :=
  { s with ledgers := [], log := s.log ++ [.called flow] }

/-- Flows run one after the other on one interpreter, each with its bound on
the recursion. -/
def session (runs : List (ℕ × String × List (String × Arg))) : St :=
  runs.foldl (fun s r ↦ (runFlow host prog r.1 r.2.1 r.2.2 (s.enter r.2.1)).2) St.init

end Machine

end NucLlm.Errand
