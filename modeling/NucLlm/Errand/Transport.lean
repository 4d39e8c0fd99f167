import NucLlm.Errand.Interp
import NucLlm.Errand.Parser

/-!
# The HTTP transport

What `HTTPTransport.send` makes of the answer of a server.  Where a body lacks
what is looked up, the error is one of the transport's own; where it has a string
or a list in place of an object, asking it for a field raises an `AttributeError`
that nothing catches.
-/

namespace NucLlm.Errand

namespace Json

/-- `bool(value)`. -/
def truthy : Json → Bool
  | null => false
  | bool b => b
  | int n => n ≠ 0
  | num q => q ≠ 0
  | str s => s ≠ ""
  | arr xs => !xs.isEmpty
  | obj fields => !fields.isEmpty

def isObj : Json → Bool
  | obj _ => true
  | _ => false

/-- The field of an object, if it is there. -/
def field? (key : String) : Json → Option Json
  | obj fields => (fields.find? (·.1 = key)).map Prod.snd
  | _ => none

end Json

/-- Why a body is no reply: an error that `send` makes its own, or the `AttributeError` that it
does not catch. -/
inductive BadBody where
  | caught (msg : String)
  | attributeError

/-- `value.get(key)`. -/
def getField (key : String) (value : Json) : Except BadBody (Option Json) :=
  if value.isObj then .ok (value.field? key) else .error .attributeError

/-- `data["choices"][0]`. -/
def firstChoice (data : Json) : Except BadBody Json :=
  if data.isObj then
    match data.field? "choices" with
    | none => .error (.caught "'choices'")
    | some (.arr (choice :: _)) => .ok choice
    | some (.arr []) => .error (.caught "list index out of range")
    | some (.str s) =>
        match s.toList with
        | [] => .error (.caught "string index out of range")
        | c :: _ => .ok (.str (String.singleton c))
    | some (.obj _) => .error (.caught "0")
    | some _ => .error (.caught "object is not subscriptable")
  else .error (.caught "'choices' is no index")

/-- `choice.get("message", {})`. -/
def messageOf (choice : Json) : Json := (choice.field? "message").getD (.obj [])

/-- `data.get("usage") or {}`. -/
def usageOf (data : Json) : Json :=
  match data.field? "usage" with
  | none => .obj []
  | some usage => if usage.truthy then usage else .obj []

/-- `choice.get("message", {}).get("content")`, or else `choice.get("text", "")`. -/
def textOf (choice : Json) : Except BadBody Json := do
  let _ ← getField "message" choice
  let content ← getField "content" (messageOf choice)
  match content with
  | none | some .null => pure ((choice.field? "text").getD (.str ""))
  | some text => pure text

/-- The text of a body and its two counts. -/
def readBody (data : Json) : Except BadBody (Json × Json × Json) := do
  let choice ← firstChoice data
  let text ← textOf choice
  let promptTokens ← getField "prompt_tokens" (usageOf data)
  let completionTokens ← getField "completion_tokens" (usageOf data)
  pure (if text.truthy then text else .str "", promptTokens.getD .null, completionTokens.getD .null)

/-- A count as `Reply` declares it: an integer, or nothing. -/
def countOf : Json → Option (Option ℤ)
  | .null => some none
  | .int n => some (some n)
  | _ => none

/-- `Reply(...)`.  What becomes of a text or a count of another type is not followed: it counts as
a crash. -/
def replyOf (text promptTokens completionTokens : Json) (status : ℤ) : SendResult :=
  match text, countOf promptTokens, countOf completionTokens with
  | .str text, some tin, some tout => .reply ⟨text, tin, tout, status, false⟩
  | _, _, _ => .crash "TypeError"

/-- What the opener does with a request: a response, one of the errors that `send` catches, or
another. -/
inductive Opened where
  | response (raw : String) (status : ℤ)
  | httpError (code : ℤ) (detail : String)
  | osError (msg : String)
  | raised (msg : String)

def retryableStatus (status : ℤ) : Bool := status = 408 || status = 429 || 500 ≤ status

/-- `HTTPTransport`, over `urlparse`, the opener and `json.loads`. -/
structure HTTPTransport where
  port : String → Except String ℕ
  opener : ℕ → Lane → Request → ℚ → Opened
  loads : String → Loaded

namespace HTTPTransport

variable (http : HTTPTransport)

def read (raw : String) (status : ℤ) : SendResult :=
  match http.loads raw with
  | .valueError msg => .transportError s!"bad response body: {msg}" (some status) false
  | .raised msg => .crash msg
  | .parsed data =>
      match readBody data with
      | .error (.caught msg) => .transportError s!"bad response body: {msg}" (some status) false
      | .error .attributeError => .crash "AttributeError"
      | .ok (text, promptTokens, completionTokens) =>
          replyOf text promptTokens completionTokens status

def send (k : ℕ) (lane : Lane) (request : Request) (timeout : ℚ) : SendResult :=
  match http.port lane.url with
  | .error msg => .crash msg
  | .ok port =>
      if Source.forbiddenPorts.contains port then
        .transportError s!"refusing to send to forbidden port {port}" none false
      else match http.opener k lane request (max 1 timeout) with
        | .httpError code detail =>
            .transportError s!"HTTP {code}: {detail}" (some code) (retryableStatus code)
        | .osError msg => .transportError s!"transport: {msg}" none true
        | .raised msg => .crash msg
        | .response raw status => http.read raw status

end HTTPTransport

/-! ## Bodies that are read -/

/-- Whether asking the body for a field may raise: something that is no object stands for its first
choice, for the message of that or for the usage. -/
def Stumbles (data : Json) : Prop :=
  ∃ choice, firstChoice data = .ok choice ∧
    (choice.isObj = false ∨ (messageOf choice).isObj = false ∨ (usageOf data).isObj = false)

theorem firstChoice_caught {data : Json} {e : BadBody} (h : firstChoice data = .error e) :
    e ≠ .attributeError := by
  unfold firstChoice at h
  repeat' split at h
  all_goals cases h
  all_goals exact nofun

theorem textOf_of_obj {choice : Json} (hchoice : choice.isObj = true)
    (hmessage : (messageOf choice).isObj = true) : ∃ text, textOf choice = .ok text := by
  unfold textOf getField
  rw [if_pos hchoice, if_pos hmessage]
  dsimp only [Bind.bind, Except.bind]
  split <;> exact ⟨_, rfl⟩

theorem textOf_of_not_obj {choice : Json}
    (h : choice.isObj = false ∨ (messageOf choice).isObj = false) :
    textOf choice = .error .attributeError := by
  unfold textOf getField
  cases hchoice : choice.isObj with
  | false => rfl
  | true =>
      have hmessage : (messageOf choice).isObj = false := by simpa [hchoice] using h
      rw [hmessage]
      rfl

/-- The `AttributeError` is raised by exactly the bodies on which `send` stumbles. -/
theorem readBody_error_iff {data : Json} :
    readBody data = .error .attributeError ↔ Stumbles data := by
  unfold readBody Stumbles
  cases hfirst : firstChoice data with
  | error e =>
      have hne := firstChoice_caught hfirst
      simpa [Bind.bind, Except.bind] using hne
  | ok choice =>
      by_cases h : choice.isObj = false ∨ (messageOf choice).isObj = false
      · have htext := textOf_of_not_obj h
        constructor
        · intro _
          exact ⟨choice, rfl, or_assoc.mp (.inl h)⟩
        · intro _
          simp [Bind.bind, Except.bind, htext]
      · rw [not_or, Bool.not_eq_false, Bool.not_eq_false] at h
        obtain ⟨text, htext⟩ := textOf_of_obj h.1 h.2
        cases husage : (usageOf data).isObj with
        | false => simp [Bind.bind, Except.bind, htext, getField, husage]
        | true => simp [Bind.bind, Except.bind, htext, getField, husage, h.1, h.2, Pure.pure,
            Except.pure]

/-- What the counts and the text of a body may be. -/
def Typed (data : Json) : Prop :=
  ∀ text promptTokens completionTokens,
    readBody data = .ok (text, promptTokens, completionTokens) →
      (∃ s, text = .str s) ∧ (countOf promptTokens).isSome ∧ (countOf completionTokens).isSome

/-- The URL has a port, the opener and `json.loads` raise nothing that `send` does not catch, and
the bodies that come are of the shape that it reads. -/
structure HTTPTransport.Served (http : HTTPTransport) : Prop where
  port : ∀ url, ∃ port, http.port url = .ok port
  opener : ∀ k lane request timeout msg, http.opener k lane request timeout ≠ .raised msg
  loads : ∀ raw msg, http.loads raw ≠ .raised msg
  body : ∀ k lane request timeout raw status data,
    http.opener k lane request timeout = .response raw status → http.loads raw = .parsed data →
      ¬ Stumbles data ∧ Typed data

/-- A transport that is served gives a reply or raises a `TransportError`. -/
theorem HTTPTransport.Served.answers {http : HTTPTransport} (h : http.Served) (k : ℕ)
    (lane : Lane) (request : Request) (timeout : ℚ) (msg : String) :
    http.send k lane request timeout ≠ .crash msg := by
  obtain ⟨port, hport⟩ := h.port lane.url
  unfold send
  rw [hport]
  dsimp only
  split
  · exact nofun
  · split
    · exact nofun
    · exact nofun
    · rename_i msg' hraised
      exact absurd hraised (h.opener _ _ _ _ _)
    · rename_i raw status hresponse
      unfold read
      split
      · exact nofun
      · rename_i msg' hraised
        exact absurd hraised (h.loads _ _)
      · rename_i data hdata
        obtain ⟨hshape, htyped⟩ := h.body _ _ _ _ raw status data hresponse hdata
        split
        · exact nofun
        · rename_i hbody
          exact absurd (readBody_error_iff.mp hbody) hshape
        · rename_i text tin tout hbody
          obtain ⟨⟨s, rfl⟩, htin, htout⟩ := htyped text tin tout hbody
          obtain ⟨n, hn⟩ := Option.isSome_iff_exists.mp htin
          obtain ⟨m, hm⟩ := Option.isSome_iff_exists.mp htout
          unfold replyOf
          rw [hn, hm]
          exact nofun

end NucLlm.Errand
