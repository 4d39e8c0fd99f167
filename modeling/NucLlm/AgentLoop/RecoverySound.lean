import NucLlm.AgentLoop.Recovery

/-!
# What a recovered call may be

A recovered call names a tool of the registry, and `dispatch` lets it through to
the tool.  Its arguments have the declared types exactly if each of them has its
type already or is of a kind that the fitting converts: other texts and values
are kept as they are.
-/

namespace NucLlm.AgentLoop.Recovery

/-! ## Types of values -/

def SchemaType.holds : SchemaType → Value → Bool
  | .string, .str _ => true
  | .integer, .int _ => true
  | .number, .int _ | .number, .float _ => true
  | .boolean, .bool _ => true
  | .array, .list _ => true
  | .object, .dict _ => true
  | .null, .none => true
  | .unknown _, _ => true
  | _, _ => false

def Wanted.holds : Wanted → Value → Bool
  | .any, _ => true
  | .one t, v => t.holds v
  | .oneOf ts, v => ts.any fun t ↦ t.holds v

def Tool.wanted (tool : Tool) (k : Text) : Wanted := (tool.params.lookup k).getD .any

/-- The registry runs the call, its tool may run beside others, and each argument has its type. -/
structure Accepts (P : Python) (r : ToolRegistry) (c : Call) (tool : Tool) : Prop where
  registered : tool ∈ r.tools
  named : tool.name = c.name
  safe : tool.parallelSafe = true
  declared : ∀ k ∈ c.args.map Prod.fst, k ∈ tool.params.map Prod.fst
  required : ∀ k ∈ tool.required, k ∈ c.args.map Prod.fst
  typed : ∀ a ∈ c.args, (tool.wanted a.1).holds a.2 = true
  ran : dispatch P r c = .ran tool c.args

/-- The argument is turned away, or its conversion fails with an exception. -/
def Stops (P : Python) : Wanted → Value → Bool
  | .one .string, .list items => (P.dumps (.list items)).isNone
  | .one .string, .dict entries => (P.dumps (.dict entries)).isNone
  | .one .integer, .str s => isWhole P (strip s) && (P.int s).isNone
  | .one .integer, .bool _ => true
  | .one .number, .str s => (P.float s).isNone
  | _, _ => false

/-- The argument has its type, or is of a kind that is converted. -/
def Convertible (P : Python) : Wanted → Value → Bool
  | .one .string, _ => true
  | .one .integer, .str s => isWhole P (strip s)
  | .one .integer, .float (.finite q) => decide (q.den = 1)
  | .one .number, .str _ => true
  | .one .boolean, .str s => isBoolText s
  | w, v => w.holds v

variable {P : Python}

theorem fitValue_string (v : Value) :
    (∃ s, fitValue P (.one .string) v = .kept (.str s) ∧ Stops P (.one .string) v = false) ∨
      fitValue P (.one .string) v = .raises ∧ Stops P (.one .string) v = true := by
  cases v with
  | list items =>
      cases h : P.dumps (.list items) with
      | none => exact .inr ⟨by simp [fitValue, h], by simp [Stops, h]⟩
      | some s => exact .inl ⟨s, by simp [fitValue, h], by simp [Stops, h]⟩
  | dict entries =>
      cases h : P.dumps (.dict entries) with
      | none => exact .inr ⟨by simp [fitValue, h], by simp [Stops, h]⟩
      | some s => exact .inl ⟨s, by simp [fitValue, h], by simp [Stops, h]⟩
  | _ => exact .inl ⟨_, rfl, rfl⟩

theorem fitValue_integer (v : Value) :
    (∃ v', fitValue P (.one .integer) v = .kept v' ∧ Stops P (.one .integer) v = false ∧
      SchemaType.integer.holds v' = Convertible P (.one .integer) v) ∨
      (∀ v', fitValue P (.one .integer) v ≠ .kept v') ∧ Stops P (.one .integer) v = true := by
  cases v with
  | bool b => exact .inr ⟨fun v' ↦ by simp [fitValue], rfl⟩
  | str s =>
      cases hwhole : isWhole P (strip s) with
      | false =>
          refine .inl ⟨.str s, ?_, ?_, ?_⟩
          · simp [fitValue, hwhole]
          · simp [Stops, hwhole]
          · simp [Convertible, hwhole, SchemaType.holds]
      | true =>
          cases hint : P.int s with
          | none =>
              refine .inr ⟨fun v' ↦ ?_, ?_⟩
              · simp [fitValue, hwhole, hint]
              · simp [Stops, hwhole, hint]
          | some n =>
              refine .inl ⟨.int n, ?_, ?_, ?_⟩
              · simp [fitValue, hwhole, hint]
              · simp [Stops, hint]
              · simp [Convertible, hwhole, SchemaType.holds]
  | float x =>
      cases x with
      | finite q =>
          by_cases hq : q.den = 1
          · exact .inl ⟨.int q.num, by simp [fitValue, hq], rfl,
              by simp [Convertible, hq, SchemaType.holds]⟩
          · exact .inl ⟨.float (.finite q), by simp [fitValue, hq], rfl,
              by simp [Convertible, hq, SchemaType.holds]⟩
      | _ => exact .inl ⟨_, rfl, rfl, rfl⟩
  | _ => exact .inl ⟨_, rfl, rfl, rfl⟩

/-- An argument that is kept has its type exactly if it was convertible. -/
theorem fitValue_spec (w : Wanted) (v : Value) :
    (∃ v', fitValue P w v = .kept v' ∧ Stops P w v = false ∧ w.holds v' = Convertible P w v) ∨
      (∀ v', fitValue P w v ≠ .kept v') ∧ Stops P w v = true := by
  cases w with
  | any => exact .inl ⟨v, rfl, rfl, rfl⟩
  | oneOf ts => exact .inl ⟨v, rfl, rfl, rfl⟩
  | one t =>
      cases t with
      | string =>
          rcases fitValue_string (P := P) v with ⟨s, hfit, hstops⟩ | ⟨hfit, hstops⟩
          · exact .inl ⟨.str s, hfit, hstops, rfl⟩
          · exact .inr ⟨fun v' ↦ by simp [hfit], hstops⟩
      | integer => exact fitValue_integer v
      | number =>
          cases v with
          | str s =>
              cases h : P.float s with
              | none => exact .inr ⟨fun v' ↦ by simp [fitValue, h], by simp [Stops, h]⟩
              | some x => exact .inl ⟨.float x, by simp [fitValue, h], by simp [Stops, h], rfl⟩
          | _ => exact .inl ⟨_, rfl, rfl, rfl⟩
      | boolean =>
          cases v with
          | str s =>
              cases h : isBoolText s with
              | false =>
                  refine .inl ⟨.str s, by simp [fitValue, h], rfl, ?_⟩
                  simp [Convertible, h, Wanted.holds, SchemaType.holds]
              | true =>
                  refine .inl ⟨.bool (lower (strip s) = ['t', 'r', 'u', 'e']), ?_, rfl, ?_⟩
                  · simp [fitValue, h]
                  · simp [Convertible, h, Wanted.holds, SchemaType.holds]
          | _ => exact .inl ⟨_, rfl, rfl, rfl⟩
      | _ => exact .inl ⟨v, by cases v <;> rfl, by cases v <;> rfl, by cases v <;> rfl⟩

/-! ## The arguments together -/

theorem fitArgs_spec (tool : Tool) (args : Args) :
    (∃ fitted, fitArgs P tool.params args = some (some fitted) ∧
      (∀ a ∈ args, Stops P (tool.wanted a.1) a.2 = false) ∧
      fitted.map Prod.fst = args.map Prod.fst ∧
      ((∀ a ∈ fitted, (tool.wanted a.1).holds a.2 = true) ↔
        ∀ a ∈ args, Convertible P (tool.wanted a.1) a.2 = true)) ∨
      (∀ fitted, fitArgs P tool.params args ≠ some (some fitted)) ∧
        ∃ a ∈ args, Stops P (tool.wanted a.1) a.2 = true := by
  induction args with
  | nil => exact .inl ⟨[], rfl, by simp, rfl, by simp⟩
  | cons a args ih =>
      obtain ⟨k, v⟩ := a
      rcases fitValue_spec (P := P) (tool.wanted k) v with ⟨v', hfit, hgo, htype⟩ | ⟨hfit, hstop⟩
      · have hstep : fitArgs P tool.params ((k, v) :: args) = (do
            let fitted ← fitArgs P tool.params args
            pure (fitted.map fun args ↦ (k, v') :: args)) := by
          rw [fitArgs, show (tool.params.lookup k).getD .any = tool.wanted k from rfl, hfit]
        rcases ih with ⟨fitted, hargs, hgoes, hkeys, htypes⟩ | ⟨hargs, a, ha, hstop⟩
        · refine .inl ⟨(k, v') :: fitted, by rw [hstep, hargs]; rfl, ?_, ?_, ?_⟩
          · exact List.forall_mem_cons.mpr ⟨hgo, hgoes⟩
          · rw [List.map_cons, List.map_cons, hkeys]
          · rw [List.forall_mem_cons, List.forall_mem_cons, htypes, htype]
        · refine .inr ⟨fun fitted h ↦ ?_, a, List.mem_cons_of_mem _ ha, hstop⟩
          rw [hstep] at h
          obtain ⟨rest, hrest, h⟩ := Option.bind_eq_some_iff.mp h
          cases rest with
          | none => simp at h
          | some rest => exact hargs rest hrest
      · refine .inr ⟨fun fitted h ↦ ?_, (k, v), List.mem_cons_self, hstop⟩
        rw [fitArgs, show (tool.params.lookup k).getD .any = tool.wanted k from rfl] at h
        cases hv : fitValue P (tool.wanted k) v with
        | kept v' => exact hfit v' hv
        | refused => simp [hv] at h
        | raises => simp [hv] at h

/-- The keys of a call are those that the tool declares and requires. -/
def KeysFit (tool : Tool) (args : Args) : Prop :=
  (∀ k ∈ args.map Prod.fst, k ∈ tool.params.map Prod.fst) ∧
    ∀ k ∈ tool.required, k ∈ args.map Prod.fst

theorem fitSchema_eq (args : Args) (tool : Tool) (hkeys : KeysFit tool args) :
    fitSchema P args tool = fitArgs P tool.params args := by
  have hdeclared : ((args.map Prod.fst).all fun k ↦ k ∈ tool.params.map Prod.fst) = true := by
    simpa using hkeys.1
  have hrequired : (tool.required.all fun k ↦ k ∈ args.map Prod.fst) = true := by
    simpa using hkeys.2
  simp only [fitSchema, hdeclared, hrequired, Bool.not_true, Bool.false_eq_true, if_false]

theorem keysFit_of_fitSchema {args fitted : Args} {tool : Tool}
    (h : fitSchema P args tool = some (some fitted)) : KeysFit tool args := by
  unfold fitSchema at h
  dsimp only at h
  split at h
  · simp at h
  · split at h
    · simp at h
    · rename_i hdeclared hrequired
      exact ⟨by simpa using hdeclared, by simpa using hrequired⟩

/-! ## Registries -/

namespace ToolRegistry

theorem get_some {r : ToolRegistry} {name : Text} {tool : Tool} (h : r.get name = some tool) :
    tool ∈ r.tools ∧ tool.name = name := by
  unfold get at h
  exact ⟨List.mem_of_find?_eq_some h, by simpa using List.find?_some h⟩

theorem get_of_mem {r : ToolRegistry} {tool : Tool} (h : tool ∈ r.tools) :
    r.get tool.name = some tool := by
  cases hget : r.get tool.name with
  | none =>
      have hnone := List.find?_eq_none.mp hget tool h
      simp at hnone
  | some other =>
      obtain ⟨hother, hname⟩ := get_some hget
      rw [List.inj_on_of_nodup_map r.distinct hother h hname]

end ToolRegistry

theorem dispatch_ran (r : ToolRegistry) {c : Call} {tool : Tool} (hget : r.get c.name = some tool)
    (hkeys : KeysFit tool c.args) : dispatch P r c = .ran tool c.args := by
  have hmissing : (tool.required.filter fun k ↦ k ∉ c.args.map Prod.fst) = [] := by
    rw [List.filter_eq_nil_iff]
    intro k hk
    simpa using hkeys.2 k hk
  have hunexpected : ((c.args.map Prod.fst).filter fun k ↦ k ∉ tool.params.map Prod.fst) = [] := by
    rw [List.filter_eq_nil_iff]
    intro k hk
    simpa using hkeys.1 k hk
  unfold dispatch
  rw [hget]
  dsimp only
  rw [hmissing, hunexpected]
  simp

/-! ## The guard -/

/-- Every call that is proposed for the text is one that the registry accepts. -/
def Accepted (P : Python) (g : ProseToolCallGuard) (ctx : GuardContext) (text : Text) : Prop :=
  ∀ r, check P g ctx text = some (some r) → ∀ c ∈ r.calls, ∃ tool, Accepts P ctx.registry c tool

/-- Where a tool and arguments that fit its keys are detected, and nothing stops them, the tool is
safe and each argument is convertible. -/
def Sound (P : Python) (g : ProseToolCallGuard) (ctx : GuardContext) (text : Text) : Prop :=
  ∀ hit args, detect P ctx.registry.names text = some (some hit) → hit.args = some args →
    ∀ tool ∈ ctx.registry.tools, hit.name = some tool.name → g.recover = true →
      g.recoverUnsafe = true ∨ tool.parallelSafe = true → KeysFit tool args →
      (∀ a ∈ args, Stops P (tool.wanted a.1) a.2 = false) →
      tool.parallelSafe = true ∧ ∀ a ∈ args, Convertible P (tool.wanted a.1) a.2 = true

variable {g : ProseToolCallGuard} {ctx : GuardContext} {text : Text}

/-- What a proposed call comes from. -/
theorem recovered_cases {hit : Hit} {c : Call} (h : recovered P g ctx hit = some (some c)) :
    ∃ args tool, hit.args = some args ∧ tool ∈ ctx.registry.tools ∧ hit.name = some tool.name ∧
      g.recover = true ∧ (g.recoverUnsafe = true ∨ tool.parallelSafe = true) ∧
      c.name = tool.name ∧ fitSchema P args tool = some (some c.args) := by
  unfold recovered at h
  split at h
  · rename_i name args hname hargs
    split at h
    · rename_i tool hget
      obtain ⟨hmem, rfl⟩ := ToolRegistry.get_some hget
      split at h
      · rename_i hon
        obtain ⟨fitted, hfit, h⟩ := Option.bind_eq_some_iff.mp h
        cases fitted with
        | none => simp at h
        | some fitted =>
            simp only [Option.map_some, Option.pure_def, Option.some.injEq] at h
            subst h
            exact ⟨args, tool, hargs, hmem, hname, hon.1, hon.2, rfl, hfit⟩
      · simp at h
    · simp at h
  · simp at h

theorem recovered_of_fits {hit : Hit} {args fitted : Args} {tool : Tool}
    (hargs : hit.args = some args) (hmem : tool ∈ ctx.registry.tools)
    (hname : hit.name = some tool.name) (hrecover : g.recover = true)
    (hsafe : g.recoverUnsafe = true ∨ tool.parallelSafe = true)
    (hfit : fitSchema P args tool = some (some fitted)) :
    recovered P g ctx hit = some (some ⟨tool.name, fitted⟩) := by
  unfold recovered
  rw [hname, hargs]
  dsimp only
  rw [ToolRegistry.get_of_mem hmem]
  dsimp only
  rw [if_pos ⟨hrecover, hsafe⟩, hfit]
  rfl

theorem check_calls {r : Rejection} (h : check P g ctx text = some (some r)) :
    ∃ hit call, detect P ctx.registry.names text = some (some hit) ∧
      recovered P g ctx hit = some call ∧ r.calls = call.toList ∧ r.reason = hit.reason.text := by
  obtain ⟨found, hfound, h⟩ := Option.bind_eq_some_iff.mp h
  cases found with
  | none => simp at h
  | some hit =>
      obtain ⟨call, hcall, h⟩ := Option.bind_eq_some_iff.mp h
      cases call with
      | none =>
          simp only [Option.pure_def, Option.some.injEq] at h
          exact ⟨hit, none, hfound, hcall, by rw [← h]; rfl, by rw [← h]⟩
      | some c =>
          simp only [Option.pure_def, Option.some.injEq] at h
          exact ⟨hit, some c, hfound, hcall, by rw [← h]; rfl, by rw [← h]⟩

theorem check_of_recovered {hit : Hit} {c : Call}
    (hfound : detect P ctx.registry.names text = some (some hit))
    (hcall : recovered P g ctx hit = some (some c)) :
    ∃ r, check P g ctx text = some (some r) ∧ r.calls = [c] := by
  unfold check
  rw [hfound, Option.bind_eq_bind, Option.bind_some]
  dsimp only
  rw [hcall]
  exact ⟨_, rfl, rfl⟩

/-- The fitted arguments of a tool of the registry make an accepted call exactly if the tool is safe
and the arguments are convertible. -/
theorem accepts_iff {args fitted : Args} {tool : Tool} (hmem : tool ∈ ctx.registry.tools)
    (hfit : fitSchema P args tool = some (some fitted)) :
    (∃ other, Accepts P ctx.registry ⟨tool.name, fitted⟩ other) ↔
      tool.parallelSafe = true ∧ ∀ a ∈ args, Convertible P (tool.wanted a.1) a.2 = true := by
  have hkeys := keysFit_of_fitSchema hfit
  rw [fitSchema_eq args tool hkeys] at hfit
  have hspec := fitArgs_spec (P := P) tool args
  rcases hspec with ⟨fitted', hfit', -, hmap, htypes⟩ | ⟨hnone, -⟩
  · rw [hfit] at hfit'
    obtain rfl := Option.some.inj (Option.some.inj hfit')
    have hkeys' : KeysFit tool fitted := by
      unfold KeysFit
      rw [hmap]
      exact hkeys
    constructor
    · rintro ⟨other, hother⟩
      have hsame : other = tool := by
        have hget := ToolRegistry.get_of_mem hother.registered
        rw [hother.named, ToolRegistry.get_of_mem hmem] at hget
        exact (Option.some.inj hget).symm
      subst hsame
      exact ⟨hother.safe, htypes.mp hother.typed⟩
    · rintro ⟨hsafe, hconv⟩
      exact ⟨tool, hmem, rfl, hsafe, hkeys'.1, hkeys'.2, htypes.mpr hconv,
        dispatch_ran ctx.registry (c := ⟨tool.name, fitted⟩) (ToolRegistry.get_of_mem hmem) hkeys'⟩
  · exact absurd hfit (hnone fitted)

/-- What is proposed is accepted exactly where what is detected is sound. -/
theorem recovery_accepted_iff (P : Python) (g : ProseToolCallGuard) (ctx : GuardContext)
    (text : Text) : Accepted P g ctx text ↔ Sound P g ctx text := by
  constructor
  · intro h hit args hfound hargs tool hmem hname hrecover hsafe hkeys hgo
    rcases fitArgs_spec (P := P) tool args with ⟨fitted, hfit, -, -, -⟩ | ⟨-, a, ha, hstop⟩
    · rw [← fitSchema_eq args tool hkeys] at hfit
      have hcall := recovered_of_fits hargs hmem hname hrecover hsafe hfit
      obtain ⟨r, hr, hcalls⟩ := check_of_recovered hfound hcall
      exact (accepts_iff hmem hfit).mp (h r hr _ (by rw [hcalls]; exact List.mem_singleton_self _))
    · rw [hgo a ha] at hstop
      contradiction
  · intro h r hr c hc
    obtain ⟨hit, call, hfound, hcall, hcalls, -⟩ := check_calls hr
    rw [hcalls, Option.mem_toList] at hc
    obtain rfl := hc
    obtain ⟨args, tool, hargs, hmem, hname, hrecover, hsafe, hcname, hfit⟩ := recovered_cases hcall
    obtain ⟨name, fitted⟩ := c
    dsimp only at hcname hfit
    subst hcname
    have hkeys := keysFit_of_fitSchema hfit
    refine (accepts_iff hmem hfit).mpr
      (h hit args hfound hargs tool hmem hname hrecover hsafe hkeys ?_)
    rw [fitSchema_eq args tool hkeys] at hfit
    rcases fitArgs_spec (P := P) tool args with ⟨-, -, hgo, -, -⟩ | ⟨hnone, -⟩
    · exact hgo
    · exact absurd hfit (hnone fitted)

/-! ## A text in the place of a number -/

def readFile : Tool where
  name := ['r', 'e', 'a', 'd', '_', 'f', 'i', 'l', 'e']
  params := [(['p', 'a', 't', 'h'], .one .string), (['s', 't', 'a', 'r', 't'], .one .integer)]
  required := [['p', 'a', 't', 'h']]
  parallelSafe := true

/-- The arguments below are no literals. -/
def noLiterals : Python where
  literalEval _ := .invalid
  rawDecode _ := .invalid
  decimal c := '0' ≤ c && c ≤ '9'
  alnum := identChar
  int _ := none
  float _ := none
  str _ := []
  dumps _ := none
  repr := String.ofList

def readers : GuardContext where
  registry := ⟨[readFile], by simp⟩
  toolCallHint := none

/-- `read_file(path=a.py, start=abc)`. -/
def startAbc : Text :=
  readFile.name ++
    ['(', 'p', 'a', 't', 'h', '=', 'a', '.', 'p', 'y', ',', ' ', 's', 't', 'a', 'r', 't',
    '=', 'a', 'b', 'c', ')']

def startAbcCall : Call where
  name := readFile.name
  args := [(['p', 'a', 't', 'h'], .str ['a', '.', 'p', 'y']),
    (['s', 't', 'a', 'r', 't'], .str ['a', 'b', 'c'])]

set_option maxRecDepth 4000 in
theorem startAbc_proposed : ∃ r,
    check noLiterals ⟨true, false⟩ readers startAbc = some (some r) ∧ r.calls = [startAbcCall] := by
  have hfound : detect noLiterals readers.registry.names startAbc =
      some (some ⟨.pythonToolCall, some readFile.name, some startAbcCall.args⟩) := rfl
  exact check_of_recovered hfound rfl

/-- The text `abc` is proposed for an integer. -/
theorem text_for_integer : ¬ Accepted noLiterals ⟨true, false⟩ readers startAbc := by
  intro h
  obtain ⟨r, hr, hcalls⟩ := startAbc_proposed
  obtain ⟨tool, haccepts⟩ := h r hr startAbcCall (by rw [hcalls]; exact List.mem_singleton_self _)
  obtain rfl := List.mem_singleton.mp haccepts.registered
  have htyped := haccepts.typed (['s', 't', 'a', 'r', 't'], .str ['a', 'b', 'c'])
    (List.mem_cons_of_mem _ List.mem_cons_self)
  contradiction

end NucLlm.AgentLoop.Recovery
