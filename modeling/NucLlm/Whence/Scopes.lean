import NucLlm.Lib.Lists
import NucLlm.Whence.Ast

/-!
# What the parser knows of names

The scope stacks of the parser, innermost frame first, and the effect checks
that read them.  All alias stacks are pushed and popped together, so the frame
of a function's parameters is known by its distance from the bottom.
-/

namespace NucLlm.Whence

/-- A Python dict of names; the last assignment of a key is found first. -/
abbrev Dict (α : Type) := List (String × α)

namespace Dict

variable {α : Type}

def get? (d : Dict α) (key : String) : Option α := (d.find? (·.1 = key)).map Prod.snd

def has (d : Dict α) (key : String) : Bool := (d.get? key).isSome

/-- `dict.fromkeys(keys)`. -/
def fromkeys (keys : List String) : Dict (Option α) := keys.map fun key ↦ (key, none)

end Dict

section Stacks

variable {α : Type}

/-- The value of the innermost frame that has the name. -/
def resolve (scopes : List (Dict α)) (name : String) : Option α :=
  scopes.findSome? fun d ↦ d.get? name

/-- `scopes[-1][name] = v`. -/
def assign (scopes : List (Dict α)) (name : String) (v : α) : List (Dict α) :=
  scopes.modifyHead fun d ↦ (name, v) :: d

end Stacks

/-- `PRIMITIVE_TYPES`. -/
def primitiveTypes : List String :=
  ["num", "str", "bool", "list", "record", "fn", "guess", "any"]

/-- `_EFFECTFUL_BUILTINS`. -/
def effectfulBuiltins : Dict String := [("print", "io"), ("rand", "random")]

/-- A function whose tail is one of its parameters: the parameters and the tail. -/
abbrev ReturnParamFact := List String × String

structure Scopes where
  shapeScopes : List (Dict ℕ) := []
  shapesSeen : List String := []
  effectsStack : List (Option (List String)) := []
  aliasScopes : List (Dict (Option String)) := []
  returnAliasScopes : List (Dict (Option String)) := []
  fieldAliasScopes : List (Dict (Option (Dict (Option String)))) := []
  fieldReturnAliasScopes : List (Dict (Option (Dict (Option String)))) := []
  nestedFieldAliasScopes : List (Dict (Option (Dict (Dict (Option String))))) := []
  paramCallScopes : List (Dict (Option ParamCallFact)) := []
  currentFnParamsFrames : List ℕ := []
  directParamCallsStack : List (List String) := []
  paramAliasScopes : List (Dict (Option String)) := []
  returnParamScopes : List (Dict (Option ReturnParamFact)) := []

namespace Scopes

/-! ## Pushing and popping -/

/-- The frames of a block. -/
def pushBlock (sc : Scopes) : Scopes :=
  { sc with
    shapeScopes := [] :: sc.shapeScopes
    aliasScopes := [] :: sc.aliasScopes
    returnAliasScopes := [] :: sc.returnAliasScopes
    fieldAliasScopes := [] :: sc.fieldAliasScopes
    fieldReturnAliasScopes := [] :: sc.fieldReturnAliasScopes
    nestedFieldAliasScopes := [] :: sc.nestedFieldAliasScopes
    paramCallScopes := [] :: sc.paramCallScopes
    paramAliasScopes := [] :: sc.paramAliasScopes
    returnParamScopes := [] :: sc.returnParamScopes }

def popBlock (sc : Scopes) : Scopes :=
  { sc with
    shapeScopes := sc.shapeScopes.tail
    aliasScopes := sc.aliasScopes.tail
    returnAliasScopes := sc.returnAliasScopes.tail
    fieldAliasScopes := sc.fieldAliasScopes.tail
    fieldReturnAliasScopes := sc.fieldReturnAliasScopes.tail
    nestedFieldAliasScopes := sc.nestedFieldAliasScopes.tail
    paramCallScopes := sc.paramCallScopes.tail
    paramAliasScopes := sc.paramAliasScopes.tail
    returnParamScopes := sc.returnParamScopes.tail }

/-- `_resolve_effects_scope`: a function without a clause inherits. -/
def resolveEffectsScope (sc : Scopes) (ownSpec : Option (List String)) : Option (List String) :=
  match ownSpec with
  | some spec => some spec
  | none => sc.effectsStack.head?.join

/-- The frames of a function with these parameters. -/
def pushFn (sc : Scopes) (ownEffects : Option (List String)) (params : List String) : Scopes :=
  { sc with
    effectsStack := ownEffects :: sc.effectsStack
    currentFnParamsFrames := sc.aliasScopes.length :: sc.currentFnParamsFrames
    aliasScopes := Dict.fromkeys params :: sc.aliasScopes
    returnAliasScopes := Dict.fromkeys params :: sc.returnAliasScopes
    fieldAliasScopes := Dict.fromkeys params :: sc.fieldAliasScopes
    fieldReturnAliasScopes := Dict.fromkeys params :: sc.fieldReturnAliasScopes
    nestedFieldAliasScopes := Dict.fromkeys params :: sc.nestedFieldAliasScopes
    paramCallScopes := Dict.fromkeys params :: sc.paramCallScopes
    paramAliasScopes := [] :: sc.paramAliasScopes
    returnParamScopes := Dict.fromkeys params :: sc.returnParamScopes
    directParamCallsStack := [] :: sc.directParamCallsStack }

def popFn (sc : Scopes) : Scopes :=
  { sc with
    effectsStack := sc.effectsStack.tail
    currentFnParamsFrames := sc.currentFnParamsFrames.tail
    aliasScopes := sc.aliasScopes.tail
    returnAliasScopes := sc.returnAliasScopes.tail
    fieldAliasScopes := sc.fieldAliasScopes.tail
    fieldReturnAliasScopes := sc.fieldReturnAliasScopes.tail
    nestedFieldAliasScopes := sc.nestedFieldAliasScopes.tail
    paramCallScopes := sc.paramCallScopes.tail
    paramAliasScopes := sc.paramAliasScopes.tail
    returnParamScopes := sc.returnParamScopes.tail
    directParamCallsStack := sc.directParamCallsStack.tail }

/-! ## Resolving -/

def shapeInScope (sc : Scopes) (name : String) : Bool := (resolve sc.shapeScopes name).isSome

def resolveEffectfulAlias (sc : Scopes) (name : String) : Option String :=
  match resolve sc.aliasScopes name with
  | some tag => tag
  | none => effectfulBuiltins.get? name

def resolveEffectfulReturn (sc : Scopes) (name : String) : Option String :=
  (resolve sc.returnAliasScopes name).join

def resolveReturnParamFact (sc : Scopes) (name : String) : Option ReturnParamFact :=
  (resolve sc.returnParamScopes name).join

def resolveReturnParamPassthrough (sc : Scopes) (fnName : String) (args : List Expr) :
    Option String :=
  match sc.resolveReturnParamFact fnName with
  | none => none
  | some (params, tailParamName) =>
      match params.findIdx? (· = tailParamName) with
      | none => none
      | some idx =>
          match args[idx]? with
          | some (.nameRef _ name) => sc.resolveEffectfulAlias name
          | _ => none

def resolveEffectfulField (sc : Scopes) (name field : String) : Option String :=
  ((resolve sc.fieldAliasScopes name).join.bind fun fields ↦ fields.get? field).join

def resolveEffectfulFieldReturn (sc : Scopes) (name field : String) : Option String :=
  ((resolve sc.fieldReturnAliasScopes name).join.bind fun fields ↦ fields.get? field).join

def resolveEffectfulFieldNested (sc : Scopes) (name outerField innerField : String) :
    Option String :=
  (((resolve sc.nestedFieldAliasScopes name).join.bind fun outer ↦ outer.get? outerField).bind
    fun inner ↦ inner.get? innerField).join

def resolveParamCallFact (sc : Scopes) (name : String) : Option ParamCallFact :=
  (resolve sc.paramCallScopes name).join

/-- `_innermost_frame_containing`: the frame, as its index from the bottom. -/
def innermostFrameContaining (sc : Scopes) (name : String) : Option ℕ :=
  (sc.aliasScopes.findIdx? fun d ↦ d.has name).map fun i ↦ sc.aliasScopes.length - 1 - i

def resolveParamAlias (sc : Scopes) (name : String) : Option String :=
  match sc.currentFnParamsFrames.head? with
  | none => none
  | some boundary =>
      (resolve (sc.paramAliasScopes.take (sc.paramAliasScopes.length - boundary)) name).join

def resolveCurrentFnParam (sc : Scopes) (name : String) : Option String :=
  match sc.currentFnParamsFrames.head? with
  | none => none
  | some frame =>
      if sc.innermostFrameContaining name = some frame then some name
      else sc.resolveParamAlias name

/-! ## Recording -/

/-- All alias facts of a name are forgotten. -/
def forget (sc : Scopes) (name : String) : Scopes :=
  { sc with
    aliasScopes := assign sc.aliasScopes name none
    returnAliasScopes := assign sc.returnAliasScopes name none
    fieldAliasScopes := assign sc.fieldAliasScopes name none
    fieldReturnAliasScopes := assign sc.fieldReturnAliasScopes name none
    nestedFieldAliasScopes := assign sc.nestedFieldAliasScopes name none
    paramCallScopes := assign sc.paramCallScopes name none
    paramAliasScopes := assign sc.paramAliasScopes name none
    returnParamScopes := assign sc.returnParamScopes name none }

/-- A `let` of another name: the facts of that name carry over. -/
def recordRename (sc : Scopes) (name other : String) : Scopes :=
  let sc := { sc with aliasScopes := assign sc.aliasScopes name (sc.resolveEffectfulAlias other) }
  let sc := { sc with
    returnAliasScopes := assign sc.returnAliasScopes name (sc.resolveEffectfulReturn other)
    fieldAliasScopes := assign sc.fieldAliasScopes name none
    fieldReturnAliasScopes := assign sc.fieldReturnAliasScopes name none
    nestedFieldAliasScopes := assign sc.nestedFieldAliasScopes name none
    paramCallScopes := assign sc.paramCallScopes name (sc.resolveParamCallFact other) }
  let ownFrame := sc.currentFnParamsFrames.head?.isSome &&
    sc.innermostFrameContaining other = sc.currentFnParamsFrames.head?
  let alias_ := if ownFrame then some other else sc.resolveParamAlias other
  { sc with
    paramAliasScopes := assign sc.paramAliasScopes name alias_
    returnParamScopes := assign sc.returnParamScopes name (sc.resolveReturnParamFact other) }

/-- The names a record literal's fields hold directly, under `f`. -/
def nameFields (f : String → Option String) (pairs : List (String × Expr)) :
    Dict (Option String) :=
  pairs.filterMap fun p ↦ match p.2 with
    | .nameRef _ name => some (p.1, f name)
    | _ => none

/-- What a `let` records of the name it binds. -/
def recordLet (sc : Scopes) (name : String) (expr : Expr) : Scopes :=
  match expr with
  | .nameRef _ other => sc.recordRename name other
  | .call _ (.nameRef _ fn) args _ =>
      let tag := (sc.resolveEffectfulReturn fn).or (sc.resolveReturnParamPassthrough fn args)
      let sc := sc.forget name
      { sc with aliasScopes := assign sc.aliasScopes name tag }
  | .fnExpr _ params (.mk _ _ tailAliasTag tailParamName) _ paramCallFact _ =>
      let sc := sc.forget name
      { sc with
        returnAliasScopes := assign sc.returnAliasScopes name tailAliasTag
        paramCallScopes := assign sc.paramCallScopes name paramCallFact
        returnParamScopes := assign sc.returnParamScopes name
          (tailParamName.map fun tail ↦ (params, tail)) }
  | .recordLit _ pairs =>
      let sc := { sc with
        aliasScopes := assign sc.aliasScopes name none
        returnAliasScopes := assign sc.returnAliasScopes name none }
      let fields := nameFields sc.resolveEffectfulAlias pairs
      let returns := nameFields sc.resolveEffectfulReturn pairs
      let nested : Dict (Dict (Option String)) := pairs.filterMap fun p ↦ match p.2 with
        | .recordLit _ inner => some (p.1, nameFields sc.resolveEffectfulAlias inner)
        | _ => none
      { sc with
        fieldAliasScopes := assign sc.fieldAliasScopes name (some fields)
        fieldReturnAliasScopes := assign sc.fieldReturnAliasScopes name (some returns)
        nestedFieldAliasScopes := assign sc.nestedFieldAliasScopes name (some nested)
        paramCallScopes := assign sc.paramCallScopes name none
        paramAliasScopes := assign sc.paramAliasScopes name none
        returnParamScopes := assign sc.returnParamScopes name none }
  | _ => sc.forget name

/-- `param_call_fact`: there is one when the body calls a parameter. -/
def paramCallFact (ownEffects : Option (List String)) (params called : List String) :
    Option ParamCallFact :=
  if called.isEmpty then none else some ⟨ownEffects, params, called⟩

/-- What a `fn` statement records once its body is known. -/
def recordFn (sc : Scopes) (name : String) (params : List String) (body : Block)
    (fact : Option ParamCallFact) : Scopes :=
  match body with
  | .mk _ _ tailAliasTag tailParamName =>
      { sc with
        returnAliasScopes := assign sc.returnAliasScopes name tailAliasTag
        paramCallScopes := assign sc.paramCallScopes name fact
        returnParamScopes := assign sc.returnParamScopes name
          (tailParamName.map fun tail ↦ (params, tail)) }

/-- `direct_param_calls_stack[-1].add(param)`. -/
def addDirectParamCall (sc : Scopes) (param : String) : Scopes :=
  { sc with
    directParamCallsStack := sc.directParamCallsStack.modifyHead fun called ↦
      if called.contains param then called else called ++ [param] }

def declareShape (sc : Scopes) (name : String) (line : ℕ) : Scopes :=
  { sc with
    shapeScopes := assign sc.shapeScopes name line
    shapesSeen := name :: sc.shapesSeen }

/-! ## The tail of a block -/

/-- `_if_tail_alias_tag`: both branches end in the same tag. -/
def ifTailAliasTag : Expr → Option String
  | .ifExpr _ _ (.mk _ _ thenTag _) otherwise =>
      let elseTag := match otherwise with
        | .block (.mk _ _ tag _) => tag
        | e => ifTailAliasTag e
      if thenTag.isSome && thenTag = elseTag then thenTag else none
  | _ => none

/-- The effect tag and the parameter a block's last statement stands for. -/
def tailFacts (sc : Scopes) (stmts : List Stmt) : Option String × Option String :=
  match stmts.getLast? with
  | some (.exprStmt _ (.nameRef _ name)) =>
      (sc.resolveEffectfulAlias name, sc.resolveCurrentFnParam name)
  | some (.exprStmt _ e) => (ifTailAliasTag e, none)
  | _ => (none, none)

/-! ## Effect checks -/

def declaredEffects (scope : List String) : String :=
  if scope.isEmpty then "effects [] (no effects declared)"
  else
    let names := ", ".intercalate (Lists.sortedSet scope)
    s!"effects [{names}]"

/-- The tag a callee stands for and how the message displays it. -/
def calleeEffect (sc : Scopes) : Expr → Option String × String
  | .nameRef _ name => (sc.resolveEffectfulAlias name, name)
  | .call _ (.nameRef _ fn) args _ =>
      ((sc.resolveEffectfulReturn fn).or (sc.resolveReturnParamPassthrough fn args), s!"{fn}()")
  | .call _ (.fieldAccess _ (.nameRef _ obj) name) _ _ =>
      (sc.resolveEffectfulFieldReturn obj name, s!"{obj}.{name}()")
  | .fieldAccess _ (.nameRef _ obj) name => (sc.resolveEffectfulField obj name, s!"{obj}.{name}")
  | .fieldAccess _ (.fieldAccess _ (.nameRef _ obj) outer) name =>
      (sc.resolveEffectfulFieldNested obj outer name, s!"{obj}.{outer}.{name}")
  | _ => (none, "")

/-- The parameter of the current function that a call calls directly. -/
def noteDirectCall (sc : Scopes) : Expr → Scopes
  | .nameRef _ name =>
      match sc.resolveCurrentFnParam name with
      | some param => sc.addDirectParamCall param
      | none => sc
  | _ => sc

/-- `_check_effect_call`: the message, when the effect is not permitted. -/
def checkEffectCall (sc : Scopes) (callee : Expr) : Option String :=
  match sc.calleeEffect callee, sc.effectsStack.head?.join with
  | (some tag, display), some scope =>
      if scope.contains tag then none
      else some <| s!"'{display}' requires effect '{tag}', not permitted by the enclosing " ++
        s!"function's '{declaredEffects scope}'"
  | _, _ => none

/-- The parameters that a call hands a name, with that name. -/
def handedNames (fact : ParamCallFact) (args : List Expr) : List (String × String) :=
  (fact.params.zip args).filterMap fun p ↦
    if fact.called.contains p.1 then
      match p.2 with
      | .nameRef _ name => some (p.1, name)
      | _ => none
    else none

/-- `_check_call_site_param_effects`. -/
def checkCallSiteParamEffects (sc : Scopes) (callee : Expr) (args : List Expr) : Option String :=
  match callee with
  | .nameRef _ fn =>
      match sc.resolveParamCallFact fn with
      | none => none
      | some fact =>
          match fact.scope with
          | none => none
          | some scope =>
              (handedNames fact args).findSome? fun (param, arg) ↦
                match sc.resolveEffectfulAlias arg with
                | none => none
                | some tag =>
                    if scope.contains tag then none
                    else some <| s!"argument '{arg}' (effect '{tag}') passed to '{fn}' for " ++
                      s!"parameter '{param}', which '{fn}' calls directly, is not permitted by " ++
                      s!"'{fn}''s own '{declaredEffects scope}'"
  | _ => none

/-- `_check_param_forwarding`: a parameter handed on counts as called. -/
def noteParamForwarding (sc : Scopes) (callee : Expr) (args : List Expr) : Scopes :=
  match callee with
  | .nameRef _ fn =>
      match sc.resolveParamCallFact fn with
      | none => sc
      | some fact =>
          (handedNames fact args).foldl
            (fun sc p ↦ match sc.resolveCurrentFnParam p.2 with
              | some param => sc.addDirectParamCall param
              | none => sc) sc
  | _ => sc

end Scopes

end NucLlm.Whence
