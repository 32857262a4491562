import AssetEmbed.Call

/-!
# Resolution — what a call asks for

The options of a call override the defaults, the last value of each option counting; a variable stands for
the literal that the module binds it to.
-/

namespace AssetEmbed

/-- The variables of a module that are bound to string literals, with their values. -/
abbrev Bindings := List (Text × Text)

def Bindings.get? (bindings : Bindings) (name : Text) : Option Text :=
  (bindings.find? fun (n, _) => n = name).map (·.2)

structure OptionValues where
  /-- The directory from which files are looked for; empty if it follows from the module. -/
  basePath : Text
  pattern : Text
  encoding : Text
  deriving DecidableEq, Repr

/-- The pattern that stands for no pattern having been given. -/
def OptionValues.defaultPattern : Text := "**/*".toList

def OptionValues.default (encoding : Text) : OptionValues := ⟨[], OptionValues.defaultPattern, encoding⟩

def OptionValues.set (v : OptionValues) (key : OptionKey) (value : Text) : OptionValues :=
  match key with
  | .basePath => { v with basePath := value }
  | .pattern => { v with pattern := value }
  | .encoding => { v with encoding := value }

def OptionValues.apply (v : OptionValues) (options : List CallOption) : OptionValues :=
  options.foldl (fun v o => match o.value with
    | some value => v.set o.key value
    | none => v) v

def optionWarnings (marker : Text) (options : List CallOption) : List Diagnostic :=
  (options.filter (·.value.isNone)).map fun o =>
    CallProblem.warning marker o.location (.option o.key o.kind)

/-- What a call asks for. -/
structure ResolvedCall where
  target : Text
  options : OptionValues
  deriving DecidableEq, Repr

def ResolvedCall.ofTarget (target : Text) (options : OptionValues) : Except CallProblem ResolvedCall :=
  if target = [] then .error .emptyTarget else .ok ⟨target, options⟩

def ResolvedCall.ofOptions (options : OptionValues) : Except CallProblem ResolvedCall :=
  if options.pattern = OptionValues.defaultPattern then
    .error (if options.basePath = [] then .noPatternOrBase else .noPattern)
  else ResolvedCall.ofTarget options.pattern options

/-- What a call asks for, and the warnings on the way; of a call that asks for nothing, the last warning
says why. -/
def MarkerCall.resolve (marker encoding : Text) (bindings : Bindings) (call : MarkerCall) :
    Option ResolvedCall × List Diagnostic :=
  let finish (options : List CallOption) : Except CallProblem ResolvedCall →
      Option ResolvedCall × List Diagnostic
    | .ok resolved => (some resolved, optionWarnings marker options)
    | .error p => (none, optionWarnings marker options ++ [p.warning marker call.location])
  let values := (OptionValues.default encoding).apply call.options
  match call.argument with
  | .options options =>
    finish options (ResolvedCall.ofOptions ((OptionValues.default encoding).apply options))
  | .literal target => finish call.options (ResolvedCall.ofTarget target values)
  | .variable name location =>
    match bindings.get? name with
    | some target => finish call.options (ResolvedCall.ofTarget target values)
    | none => (none, [CallProblem.warning marker location (.unbound name)])

end AssetEmbed
