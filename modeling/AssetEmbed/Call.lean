import AssetEmbed.Diagnostic

/-!
# Calls — invocations of the marker

A module asks for embedded files by calling a marker function.  The argument of a call is a literal, a
variable, or an object of options; a literal or a variable may be followed by an object of options.
-/

namespace AssetEmbed

/-! ## 1. Calls -/

/-- The options that a call can set. -/
inductive OptionKey where
  | basePath
  | pattern
  | encoding
  deriving DecidableEq, Repr

/-- The name of an option in an object of options. -/
def OptionKey.name : OptionKey → String
  | .basePath => "basePath"
  | .pattern => "include"
  | .encoding => "encoding"

/-- The option of a name. -/
def OptionKey.ofName? (name : Text) : Option OptionKey :=
  [OptionKey.basePath, .pattern, .encoding].find? fun key => key.name.toList = name

/-- An option that a call sets. -/
structure CallOption where
  key : OptionKey
  value : Option Text
  kind : String
  location : Location
  deriving DecidableEq, Repr

/-- The first argument of a call. -/
inductive Argument where
  | literal (value : Text)
  | variable (name : Text) (location : Location)
  | options (options : List CallOption)
  deriving DecidableEq, Repr

/-- A call of the marker. -/
structure MarkerCall where
  start : Nat
  stop : Nat
  start_le_stop : start ≤ stop
  argument : Argument
  location : Location
  options : List CallOption
  deriving DecidableEq, Repr

/-! ## 2. Problems -/

/-- What can be wrong with a call. -/
inductive CallProblem where
  /-- The arguments have none of the known shapes. -/
  | arguments
  | secondArgument (kind : String)
  | option (key : OptionKey) (kind : String)
  | noPatternOrBase
  | noPattern
  | unbound (name : Text)
  | emptyTarget
  deriving DecidableEq, Repr

def CallProblem.message (marker : Text) : CallProblem → String
  | .arguments =>
    s!"{marker.toString} requires a path/pattern string/variable or an options object as the " ++
      "first argument."
  | .secondArgument kind =>
    s!"Second argument of {marker.toString} must be an options object literal. Found type: {kind}"
  | .option key kind =>
    s!"Option \"{key.name}\" for {marker.toString} must be a string literal. Found type: {kind}"
  | .noPatternOrBase =>
    s!"{marker.toString} called with only an options object requires at least 'include' or " ++
      "'basePath' for a pattern."
  | .noPattern =>
    s!"{marker.toString} called with only an options object requires an explicit 'include' pattern."
  | .unbound name =>
    s!"Unable to resolve variable \"{name.toString}\" for {marker.toString} path/pattern. " ++
      "Only simple string literal assignments are supported."
  | .emptyTarget => s!"Invalid or unresolved path/pattern argument for {marker.toString}."

def CallProblem.warning (marker : Text) (location : Location) (p : CallProblem) : Diagnostic :=
  .warningAt location (p.message marker)

end AssetEmbed
