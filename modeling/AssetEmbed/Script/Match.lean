import AssetEmbed.Call
import AssetEmbed.Script.Position
import AssetEmbed.Script.Value

/-!
# Marker calls — the calls of a script that ask for files

Every call whose callee is the marker as a plain name is a marker call; it is understood, or there is one
warning about it.
-/

namespace AssetEmbed.Script

/-- A module as it is searched for marker calls. -/
structure Source where
  moduleId : Text
  text : Text
  marker : Text

namespace Source

def location (m : Source) (p : Tree.Placed) : Location := locate m.moduleId m.text p.offset

/-! ## 1. Options -/

/-- The name of a property that is a word or a quoted literal. -/
def keyText? : Tree → Option Text
  | .leaf .propertyIdentifier text => some text
  | .leaf .string raw => literalValue? raw
  | _ => none

/-- The option that an entry of an object sets.  Spreads, methods, computed names and other properties set
none; a property without a value of its own has no literal value. -/
def callOption? (m : Source) (p : Tree.Placed) : Option CallOption :=
  match p.tree with
  | .leaf .shorthandPropertyIdentifier text =>
    (OptionKey.ofName? text).map fun key => ⟨key, none, Kind.identifier.name, m.location p⟩
  | .node .pair _ => do
    let first ← p.parts.head?
    let last ← p.parts.getLast?
    let text ← keyText? first.tree
    let key ← OptionKey.ofName? text
    let value := last.unwrapped
    let kind ← value.tree.kind?
    return ⟨key, value.tree.stringValue?, kind.name, m.location value⟩
  | _ => none

def callOptions (m : Source) (object : Tree.Placed) : List CallOption :=
  object.named.filterMap m.callOption?

/-! ## 2. Calls -/

def isMarkerCall (m : Source) (t : Tree) : Bool :=
  t.isKind .callExpression &&
    match t.parts.head? with
    | some (.leaf .identifier name) => name = m.marker
    | _ => false

/-- The arguments of a call without the parentheses around them; a call with a template has none. -/
def callArguments (call : Tree.Placed) : List Tree.Placed :=
  match call.parts.getLast? with
  | some last =>
    if last.tree.isKind .arguments then
      (last.named.filter (!·.tree.isComment)).map (·.unwrapped)
    else []
  | none => []

abbrev Refusal := CallProblem × Tree.Placed

/-- The options of a second argument, if there is one. -/
def secondArgument (m : Source) : List Tree.Placed → Except Refusal (List CallOption)
  | [] => .ok []
  | object :: _ =>
    if object.tree.isKind .object then .ok (m.callOptions object)
    else .error (.secondArgument ((object.tree.kind?.map (·.name)).getD ""), object)

def pathArgument? (m : Source) (p : Tree.Placed) : Option (Option Argument) :=
  match p.tree with
  | .leaf .string raw => some ((literalValue? raw).map .literal)
  | .leaf .identifier name => some (some (.variable name (m.location p)))
  | _ => none

/-- The meaning of the arguments of a call. -/
def understand (m : Source) (call : Tree.Placed) :
    List Tree.Placed → Except Refusal (Argument × List CallOption)
  | [] => .error (.arguments, call)
  | first :: rest =>
    match m.pathArgument? first with
    | some argument? =>
      if rest.length ≤ 1 then
        match argument? with
        | some argument => (argument, ·) <$> m.secondArgument rest
        | none => .error (.arguments, call)
      else .error (.arguments, call)
    | none =>
      -- options alone are the only argument
      if first.tree.isKind .object && rest.isEmpty then .ok (.options (m.callOptions first), [])
      else .error (.arguments, call)

def markerCall (m : Source) (call : Tree.Placed) : Except Diagnostic MarkerCall :=
  match m.understand call (callArguments call) with
  | .ok (argument, options) =>
    .ok ⟨call.offset, call.stop, call.offset_le_stop, argument, m.location call, options⟩
  | .error (problem, place) => .error (problem.warning m.marker (m.location place))

def placedCalls (m : Source) (script : Tree) : List Tree.Placed :=
  (script.descend 0).filter fun p => m.isMarkerCall p.tree

/-- The marker calls of a script that are understood, and the warnings about the others. -/
def markerCalls (m : Source) (script : Tree) : List MarkerCall × List Diagnostic :=
  let results := (m.placedCalls script).map m.markerCall
  (results.filterMap fun
    | .ok call => some call
    | .error _ => none,
   results.filterMap fun
    | .ok _ => none
    | .error warning => some warning)

end Source

end AssetEmbed.Script
