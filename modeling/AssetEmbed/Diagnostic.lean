import AssetEmbed.Text

/-!
# Diagnostics — what a module's author is told

A diagnostic is a warning or an error with a message and, where there is one, the place in a module that
it concerns.  Reports are lists of diagnostics in the order in which they arose.
-/

namespace AssetEmbed

/-- A place in a module: the line counts from 1, the column counts characters from 0. -/
structure Location where
  /-- The module. -/
  moduleId : Text
  line : Int
  /-- The column. -/
  column : Int
  deriving DecidableEq, Repr

def Location.render (l : Location) : String := s!"{l.moduleId.toString}:{l.line}:{l.column}"

/-- How grave a diagnostic is: a warning leaves something out, an error makes a build fail. -/
inductive Severity where
  | warning
  | error
  deriving DecidableEq, Repr

/-- A message about a module. -/
structure Diagnostic where
  severity : Severity
  message : String
  location : Option Location
  deriving DecidableEq, Repr

/-- The text of a diagnostic: its message, after its location if it has one. -/
def Diagnostic.render (d : Diagnostic) : String :=
  match d.location with
  | some l => s!"{l.render}: {d.message}"
  | none => d.message

def Diagnostic.warningAt (l : Location) (message : String) : Diagnostic := ⟨.warning, message, some l⟩

def Diagnostic.errorAt (l : Location) (message : String) : Diagnostic := ⟨.error, message, some l⟩

def Diagnostic.isError (d : Diagnostic) : Bool := d.severity = .error

def Diagnostic.isWarning (d : Diagnostic) : Bool := d.severity = .warning

/-! ## Events -/

/-- How loud an event of a run is; diagnostics are as loud as they are grave. -/
inductive Level where
  | debug
  | info
  | warning
  | error
  deriving DecidableEq, Repr

/-- Something that happens during a run: a diagnostic, or a remark about the progress. -/
inductive Event where
  | diagnostic (d : Diagnostic)
  | info (message : String)
  | debug (message : String)
  deriving DecidableEq, Repr

def Event.diagnostics (events : List Event) : List Diagnostic :=
  events.filterMap fun
    | .diagnostic d => some d
    | _ => none

@[simp] theorem Event.diagnostics_append (xs ys : List Event) :
    Event.diagnostics (xs ++ ys) = Event.diagnostics xs ++ Event.diagnostics ys := by
  simp [Event.diagnostics]

@[simp] theorem Event.diagnostics_map_diagnostic (ds : List Diagnostic) :
    Event.diagnostics (ds.map .diagnostic) = ds := by
  induction ds with
  | nil => rfl
  | cons d ds ih => exact congrArg (d :: ·) ih

def Event.level : Event → Level
  | .diagnostic d => if d.isError then .error else .warning
  | .info _ => .info
  | .debug _ => .debug

def Event.message : Event → String
  | .diagnostic d => d.render
  | .info m => m
  | .debug m => m

end AssetEmbed
