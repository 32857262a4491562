import AssetEmbed.Diagnostic
import AssetEmbed.Json

/-!
# Reports — what a build did

A report has an entry for each module, and totals over all of them.
-/

namespace AssetEmbed

inductive ModuleStatus where
  | unchanged
  | rewritten
  | failed
  | skipped
  deriving DecidableEq, Repr

def ModuleStatus.name : ModuleStatus → String
  | .unchanged => "unchanged"
  | .rewritten => "rewritten"
  | .failed => "failed"
  | .skipped => "skipped"

structure ModuleReport where
  /-- The path below the source directory. -/
  path : Text
  status : ModuleStatus
  embeddedCalls : Nat
  embeddedFiles : Nat
  diagnostics : List Diagnostic
  deriving DecidableEq, Repr

structure Totals where
  modules : Nat
  rewritten : Nat
  failed : Nat
  warnings : Nat
  errors : Nat
  deriving DecidableEq, Repr

def Totals.ofModules (reports : List ModuleReport) : Totals where
  modules := reports.length
  rewritten := reports.countP (·.status = .rewritten)
  failed := reports.countP (·.status = .failed)
  warnings := (reports.flatMap (·.diagnostics)).countP (·.isWarning)
  errors := (reports.flatMap (·.diagnostics)).countP (·.isError)

structure BuildReport where
  root : Text
  out : Option Text
  dryRun : Bool
  modules : List ModuleReport
  deriving DecidableEq, Repr

def BuildReport.totals (r : BuildReport) : Totals := Totals.ofModules r.modules

def BuildReport.ok (r : BuildReport) : Bool := r.totals.errors = 0 && r.totals.failed = 0

/-! ## Notation -/

def toolVersion : String := "0.1.0"

def Json.ofText? : Option Text → Json
  | some s => .string s
  | none => .null

/-- The name of a severity. -/
def Severity.name : Severity → String
  | .warning => "warning"
  | .error => "error"

def Diagnostic.toJson (d : Diagnostic) : Json :=
  let place (f : Location → Int) : Json :=
    match d.location with
    | some l => .number (f l)
    | none => .null
  .object [("severity".toList, .string d.severity.name.toList),
    ("message".toList, .string d.message.toList),
    ("line".toList, place (·.line)), ("column".toList, place (·.column))]

def ModuleReport.toJson (r : ModuleReport) : Json :=
  .object [("path".toList, .string r.path), ("status".toList, .string r.status.name.toList),
    ("embedded_calls".toList, .number r.embeddedCalls),
    ("embedded_files".toList, .number r.embeddedFiles),
    ("diagnostics".toList, .array (r.diagnostics.map (·.toJson)))]

def Totals.toJson (t : Totals) : Json :=
  .object [("modules".toList, .number t.modules), ("rewritten".toList, .number t.rewritten),
    ("failed".toList, .number t.failed), ("warnings".toList, .number t.warnings),
    ("errors".toList, .number t.errors)]

def BuildReport.toJson (r : BuildReport) : Json :=
  .object [("tool_version".toList, .string toolVersion.toList), ("root".toList, .string r.root),
    ("out".toList, Json.ofText? r.out), ("dry_run".toList, .bool r.dryRun),
    ("modules".toList, .array (r.modules.map (·.toJson))), ("totals".toList, r.totals.toJson)]

end AssetEmbed
