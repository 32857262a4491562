import AssetEmbed.Edit
import AssetEmbed.Embedding.Load
import AssetEmbed.Modules
import AssetEmbed.Script.Bindings
import AssetEmbed.Script.Grammar.Statement
import AssetEmbed.Script.Match
import AssetEmbed.SourceMap

/-!
# Transforming a module

Every marker call of a module for which files are loaded is replaced by the literal that embeds them.  A
module that a filter leaves out, that does not mention the marker, or of which no call is replaced stays
untouched.  A module with a syntax mistake is not transformed at all.
-/

namespace AssetEmbed

/-! ## 1. Options and results -/

structure TransformOptions where
  marker : Text
  encoding : Text
  sourceMap : Bool
  deriving DecidableEq, Repr

structure TransformStats where
  /-- The number of calls that are understood. -/
  callsMatched : Nat
  callsReplaced : Nat
  filesEmbedded : Nat
  deriving DecidableEq, Repr

structure Transformed where
  code : Text
  map : Option SourceMap
  stats : TransformStats

inductive Outcome where
  | untouched
  /-- Calls of the module are replaced. -/
  | transformed (result : Transformed)
  /-- The module has a syntax mistake at a place. -/
  | malformed (location : Location)

def Outcome.stats : Outcome → TransformStats
  | .transformed result => result.stats
  | _ => ⟨0, 0, 0⟩

/-- That a module cannot be parsed.  A token that is missing counts as any other error. -/
def syntaxMessage (what : String) : String := s!"Failed to parse {what}: syntax error"

def syntaxDiagnostic (location : Location) : Diagnostic :=
  .errorAt location (syntaxMessage location.moduleId.toString)

/-! ## 2. Calls -/

def Embedding.remark (location : Location) : Embedding → Event
  | .one _ => .info s!"Embedded 1 specific file for call at {location.render}"
  | .many rs =>
    .info s!"Embedded {rs.length} file(s) matching pattern for call at {location.render}"

def MarkerCall.range (call : MarkerCall) : Range :=
  ⟨call.start, call.stop, Int.ofNat_le.2 call.start_le_stop⟩

/-- What takes the place of a call, if the call asks for something and that can be loaded. -/
def MarkerCall.embed [Charsets] (call : MarkerCall) (fs : FileSystem) (options : TransformOptions)
    (bindings : Bindings) : Except Abort (Option Embedding × List Event) :=
  match call.resolve options.marker options.encoding bindings with
  | (none, warnings) => .ok (none, warnings.map .diagnostic)
  | (some resolved, warnings) => do
    let plan := SearchPlan.ofTarget fs call.location.moduleId resolved.options.basePath resolved.target
    let (embedding, events) ← load fs plan resolved.options.encoding call.location
    return (embedding, warnings.map .diagnostic ++ events ++
      (embedding.map (·.remark call.location)).toList)

structure Replacements where
  editor : Editor
  counts : List (Range × Nat)

def Replacements.offer (r : Replacements) (call : MarkerCall) (embedding : Embedding) :
    Replacements × List Event :=
  let edit : Edit := ⟨call.range, embedding.literal⟩
  let outcome := r.editor.offer edit
  match outcome with
  | .refused _ => (r, outcome.remarks edit)
  | .accepted editor _ =>
    (⟨editor, (call.range, embedding.records.length) :: r.counts⟩, outcome.remarks edit)

/-- Loads and offers calls one after the other. -/
def Replacements.collect [Charsets] (fs : FileSystem) (options : TransformOptions) (bindings : Bindings) :
    Replacements → List MarkerCall → Except Abort (Replacements × List Event)
  | r, [] => .ok (r, [])
  | r, call :: calls => do
    let (embedding, events) ← call.embed fs options bindings
    let (r, remarks) := match embedding with
      | some embedding => r.offer call embedding
      | none => (r, [])
    let (r, more) ← collect fs options bindings r calls
    return (r, events ++ remarks ++ more)

def Replacements.count (r : Replacements) (range : Range) : Nat :=
  match r.counts.find? fun (s, _) => s = range with
  | some (_, n) => n
  | none => 0

def Replacements.files (r : Replacements) : Nat :=
  r.editor.edits.foldr (fun e n => r.count e.range + n) 0

/-! ## 3. Modules -/

/-- A module in which the collected replacements are made; none if there are none. -/
def Replacements.finish (r : Replacements) (options : TransformOptions) (moduleId : Text)
    (matched : Nat) : Outcome :=
  if r.editor.edits = [] then .untouched
  else match r.editor.apply with
    | .error _ => .untouched
    | .ok edited => .transformed {
        code := edited.text
        map := if options.sourceMap then
            some (SourceMap.ofEdits r.editor.text r.editor.edits moduleId none true)
          else none
        stats := ⟨matched, r.editor.edits.length, r.files⟩ }

def transformTree [Charsets] (fs : FileSystem) (options : TransformOptions) (moduleId code : Text)
    (tree : Script.Tree) : Except Abort (Outcome × List Event) := do
  let source : Script.Source := ⟨moduleId, code, options.marker⟩
  let (calls, warnings) := source.markerCalls tree
  let (replacements, events) ←
    Replacements.collect fs options (Script.bindings tree) ⟨Editor.ofText code, []⟩ calls
  return (replacements.finish options moduleId calls.length, warnings.map .diagnostic ++ events)

def transformText [Charsets] (fs : FileSystem) (options : TransformOptions) (moduleId code : Text) :
    Except Abort (Outcome × List Event) :=
  match Script.Tree.ofScript (Script.Dialect.ofModuleId moduleId) code with
  | .ok tree => transformTree fs options moduleId code tree
  | .error mistake =>
    let location := Script.locate moduleId code mistake.offset
    .ok (.malformed location, [.diagnostic (syntaxDiagnostic location)])

def transformMention [Charsets] (fs : FileSystem) (options : TransformOptions) (moduleId code : Text) :
    Except Abort (Outcome × List Event) :=
  if Text.contains code options.marker then transformText fs options moduleId code
  else .ok (.untouched, [])

/-- The fault of a module whose path has no real path. -/
def Abort.ofRealPath : FileSystem.RealPathError → Abort
  | .loop => .linkLoop
  | .embeddedNul => .pathNul

/-- Transforms a module, if a filter does not leave it out. -/
def transform [Charsets] (fs : FileSystem) (filter : Option ModuleFilter) (options : TransformOptions)
    (moduleId code : Text) : Except Abort (Outcome × List Event) :=
  match filter with
  | none => transformMention fs options moduleId code
  | some filter =>
    match filter.accepts fs moduleId with
    | .error e => .error (.ofRealPath e)
    | .ok true => transformMention fs options moduleId code
    | .ok false => .ok (.untouched, [.debug s!"Module filtered out: {moduleId.toString}"])

end AssetEmbed
