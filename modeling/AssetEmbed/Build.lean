import AssetEmbed.Config
import AssetEmbed.FileSystem.TextFile
import AssetEmbed.Report
import AssetEmbed.Transform

/-!
# Builds — a tree of modules into a tree of transformed modules

Every module below a source directory is transformed, and the result is written to the same place below an
output directory: the new text with its map for a module of which calls are replaced, the same bytes for every
other one, and nothing for a module that cannot be read or has a syntax mistake.  A module below the output
directory itself is left alone.  Directories are listed only when the build comes to them, so that what it
has written before is there.
-/

namespace AssetEmbed

/-! ## 1. Plans -/

/-- What is to be built. -/
structure BuildPlan where
  /-- The real path of the source directory. -/
  source : Text
  /-- The real path of the output directory, if there is one. -/
  out : Option Text
  dryRun : Bool
  /-- The extensions of modules, in lower case. -/
  extensions : List Text
  /-- Which modules are worked on. -/
  filter : ModuleFilter
  options : TransformOptions

/-- The plan of a configuration for a source directory and an output directory. -/
def BuildPlan.ofConfig (fs : FileSystem) (source : Text) (out : Option Text) (config : Config)
    (dryRun : Bool) : Except Abort BuildPlan := do
  let source ← (fs.realPath source).mapError .ofRealPath
  let out ← out.mapM fun out => (fs.realPath out).mapError .ofRealPath
  let filter ← (ModuleFilter.ofLines? source config.included config.excluded).mapError .ignore
  return { source, out, dryRun, filter
           extensions := config.extensions
           options := ⟨config.marker, config.encoding, config.sourceMap⟩ }

def BuildPlan.modulePath (plan : BuildPlan) (names : List Text) : Text :=
  FileSystem.below plan.source names

def BuildPlan.isOutput (plan : BuildPlan) (path : Text) : Bool :=
  plan.out.any fun out => (Path.names out).isPrefixOf (Path.names path).dropLast

/-! ## 2. Transforming a module -/

/-- What is written for a module. -/
inductive Product where
  | nothing
  /-- The bytes of the module itself. -/
  | copy
  /-- The new text, with its map if there is one. -/
  | result (r : Transformed)

/-- What has been found out about a module. -/
structure Examined where
  report : ModuleReport
  events : List Event
  product : Product

def Examined.plain (path : Text) (status : ModuleStatus) (events : List Event) (product : Product) :
    Examined :=
  ⟨⟨path, status, 0, 0, Event.diagnostics events⟩, events, product⟩

/-- What is found out about a module by transforming it. -/
def Examined.ofOutcome (path : Text) (events : List Event) : Outcome → Examined
  | .untouched => .plain path .unchanged events .copy
  | .malformed _ => .plain path .failed events .nothing
  | .transformed r =>
    ⟨⟨path, .rewritten, r.stats.callsReplaced, r.stats.filesEmbedded, Event.diagnostics events⟩,
      events, .result r⟩

def unreadableModule (path : Text) (e : TextFileError) : Diagnostic :=
  ⟨.error, s!"Cannot read module {path.toString}: {e.message}", none⟩

/-- Finds out about the module at the end of some names, without writing anything. -/
def BuildPlan.examine [Charsets] (plan : BuildPlan) (fs : FileSystem) (names : List Text) :
    Except Abort Examined :=
  let path := plan.modulePath names
  let shown := Text.joinWith '/' names
  match fs.readText path with
  | .error e => .ok (.plain shown .failed [.diagnostic (unreadableModule path e)] .nothing)
  | .ok code =>
    match plan.filter.accepts fs path with
    | .error e => .error (.ofRealPath e)
    | .ok false => .ok (.plain shown .skipped [] .copy)
    | .ok true => do
      let (outcome, events) ← transformMention fs plan.options path code
      return .ofOutcome shown events outcome

/-! ## 3. Writing -/

/-- Why a build stops. -/
inductive BuildStop where
  | file (e : FileError)
  | sameFile (source target : Text)
  | aborted (a : Abort)
  deriving DecidableEq, Repr

def BuildStop.message : BuildStop → String
  | .file e => e.message
  | .sameFile source target =>
    s!"PosixPath({source.quoted.toString}) and PosixPath({target.quoted.toString}) are the same file"
  | .aborted _ => ""

/-- A step of writing: the file system after it, also if it fails. -/
abbrev Writing := Except (BuildStop × FileSystem) FileSystem

def Writing.ofStep (fs : FileSystem) (step : Except FileError FileSystem) : Writing :=
  step.mapError fun e => (.file e, fs)

def mapName (name : Text) : Text := name ++ ".map".toList

/-- The text of a module with a line that tells where its map is. -/
def withMapLine (code name : Text) : Text :=
  let code := if code.getLast? = some '\n' then code else code ++ ['\n']
  code ++ "//# sourceMappingURL=".toList ++ name ++ ['\n']

def FileSystem.writeText (fs : FileSystem) (path text : Text) : Writing :=
  .ofStep fs (fs.write path (Utf8.encode text))

/-- Writes the result of a module: the map first, if there is one. -/
def writeResult (fs : FileSystem) (target : Text) (r : Transformed) : Writing :=
  match r.map with
  | none => fs.writeText target r.code
  | some map => do
    let name := mapName (Path.fileName target)
    let fs ← fs.writeText (mapName target) map.toJson.render
    fs.writeText target (withMapLine r.code name)

def FileSystem.sameFile (fs : FileSystem) (path other : Text) : Bool :=
  match fs.locate true path, fs.locate true other with
  | .ok (.taken place), .ok (.taken otherPlace) => place = otherPlace
  | _, _ => false

def FileSystem.copy (fs : FileSystem) (path target : Text) : Writing :=
  if fs.sameFile path target then .error (.sameFile path target, fs)
  else match fs.read path with
    | .error e => .error (.file e, fs)
    | .ok bytes => .ofStep fs (fs.write target bytes)

/-- Writes what is to be written for the module at the end of some names. -/
def BuildPlan.produce (plan : BuildPlan) (fs : FileSystem) (names : List Text) (product : Product) :
    Writing :=
  match plan.out, product with
  | none, _ => .ok fs
  | _, .nothing => .ok fs
  | some out, product =>
    if plan.dryRun then .ok fs
    else do
      let target := FileSystem.below out names
      let fs ← Writing.ofStep fs (fs.ensureDirectory (Path.parent target))
      match product with
      | .result r => writeResult fs target r
      | _ => fs.copy (plan.modulePath names) target

/-! ## 4. Building -/

/-- How far a build has come. -/
structure BuildState where
  fs : FileSystem
  modules : List ModuleReport
  events : List Event

/-- Why a build has stopped, and how far it had come. -/
structure Stopped where
  reason : BuildStop
  state : BuildState

abbrev Building := Except Stopped BuildState

def ModuleReport.remark (r : ModuleReport) : Event :=
  .debug s!"{r.path.toString}: {r.status.name}"

def BuildPlan.buildModule [Charsets] (plan : BuildPlan) (s : BuildState) (names : List Text) : Building :=
  if plan.isOutput (plan.modulePath names) then .ok s
  else match plan.examine s.fs names with
    | .error a => .error ⟨.aborted a, s⟩
    | .ok found =>
      let s := { s with events := s.events ++ found.events }
      match plan.produce s.fs names found.product with
      | .error (reason, fs) => .error ⟨reason, { s with fs }⟩
      | .ok fs => .ok ⟨fs, s.modules ++ [found.report], s.events ++ [found.report.remark]⟩

/-- The modules in a directory, and the directories in it that are entered, each by name. -/
def BuildPlan.listing (plan : BuildPlan) (fs : FileSystem) (names : List Text) :
    List Text × List Text :=
  let top := plan.modulePath names
  match fs.entry? top with
  | .ok (.directory entries) =>
    let rule : WalkRule := ⟨fun ns => fs.isDirectory (FileSystem.below top ns), fun _ => true⟩
    let isEntered (name : Text) : Bool :=
      name ≠ versionControlName && !plan.filter.prunes (Text.joinWith '/' (names ++ [name]))
    ((rule.files [] entries).filter fun n => plan.extensions.contains (Path.suffix n).lower,
      (Text.sort ((entries.filter fun (n, e) => !rule.isFile [n] e).map (·.1))).filter isEntered)
  | _ => ([], [])

/-- Builds the modules below the directory at the end of some names, through directories nested to at most
a depth.  Links to directories are not entered. -/
def BuildPlan.buildBelow [Charsets] (plan : BuildPlan) : (depth : Nat) → BuildState → List Text → Building
  | 0, s, _ => .ok s
  | depth + 1, s, names => do
    let (modules, directories) := plan.listing s.fs names
    let s ← modules.foldlM (fun s name => plan.buildModule s (names ++ [name])) s
    directories.foldlM (fun s name =>
      if (s.fs.linkTarget? (plan.modulePath (names ++ [name]))).isSome then .ok s
      else buildBelow plan depth s (names ++ [name])) s

/-- The depth to which directories can be nested: a path has no more names than bytes. -/
def maxDepth : Nat := FileSystem.maxPathBytes + 1

def BuildPlan.report (plan : BuildPlan) (s : BuildState) : BuildReport :=
  ⟨plan.source, plan.out, plan.dryRun, s.modules⟩

def BuildPlan.run [Charsets] (plan : BuildPlan) (fs : FileSystem) : Building :=
  plan.buildBelow maxDepth ⟨fs, [], []⟩ []

/-- Builds a source directory: the report, and the state at the end. -/
def build [Charsets] (fs : FileSystem) (source : Text) (out : Option Text) (config : Config) (dryRun : Bool) :
    Except Stopped (BuildReport × BuildState) :=
  match BuildPlan.ofConfig fs source out config dryRun with
  | .error a => .error ⟨.aborted a, ⟨fs, [], []⟩⟩
  | .ok plan => do
    let s ← plan.run fs
    return (plan.report s, s)

end AssetEmbed
