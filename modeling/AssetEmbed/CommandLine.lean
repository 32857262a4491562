import AssetEmbed.Build
import AssetEmbed.CommandLine.Arguments

/-!
# Commands — running them

A command changes the file system, writes to its output, tells what happens on the way, and ends with an exit
code.  Faults that have no place in a module end it without one.
-/

namespace AssetEmbed

/-! ## 1. Results -/

inductive Output where
  | text (s : Text)
  | report (r : BuildReport)

def Output.render : Output → Text
  | .text s => s
  | .report r => r.toJson.render

/-- How a command has ended. -/
structure CommandResult where
  exitCode : Nat
  output : Output
  events : List Event
  complaint : Option String

/-- The file system after a command, and how the command has ended. -/
abbrev Ended := FileSystem × Except BuildStop CommandResult

def exitErrors : Nat := 1

def exitRefused : Nat := 2

def CommandResult.refused (events : List Event) (complaint : String) : CommandResult :=
  ⟨exitRefused, .text [], events, some complaint⟩

def CommandResult.done (ok : Bool) (output : Output) (events : List Event) : CommandResult :=
  ⟨if ok then 0 else exitErrors, output, events, none⟩

/-- The end of a command that was stopped: faults of files are told, other ones end it without a result. -/
def CommandResult.ofStop (events : List Event) : BuildStop → Except BuildStop CommandResult
  | .aborted a => .error (.aborted a)
  | stop => .ok (.refused events stop.message)

/-! ## 2. Events that are shown -/

/-- Which events are shown. -/
inductive Verbosity where
  | all
  | normal
  | problems
  deriving DecidableEq, Repr

def Verbosity.ofArguments (common : CommonArguments) (debugging : Bool) : Verbosity :=
  if common.verbose || debugging then .all else if common.quiet then .problems else .normal

def Verbosity.shows : Verbosity → Level → Bool
  | .all, _ => true
  | .normal, l => l ≠ .debug
  | .problems, l => l = .warning || l = .error

def Level.name : Level → String
  | .debug => "DEBUG"
  | .info => "INFO"
  | .warning => "WARNING"
  | .error => "ERROR"

def Event.line (e : Event) : String := s!"[{e.level.name}] {e.message}"

def CommandResult.lines (r : CommandResult) (v : Verbosity) : List String :=
  (r.events.filter fun e => v.shows e.level).map (·.line) ++ r.complaint.toList

/-! ## 3. Transforming one module -/

/-- What a command is told about the transformation of its module. -/
structure TransformTargets where
  out : Option Text
  map : Option Text

def FileSystem.writeBelow (fs : FileSystem) (path text : Text) : Writing := do
  let path := Path.tidy path
  let fs ← Writing.ofStep fs (fs.ensureDirectory (Path.parent path))
  fs.writeText path text

/-- Writes the text of a module, and its map, to where they go. -/
def TransformTargets.write (targets : TransformTargets) (fs : FileSystem) (text : Text)
    (map : Option SourceMap) : Writing := do
  let fs ← match targets.out with
    | some path => fs.writeBelow path text
    | none => .ok fs
  match targets.map, map with
  | some path, some map => fs.writeBelow path map.toJson.render
  | _, _ => .ok fs

/-- Ends the transformation of a module of which the text is known. -/
def finishTransform (fs : FileSystem) (targets : TransformTargets) (code : Text) (events : List Event)
    (outcome : Outcome) : Ended :=
  match outcome with
  | .malformed _ => (fs, .ok (.done false (.text []) events))
  | _ =>
    let (text, map) := match outcome with
      | .transformed r => (r.code, r.map)
      | _ => (code, none)
    match targets.write fs text map with
    | .error (stop, fs) => (fs, CommandResult.ofStop events stop)
    | .ok fs =>
      let output := if targets.out.isSome then [] else text
      (fs, .ok (.done (!(Event.diagnostics events).any (·.isError)) (.text output) events))

/-- A text that is given and has characters in it, or a default. -/
def givenOr (given : Option Text) (default : Text) : Text := (given.filter (· ≠ [])).getD default

def runTransform [Charsets] (fs : FileSystem) (config : Config) (file : Text) (marker encoding : Option Text)
    (targets : TransformTargets) : Ended :=
  match fs.realPath file with
  | .error e => (fs, .error (.aborted (.ofRealPath e)))
  | .ok path =>
    match fs.readText path with
    | .error e => (fs, .ok (.refused [] s!"Cannot read {path.toString}: {e.message}"))
    | .ok code =>
      let options : TransformOptions :=
        ⟨givenOr marker config.marker, givenOr encoding config.encoding, targets.map.isSome⟩
      match transform fs none options path code with
      | .error a => (fs, .error (.aborted a))
      | .ok (outcome, events) => finishTransform fs targets code events outcome

/-! ## 4. Building a tree -/

def runBuild [Charsets] (fs : FileSystem) (config : Config) (source : Text) (out : Option Text) (dryRun : Bool) :
    Ended :=
  match build fs source out config dryRun with
  | .ok (report, s) => (s.fs, .ok (.done report.ok (.report report) s.events))
  | .error stopped => (stopped.state.fs, CommandResult.ofStop stopped.state.events stopped.reason)

/-! ## 5. Commands -/

/-- Why a command does not even begin. -/
inductive CommandFailure where
  | config (e : ConfigFailure)
  | stop (e : BuildStop)
  deriving DecidableEq, Repr

/-- The file system after a command, and how the command has ended. -/
abbrev CommandEnd := FileSystem × Except CommandFailure CommandResult

/-- Goes on with the configuration for a directory.  One that is refused, or that cannot be opened, is told. -/
def withConfig (fs : FileSystem) (directory : Text) (named : Option Text) (run : Config → Ended) :
    CommandEnd :=
  match Config.forDirectory fs directory named with
  | .ok config =>
    let (fs, result) := run config
    (fs, result.mapError .stop)
  | .error (.refused e path) =>
    (fs, .ok (.refused [] (Text.stripEnd (e.messageIn path).toList).toString))
  | .error (.unreadable (.file e)) => (fs, .ok (.refused [] e.message))
  | .error e => (fs, .error (.config e))

/-- The message for a build without an output directory. -/
def missingOut : String := "build: OUT is required unless --dry-run is given"

/-- Builds the tree of a source directory, if there is one. -/
def buildSource [Charsets] (fs : FileSystem) (source : Text) (out : Option Text) (dryRun : Bool)
    (named : Option Text) : CommandEnd :=
  match fs.realPath source with
  | .error e => (fs, .error (.stop (.aborted (.ofRealPath e))))
  | .ok source =>
    if fs.isDirectory source then
      withConfig fs source named fun config => runBuild fs config source out dryRun
    else (fs, .ok (.refused [] s!"Source directory not found: {source.toString}"))

def toolName : String := "sysfs-embed"

def versionLine : String := s!"{toolName} {toolVersion}\n"

def usageLine : String := s!"usage: {toolName} [-h] [-v] \x7btransform,build\x7d ...\n"

def Command.run [Charsets] (fs : FileSystem) : Command → CommandEnd
  | .help => (fs, .ok (.done true (.text usageLine.toList) []))
  | .version => (fs, .ok (.done true (.text versionLine.toList) []))
  | .transform file out map marker encoding common =>
    withConfig fs fs.cwd common.config fun config =>
      runTransform fs config file marker encoding ⟨out, map⟩
  | .build source out dryRun common =>
    if out.isNone && !dryRun then (fs, .ok (.refused [] missingOut))
    else buildSource fs source out dryRun common.config

/-- Which events of a command are shown. -/
def Command.verbosity (debugging : Bool) : Command → Verbosity
  | .help | .version => .normal
  | .transform _ _ _ _ _ common => .ofArguments common debugging
  | .build _ _ _ common => .ofArguments common debugging

end AssetEmbed
