import AssetEmbed.Diagnostic
import AssetEmbed.Embedding
import AssetEmbed.Encoding
import AssetEmbed.Search

/-!
# Loading — from a search plan to an embedding

A single file that cannot be read is an error of the call.  With a pattern, a file that cannot be read is
left out with a warning.  Three faults have no place in a module and end the whole run: ignore patterns
that cannot be compiled, and encoding names with a NUL character.
-/

namespace AssetEmbed

/-- Why a run ends without an answer. -/
inductive Abort where
  | ignore (e : Glob.IgnoreError)
  | encodingNul
  /-- A link that leads back to itself, in the path of a module or of its root. -/
  | linkLoop
  | pathNul
  deriving DecidableEq, Repr

inductive ReadError where
  | file (e : FileError)
  | encoding (e : EncodingError)
  deriving DecidableEq, Repr

def ReadError.message : ReadError → String
  | .file e => e.message
  | .encoding e => e.message

/-- The content of a file under the encoding of a name. -/
def FileSystem.readContent [Charsets] (fs : FileSystem) (path encoding : Text) : Except ReadError Text :=
  match fs.read path with
  | .error e => .error (.file e)
  | .ok bytes => (decodeContent bytes encoding).mapError .encoding

def ReadError.report (e : ReadError) (path : Text) : String :=
  s!"Error reading file {path.toString}: {e.message}"

def FileRecord.ofContent (fs : FileSystem) (root path content : Text) : FileRecord :=
  ⟨content, path, Path.relative fs.cwd path root⟩

/-- Loads the one file of a plan. -/
def loadOne [Charsets] (fs : FileSystem) (plan : SearchPlan) (encoding : Text) (location : Location) :
    Except Abort (Option Embedding × List Event) :=
  let path := Path.normalize (Path.join plan.root plan.pattern)
  let mode := Event.info <|
    s!"Mode: Single file (\"{plan.pattern.toString}\" resolved to \"{path.toString}\" " ++
      s!"relative to \"{plan.root.toString}\")"
  match fs.readContent path encoding with
  | .ok content => .ok (some (.one (.ofContent fs plan.root path content)), [mode])
  | .error (.encoding .embeddedNul) => .error .encodingNul
  | .error e => .ok (none, [mode, .diagnostic (.errorAt location (e.report path))])

/-- Loads files by their paths as seen from the root; what is found, and what is told about the rest. -/
def loadEach [Charsets] (fs : FileSystem) (root encoding : Text) :
    List Text → Except Abort (List FileRecord × List Event)
  | [] => .ok ([], [])
  | name :: names =>
    let path := Path.normalize (Path.join root name)
    match fs.readContent path encoding with
    | .error (.encoding .embeddedNul) => .error .encodingNul
    | .ok content => do
      let (records, events) ← loadEach fs root encoding names
      return (.ofContent fs root path content :: records, events)
    | .error e => do
      let (records, events) ← loadEach fs root encoding names
      return (records, .diagnostic ⟨.warning, e.report path, none⟩ :: events)

def loadMany [Charsets] (fs : FileSystem) (plan : SearchPlan) (encoding : Text) (location : Location) :
    Except Abort (Option Embedding × List Event) :=
  let mode := Event.info <|
    s!"Mode: Multi-file (searching \"{plan.pattern.toString}\" in \"{plan.root.toString}\", " ++
      s!"encoding: {encoding.toString})"
  match fs.expand plan.root plan.pattern with
  | .error (.ignore e) => .error (.ignore e)
  | .error (.pattern e) =>
    .ok (none, [mode, .diagnostic (.warningAt location
      s!"Unsupported pattern \"{plan.pattern.toString}\": {e.message}")])
  | .ok names => do
    let (records, events) ← loadEach fs plan.root encoding names
    return (some (.many records), mode :: events)

def load [Charsets] (fs : FileSystem) (plan : SearchPlan) (encoding : Text) (location : Location) :
    Except Abort (Option Embedding × List Event) :=
  if plan.single then loadOne fs plan encoding location else loadMany fs plan encoding location

end AssetEmbed
