import AssetEmbed.CommandLine
import AssetEmbed.FileSystem.Changes

/-!
# The command line

The directories that a command names are read into a file system, the command is run there, and what it has
changed is written back.
-/

namespace AssetEmbed.Main

/-! ## 1. Reading -/

/-- Where a link leads; one that leads nowhere leads to a name that no file has. -/
def linkTarget (entry : IO.FS.DirEntry) : IO Text := do
  try return (← IO.FS.realPath entry.path).toString.toList
  catch _ => return ['\x00']

mutual

/-- Reads an entry of a directory; what is neither a file nor a link nor a directory is left out. -/
partial def readEntry (entry : IO.FS.DirEntry) : IO (Option (Text × Entry)) := do
  let name := entry.fileName.toList
  match (← entry.path.symlinkMetadata).type with
  | .dir => return some (name, .directory (← readEntries (← entry.path.readDir)))
  | .symlink => return some (name, .link (← linkTarget entry))
  | .file => return some (name, .file (← IO.FS.readBinFile entry.path).toList)
  | .other => return none

partial def readEntries (entries : Array IO.FS.DirEntry) : IO Listing := do
  let read ← entries.toList.filterMapM readEntry
  return read

end

def mount (fs : FileSystem) (path : Text) (entries : Listing) : FileSystem :=
  match fs.ensureDirectory path with
  | .ok fs => fs.update (fun _ => some (.directory entries)) (Path.names path)
  | .error _ => fs

def mountWord (fs : FileSystem) (word : String) : IO FileSystem := do
  try
    let path ← IO.FS.realPath word
    let directory ← if ← path.isDir then pure path else pure (path.parent.getD path)
    return mount fs directory.toString.toList (← readEntries (← directory.readDir))
  catch _ => return fs

/-- The file system that a command is run in. -/
def readFileSystem (words : List String) : IO FileSystem := do
  let cwd ← IO.FS.realPath (← IO.currentDir)
  let fs := mount ⟨[], ['/']⟩ cwd.toString.toList (← readEntries (← cwd.readDir))
  words.foldlM mountWord { fs with cwd := cwd.toString.toList }

/-! ## 2. Writing -/

def writeChange : Change → IO Unit
  | .directory path => IO.FS.createDirAll path.toString
  | .file path bytes => IO.FS.writeBinFile path.toString ⟨bytes.toArray⟩

/-! ## 3. Running -/

def debugVariable : String := "SYSFS_EMBED_DEBUG"

def failureMessage : CommandFailure → String
  | .config _ => "The configuration cannot be read."
  | .stop _ => "The command was stopped by a fault."

def runCommand (words : List String) (command : Command) : IO UInt32 := do
  let debugging := ((← IO.getEnv debugVariable).getD "") ≠ ""
  let before ← readFileSystem words
  let (after, result) := command.run before
  (before.changes after).forM writeChange
  match result with
  | .error e =>
    (← IO.getStderr).putStrLn (failureMessage e)
    return 1
  | .ok r =>
    let stderr ← IO.getStderr
    (r.lines (command.verbosity debugging)).forM stderr.putStrLn
    (← IO.getStdout).putStr r.output.render.toString
    return UInt32.ofNat r.exitCode

end AssetEmbed.Main

def main (words : List String) : IO UInt32 := do
  match AssetEmbed.Command.ofArguments? (words.map (·.toList)) with
  | some command => AssetEmbed.Main.runCommand words command
  | none =>
    (← IO.getStderr).putStr AssetEmbed.usageLine
    return UInt32.ofNat AssetEmbed.exitRefused
