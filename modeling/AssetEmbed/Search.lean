import AssetEmbed.FileSystem.Walk
import AssetEmbed.Glob.Alternative
import AssetEmbed.Glob.Braces

/-!
# Searches — where the files of a call are looked for

A target is the path of one file or a pattern for any number of files.  A search plan says from which
directory it is looked for, and which of the two it is; a pattern is expanded to the paths of the files
that it selects.
-/

namespace AssetEmbed

/-- Where and how files are looked for. -/
structure SearchPlan where
  root : Text
  /-- What is looked for, as seen from the root. -/
  pattern : Text
  /-- Whether the pattern is the path of one existing file. -/
  single : Bool
  deriving DecidableEq, Repr

/-! ## 1. Plans -/

/-- The root of a target, before it is brought to normal form, and the target as seen from it.  A base
path is the root; without one, the root takes the leading segments of the target. -/
def SearchPlan.split (moduleDirectory basePath target : Text) : Text × Text :=
  if basePath ≠ [] then (Path.join moduleDirectory basePath, target)
  else if Path.isAbsolute target && !Glob.isPattern target then
    (Path.directoryName target, Path.baseName target)
  else
    let (directory, rest) := Glob.splitDirectory target
    (Path.join moduleDirectory directory, rest)

/-- The plan of a target in a module. -/
def SearchPlan.ofTarget (fs : FileSystem) (moduleId basePath target : Text) : SearchPlan :=
  let moduleDirectory := Path.directoryName (Path.absolute fs.cwd moduleId)
  let (root, pattern) := SearchPlan.split moduleDirectory basePath target
  let root := Path.normalize root
  { root, pattern
    single := !Glob.isPattern target && pattern ≠ [] && fs.isFile (Path.join root pattern) }

/-! ## 2. Expansion -/

inductive ExpansionError where
  | pattern (e : Glob.PatternError)
  | ignore (e : Glob.IgnoreError)
  deriving DecidableEq, Repr

/-- The files below a directory that a plain pattern selects, by the names that lead to them. -/
def FileSystem.selected (fs : FileSystem) (top pattern : Text) (selector : Glob.IgnorePattern) :
    List (List Text) :=
  let admits (name : Text) : Bool := Glob.namesDotEntry pattern || !Glob.isDotName name
  let visits := fs.walk (fun names => names.getLast?.all admits) top
  (visits.flatMap fun v => (v.files.filter admits).map fun n => v.directory ++ [n]).filter fun names =>
    fs.isFile (FileSystem.below top names) && selector.selects (Text.joinWith '/' names)

/-- The paths of the files that a plain pattern selects, as seen from a root.  The walk starts where the
leading segments of the pattern lead, which need not be below the root. -/
def FileSystem.expandAlternative (fs : FileSystem) (root alternative : Text) :
    Except ExpansionError (List Text) :=
  let (directory, rest) := Glob.splitDirectory alternative
  let top := Path.normalize (Path.join root directory)
  match Glob.selector? rest with
  | .error e => .error (.ignore e)
  | .ok none => .ok []
  | .ok (some selector) =>
    .ok ((fs.selected top rest selector).map fun names =>
      Path.relative fs.cwd (FileSystem.below top names) root)

/-- The paths of the files that a pattern selects, as seen from a root, in order and each once. -/
def FileSystem.expand (fs : FileSystem) (root pattern : Text) : Except ExpansionError (List Text) :=
  match Glob.alternatives pattern with
  | .error e => .error (.pattern e)
  | .ok alternatives =>
    (fun found => Text.sortUnique found.flatten) <$> alternatives.mapM (fs.expandAlternative root)

end AssetEmbed
