import AssetEmbed.FileSystem.Walk
import AssetEmbed.Glob.Ignore
import AssetEmbed.Text.Lower

/-!
# Modules — which files of a tree are modules, and which of them are worked on

A module is a file with one of some extensions.  Ignore lists include and exclude modules by their path
below a root; a module outside the root is worked on only if no list of included modules is given.
-/

namespace AssetEmbed

/-! ## 1. Filters -/

/-- Include and exclude lists for the modules below a root. -/
structure ModuleFilter where
  root : Text
  included : Option Glob.IgnoreList
  excluded : Option Glob.IgnoreList

/-- Compiles the lines of a list that are neither blank nor comments; no list if there are none. -/
def ModuleFilter.compile? (lines : List Text) : Except Glob.IgnoreError (Option Glob.IgnoreList) :=
  match (lines.map Text.strip).filter fun line => line ≠ [] && line.head? != some '#' with
  | [] => .ok none
  | lines => some <$> Glob.IgnoreList.ofLines? lines

def ModuleFilter.ofLines? (root : Text) (included excluded : List Text) :
    Except Glob.IgnoreError ModuleFilter := do
  let included ← ModuleFilter.compile? included
  let excluded ← ModuleFilter.compile? excluded
  return { root, included, excluded }

/-- The path of a real path below a root; the root itself is `.`. -/
def relativeTo? (root path : Text) : Option Text :=
  match Path.dropCommon (Path.names root) (Path.names path) with
  | ([], names) => some (Path.ofNames [] names)
  | _ => none

/-- The path of a module below the root of a filter; none for a module that lies elsewhere or that no
file system can hold. -/
def ModuleFilter.relative? (f : ModuleFilter) (fs : FileSystem) (moduleId : Text) :
    Except FileSystem.RealPathError (Option Text) :=
  match fs.realPath moduleId with
  | .ok path => .ok (relativeTo? f.root path)
  | .error .embeddedNul => .ok none
  | .error e => .error e

def ModuleFilter.acceptsPath (f : ModuleFilter) : Option Text → Bool
  | none => f.included.isNone
  | some path => !f.excluded.any (·.names path) && f.included.all (·.names path)

def ModuleFilter.accepts (f : ModuleFilter) (fs : FileSystem) (moduleId : Text) :
    Except FileSystem.RealPathError Bool :=
  f.acceptsPath <$> f.relative? fs moduleId

/-- Whether a directory is excluded as a whole, by its path below the root. -/
def ModuleFilter.prunes (f : ModuleFilter) (directory : Text) : Bool :=
  f.excluded.any (·.names (directory ++ ['/']))

/-! ## 2. Listing -/

/-- The directory in which version control keeps its own files, and in which no modules are. -/
def versionControlName : Text := ".git".toList

/-- The names that lead to the modules below a directory, in the order of a walk. -/
def FileSystem.moduleNames (fs : FileSystem) (root : Text) (extensions : List Text)
    (prunes : Text → Bool) : List (List Text) :=
  let enters (names : List Text) : Bool :=
    names.getLast? != some versionControlName && !prunes (Text.joinWith '/' names)
  (fs.walk enters root).flatMap fun v =>
    (v.files.filter fun n => extensions.contains (Path.suffix n).lower).map fun n => v.directory ++ [n]

def FileSystem.modules (fs : FileSystem) (root : Text) (extensions : List Text)
    (prunes : Text → Bool) : Except FileSystem.RealPathError (List Text) := do
  let root ← fs.realPath root
  return (fs.moduleNames root extensions prunes).map (FileSystem.below root)

end AssetEmbed
