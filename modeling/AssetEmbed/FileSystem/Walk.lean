import AssetEmbed.FileSystem

/-!
# Walks — the directories below a path

A walk visits a directory before those below it, and the directories within one directory by name.  Links
to directories are directories, but a walk does not enter them.
-/

namespace AssetEmbed

/-- A directory on a walk. -/
structure Visit where
  /-- The names that lead to the directory from the start of the walk. -/
  directory : List Text
  /-- The names of its entries that are not directories. -/
  files : List Text
  deriving DecidableEq, Repr

/-- What decides a walk: which links lead to directories, and which directories are entered; both are told
the names from the start of the walk. -/
structure WalkRule where
  linksToDirectory : List Text → Bool
  enters : List Text → Bool

/-- Whether an entry at the end of some names is not a directory. -/
def WalkRule.isFile (rule : WalkRule) (names : List Text) : Entry → Bool
  | .file _ => true
  | .link _ => !rule.linksToDirectory names
  | .directory _ => false

def WalkRule.files (rule : WalkRule) (here : List Text) (entries : List (Text × Entry)) : List Text :=
  Text.sort ((entries.filter fun (n, e) => rule.isFile (here ++ [n]) e).map (·.1))

mutual

/-- The visits of a walk from an entry on; nothing is visited below an entry that is not a directory. -/
def Entry.visits (rule : WalkRule) (here : List Text) : Entry → List Visit
  | .file _ => []
  | .link _ => []
  | .directory entries =>
    ⟨here, rule.files here entries⟩ ::
      ((Listing.branches rule here entries).mergeSort fun a b => Text.le a.1 b.1).flatMap (·.2)

/-- The visits below each of the entries that are entered, with the name of the entry. -/
def Listing.branches (rule : WalkRule) (here : List Text) :
    List (Text × Entry) → List (Text × List Visit)
  | [] => []
  | (n, e) :: rest =>
    if rule.enters (here ++ [n]) then
      (n, e.visits rule (here ++ [n])) :: Listing.branches rule here rest
    else Listing.branches rule here rest

end

namespace FileSystem

/-- The path at the end of some names from the start of a walk. -/
def below (top : Text) (names : List Text) : Text := names.foldl Path.join top

/-- The visits of a walk from the directory that a path leads to; `enters` tells which directories are
entered. -/
def walk (fs : FileSystem) (enters : List Text → Bool) (top : Text) : List Visit :=
  match fs.entry? top with
  | .ok entry => entry.visits ⟨fun names => fs.isDirectory (below top names), enters⟩ []
  | .error _ => []

end FileSystem

end AssetEmbed
