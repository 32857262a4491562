import AssetEmbed.FileSystem

/-!
# Changes — what has become of a file system

The difference between two file systems is the directories and the files that have to be written to turn the
first into the second.  Nothing is ever taken away, and no links are made.
-/

namespace AssetEmbed

/-- A step that turns one file system into another. -/
inductive Change where
  | directory (path : Text)
  | file (path : Text) (bytes : Bytes)
  deriving DecidableEq, Repr

mutual

/-- The changes at a path at which there was perhaps another entry before. -/
def Entry.changes (path : Text) (before : Option Entry) : Entry → List Change
  | .link _ => []
  | .file bytes =>
    match before with
    | some (.file old) => if old = bytes then [] else [.file path bytes]
    | _ => [.file path bytes]
  | .directory entries =>
    match before with
    | some (.directory old) => Listing.changes path old entries
    | _ => .directory path :: Listing.changes path [] entries

def Listing.changes (path : Text) (before : Listing) : List (Text × Entry) → List Change
  | [] => []
  | (name, entry) :: rest =>
    entry.changes (Path.join path name) (Listing.get? name before) ++ Listing.changes path before rest

end

def FileSystem.changes (before after : FileSystem) : List Change :=
  Listing.changes ['/'] before.entries after.entries

end AssetEmbed
