import AssetEmbed.Bytes
import AssetEmbed.FileSystem.Path
import AssetEmbed.Text.Quoted

/-!
# File systems

A file system is a tree of directories, files and symbolic links, with a directory from which relative
paths are read.  A place is a list of names from the root that passes no link; a path leads to a place
through links, of which it passes at most forty.
-/

namespace AssetEmbed

/-! ## 1. Trees -/

/-- An entry of a directory. -/
inductive Entry where
  | file (bytes : Bytes)
  | link (target : Text)
  | directory (entries : List (Text × Entry))

/-- The named entries of a directory, in the order in which they are listed. -/
abbrev Listing := List (Text × Entry)

/-- A way down from the root by names, through directories only. -/
abbrev Place := List Text

namespace Listing

def get? (name : Text) : Listing → Option Entry
  | [] => none
  | (n, e) :: rest => if n = name then some e else get? name rest

/-- The listing in which a name has a given entry, in its old position if it had one. -/
def put (name : Text) (entry : Entry) : Listing → Listing
  | [] => [(name, entry)]
  | (n, e) :: rest => if n = name then (n, entry) :: rest else (n, e) :: put name entry rest

def erase (name : Text) : Listing → Listing
  | [] => []
  | (n, e) :: rest => if n = name then rest else (n, e) :: erase name rest

@[simp] theorem get?_put_self (name : Text) (entry : Entry) (l : Listing) :
    get? name (put name entry l) = some entry := by
  induction l with
  | nil => simp [put, get?]
  | cons head rest ih =>
    obtain ⟨n, e⟩ := head
    by_cases h : n = name <;> simp [put, get?, h, ih]

theorem get?_put_of_ne {name other : Text} (h : other ≠ name) (entry : Entry) (l : Listing) :
    get? other (put name entry l) = get? other l := by
  induction l with
  | nil => simp [put, get?, Ne.symm h]
  | cons head rest ih =>
    obtain ⟨n, e⟩ := head
    by_cases hn : n = name
    · subst hn; simp [put, get?, Ne.symm h]
    · by_cases ho : n = other
      · subst ho; simp [put, get?, hn]
      · simp [put, get?, hn, ho, ih]

/-- The entry at a place below a directory. -/
def at? : Listing → Place → Option Entry
  | l, [] => some (.directory l)
  | l, [name] => l.get? name
  | l, name :: names =>
    match l.get? name with
    | some (.directory below) => at? below names
    | _ => none

/-- The listing with a change at the entry of a place: it is told the entry that is there, and gives the
one that is there afterwards.  A place that does not exist changes nothing. -/
def update (change : Option Entry → Option Entry) : Listing → Place → Listing
  | l, [] => l
  | l, [name] =>
    match change (l.get? name) with
    | some entry => l.put name entry
    | none => l.erase name
  | l, name :: names =>
    match l.get? name with
    | some (.directory below) => l.put name (.directory (update change below names))
    | _ => l

end Listing

structure FileSystem where
  entries : Listing
  /-- The absolute path of the directory from which relative paths are read. -/
  cwd : Text

/-! ## 2. Faults -/

inductive Fault where
  | notFound
  | exists
  | notDirectory
  | isDirectory
  | nameTooLong
  | tooManyLinks
  deriving DecidableEq, Repr

def Fault.number : Fault → Nat
  | .notFound => 2
  | .exists => 17
  | .notDirectory => 20
  | .isDirectory => 21
  | .nameTooLong => 36
  | .tooManyLinks => 40

def Fault.message : Fault → String
  | .notFound => "No such file or directory"
  | .exists => "File exists"
  | .notDirectory => "Not a directory"
  | .isDirectory => "Is a directory"
  | .nameTooLong => "File name too long"
  | .tooManyLinks => "Too many levels of symbolic links"

structure FileError where
  fault : Fault
  path : Text
  deriving DecidableEq, Repr

def FileError.message (e : FileError) : String :=
  s!"[Errno {e.fault.number}] {e.fault.message}: {e.path.quoted.toString}"

namespace FileSystem

/-! ## 3. Following paths -/

/-- Where a path leads. -/
inductive Spot where
  | taken (place : Place)
  | free (directory : Place) (name : Text)
  deriving DecidableEq, Repr

def maxNameBytes : Nat := 255

def maxPathBytes : Nat := 4095

def maxLinks : Nat := 40

def byteLength (s : Text) : Nat := s.foldr (fun c n => c.utf8Size + n) 0

/-- Follows names down from a place; `onLink` goes on from the place of a link with the names of its
target and those that are left.  A link at the very end is followed only on request. -/
def descend (fs : FileSystem) (followLast : Bool) (onLink : Place → List Text → Except Fault Spot) :
    Place → List Text → Except Fault Spot
  | here, [] => .ok (.taken here)
  | here, name :: rest =>
    match fs.entries.at? here with
    | some (.directory listing) =>
      if name = [] || name = ['.'] then descend fs followLast onLink here rest
      else if name = Path.parentName then descend fs followLast onLink here.dropLast rest
      else if byteLength name > maxNameBytes then .error .nameTooLong
      else match Listing.get? name listing with
        -- what is free can only be made where nothing but slashes is left
        | none => if rest.all (· = []) then .ok (.free here name) else .error .notFound
        | some (.link target) =>
          if rest = [] && !followLast then .ok (.taken (here ++ [name]))
          else onLink (if Path.isAbsolute target then [] else here) (target.splitOn '/' ++ rest)
        | some _ => descend fs followLast onLink (here ++ [name]) rest
    | some _ => .error .notDirectory
    | none => .error .notFound

/-- Follows names down from a place through at most a number of links. -/
def walkNames (fs : FileSystem) (followLast : Bool) :
    (links : Nat) → Place → List Text → Except Fault Spot
  | 0 => fs.descend followLast fun _ _ => .error .tooManyLinks
  | links + 1 => fs.descend followLast (walkNames fs followLast links)

def locate (fs : FileSystem) (followLast : Bool) (path : Text) : Except Fault Spot :=
  if path = [] then .error .notFound
  else if byteLength path > maxPathBytes then .error .nameTooLong
  else fs.walkNames followLast maxLinks [] (Text.splitOn '/' (Path.join fs.cwd path))

def entry? (fs : FileSystem) (path : Text) : Except Fault Entry := do
  match ← fs.locate true path with
  | .taken place =>
    match fs.entries.at? place with
    | some entry => .ok entry
    | none => .error .notFound
  | .free _ _ => .error .notFound

/-- Whether a path leads to a file.  No file has a name with a NUL character. -/
def isFile (fs : FileSystem) (path : Text) : Bool :=
  match fs.entry? path with
  | .ok (.file _) => true
  | _ => false

/-- Whether a path leads to a directory. -/
def isDirectory (fs : FileSystem) (path : Text) : Bool :=
  match fs.entry? path with
  | .ok (.directory _) => true
  | _ => false

def exists? (fs : FileSystem) (path : Text) : Bool := (fs.entry? path).isOk

/-- The link that a path ends in, if it does. -/
def linkTarget? (fs : FileSystem) (path : Text) : Option Text :=
  match fs.locate false path with
  | .ok (.taken place) =>
    match fs.entries.at? place with
    | some (.link target) => some target
    | _ => none
  | _ => none

/-! ## 4. Reading and writing -/

def read (fs : FileSystem) (path : Text) : Except FileError Bytes :=
  match fs.entry? path with
  | .ok (.file bytes) => .ok bytes
  | .ok _ => .error ⟨.isDirectory, path⟩
  | .error fault => .error ⟨fault, path⟩

def update (fs : FileSystem) (change : Option Entry → Option Entry) (place : Place) : FileSystem :=
  { fs with entries := fs.entries.update change place }

/-- The file system with given bytes in the file that a path leads to, which need not exist before. -/
def write (fs : FileSystem) (path : Text) (bytes : Bytes) : Except FileError FileSystem :=
  match fs.locate true path with
  | .error fault => .error ⟨fault, path⟩
  | .ok (.free directory name) =>
    if path.getLast? == some '/' then .error ⟨.isDirectory, path⟩
    else .ok (fs.update (fun _ => some (.file bytes)) (directory ++ [name]))
  | .ok (.taken place) =>
    match fs.entries.at? place with
    | some (.directory _) => .error ⟨.isDirectory, path⟩
    | _ => .ok (fs.update (fun _ => some (.file bytes)) place)

def makeLink (fs : FileSystem) (path target : Text) : Except FileError FileSystem :=
  match fs.locate false path with
  | .error fault => .error ⟨fault, path⟩
  | .ok (.taken _) => .error ⟨.exists, path⟩
  | .ok (.free directory name) => .ok (fs.update (fun _ => some (.link target)) (directory ++ [name]))

/-- The file system without what is at a path, and without everything below it. -/
def remove (fs : FileSystem) (path : Text) : Except FileError FileSystem :=
  match fs.locate false path with
  | .error fault => .error ⟨fault, path⟩
  | .ok (.free _ _) => .error ⟨.notFound, path⟩
  | .ok (.taken place) => .ok (fs.update (fun _ => none) place)

def makeDirectory (fs : FileSystem) (path : Text) : Except FileError FileSystem :=
  match fs.locate false path with
  | .error fault => .error ⟨fault, path⟩
  | .ok (.taken _) => .error ⟨.exists, path⟩
  | .ok (.free directory name) =>
    .ok (fs.update (fun _ => some (.directory [])) (directory ++ [name]))

/-- The file system with a directory at a path, made unless it is there; from a bound on the number of
directories that are made above it.  A path without a name above it is not made. -/
def ensureDirectoryUpTo : (bound : Nat) → FileSystem → Text → Except FileError FileSystem
  | bound, fs, path =>
    match fs.makeDirectory path with
    | .ok fs => .ok fs
    | .error e =>
      match bound with
      | 0 => .error e
      | bound + 1 =>
        if e.fault = .notFound then
          if Path.parent path = path then .error e
          else do
            let fs ← ensureDirectoryUpTo bound fs (Path.parent path)
            match fs.makeDirectory path with
            | .ok fs => return fs
            | .error e => if fs.isDirectory path then return fs else throw e
        else if fs.isDirectory path then .ok fs
        else .error e

/-- The file system with a directory at a path in tidy form, and those above it. -/
def ensureDirectory (fs : FileSystem) (path : Text) : Except FileError FileSystem :=
  ensureDirectoryUpTo ((Path.names path).length + 1) fs path

end FileSystem

/-! ## 5. Real paths -/

mutual

def Entry.linkCount : Entry → Nat
  | .file _ => 0
  | .link _ => 1
  | .directory entries => Listing.linkCount entries

def Listing.linkCount : List (Text × Entry) → Nat
  | [] => 0
  | (_, e) :: rest => e.linkCount + Listing.linkCount rest

end

namespace FileSystem

inductive RealPathError where
  /-- A link leads back to itself. -/
  | loop
  | embeddedNul
  deriving DecidableEq, Repr

/-- Follows names from a place with every link on the way replaced by what it leads to.  What does not
exist is taken as it stands. -/
def realNames (fs : FileSystem) (onLink : Place → List Text → Except RealPathError Place) :
    Place → List Text → Except RealPathError Place
  | here, [] => .ok here
  | here, name :: rest =>
    if name = [] || name = ['.'] then realNames fs onLink here rest
    else if name = Path.parentName then realNames fs onLink here.dropLast rest
    else if name.elem '\x00' then .error .embeddedNul
    else match fs.entries.at? (here ++ [name]) with
      | some (.link target) => do
        let place ← onLink (if Path.isAbsolute target then [] else here) (target.splitOn '/')
        realNames fs onLink place rest
      | _ => realNames fs onLink (here ++ [name]) rest

def realNamesUpTo (fs : FileSystem) : (depth : Nat) → Place → List Text → Except RealPathError Place
  | 0 => fs.realNames fun _ _ => .error .loop
  | depth + 1 => fs.realNames (realNamesUpTo fs depth)

/-- The real path of a path: absolute, in normal form, and without links.  Links that are nested deeper
than there are links form a loop. -/
def realPath (fs : FileSystem) (path : Text) : Except RealPathError Text :=
  (Path.ofNames ['/']) <$>
    fs.realNamesUpTo (Listing.linkCount fs.entries) [] (Text.splitOn '/' (Path.join fs.cwd path))

end FileSystem

end AssetEmbed
