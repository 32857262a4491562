import AssetEmbed.Text

/-!
# Paths

Operations on paths as texts, without a look at the file system.  A path is absolute if it begins with a
slash; exactly two slashes at its start are a root of their own.
-/

namespace AssetEmbed.Path

/-! ## 1. Parts -/

def isAbsolute (path : Text) : Bool := path.head? == some '/'

/-- The slashes that begin a path in normal form: none, one, or exactly two. -/
def rootOf (path : Text) : Text :=
  if !isAbsolute path then []
  else if path.startsWith ['/', '/'] && !path.startsWith ['/', '/', '/'] then ['/', '/']
  else ['/']

def names (path : Text) : List Text := (path.splitOn '/').filter fun n => n ≠ [] && n ≠ ['.']

def baseName (path : Text) : Text := (path.reverse.takeWhile (· ≠ '/')).reverse

/-- What stands before the last slash of a path, without slashes at its end unless it has nothing else. -/
def directoryName (path : Text) : Text :=
  let head := (path.reverse.dropWhile (· ≠ '/')).reverse
  if head.all (· = '/') then head else (head.reverse.dropWhile (· = '/')).reverse

/-- The directory that has no name to go up from. -/
def parentName : Text := ['.', '.']

/-! ## 2. Joining and normal form -/

/-- A path below another one; an absolute path stands alone. -/
def join (base path : Text) : Text :=
  if isAbsolute path || base = [] then path
  else if base.getLast? == some '/' then base ++ path
  else base ++ '/' :: path

/-- Names in which each `..` takes back the name before it.  Above the root there is nothing; without a
root, a `..` that has nothing to take back stays.  The names so far are in reverse. -/
def resolveNames (absolute : Bool) : (done : List Text) → List Text → List Text
  | done, [] => done.reverse
  | done, n :: ns =>
    if n = parentName then
      match done with
      | [] => resolveNames absolute (if absolute then [] else [n]) ns
      | d :: ds => resolveNames absolute (if d = parentName then n :: done else ds) ns
    else resolveNames absolute (n :: done) ns

/-- A path of a root and names; a path of nothing is `.`. -/
def ofNames (root : Text) (ns : List Text) : Text :=
  match root ++ Text.joinWith '/' ns with
  | [] => ['.']
  | path => path

/-- A path in normal form: no empty name, no `.`, and no `..` that takes a name back. -/
def normalize (path : Text) : Text :=
  ofNames (rootOf path) (resolveNames (isAbsolute path) [] (names path))

/-- A path without empty names and `.`; a `..` stays. -/
def tidy (path : Text) : Text := ofNames (rootOf path) (names path)

/-- The normal form of a path that is read from a directory. -/
def absolute (cwd path : Text) : Text := normalize (join cwd path)

/-- Two lists after their longest common beginning. -/
def dropCommon : List Text → List Text → List Text × List Text
  | a :: as, b :: bs => if a = b then dropCommon as bs else (a :: as, b :: bs)
  | as, bs => (as, bs)

/-- The way from a directory to a path: up as often as needed, then down. -/
def relative (cwd path start : Text) : Text :=
  let (up, down) := dropCommon (names (absolute cwd start)) (names (absolute cwd path))
  ofNames [] (up.map (fun _ => parentName) ++ down)

/-! ## 3. File names -/

def fileName (path : Text) : Text := (names path).getLast?.getD []

/-- The last full stop of a file name and what follows it; nothing if the stop is its first or last
character. -/
def suffix (path : Text) : Text :=
  let name := fileName path
  let tail := (name.reverse.takeWhile (· ≠ '.')).reverse
  if tail = [] || tail.length + 1 ≥ name.length then [] else '.' :: tail

def parent (path : Text) : Text := ofNames (rootOf path) (names path).dropLast

end AssetEmbed.Path
