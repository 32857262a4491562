import AssetEmbed.Text.Class

/-!
# Ignore patterns — which paths a line of an ignore list names

A line names paths by segments with wildcards.  A path is matched from its start, and a line that names a
directory matches everything below it too: a match tells which of the two it is.  Where several matches
are possible the first one counts, in the order in which every wildcard tries its longest extent first.
-/

namespace AssetEmbed.Glob

/-! ## 1. Patterns -/

/-- A part of a compiled pattern. -/
inductive Element where
  | literal (c : Char)
  | oneOf (negated : Bool) (ranges : List (Char × Char))
  | nameChar
  | nameChars
  /-- At least one character other than a slash. -/
  | name
  | anything
  /-- Nothing, or directories with a slash after them. -/
  | leadingDirs
  /-- Nothing, or directories with a slash before them. -/
  | innerDirs
  deriving DecidableEq, Repr

inductive Ending where
  /-- The path that is named, and everything below it. -/
  | entry
  /-- Only what lies below. -/
  | content
  deriving DecidableEq, Repr

/-- A compiled line of an ignore list. -/
structure IgnorePattern where
  negated : Bool
  elements : List Element
  ending : Ending
  deriving DecidableEq, Repr

inductive IgnoreError where
  /-- A backslash with nothing after it, or a negation of nothing. -/
  | malformed
  /-- A bracket expression with a range whose ends are not in order. -/
  | badRange
  deriving DecidableEq, Repr

/-- Whether the ranges of a part are in order. -/
def Element.isOrdered : Element → Bool
  | .oneOf _ ranges => ranges.all fun (low, high) => low ≤ high
  | _ => true

/-! ## 2. Compilation -/

/-- The ranges of the inside of a bracket expression: single characters, and pairs around a hyphen that
is neither first nor last. -/
def classRanges : Text → List (Char × Char)
  | [] => []
  | c :: '-' :: d :: s => (c, d) :: classRanges s
  | c :: s => (c, c) :: classRanges s

/-- The parts of a bracket expression from the text after its opening bracket: whether it is negated, its
inside, and the text after its closing bracket.  A closing bracket in the first place is an ordinary
character. -/
def splitClass? (s : Text) : Option (Bool × Text × Text) :=
  let (negated, s) := match s with
    | '!' :: s => (true, s)
    | '^' :: s => (true, s)
    | s => (false, s)
  let (first, s) := match s with
    | ']' :: s => ([']'], s)
    | s => ([], s)
  match s.dropWhile (· ≠ ']') with
  | _ :: rest => some (negated, first ++ s.takeWhile (· ≠ ']'), rest)
  | [] => none

/-- The parts of a segment, from a bound on its length. -/
def segmentUpTo : (bound : Nat) → Text → Option (List Element)
  | 0, _ => some []
  | _ + 1, [] => some []
  | bound + 1, '\\' :: s =>
    match s with
    | [] => none
    | c :: s => (.literal c :: ·) <$> segmentUpTo bound s
  | bound + 1, '*' :: s => (.nameChars :: ·) <$> segmentUpTo bound s
  | bound + 1, '?' :: s => (.nameChar :: ·) <$> segmentUpTo bound s
  | bound + 1, '[' :: s =>
    match splitClass? s with
    | some (negated, inside, rest) => (.oneOf negated (classRanges inside) :: ·) <$> segmentUpTo bound rest
    -- a bracket that opens no class stands for itself
    | none => (.literal '[' :: ·) <$> segmentUpTo bound s
  | bound + 1, c :: s => (.literal c :: ·) <$> segmentUpTo bound s

def segmentElements (segment : Text) : Option (List Element) :=
  if segment = ['*'] then some [.name] else segmentUpTo segment.length segment

/-- The segment that stands for any number of directories. -/
def doubleStar : Text := ['*', '*']

/-- Segments in which a run of double stars is one double star. -/
def collapseStars : List Text → List Text
  | [] => []
  | seg :: segs =>
    if seg = doubleStar && segs.head? == some doubleStar then collapseStars segs
    else seg :: collapseStars segs

/-- The parts of the segments after the first one; `slash` tells whether a slash has to come before the
next one. -/
def laterElements : (slash : Bool) → List Text → Option (List Element × Ending)
  | _, [] => some ([], .entry)
  | slash, seg :: segs =>
    if seg = doubleStar then
      if segs = [] then some ([], .content)
      else (fun (es, ending) => (.innerDirs :: es, ending)) <$> laterElements true segs
    else do
      let first ← segmentElements seg
      let (es, ending) ← laterElements true segs
      return ((if slash then [.literal '/'] else []) ++ first ++ es, ending)

def anchoredElements : List Text → Option (List Element × Ending)
  | [] => none
  | [seg] =>
    if seg = doubleStar then some ([.name], .entry)
    else (·, .entry) <$> segmentElements seg
  | seg :: segs =>
    if seg = doubleStar then (fun (es, ending) => (.leadingDirs :: es, ending)) <$> laterElements false segs
    else laterElements false (seg :: segs)

/-- Segments from the start of the path: a pattern that begins with a slash names paths from there, one
without any slash but a last one names paths at every depth, and a last slash asks for what lies below. -/
def anchor (segs : List Text) : List Text :=
  let segs := match segs with
    | [] :: segs => segs
    | [seg] => if seg = doubleStar then [seg] else [doubleStar, seg]
    | [seg, []] => if seg = doubleStar then [seg, []] else [doubleStar, seg, []]
    | segs => segs
  if segs.length > 1 && segs.getLast? == some [] then segs.dropLast ++ [doubleStar] else segs

def patternElements (pattern : Text) : Option (List Element × Ending) :=
  match collapseStars (pattern.splitOn '/') with
  | [seg, []] =>
    if seg = doubleStar then some ([.anything], .content) else anchoredElements (anchor [seg, []])
  | segs => anchoredElements (anchor segs)

/-- A line without the white space around it; a space that is escaped at the end stays. -/
def trimLine (line : Text) : Text :=
  if Text.startsWith line.reverse [' ', '\\'] then line.stripStart else line.strip

/-- Compiles a line; blank lines, comments and a lone slash name nothing. -/
def IgnorePattern.ofLine? (line : Text) : Except IgnoreError (Option IgnorePattern) :=
  let line := trimLine line
  if line = [] || line.head? == some '#' || line = ['/'] then .ok none
  else
    let (negated, pattern) := match line with
      | '!' :: pattern => (true, pattern)
      | pattern => (false, pattern)
    match patternElements pattern with
    | none => .error .malformed
    | some (elements, ending) =>
      if elements.all Element.isOrdered then .ok (some ⟨negated, elements, ending⟩)
      else .error .badRange

/-! ## 3. Matching -/

/-- How a path is matched: it is the named path itself, or it lies below it. -/
inductive Hit where
  | direct
  | below
  deriving DecidableEq, Repr

/-- Tries a continuation after the longest run of characters of a class, then after shorter ones. -/
def afterRun (p : Char → Bool) (k : Text → Option Hit) : Text → Option Hit
  | [] => k []
  | c :: s => if p c then (afterRun p k s).orElse fun _ => k (c :: s) else k (c :: s)

/-- Tries a continuation after a run that is not empty. -/
def afterRunOne (p : Char → Bool) (k : Text → Option Hit) : Text → Option Hit
  | [] => none
  | c :: s => if p c then afterRun p k s else none

/-- Tries a continuation after a character of a class. -/
def afterChar (p : Char → Bool) (k : Text → Option Hit) : Text → Option Hit
  | [] => none
  | c :: s => if p c then k s else none

def inRanges (ranges : List (Char × Char)) (c : Char) : Bool :=
  ranges.any fun (low, high) => low ≤ c && c ≤ high

/-- Whether what is left of a path begins a path below the match: a slash, and no line break after it
except as the last character. -/
def isBelow : Text → Bool
  | '/' :: s => Text.isAtEnd (s.dropWhile (· ≠ '\n'))
  | _ => false

def Ending.hit? : Ending → Text → Option Hit
  | .entry, s => if isBelow s then some .below else if s.isAtEnd then some .direct else none
  | .content, s => if isBelow s then some .below else none

def firstHit (ending : Ending) : List Element → Text → Option Hit
  | [], s => ending.hit? s
  | .literal c :: es, s => afterChar (· = c) (firstHit ending es) s
  | .oneOf negated ranges :: es, s =>
    afterChar (fun c => inRanges ranges c != negated) (firstHit ending es) s
  | .nameChar :: es, s => afterChar (· ≠ '/') (firstHit ending es) s
  | .nameChars :: es, s => afterRun (· ≠ '/') (firstHit ending es) s
  | .name :: es, s => afterRunOne (· ≠ '/') (firstHit ending es) s
  | .anything :: es, s => afterRunOne (· ≠ '\n') (firstHit ending es) s
  | .leadingDirs :: es, s =>
    (afterRunOne (· ≠ '\n') (afterChar (· = '/') (firstHit ending es)) s).orElse
      fun _ => firstHit ending es s
  | .innerDirs :: es, s =>
    (afterChar (· = '/') (afterRunOne (· ≠ '\n') (firstHit ending es)) s).orElse
      fun _ => firstHit ending es s

/-- How a pattern matches a path. -/
def IgnorePattern.hit? (p : IgnorePattern) (path : Text) : Option Hit :=
  firstHit p.ending p.elements path

/-! ## 4. Lists -/

abbrev IgnoreList := List IgnorePattern

/-- Compiles the lines of an ignore list, up to the first one that cannot be compiled. -/
def IgnoreList.ofLines? (lines : List Text) : Except IgnoreError IgnoreList :=
  (fun ps => ps.filterMap id) <$> lines.mapM IgnorePattern.ofLine?

/-- A path as ignore lists see it: a slash or a dot and a slash at its start do not count. -/
def relativePath : Text → Text
  | '/' :: path => path
  | '.' :: '/' :: path => path
  | path => path

/-- Whether a list names a path: the last line that matches it decides. -/
def IgnoreList.names (list : IgnoreList) (path : Text) : Bool :=
  match list.reverse.find? fun p => (p.hit? (relativePath path)).isSome with
  | some p => !p.negated
  | none => false

end AssetEmbed.Glob
