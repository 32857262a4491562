import AssetEmbed.Glob.Ignore

/-!
# Alternatives — plain patterns that name files

A plain pattern, one without braces and groups, names files below a directory: those that it matches
themselves, and not those below a directory that it matches.  Its leading segments without wildcards are
a directory from which the search can start.
-/

namespace AssetEmbed.Glob

/-- Whether a character has a meaning of its own in patterns. -/
def isWildcard (c : Char) : Bool := "?*+!@()[]{}".toList.elem c

def isPattern (s : Text) : Bool := s.any isWildcard

/-- The directory that a path or pattern names by its leading segments, and the rest.  The directory ends
before the first segment with a wildcard, and never takes the last segment. -/
def splitDirectory (pattern : Text) : Text × Text :=
  let segs := pattern.splitOn '/'
  let fixed := segs.dropLast.takeWhile fun seg => !isPattern seg
  let directory := Text.joinWith '/' fixed
  (if fixed ≠ [] && directory = [] then ['/'] else directory,
    Text.joinWith '/' (segs.drop fixed.length))

def dropHereUpTo : (bound : Nat) → Text → Text
  | bound + 1, '.' :: '/' :: pattern => dropHereUpTo bound pattern
  | _, pattern => pattern

/-- A pattern without the `./` at its start. -/
def dropHere (pattern : Text) : Text := dropHereUpTo pattern.length pattern

/-- What a plain pattern selects: it is matched from the directory where it is looked for.  A negated or
empty pattern selects nothing. -/
def selector? (pattern : Text) : Except IgnoreError (Option IgnorePattern) :=
  match dropHere pattern with
  | [] => .ok none
  | '!' :: _ => .ok none
  | pattern => IgnorePattern.ofLine? ('/' :: pattern)

def IgnorePattern.selects (p : IgnorePattern) (path : Text) : Bool := p.hit? path == some .direct

/-- Whether a name is that of an entry that is passed over unless a pattern names one of its kind. -/
def isDotName (name : Text) : Bool := name.head? == some '.'

/-- Whether a pattern has a segment for entries whose names begin with a full stop. -/
def namesDotEntry (pattern : Text) : Bool :=
  (pattern.splitOn '/').any fun seg => isDotName seg && seg ≠ ['.'] && seg ≠ ['.', '.']

end AssetEmbed.Glob
