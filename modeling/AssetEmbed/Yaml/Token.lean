import AssetEmbed.Text.Utf8
import AssetEmbed.Yaml.Scalar

/-!
# YAML tokens

A document is a list of tokens in which the indentation has become brackets: where a block collection
begins and where it ends there are tokens of their own.  A key without a mark of its own is recognised by the
colon after it; its tokens are then placed before what was read as an ordinary scalar.
-/

namespace AssetEmbed.Yaml

/-! ## 1. Tokens -/

inductive Token where
  | version (major minor : Nat)
  /-- A line that tells what a handle of tags stands for. -/
  | handle (name expansion : Text)
  /-- Any other line of instructions. -/
  | directive
  | documentStart
  | documentEnd
  | blockSequence
  | blockMapping
  | blockEnd
  | flowSequence
  | flowSequenceEnd
  | flowMapping
  | flowMappingEnd
  | blockEntry
  | flowEntry
  | key
  | value
  | alias (name : Text)
  | anchor (name : Text)
  /-- A tag of a handle, or in full. -/
  | tag (handle : Option Text) (suffix : Text)
  | scalar (plain : Bool) (text : Text)
  deriving DecidableEq, Repr

structure Cursor where
  rest : Text
  line : Nat
  column : Nat
  offset : Nat

namespace Cursor

/-- The place after one more character.  A byte order mark takes no column. -/
def next (c : Cursor) : Cursor :=
  match c.rest with
  | [] => c
  | ch :: rest =>
    if ch = '\n' then ⟨rest, c.line + 1, 0, c.offset + 1⟩
    else ⟨rest, c.line, c.column + (if ch = '\uFEFF' then 0 else 1), c.offset + 1⟩

def advance (c : Cursor) : Nat → Cursor
  | 0 => c
  | n + 1 => c.next.advance n

def upTo (c : Cursor) (rest : Text) : Cursor := c.advance (c.rest.length - rest.length)

def skipWhile (c : Cursor) (p : Char → Bool) : Cursor := c.upTo (c.rest.dropWhile p)

/-- The place after blanks, comments and line breaks, and whether there was a line break.  Tabs count as
blanks only in brackets and braces. -/
def skipGap (inFlow : Bool) : (bound : Text) → Cursor → Bool × Cursor
  | [], c => (false, c)
  | _ :: bound, c =>
    let c := c.skipWhile fun ch => ch = ' ' || (inFlow && ch = '\t')
    let c := if c.rest.head? = some '#' then c.skipWhile (!endsLine ·) else c
    match lineBreak? c.rest with
    | some (_, rest) => (true, (skipGap inFlow bound (c.upTo rest)).2)
    | none => (false, c)

end Cursor

/-! ## 2. Scanning -/

/-- What may turn out to be a key: its place, the number of tokens before it, and whether it has to be a key
because the mapping around it goes on there. -/
structure KeyCandidate where
  place : Cursor
  tokens : Nat
  required : Bool

/-- A document that is being split into tokens. -/
structure Scan where
  /-- The place that has been reached. -/
  cursor : Cursor
  tokens : List Token
  indents : List Nat
  flows : List Bool
  /-- The candidates for keys: one at most for each open bracket or brace and one outside, the innermost
  first. -/
  candidates : List (Option KeyCandidate)
  mayBeginKey : Bool

namespace Scan

/-- A document before its first token; a byte order mark at its start does not count. -/
def ofText (s : Text) : Scan where
  cursor := ⟨if s.head? = some '\uFEFF' then s.tail else s, 0, 0, 0⟩
  tokens := []
  indents := []
  flows := []
  candidates := [none]
  mayBeginKey := true

def inFlow (s : Scan) : Bool := s.flows ≠ []

/-- The column of the innermost block collection; −1 outside of all. -/
def indent (s : Scan) : Int :=
  match s.indents with
  | [] => -1
  | n :: _ => n

def push (s : Scan) (t : Token) : Scan := { s with tokens := t :: s.tokens }

def insert (s : Scan) (t : Token) (count : Nat) : Scan :=
  let later := s.tokens.length - count
  { s with tokens := s.tokens.take later ++ t :: s.tokens.drop later }

def moveTo (s : Scan) (c : Cursor) : Scan := { s with cursor := c }

def take (s : Scan) (t : Token) (characters : Nat) : Scan :=
  (s.push t).moveTo (s.cursor.advance characters)

def allowKey (s : Scan) (b : Bool) : Scan := { s with mayBeginKey := b }

/-! ### Candidates for keys -/

/-- The number of characters that a key without a mark of its own may have. -/
def maxKeyLength : Nat := 1024

/-- Whether a candidate can no longer be a key: it has to be on one line. -/
def outdated (s : Scan) (k : KeyCandidate) : Bool :=
  k.place.line ≠ s.cursor.line || s.cursor.offset - k.place.offset > maxKeyLength

def dropOutdated? (s : Scan) : Option Scan :=
  if s.candidates.any fun k => k.any fun k => s.outdated k && k.required then none
  else some { s with candidates := s.candidates.map fun k => k.filter (!s.outdated ·) }

def dropCandidate? (s : Scan) : Option Scan :=
  match s.candidates with
  | some k :: outer => if k.required then none else some { s with candidates := none :: outer }
  | _ => some s

def noteCandidate? (s : Scan) : Option Scan :=
  if s.mayBeginKey then
    s.dropCandidate?.map fun s =>
      let k := ⟨s.cursor, s.tokens.length, !s.inFlow && s.indent = s.cursor.column⟩
      { s with candidates := some k :: s.candidates.tail }
  else some s

/-! ### Indentation -/

def unwind (column : Int) : List Nat → Nat × List Nat
  | [] => (0, [])
  | n :: indents =>
    if column < n then
      let (ended, indents) := unwind column indents
      (ended + 1, indents)
    else (0, n :: indents)

/-- Ends the block collections that are indented more than a column; in brackets and braces indentation
does not count. -/
def endBlocks (s : Scan) (column : Int) : Scan :=
  if s.inFlow then s
  else
    let (ended, indents) := unwind column s.indents
    { s with tokens := List.replicate ended .blockEnd ++ s.tokens, indents := indents }

/-- Opens a block collection at a column after a number of tokens, if it is indented more than the one
around it. -/
def openBlock (s : Scan) (t : Token) (column count : Nat) : Scan :=
  if s.indent < column then { s.insert t count with indents := column :: s.indents } else s

/-! ### Tokens of one or a few characters -/

def endAll? (s : Scan) : Option Scan := ((s.endBlocks (-1)).dropCandidate?).map (·.allowKey false)

def separator? (s : Scan) (t : Token) : Option Scan := s.endAll?.map (·.take t 3)

def openFlow? (s : Scan) (t : Token) (bracket : Bool) : Option Scan :=
  s.noteCandidate?.map fun s =>
    ({ s with flows := bracket :: s.flows, candidates := none :: s.candidates }.allowKey true).take t 1

/-- A closing bracket or brace; one that closes nothing changes nothing. -/
def closeFlow? (s : Scan) (t : Token) : Option Scan :=
  s.dropCandidate?.map fun s =>
    let s := match s.flows with
      | [] => s
      | _ :: flows => { s with flows := flows, candidates := s.candidates.tail }
    (s.allowKey false).take t 1

def flowEntry? (s : Scan) : Option Scan := ((s.allowKey true).dropCandidate?).map (·.take .flowEntry 1)

/-- A mark that may open a block collection: it has to be where a key may begin. -/
def mark? (s : Scan) (collection t : Token) (thenKey : Bool) : Option Scan :=
  if s.inFlow then ((s.allowKey thenKey).dropCandidate?).map (·.take t 1)
  else if s.mayBeginKey then
    (((s.openBlock collection s.cursor.column s.tokens.length).allowKey true).dropCandidate?).map
      (·.take t 1)
  else none

def blockEntry? (s : Scan) : Option Scan := s.mark? .blockSequence .blockEntry true

def key? (s : Scan) : Option Scan := s.mark? .blockMapping .key false

/-- The mark of a value: what was a candidate before it is a key. -/
def value? (s : Scan) : Option Scan :=
  match s.candidates with
  | some k :: outer =>
    let s := { s with candidates := none :: outer }.insert .key k.tokens
    let s := if s.inFlow then s else s.openBlock .blockMapping k.place.column k.tokens
    some ((s.allowKey false).take .value 1)
  | _ => s.mark? .blockMapping .value false

/-! ### Names -/

def isNameChar (c : Char) : Bool :=
  !isFlowSign c && c ≠ '\uFEFF' &&
    (('\x21' ≤ c && c ≤ '\x7E') || ('\u00A0' ≤ c && c ≤ '\uFFFD') || 0x10000 ≤ c.toNat)

/-- The name of an anchor or an alias after its sign. -/
def name? (s : Text) : Option (Text × Text) :=
  let name := s.takeWhile isNameChar
  let rest := s.dropWhile isNameChar
  if name ≠ [] && (isGap rest || rest.head?.any fun c => isBreak c || "?:,[]\x7b\x7d%@`".toList.elem c)
  then some (name, rest) else none

def isHandleChar (c : Char) : Bool := c.isAlphanum || c = '-' || c = '_'

/-- The handle of a tag: two exclamation marks with letters between them, or a single one before a blank. -/
def handle? : Text → Option (Text × Text)
  | '!' :: rest =>
    if rest.head? = some ' ' then some (['!'], rest)
    else match rest.dropWhile isHandleChar with
      | '!' :: after => some ('!' :: rest.takeWhile isHandleChar ++ ['!'], after)
      | _ => none
  | _ => none

def percentBytes : Text → Bytes
  | '%' :: a :: b :: rest =>
    match Text.hexValue? a, Text.hexValue? b with
    | some x, some y => (UInt8.ofNat (x * 16 + y)) :: percentBytes rest
    | _, _ => []
  | _ => []

/-- The address in a tag, in which `%XX` stands for the bytes of characters. -/
def address? : (bound : Text) → Text → Option (Text × Text)
  | [], s => some ([], s)
  | _ :: _, [] => some ([], [])
  | _ :: bound, c :: rest =>
    if c = '%' then
      let bytes := percentBytes (c :: rest)
      match bytes, Utf8.decode? bytes with
      | _ :: _, .ok value =>
        let rest := rest.drop (3 * bytes.length - 1)
        if rest.head? = some '%' then none
        else (address? bound rest).map fun (more, rest) => (value ++ more, rest)
      | _, _ => none
    else if c.isAlphanum || "-;/?:@&=+$,_.!~*'()[]#".toList.elem c then
      (address? bound rest).map fun (more, rest) => (c :: more, rest)
    else some ([], c :: rest)

def address1? (s : Text) : Option (Text × Text) :=
  (address? s s).bind fun (value, rest) => if rest.length = s.length then none else some (value, rest)

/-- Whether a tag has a second exclamation mark before the next blank. -/
def namesHandle (s : Text) : Bool := (s.takeWhile fun c => c ≠ ' ' && !isBreak c).elem '!'

/-- A tag after its exclamation mark. -/
def tag? (s : Text) : Option (Token × Text) :=
  let read : Option (Token × Text) := match s with
    | '<' :: rest =>
      match address1? rest with
      | some (value, '>' :: rest) => some (.tag none value, rest)
      | _ => none
    | _ =>
      if isGap s then some (.tag none ['!'], s)
      else if namesHandle s then do
        let (handle, rest) ← handle? ('!' :: s)
        let (value, rest) ← address1? rest
        return (.tag (some handle) value, rest)
      else (address1? s).map fun (value, rest) => (.tag (some ['!']) value, rest)
  read.bind fun (t, rest) => if isClosed rest then some (t, rest) else none

/-- Reads a property or an alias, which may begin a key. -/
def property? (s : Scan) (read : Text → Option (Token × Text)) : Option Scan := do
  let s ← s.noteCandidate?
  let (t, rest) ← read s.cursor.rest.tail
  return ((s.allowKey false).push t).moveTo (s.cursor.upTo rest)

/-! ### Lines of instructions -/

def isDirectiveChar (c : Char) : Bool := isHandleChar c || c = ':' || c = '.'

def number? (s : Text) : Option (Nat × Text) :=
  let digits := s.takeWhile Char.isDigit
  if digits = [] then none
  else some (digits.foldl (fun n d => n * 10 + (d.toNat - '0'.toNat)) 0, s.dropWhile Char.isDigit)

def version? (s : Text) : Option (Token × Text) := do
  let (major, rest) ← number? (s.dropWhile (· = ' '))
  match rest with
  | '.' :: rest =>
    let (minor, rest) ← number? rest
    if isClosed rest then return (.version major minor, rest) else none
  | _ => none

/-- The handle that an instruction explains. -/
def explanation? (s : Text) : Option (Token × Text) := do
  let (handle, rest) ← handle? (s.dropWhile (· = ' '))
  if rest.head? ≠ some ' ' then none
  let (value, rest) ← address1? (rest.dropWhile (· = ' '))
  if isClosed rest then return (.handle handle value, rest) else none

def lineRest? (s : Text) : Option Text :=
  let rest := s.dropWhile (· = ' ')
  let rest := if rest.head? = some '#' then rest.dropWhile (!endsLine ·) else rest
  match rest with
  | [] => some []
  | _ => (lineBreak? rest).map (·.2)

def directive? (s : Scan) : Option Scan := do
  let s ← s.endAll?
  let line := s.cursor.rest.tail
  let name := line.takeWhile isDirectiveChar
  let rest := line.dropWhile isDirectiveChar
  if name = [] || !isClosed rest then none
  let (t, rest) ←
    if name = "YAML".toList then version? rest
    else if name = "TAG".toList then explanation? rest
    else some (.directive, rest.dropWhile (!endsLine ·))
  let rest ← lineRest? rest
  return (s.push t).moveTo (s.cursor.upTo rest)

/-! ### Scalars -/

def quoted? (s : Scan) (quote : Char) : Option Scan := do
  let s ← s.noteCandidate?
  let (text, rest) ← Yaml.quoted? quote s.cursor.rest s.cursor.rest.tail
  return ((s.allowKey false).push (.scalar false text)).moveTo (s.cursor.upTo rest)

def block? (s : Scan) (folded : Bool) : Option Scan := do
  let s ← (s.allowKey true).dropCandidate?
  let (text, _, rest) ← Yaml.block? folded s.indent s.cursor.rest.tail
  return (s.push (.scalar false text)).moveTo (s.cursor.upTo rest)

/-- The blanks and line breaks after a word of a plain scalar: what they stand for, nothing if the scalar
ends there; whether there is a line break; and the place after them. -/
def plainGap (c : Cursor) : Text × Bool × Cursor :=
  let rest := c.rest.dropWhile (· = ' ')
  match lineBreak? rest with
  | some (b, rest) =>
    match plainBreaks rest rest with
    | (some breaks, rest) => (fold b breaks, true, c.upTo rest)
    | (none, rest) => ([], true, c.upTo rest)
  | none => (c.rest.takeWhile (· = ' '), false, c.upTo rest)

/-- A plain scalar after a gap: its text, whether the last gap has a line break, and the place after it.  A
line that is not indented enough ends it. -/
def plainFrom (inFlow : Bool) (indent : Int) :
    (bound : Text) → (gap : Text) → (broken : Bool) → Cursor → Text × Bool × Cursor
  | [], _, broken, c => ([], broken, c)
  | _ :: bound, gap, broken, c =>
    let word := plainWord inFlow c.rest
    if word = [] then ([], broken, c)
    else
      let (next, broken, c) := plainGap (c.advance word.length)
      if next = [] || c.rest.head? = some '#' || (!inFlow && (c.column : Int) ≤ indent) then
        (gap ++ word, broken, c)
      else
        let (more, broken, c) := plainFrom inFlow indent bound next broken c
        (gap ++ word ++ more, broken, c)

def plain? (s : Scan) : Option Scan :=
  s.noteCandidate?.map fun s =>
    let (text, broken, c) := plainFrom s.inFlow s.indent s.cursor.rest [] false s.cursor
    ((s.allowKey broken).push (.scalar true text)).moveTo c

/-! ### Documents -/

/-- Whether a colon at the start of a text is the mark of a value. -/
def marksValue (s : Scan) (rest : Text) : Bool :=
  match s.flows with
  | [] => isGap rest
  | bracket :: _ => !bracket || isGap rest

def token? (s : Scan) : Option Scan :=
  match s.cursor.rest with
  | [] => none
  | c :: rest =>
    -- directives and separators stand at the left margin only
    if c = '%' && s.cursor.column = 0 then s.directive?
    else if s.cursor.column = 0 && isSeparator (c :: rest) then
      s.separator? (if c = '-' then .documentStart else .documentEnd)
    else if c = '[' then s.openFlow? .flowSequence true
    else if c = '\x7b' then s.openFlow? .flowMapping false
    else if c = ']' then s.closeFlow? .flowSequenceEnd
    else if c = '\x7d' then s.closeFlow? .flowMappingEnd
    else if c = ',' then s.flowEntry?
    else if c = '-' && isGap rest then s.blockEntry?
    else if c = '?' && (s.inFlow || isGap rest) then s.key?
    else if c = ':' && s.marksValue rest then s.value?
    else if c = '*' then s.property? fun t => (name? t).map fun (n, rest) => (.alias n, rest)
    else if c = '&' then s.property? fun t => (name? t).map fun (n, rest) => (.anchor n, rest)
    else if c = '!' then s.property? tag?
    else if c = '|' && !s.inFlow then s.block? false
    else if c = '>' && !s.inFlow then s.block? true
    else if c = '\'' || c = '"' then s.quoted? c
    else if beginsPlain s.inFlow (c :: rest) then s.plain?
    else none

def run? : (bound : Text) → Scan → Option Scan
  | bound, s => do
    let (newLine, c) := s.cursor.skipGap s.inFlow s.cursor.rest
    let s := if newLine && !s.inFlow then s.allowKey true else s
    let s ← (s.moveTo c).dropOutdated?
    let s := s.endBlocks s.cursor.column
    match s.cursor.rest, bound with
    | [], _ => s.endAll?
    | _ :: _, [] => none
    | _ :: _, _ :: bound => s.token? >>= run? bound

end Scan

def Token.ofText? (s : Text) : Option (List Token) :=
  if s.all isPrintable then ((Scan.ofText s).run? s).map (·.tokens.reverse) else none

end AssetEmbed.Yaml
