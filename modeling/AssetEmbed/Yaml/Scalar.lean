import AssetEmbed.Text

/-!
# YAML scalars — the three ways to write a text

A scalar is plain, in quotes, or a block of lines.  Each form is read from the text after what opens it; the
line breaks within a scalar are folded to blanks or kept, as its form says.
-/

namespace AssetEmbed.Yaml

/-! ## 1. Characters -/

/-- Whether a document may hold a character. -/
def isPrintable (c : Char) : Bool :=
  let n := c.toNat
  c = '\t' || c = '\n' || c = '\r' || (0x20 ≤ n && n ≤ 0x7E) || n = 0x85 || (0xA0 ≤ n && n ≤ 0xD7FF) ||
    (0xE000 ≤ n && n ≤ 0xFFFD) || 0x10000 ≤ n

def isBlank (c : Char) : Bool := c = ' ' || c = '\t'

def isBreak (c : Char) : Bool := c = '\n' || c = '\r' || c = '\x85' || c = '\u2028' || c = '\u2029'

def endsLine (c : Char) : Bool := c = '\n' || c = '\r' || c = '\x85'

/-- Whether a word ends before a text: at its end, or at a blank or the end of a line. -/
def isGap : Text → Bool
  | [] => true
  | c :: _ => isBlank c || endsLine c

/-- Whether a directive, a tag or a header may end before a text: a tab does not end it. -/
def isClosed : Text → Bool
  | [] => true
  | c :: _ => c = ' ' || isBreak c

/-- What stands for a line break in a scalar: the breaks of ordinary lines are all one. -/
def breakText (c : Char) : Text := if endsLine c then ['\n'] else [c]

def lineBreak? : Text → Option (Text × Text)
  | [] => none
  | c :: rest => if isBreak c then some (breakText c, rest) else none

def isSeparator (s : Text) : Bool :=
  match s with
  | '-' :: '-' :: '-' :: rest => isGap rest
  | '.' :: '.' :: '.' :: rest => isGap rest
  | _ => false

/-- Folds line breaks: a single ordinary one is a blank, of several the first one is dropped. -/
def fold (first : Text) (more : Text) : Text :=
  if first = ['\n'] then (if more = [] then [' '] else more) else first ++ more

/-! ## 2. Quoted scalars -/

/-- The line breaks that follow a first one, with the blanks around them.  No line may separate documents. -/
def quotedBreaks? : (bound : Text) → Text → Option (Text × Text)
  | [], s => some ([], s)
  | _ :: bound, s =>
    if isSeparator s then none
    else match lineBreak? (s.dropWhile isBlank) with
      | some (b, rest) => (quotedBreaks? bound rest).map fun (bs, rest) => (b ++ bs, rest)
      | none => some ([], s.dropWhile isBlank)

/-- What a run of blanks and line breaks in a quoted scalar stands for. -/
def quotedGap? (s : Text) : Option (Text × Text) :=
  let rest := s.dropWhile isBlank
  match lineBreak? rest with
  | some (b, rest) => (quotedBreaks? rest rest).map fun (bs, rest) => (fold b bs, rest)
  | none => some (s.takeWhile isBlank, rest)

def escapes : List (Char × Char) := [
  ('0', '\x00'), ('a', '\x07'), ('b', '\x08'), ('t', '\t'), ('\t', '\t'), ('n', '\n'), ('v', '\x0B'),
  ('f', '\x0C'), ('r', '\r'), ('e', '\x1B'), (' ', ' '), ('"', '"'), ('/', '/'), ('\\', '\\'),
  ('N', '\x85'), ('_', '\u00A0'), ('L', '\u2028'), ('P', '\u2029')]

/-- The number of hexadecimal digits that a letter after a backslash asks for. -/
def escapeDigits? (c : Char) : Option Nat :=
  if c = 'x' then some 2 else if c = 'u' then some 4 else if c = 'U' then some 8 else none

/-- What the text after a backslash stands for, and what is left. -/
def escape? : Text → Option (Text × Text)
  | [] => none
  | c :: rest =>
    match escapes.find? (·.1 = c), escapeDigits? c with
    | some (_, value), _ => some ([value], rest)
    | none, some n =>
      if n ≤ (rest.take n).length && (rest.take n).all fun d => (Text.hexValue? d).isSome then
        some ([Char.ofNat (Text.ofHex (rest.take n))], rest.drop n)
      else none
    | none, none => if isBreak c then quotedBreaks? rest rest else none

/-- The value of a quoted scalar after its opening quote, and what follows its closing quote. -/
def quoted? (quote : Char) : (bound : Text) → Text → Option (Text × Text)
  | _, [] => none
  | [], _ => none
  | _ :: bound, c :: rest =>
    let after (value rest : Text) : Option (Text × Text) :=
      (quoted? quote bound rest).map fun (more, rest) => (value ++ more, rest)
    if c = quote then
      if quote = '\'' && rest.head? = some quote then after [quote] rest.tail else some ([], rest)
    else if quote = '"' && c = '\\' then (escape? rest).bind fun (value, rest) => after value rest
    else if isBlank c || isBreak c then
      (quotedGap? (c :: rest)).bind fun (value, rest) => after value rest
    else after [c] rest

/-! ## 3. Block scalars -/

inductive Chomp where
  | strip
  | clip
  | keep
  deriving DecidableEq, Repr

def Chomp.ofSign? (c : Char) : Option Chomp :=
  if c = '+' then some .keep else if c = '-' then some .strip else none

def indentOfDigit? (c : Char) : Option Nat :=
  if '0' ≤ c ∧ c ≤ '9' then some (c.toNat - '0'.toNat) else none

/-- The header of a block: its chomping, its indentation if it is told, and what follows the line. -/
def blockHeader? (s : Text) : Option (Chomp × Option Nat × Text) :=
  let (chomp, indent, rest) : Option Chomp × Option Nat × Text :=
    match s with
    | [] => (none, none, [])
    | c :: rest =>
      -- the sign and the digit come in either order
      match Chomp.ofSign? c, indentOfDigit? c with
      | some chomp, _ =>
        match rest.head?.bind indentOfDigit? with
        | some n => (some chomp, some n, rest.tail)
        | none => (some chomp, none, rest)
      | none, some n =>
        match rest.head?.bind Chomp.ofSign? with
        | some chomp => (some chomp, some n, rest.tail)
        | none => (none, some n, rest)
      | none, none => (none, none, s)
  if indent = some 0 || !isClosed rest then none
  else
    let rest := rest.dropWhile (· = ' ')
    let rest := if rest.head? = some '#' then rest.dropWhile (!endsLine ·) else rest
    match rest with
    | [] => some (chomp.getD .clip, indent, [])
    | _ => (lineBreak? rest).map fun (_, rest) => (chomp.getD .clip, indent, rest)

/-- The place in a block: the column, and what is left. -/
abbrev BlockPlace := Nat × Text

/-- The empty lines before the first line of a block, and the widest indentation among them and it. -/
def blockLead : Text → (column widest : Nat) → Text × Nat × BlockPlace
  | [], column, widest => ([], widest, column, [])
  | c :: rest, column, widest =>
    if c = ' ' then blockLead rest (column + 1) (max widest (column + 1))
    else if isBreak c then
      let (breaks, widest, place) := blockLead rest 0 widest
      (breakText c ++ breaks, widest, place)
    else ([], widest, column, c :: rest)

/-- The empty lines before the next line of a block, and its place after the indentation. -/
def blockBreaks (indent : Nat) : Text → (column : Nat) → Text × BlockPlace
  | [], column => ([], column, [])
  | c :: rest, column =>
    if c = ' ' && column < indent then blockBreaks indent rest (column + 1)
    else if isBreak c then
      let (breaks, place) := blockBreaks indent rest 0
      (breakText c ++ breaks, place)
    else ([], column, c :: rest)

/-- The lines of a block: their text, the break that ends the last one, the empty lines after it, and the
place after them.  `atMargin` tells that the block may stand at the left margin, where a line can separate
documents. -/
def blockLines (folded atMargin : Bool) (indent : Nat) :
    (bound : Text) → (breaks : Text) → BlockPlace → Text × Text × Text × BlockPlace
  | [], breaks, place => ([], [], breaks, place)
  | _ :: bound, breaks, (column, s) =>
    if column ≠ indent || s = [] then ([], [], breaks, column, s)
    else
      let line := s.takeWhile (!endsLine ·)
      let rest := s.dropWhile (!endsLine ·)
      let (lineEnd, column, rest) := match lineBreak? rest with
        | some (b, rest) => (b, 0, rest)
        | none => ([], column + line.length, rest)
      let (more, place) := blockBreaks indent rest column
      if (atMargin && isSeparator place.2) || place.1 ≠ indent || place.2 = [] then
        (breaks ++ line, lineEnd, more, place)
      else
        -- a folded line break is a space, unless a line beside it begins with a blank
        let glue :=
          if folded && lineEnd = ['\n'] && !s.head?.any isBlank && !place.2.head?.any isBlank then
            (if more = [] then [' '] else [])
          else lineEnd
        let (tail, lineEnd, trailing, place) := blockLines folded atMargin indent bound more place
        (breaks ++ line ++ glue ++ tail, lineEnd, trailing, place)

/-- The value of a block after the sign that opens it, and what follows it; `parent` is the indentation of
what the block stands in, and a block at the left margin has the indentation −1 around it. -/
def block? (folded : Bool) (parent : Int) (s : Text) : Option (Text × BlockPlace) :=
  (blockHeader? s).map fun (chomp, told, rest) =>
    let least := (parent + 1).toNat
    -- the lines up to the first text tell the indentation, unless the header does
    let (atMargin, indent, breaks, place) := match told with
      | none =>
        let (breaks, widest, place) := blockLead rest 0 0
        (decide (least = 0), max least widest, breaks, place)
      | some n =>
        let indent := max least 1 + n - 1
        let (breaks, place) := blockBreaks indent rest 0
        (false, indent, breaks, place)
    let (lines, lineEnd, trailing, place) := blockLines folded atMargin indent (' ' :: rest) breaks place
    match chomp with
    | .strip => (lines, place)
    | .clip => (lines ++ lineEnd, place)
    | .keep => (lines ++ lineEnd ++ trailing, place)

/-! ## 4. Plain scalars -/

def isFlowSign (c : Char) : Bool := ",[]{}".toList.elem c

/-- The characters of a plain scalar up to the next blank. -/
def plainWord (inFlow : Bool) : Text → Text
  | [] => []
  | c :: rest =>
    if c = ':' then
      if isGap rest then [] else c :: plainWord inFlow rest
    else if isBlank c || endsLine c || (inFlow && isFlowSign c) then []
    else c :: plainWord inFlow rest

def plainBreaks : (bound : Text) → Text → Option Text × Text
  | [], s => (some [], s)
  | _ :: bound, s =>
    if isSeparator s then (none, s)
    else
      let rest := s.dropWhile (· = ' ')
      match lineBreak? rest with
      | some (b, rest) =>
        let (breaks, rest) := plainBreaks bound rest
        (breaks.map (b ++ ·), rest)
      | none => (some [], rest)

/-- Whether a plain scalar may begin with a text. -/
def beginsPlain (inFlow : Bool) : Text → Bool
  | [] => false
  | c :: rest =>
    if c = '-' then !isGap rest
    else if c = ':' && inFlow then !rest.head?.any isBlank
    else if c = '?' || c = ':' then !inFlow && !isGap rest
    else !(isBlank c || isBreak c || "#&*!|>'\"%@`,[]\x7b\x7d".toList.elem c)

end AssetEmbed.Yaml
