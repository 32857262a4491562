import AssetEmbed.Text.Utf16

/-!
# String literals of scripts

The value of a quoted literal.  The body of a literal spells UTF-16 code units, by plain characters, by
escapes and by line continuations, which spell nothing; the value is the text of these units, so two
escapes that spell a surrogate pair give one character.
-/

namespace AssetEmbed.Script

/-! ## 1. Escapes -/

def isLineTerminator (c : Char) : Bool :=
  c = '\n' || c = '\r' || c = '\u2028' || c = '\u2029'

/-- The character that a one-letter escape stands for: a control character, or the letter itself. -/
def simpleEscape (c : Char) : Char :=
  if c = 'n' then '\n'
  else if c = 'r' then '\r'
  else if c = 't' then '\t'
  else if c = 'b' then '\x08'
  else if c = 'f' then '\x0C'
  else if c = 'v' then '\x0B'
  else if c = '0' then '\x00'
  else c

def isHex (c : Char) : Bool := (Text.hexValue? c).isSome

/-- An escape of a fixed number of hexadecimal digits: its value, and the rest. -/
def fixedHex? (count : Nat) (s : Text) : Option (Nat × Text) :=
  let digits := s.take count
  if digits.length = count && digits.all isHex then some (Text.ofHex digits, s.drop count) else none

/-- An escape of hexadecimal digits up to a closing brace: the digits, and the rest. -/
def bracedHex? (s : Text) : Option (Text × Text) :=
  let digits := s.takeWhile isHex
  match digits, s.dropWhile isHex with
  | _ :: _, '}' :: rest => some (digits, rest)
  | _, _ => none

/-- The units that the text after a backslash spells, and the rest.  A value beyond U+10FFFF spells its
own notation, and a backslash with nothing after it stands for itself. -/
def escapeUnits : Text → List UInt16 × Text
  | [] => (Utf16.unitsOf '\\'.toNat, [])
  | 'x' :: s =>
    match fixedHex? 2 s with
    | some (n, rest) => (Utf16.unitsOf n, rest)
    | none => (Utf16.unitsOf 'x'.toNat, s)
  | 'u' :: '{' :: s =>
    match bracedHex? s with
    | some (digits, rest) =>
      if Text.ofHex digits ≤ 0x10FFFF then (Utf16.unitsOf (Text.ofHex digits), rest)
      else (Utf16.encode (['\\', 'u', '{'] ++ digits ++ ['}']), rest)
    | none => (Utf16.unitsOf 'u'.toNat, '{' :: s)
  | 'u' :: s =>
    match fixedHex? 4 s with
    | some (n, rest) => (Utf16.unitsOf n, rest)
    | none => (Utf16.unitsOf 'u'.toNat, s)
  | '\r' :: '\n' :: s => ([], s)
  | c :: s => if isLineTerminator c then ([], s) else (Utf16.unitsOf (simpleEscape c).toNat, s)

/-! ## 2. Values -/

/-- The units that a body spells, from a bound on its length. -/
def unitsUpTo : (bound : Nat) → Text → List UInt16
  | 0, _ => []
  | _ + 1, [] => []
  | bound + 1, '\\' :: s => (escapeUnits s).1 ++ unitsUpTo bound (escapeUnits s).2
  | bound + 1, c :: s => Utf16.unitsOf c.toNat ++ unitsUpTo bound s

def unescape (body : Text) : Text := Utf16.decode (unitsUpTo body.length body)

/-- The value of a literal with its quotes, if the quotes are there and agree. -/
def literalValue? (raw : Text) : Option Text :=
  match raw with
  | q :: rest =>
    if (q = '\'' || q = '"') && rest.getLast? == some q then some (unescape rest.dropLast) else none
  | [] => none

end AssetEmbed.Script
