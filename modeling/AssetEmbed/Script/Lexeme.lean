import AssetEmbed.Script.StringLiteral

/-!
# Lexemes — the words, numbers, literals and comments of scripts

Each function reads one lexeme at the start of a text and gives the lexeme and the rest.  Which of them is
tried where, the grammar decides.
-/

namespace AssetEmbed.Script

abbrev Lexeme := Text → Option (Text × Text)

def before (start : Text) (read : Text × Text) : Text × Text := (start ++ read.1, read.2)

/-! ## 1. Characters -/

def isSpace (c : Char) : Bool :=
  let n := c.toNat
  (9 ≤ n && n ≤ 13) || n == 0x20 || n == 0xA0 || n == 0x1680 || (0x2000 ≤ n && n ≤ 0x200B) ||
    n == 0x2028 || n == 0x2029 || n == 0x202F || n == 0x205F || n == 0x2060 || n == 0x3000 ||
    n == 0xFEFF

def isDecimal (c : Char) : Bool := '0' ≤ c && c ≤ '9'

def isWordChar (c : Char) : Bool :=
  0x20 < c.toNat && !isSpace c && !(":;`\"'@#.,|^&<=>+-*/\\%?!~()[]\x7b\x7d".toList.elem c)

/-! ## 2. Words -/

/-- An escape within a word: four hexadecimal digits, or some in braces. -/
def wordEscape? : Lexeme
  | '\\' :: 'u' :: '{' :: s =>
    match s.takeWhile isHex, s.dropWhile isHex with
    | d :: ds, '}' :: rest => some ('\\' :: 'u' :: '{' :: d :: ds ++ ['}'], rest)
    | _, _ => none
  | '\\' :: 'u' :: s =>
    if (s.take 4).length = 4 && (s.take 4).all isHex then
      some ('\\' :: 'u' :: s.take 4, s.drop 4)
    else none
  | _ => none

def wordPart? (s : Text) : Option (Text × Text) :=
  match s with
  | [] => none
  | c :: rest => if isWordChar c then some ([c], rest) else wordEscape? s

/-- The characters and escapes of a word, at most as many as a bound has characters. -/
def wordPartsUpTo : (bound : Text) → Text → Text × Text
  | [], s => ([], s)
  | _ :: bound, s =>
    match wordPart? s with
    | some (part, rest) => before part (wordPartsUpTo bound rest)
    | none => ([], s)

def word? : Lexeme := fun s =>
  if s.head?.any isDecimal then none
  else match wordPartsUpTo s s with
    | ([], _) => none
    | read => some read

/-! ## 3. Numbers -/

/-- Digits of a class that go on with a number, each after at most one underscore. -/
def moreDigits (p : Char → Bool) : Text → Text × Text
  | '_' :: c :: s => if p c then before ['_', c] (moreDigits p s) else ([], '_' :: c :: s)
  | c :: s => if p c then before [c] (moreDigits p s) else ([], c :: s)
  | [] => ([], [])

def digits? (p : Char → Bool) : Lexeme
  | [] => none
  | c :: s => if p c then some (before [c] (moreDigits p s)) else none

def thenRead (first second : Lexeme) : Lexeme := fun s => do
  let (a, s) ← first s
  let (b, s) ← second s
  return (a ++ b, s)

def optionally (lexeme : Lexeme) : Lexeme := fun s => (lexeme s).orElse fun _ => some ([], s)

def oneChar (p : Char → Bool) : Lexeme
  | [] => none
  | c :: s => if p c then some ([c], s) else none

/-- The longest of some lexemes, the first one among equals. -/
def longest (lexemes : List Lexeme) : Lexeme := fun s =>
  lexemes.foldl (fun best lexeme =>
    match best, lexeme s with
    | some b, some l => if b.1.length < l.1.length then some l else some b
    | none, l => l
    | b, none => b) none

def exponent? : Lexeme :=
  thenRead (oneChar fun c => c = 'e' || c = 'E')
    (thenRead (optionally (oneChar fun c => c = '+' || c = '-')) (digits? isDecimal))

/-- The whole part of a number with a point or an exponent: zero, or digits that begin with at most one
zero. -/
def wholePart? : Lexeme := fun s =>
  match digits? isDecimal s with
  | some (['0'], rest) => some (['0'], rest)
  | some ('0' :: c :: ds, rest) => if c ≠ '0' && c ≠ '_' then some ('0' :: c :: ds, rest) else none
  | read => read

def basedNumber? (letter : Char → Bool) (p : Char → Bool) : Lexeme :=
  thenRead (oneChar (· = '0')) (thenRead (oneChar letter)
    (thenRead (digits? p) (optionally (oneChar (· = 'n')))))

def number? : Lexeme := longest [
  basedNumber? (fun c => c = 'x' || c = 'X') isHex,
  basedNumber? (fun c => c = 'b' || c = 'B') (fun c => c = '0' || c = '1'),
  basedNumber? (fun c => c = 'o' || c = 'O') (fun c => '0' ≤ c && c ≤ '7'),
  thenRead (digits? isDecimal) (optionally (oneChar (· = 'n'))),
  thenRead wholePart? (thenRead (oneChar (· = '.'))
    (thenRead (optionally (digits? isDecimal)) (optionally exponent?))),
  thenRead (oneChar (· = '.')) (thenRead (digits? isDecimal) (optionally exponent?)),
  thenRead wholePart? exponent?]

/-! ## 4. Comments -/

def blockCommentTail? : Lexeme
  | [] => none
  | '*' :: '/' :: s => some (['*', '/'], s)
  | c :: s => if c = '\x00' then none else (blockCommentTail? s).map (before [c])

def isCommentChar (c : Char) : Bool := !isLineTerminator c && c ≠ '\x00'

def comment? : Lexeme
  | '/' :: '/' :: s => some ('/' :: '/' :: s.takeWhile isCommentChar, s.dropWhile isCommentChar)
  | '/' :: '*' :: s => (blockCommentTail? s).map (before ['/', '*'])
  | _ => none

def isMarkupCommentChar (c : Char) : Bool :=
  c ≠ '\n' && c ≠ '\u2028' && c ≠ '\u2029' && c ≠ '\x00'

/-- A comment in the form of markup: from its opening or its closing sign to the end of the line. -/
def markupComment? (s : Text) : Option (Text × Text) :=
  let read (start rest : Text) : Text × Text :=
    (start ++ rest.takeWhile isMarkupCommentChar, rest.dropWhile isMarkupCommentChar)
  match s with
  | '<' :: '!' :: '-' :: '-' :: rest => some (read "<!--".toList rest)
  | '-' :: '-' :: '>' :: rest => some (read "-->".toList rest)
  | _ => none

/-! ## 5. Quoted literals -/

/-- What follows a backslash in a literal. -/
def escapeTail? : Lexeme
  | [] => none
  | 'x' :: s => if (s.take 2).length = 2 && (s.take 2).all isHex then some ('x' :: s.take 2, s.drop 2) else none
  | 'u' :: s => (wordEscape? ('\\' :: 'u' :: s)).map fun (e, rest) => (e.drop 1, rest)
  | '\r' :: c :: s =>
    if c = '\n' || c = '\u2028' || c = '\u2029' then some (['\r', c], s) else some (['\r'], c :: s)
  | '?' :: c :: s =>
    if c = '\n' || c = '\u2028' || c = '\u2029' then some (['?', c], s) else some (['?'], c :: s)
  | c :: s =>
    if c = '\x00' then none
    else if '0' ≤ c && c ≤ '7' then
      let more := (s.take 2).takeWhile fun d => '0' ≤ d && d ≤ '7'
      some (c :: more, s.drop more.length)
    else some ([c], s)

def escape? : Lexeme
  | '\\' :: s => (escapeTail? s).map (before ['\\'])
  | _ => none

/-- The rest of a literal after its opening quote, in at most as many steps as a bound has characters.  A
line break ends the plain text of a literal: after one, only white space and comments may come before the
closing quote or before more text. -/
def quotedTailUpTo (quote : Char) : (bound : Text) → Text → Option (Text × Text)
  | [], _ => none
  | _ :: _, [] => none
  | _ :: bound, c :: s =>
    if c = quote then some ([c], s)
    else if c = '\\' then do
      let (escape, s) ← escape? ('\\' :: s)
      (quotedTailUpTo quote bound s).map (before escape)
    else if c = '\x00' then none
    else if c = '\n' || c = '\r' then
      let blanks := c :: s.takeWhile isSpace
      match s.dropWhile isSpace with
      | [] => none
      | d :: rest =>
        if d = quote then some (blanks ++ [d], rest)
        else do
          let (comment, s) ← comment? (d :: rest)
          (quotedTailUpTo quote bound s).map (before (blanks ++ comment))
    else (quotedTailUpTo quote bound s).map (before [c])

def quotedLiteral? : Lexeme
  | c :: s => if c = '\'' || c = '"' then (quotedTailUpTo c s s).map (before [c]) else none
  | [] => none

/-! ## 6. Regular expressions -/

def classTail? : (escaped : Bool) → Text → Option (Text × Text)
  | _, [] => none
  | escaped, c :: s =>
    if c = '\n' || c = '\x00' then none
    else if !escaped && c = ']' then some ([c], s)
    else (classTail? (!escaped && c = '\\') s).map (before [c])

/-- The inside of a regular expression and its closing slash, in at most as many steps as a bound has
characters. -/
def regexTailUpTo : (bound : Text) → Text → Option (Text × Text)
  | _ :: bound, c :: s =>
    if c = '\n' || c = '\x00' then none
    else if c = '/' then some ([c], s)
    else if c = '\\' then
      match s with
      | [] => none
      | d :: s => if d = '\n' || d = '\x00' then none else (regexTailUpTo bound s).map (before [c, d])
    else if c = '[' then do
      let (inside, s) ← classTail? false s
      (regexTailUpTo bound s).map (before (c :: inside))
    else (regexTailUpTo bound s).map (before [c])
  | _, _ => none

def isFlag (c : Char) : Bool := 'a' ≤ c && c ≤ 'z'

/-- A regular expression with its flags; its pattern is not empty. -/
def regex? : Lexeme
  | '/' :: c :: s =>
    if c = '/' || c = '*' then none
    else (regexTailUpTo (c :: s) (c :: s)).map fun (inside, rest) =>
      ('/' :: inside ++ rest.takeWhile isFlag, rest.dropWhile isFlag)
  | _ => none

end AssetEmbed.Script
