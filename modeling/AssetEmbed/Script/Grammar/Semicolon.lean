import AssetEmbed.Script.Grammar.State

/-!
# Semicolons — where a statement may end without one

A semicolon may be missing at the end of the script, before a closing brace, and at a line break, unless
what follows goes on with an expression.  The two languages look at what follows in slightly different
ways.
-/

namespace AssetEmbed.Script.Semicolon

/-! ## 1. Blanks and comments -/

/-- The blanks of this rule: those of the language, except those that never break a line. -/
def isBlank (c : Char) : Bool :=
  let n := c.toNat
  (9 ≤ n && n ≤ 13) || n == 0x20 || n == 0x1680 || (0x2000 ≤ n && n ≤ 0x2006) ||
    (0x2008 ≤ n && n ≤ 0x200A) || n == 0x2028 || n == 0x2029 || n == 0x205F || n == 0x3000

def breaksLine (d : Dialect) (c : Char) : Bool :=
  c = '\n' || (!d.hasTypes && (c = '\u2028' || c = '\u2029'))

def afterBlockComment : (broken : Bool) → Text → Text × Bool
  | broken, [] => ([], broken)
  | broken, '*' :: '/' :: s => (s, broken)
  | broken, c :: s => afterBlockComment (broken || c = '\n' || c = '\u2028' || c = '\u2029') s

/-- A text after blanks and at most as many comments as a bound has characters; none where a slash begins
something else. -/
def skipUpTo (d : Dialect) : (bound : Text) → Text → Option Text
  | [], s => some s
  | _ :: bound, s =>
    match s.dropWhile isBlank with
    | '/' :: '/' :: s => skipUpTo d bound (s.dropWhile fun c => !breaksLine d c)
    | '/' :: '*' :: s => skipUpTo d bound (afterBlockComment false s).1
    | '/' :: _ => none
    | s => some s

/-- A text after a comment on the line of a statement, and whether a line break has been passed; a block
comment is the last one that is passed.  No more comments are passed than a bound has characters. -/
def passUpTo : (bound : Text) → Text → Option (Text × Bool)
  | [], s => some (s, true)
  | _ :: bound, s =>
    match s.dropWhile isBlank with
    | '/' :: '/' :: s => passUpTo bound (s.dropWhile fun c => !breaksLine .plain c)
    | '/' :: '*' :: s =>
      match afterBlockComment false s with
      | ('/' :: s, _) => passUpTo bound ('/' :: s)
      | (s, broken) => some (s, broken)
    | '/' :: _ => none
    | s => some (s, true)

/-! ## 2. What follows a line break -/

/-- Whether the word at the start of a text, of which the first letter is `i`, goes on with an
expression. -/
def isWordOperator (s : Text) : Bool :=
  match Text.dropStart? "in".toList s with
  | none => false
  | some rest =>
    if !rest.head?.any Char.isAlpha then true
    else match Text.dropStart? "stanceof".toList rest with
      | none => false
      | some rest => !rest.head?.any Char.isAlpha

/-- Whether a text that follows a line break begins a new statement; `inExpression` tells whether an
expression could go on. -/
def beginsStatement (d : Dialect) (inExpression : Bool) : Text → Bool
  | [] => true
  | c :: s =>
    if "`,;*%><=?^|&/:".toList.elem c then false
    else if c = '.' then !d.hasTypes && s.head?.any isDecimal
    else if c = '(' || c = '[' then d.hasTypes && !inExpression
    else if c = '+' then s.head? == some '+'
    else if c = '-' then s.head? == some '-'
    else if c = '!' then s.head? != some '='
    else if c = 'i' then !isWordOperator (c :: s)
    else true

def afterBreak (d : Dialect) (inExpression : Bool) (s : Text) : Bool :=
  match skipUpTo d ('\n' :: s) s with
  | some s => beginsStatement d inExpression s
  | none => false

/-! ## 3. The rule -/

/-- Whether a semicolon may be missing at a place of a plain script, within as many characters as a bound
has. -/
def plainUpTo (inExpression : Bool) : (bound : Text) → Text → Bool
  | _, [] => true
  | [], _ => true
  | _ :: bound, c :: s =>
    let onLine (c : Char) (s : Text) : Bool :=
      if c = '}' then true
      else if breaksLine .plain c then afterBreak .plain inExpression s
      else isBlank c && plainUpTo inExpression bound s
    if c = '/' then
      match passUpTo (c :: s) (c :: s) with
      | none => false
      | some (rest, passed) =>
        if passed && !inExpression && rest.head? != some ',' && rest.head? != some '=' then true
        else match rest with
          | [] => false
          | c :: s => onLine c s
    else onLine c s

/-- Whether a semicolon may be missing at a place of a typed script. -/
def typed (d : Dialect) (inExpression : Bool) : Text → Bool
  | [] => true
  | c :: s =>
    if c = '}' then if (s.dropWhile isBlank).head? == some ':' then inExpression else true
    else if !isBlank c then false
    else if c = '\n' then afterBreak d inExpression s
    else typed d inExpression s

def mayMissHere (d : Dialect) (inExpression : Bool) (s : Text) : Bool :=
  if d.hasTypes then typed d inExpression s else plainUpTo inExpression s s

/-- Whether a semicolon may be missing at a place or after one of the comments that follow, of which no
more are passed than a bound has characters. -/
def mayMissUpTo (d : Dialect) (inExpression : Bool) : (bound : Text) → Text → Bool
  | [], s => mayMissHere d inExpression s
  | _ :: bound, s =>
    mayMissHere d inExpression s ||
      match comment? (s.dropWhile isSpace) with
      | some (_, rest) => mayMissUpTo d inExpression bound rest
      | none => false

/-- Whether a semicolon may be missing at a place; `inExpression` tells whether an expression could go on
there. -/
def mayMiss (d : Dialect) (inExpression : Bool) (s : Text) : Bool := mayMissUpTo d inExpression s s

end Semicolon

def semicolon (d : Dialect) (inExpression : Bool) : Step := fun s =>
  if Semicolon.mayMiss d inExpression s.rest then .ok s else Step.sign ";" s

end AssetEmbed.Script
