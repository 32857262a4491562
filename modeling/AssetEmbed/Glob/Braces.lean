import AssetEmbed.Text.Class

/-!
# Braces — alternatives within a glob pattern

A pattern may hold alternatives in braces (`a.{png,svg}`, `{1..3}.txt`) and as groups in parentheses
(`@(a|b)` for one of them, `?(a|b)` for at most one).  Groups are rewritten to braces, and braces are
expanded to the list of plain patterns that the whole stands for.
-/

namespace AssetEmbed.Glob

inductive PatternError where
  /-- A group that stands for repetition or exclusion, by the sign before its parenthesis. -/
  | unsupportedGroup (sign : Char)
  | unbalanced
  deriving DecidableEq, Repr

def PatternError.message : PatternError → String
  | .unsupportedGroup sign => s!"extglob \"{sign}(...)\" is not supported"
  | .unbalanced => "unbalanced parentheses"

/-! ## 1. Nesting -/

/-- The text up to the sign that closes what is open, and the text after it; `depth` counts what has been
opened since. -/
def splitClosing (opening closing : Char) : (depth : Nat) → Text → Option (Text × Text)
  | _, [] => none
  | depth, c :: s =>
    if c = closing then
      match depth with
      | 0 => some ([], s)
      | depth + 1 => (splitClosing opening closing depth s).map fun (p, r) => (c :: p, r)
    else
      (splitClosing opening closing (if c = opening then depth + 1 else depth) s).map
        fun (p, r) => (c :: p, r)

/-- The depth after a character: braces and parentheses both open and close, and a closing sign that
closes nothing goes below zero. -/
def depthAfter (depth : Int) (c : Char) : Int :=
  if c = '{' || c = '(' then depth + 1
  else if c = '}' || c = ')' then depth - 1
  else depth

/-- The pieces between the separators that stand at depth zero. -/
def splitTopLevel (sep : Char) : (depth : Int) → Text → List Text
  | _, [] => [[]]
  | depth, c :: s =>
    if c = sep && decide (depthAfter depth c = 0) then [] :: splitTopLevel sep 0 s
    else match splitTopLevel sep (depthAfter depth c) s with
      | [] => [[c]]
      | piece :: pieces => (c :: piece) :: pieces

/-! ## 2. Groups -/

def unsupportedGroup? : Text → Option Char
  | [] => none
  | c :: s =>
    if (c = '+' || c = '*' || c = '!') && s.head? == some '(' then some c else unsupportedGroup? s

def groupsUpTo : (bound : Nat) → Text → Except PatternError Text
  | 0, s => .ok s
  | _ + 1, [] => .ok []
  | bound + 1, c :: s =>
    if (c = '@' || c = '?') && s.head? == some '(' then
      match splitClosing '(' ')' 0 s.tail with
      | none => .error .unbalanced
      | some (inside, after) => do
        let inside ← groupsUpTo bound inside
        let after ← groupsUpTo bound after
        let alternatives := splitTopLevel '|' 0 inside
        -- a group that may be left out stands for nothing as well
        let alternatives := if c = '?' then [] :: alternatives else alternatives
        return '{' :: Text.joinWith ',' alternatives ++ '}' :: after
    else (c :: ·) <$> groupsUpTo bound s

/-- A pattern with its groups rewritten to braces. -/
def groupsToBraces (pattern : Text) : Except PatternError Text :=
  match unsupportedGroup? pattern with
  | some sign => .error (.unsupportedGroup sign)
  | none => groupsUpTo pattern.length pattern

/-! ## 3. Braces -/

/-- The values from one number to another, both included, in either direction. -/
def steps (first last : Int) : List Int :=
  if first ≤ last then (List.range (last - first + 1).toNat).map fun (i : Nat) => first + (i : Int)
  else (List.range (first - last + 1).toNat).map fun (i : Nat) => first - (i : Int)

/-- A number in decimal digits of any script, with an optional minus sign, and the rest. -/
def readInt? (s : Text) : Option (Int × Text) :=
  let (negative, s) := match s with
    | '-' :: s => (true, s)
    | s => (false, s)
  match s.takeWhile Text.isDigit with
  | [] => none
  | digits =>
    let n : Int := Text.ofDigits digits
    some (if negative then -n else n, s.dropWhile Text.isDigit)

/-- The values of a body that is a range of numbers or of ASCII letters. -/
def rangeValues? (body : Text) : Option (List Text) :=
  match readInt? body with
  | some (first, '.' :: '.' :: rest) =>
    match readInt? rest with
    | some (last, rest) => if Text.isAtEnd rest then some ((steps first last).map Text.ofInt) else none
    | none => none
  | _ =>
    match body with
    | a :: '.' :: '.' :: b :: rest =>
      if a.isAlpha && b.isAlpha && Text.isAtEnd rest then
        some ((steps a.toNat b.toNat).map fun n => [Char.ofNat n.toNat])
      else none
    | _ => none

def alternatives? (body : Text) : Option (List Text) :=
  match splitTopLevel ',' 0 body with
  | pieces@(_ :: _ :: _) => some pieces
  | _ => rangeValues? body

/-- The first pair of braces of a pattern: what stands before, within and after it. -/
def splitBraces? (pattern : Text) : Option (Text × Text × Text) :=
  match pattern.dropWhile (· ≠ '{') with
  | [] => none
  | _ :: rest =>
    (splitClosing '{' '}' 0 rest).map fun (body, after) =>
      (pattern.takeWhile (· ≠ '{'), body, after)

def expandUpTo : (bound : Nat) → Text → List Text
  | 0, pattern => [pattern]
  | bound + 1, pattern =>
    match splitBraces? pattern with
    | none => [pattern]
    | some (head, body, after) =>
      let tails := expandUpTo bound after
      let middles := match alternatives? body with
        | none => (expandUpTo bound body).map fun b => '{' :: b ++ ['}']
        | some alternatives => alternatives.flatMap (expandUpTo bound)
      middles.flatMap fun m => tails.map fun t => head ++ m ++ t

/-- The plain patterns that a pattern with braces stands for, the leftmost braces varying slowest. -/
def expandBraces (pattern : Text) : List Text := expandUpTo pattern.length pattern

/-- The plain patterns that a pattern stands for, each once. -/
def alternatives (pattern : Text) : Except PatternError (List Text) :=
  (fun p => (expandBraces p).eraseDups) <$> groupsToBraces pattern

end AssetEmbed.Glob
