import AssetEmbed.Script.Grammar.Semicolon

/-!
# Goals — what the constructs of a grammar have in common

The constructs of a script contain each other.  A grammar is a way to read the goals through which they do;
every other construct is a step that is given such a grammar.
-/

namespace AssetEmbed.Script

/-- What surrounds an expression. -/
structure Context where
  /-- A statement that has no semicolon may end after the expression. -/
  mayEnd : Bool
  /-- The word `in` does not go on with the expression. -/
  stopsAtIn : Bool
  /-- A colon follows the expression, which stands between a question mark and that colon. -/
  beforeColon : Bool
  deriving DecidableEq, Repr

def Context.bracketed : Context := ⟨false, false, false⟩

def Context.final : Context := ⟨true, false, false⟩

/-- A construct through which constructs contain each other. -/
inductive Goal where
  | statement
  | expression (c : Context)
  | operand (c : Context)
  /-- A name, or a pattern of names, that is given a value. -/
  | binding
  /-- A type; a statement may end after it without a semicolon, or not. -/
  | type (mayEnd : Bool)
  /-- An element of markup. -/
  | element
  deriving DecidableEq, Repr

structure Grammar where
  dialect : Dialect
  read : Goal → Step

namespace Grammar

open Step

def expression (g : Grammar) (c : Context) : Step := g.read (.expression c)

def type (g : Grammar) : Step := g.read (.type false)

/-- Makes a step in dialects with types only. -/
def typed (g : Grammar) (p : Step) : Step := if g.dialect.hasTypes then p else fail

def typedOptional (g : Grammar) (p : Step) : Step := if g.dialect.hasTypes then optional p else nothing

def expressions (g : Grammar) (c : Context) : Step :=
  g.expression c >>
    choose fun s =>
      if s.operatorIs "," then
        extend .sequenceExpression (many1 (operator "," >> g.expression c))
      else nothing

/-- Whether a statement that has no semicolon ends after an expression. -/
def ends (g : Grammar) (c : Context) (s : State) : Bool :=
  c.mayEnd && Semicolon.mayMiss g.dialect true s.rest

def items (p : Step) : Step := optional p >> many (sign "," >> optional p)

/-! ## Names -/

/-- The words that are no names in plain scripts. -/
def reservedWords : List String := [
  "break", "case", "catch", "class", "const", "continue", "debugger", "default", "delete", "do",
  "else", "export", "extends", "false", "finally", "for", "function", "if", "import", "in",
  "instanceof", "new", "null", "return", "super", "switch", "this", "throw", "true", "try",
  "typeof", "var", "void", "while", "with"]

/-- The words that begin an expression of their own, so that they are no names in one. -/
def expressionWords : List String := [
  "await", "class", "delete", "false", "function", "import", "new", "null", "super", "this",
  "true", "typeof", "void", "yield"]

/-- Reads a word that is none of some words. -/
def wordBut (kind : Kind) (excluded : List String) : Step :=
  lexeme kind fun s =>
    (word? s).bind fun (w, rest) =>
      if excluded.contains (String.ofList w) then none else some (w, rest)

def name (g : Grammar) (excluded : List String) : Step :=
  wordBut .identifier (if g.dialect.hasTypes then excluded else reservedWords ++ excluded)

/-- Reads a name within an expression; the word `export` may be one. -/
def reference (g : Grammar) : Step :=
  keywordLeaf .undefined "undefined" <|>
    wordBut .identifier
      (if g.dialect.hasTypes then expressionWords else reservedWords.erase "export" ++ expressionWords)

/-- Reads any word as the name of a property. -/
def propertyWord : Step := wordBut .propertyIdentifier []

def privateName : Step :=
  lexeme .privatePropertyIdentifier fun s =>
    match s with
    | '#' :: s => (word? s).map (before ['#'])
    | _ => none

def string : Step := lexeme .string quotedLiteral?

def propertyName (g : Grammar) : Step :=
  propertyWord <|> privateName <|> string <|> lexeme .number number? <|>
    node .computedPropertyName (sign "[" >> g.expression .bracketed >> sign "]")

/-- Whether the name of a property is at the start of a text. -/
def beginsPropertyName (s : Text) : Bool :=
  (word? s).isSome ||
    match s with
    | c :: _ => c = '\'' || c = '"' || c = '[' || c = '#' || isDecimal c
    | [] => false

/-- Reads one of some words as a mark on what follows it: the name of a property has to come next, on the
same line, and the word is not that name itself. -/
def mark (g : Grammar) (words : List String) : Step := choose fun s =>
  match word? s.ahead with
  | some (w, rest) =>
    let next := dropTrivia rest
    if words.contains (String.ofList w) && !Semicolon.mayMiss g.dialect false rest &&
        (beginsPropertyName next || (w = "async".toList && next.head? == some '*')) then
      keyword (String.ofList w)
    else fail
  | none => fail

def initializer (g : Grammar) (c : Context) : Step := sign "=" >> g.expression c

end Grammar

end AssetEmbed.Script
