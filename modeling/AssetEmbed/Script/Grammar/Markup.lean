import AssetEmbed.Script.Grammar.Literal

/-!
# Markup — elements within expressions

An element is a tag that closes itself, or an opening tag, children and a closing tag; the names of the two
tags are not compared.
-/

namespace AssetEmbed.Script.Grammar

open Step

/-! ## 1. Lexemes -/

/-- Whether a character may begin a name with hyphens. -/
def beginsMarkupName (c : Char) : Bool := c.isAlpha || c = '_' || c = '$'

/-- A name with at least one hyphen. -/
def hyphenatedName? : Lexeme := fun s =>
  let plain (c : Char) : Bool := beginsMarkupName c || isDecimal c
  match s.takeWhile plain, s.dropWhile plain with
  | c :: cs, '-' :: rest =>
    if beginsMarkupName c then
      let more (c : Char) : Bool := plain c || c = '-'
      some (c :: cs ++ '-' :: rest.takeWhile more, rest.dropWhile more)
    else none
  | _, _ => none

/-- A character by its name or number: an ampersand, the name or number, and a semicolon. -/
def characterReference? : Lexeme
  | '&' :: '#' :: c :: s =>
    let (mark, digits, p, most) :=
      if c = 'x' || c = 'X' then (['&', '#', c], s, isHex, 6) else (['&', '#'], c :: s, isDecimal, 5)
    match digits.takeWhile p, digits.dropWhile p with
    | d :: ds, ';' :: rest =>
      if (d :: ds).length ≤ most then some (mark ++ d :: ds ++ [';'], rest) else none
    | _, _ => none
  | '&' :: s =>
    match s.takeWhile Char.isAlpha, s.dropWhile Char.isAlpha with
    | c :: cs, ';' :: rest =>
      if (c :: cs).length ≤ 30 then some ('&' :: c :: cs ++ [';'], rest) else none
    | _, _ => none
  | _ => none

def attributeTailUpTo (quote : Char) : (bound : Text) → Text → Option (Text × Text)
  | [], _ => none
  | _ :: _, [] => none
  | _ :: bound, c :: s =>
    if c = quote then some ([c], s)
    else if c = '\x00' then none
    else if c = '&' then
      match s with
      | [] => none
      | d :: rest =>
        if d = '#' || d.isAlpha then do
          let (reference, s) ← characterReference? ('&' :: s)
          (attributeTailUpTo quote bound s).map (before reference)
        else (attributeTailUpTo quote bound rest).map (before [c, d])
    else (attributeTailUpTo quote bound s).map (before [c])

def attributeValue? : Lexeme
  | c :: s => if c = '\'' || c = '"' then (attributeTailUpTo c s s).map (before [c]) else none
  | [] => none

def isMarkupText (c : Char) : Bool :=
  c ≠ '<' && c ≠ '>' && c ≠ '\x7b' && c ≠ '\x7d' && c ≠ '&' && c ≠ '\x00'

/-- Whether a text between tags is more than a line break and blanks after it; `atBreak` tells whether
a line break is all that came before. -/
def showsText : (atBreak : Bool) → Text → Bool
  | _, [] => false
  | atBreak, c :: s =>
    if c = '\n' then showsText true s
    else if atBreak && Semicolon.isBlank c then showsText true s
    else true

/-- Text between tags. -/
def markupText? : Lexeme := fun s =>
  let text := s.takeWhile isMarkupText
  if showsText false text then some (text, s.dropWhile isMarkupText) else none

/-! ## 2. Elements -/

def markupWord (g : Grammar) : Step :=
  lexeme .identifier (longest [hyphenatedName?, fun s =>
    (word? s).bind fun (w, rest) =>
      if !g.dialect.hasTypes && reservedWords.contains (String.ofList w) then none else some (w, rest)])

def markupName (g : Grammar) : Step :=
  g.markupWord >>
    (extend .jsxNamespaceName (sign ":" >> g.markupWord) <|>
      many (extend .memberExpression (sign "." >> propertyWord)))

def markupExpression (g : Grammar) : Step :=
  node .jsxExpression (sign "\x7b" >> optional (g.spread <|> g.expressions .bracketed) >> sign "\x7d")

def attributeName : Step :=
  let part : Step := lexeme .propertyIdentifier (longest [hyphenatedName?, word?])
  part >> optional (extend .jsxNamespaceName (sign ":" >> part))

def tagAttribute (g : Grammar) : Step :=
  g.markupExpression <|>
    node .jsxAttribute (attributeName >>
      optional (sign "=" >>
        (lexeme .string attributeValue? <|> g.markupExpression <|> g.read .element)))

def tagHead (g : Grammar) : Step :=
  g.markupName >> g.typedOptional g.typeArguments >> many g.tagAttribute

def markupChild (g : Grammar) : Step :=
  immediate .jsxText markupText? <|> immediate .htmlCharacterReference characterReference? <|>
    g.markupExpression <|> when (!·.nextIs "</") (g.read .element)

def elementTail (g : Grammar) : Step :=
  many g.markupChild >> node .jsxClosingElement (sign "</" >> optional g.markupName >> sign ">")

/-- Wraps up all trees of a construct as one. -/
def wrap (kind : Kind) : Step := fun s => .ok { s with trees := [.node kind s.trees.reverse] }

/-- Reads an element: a tag that closes itself, or an opening tag and the rest; only an opening tag may
name nothing. -/
def elementParts (g : Grammar) : Step :=
  let opened : Step := sign ">" >> wrap .jsxOpeningElement >> g.elementTail >> wrap .jsxElement
  sign "<" >>
    ((g.tagHead >> ((sign "/>" >> wrap .jsxSelfClosingElement) <|> opened)) <|> opened)

def elementStep (g : Grammar) : Step := fun s =>
  let s := s.skip
  match g.elementParts { s with trees := [] } with
  | .ok t => .ok { t with trees := t.trees ++ s.trees }
  | .error reach => .error reach

end AssetEmbed.Script.Grammar
