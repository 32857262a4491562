import AssetEmbed.Script.Grammar.Type

/-!
# Functions and classes
-/

namespace AssetEmbed.Script.Grammar

open Step

/-! ## 1. Functions -/

def block (g : Grammar) : Step :=
  node .statementBlock (sign "\x7b" >> many (g.read .statement) >> sign "\x7d")

def functionExpression (g : Grammar) : Step :=
  let head : Step := optional (keyword "async") >> keyword "function"
  let tail : Step := optional (g.name []) >> g.signature false >> g.block
  node .generatorFunction (head >> sign "*" >> tail) <|> node .functionExpression (head >> tail)

/-- Reads the parameter of an arrow function that has one without parentheses. -/
def bareParameter (g : Grammar) : Step := g.name ("undefined" :: expressionWords)

/-- Reads the arrow of a function and its body: a block, or an expression. -/
def arrowBody (g : Grammar) (c : Context) : Step :=
  operator "=>" >>
    choose fun s => if s.nextIs "\x7b" then g.block <|> g.expression c else g.expression c

/-- Reads an arrow function.  The type of its result is read only if that does not take the colon that an
expression around it waits for. -/
def arrowFunction (g : Grammar) (c : Context) : Step :=
  let start : Step := g.typedOptional g.typeParameters >> g.parameters
  let typed : Step :=
    node .arrowFunction (optional (keyword "async") >> start >> g.resultAscription false >> g.arrowBody c) >>
      choose fun s => if c.beforeColon && !s.operatorIs ":" then fail else nothing
  g.typed typed <|>
    node .arrowFunction (keyword "async" >> (start <|> g.bareParameter) >> g.arrowBody c) <|>
    node .arrowFunction ((start <|> g.bareParameter) >> g.arrowBody c)

/-! ## 2. Classes -/

/-- The words that may stand before a member of a class. -/
def memberMarks (d : Dialect) : List String :=
  if d.hasTypes then
    ["public", "private", "protected", "declare", "static", "override", "readonly", "abstract",
      "accessor", "async", "get", "set"]
  else ["static", "async", "get", "set"]

def method (g : Grammar) : Step :=
  node .methodDefinition (many g.decorator >> many (mark g (memberMarks g.dialect)) >>
    optional (sign "*") >> g.propertyName >> g.typedOptional (sign "?") >> g.signature false >> g.block)

def methodSignature (g : Grammar) : Step :=
  node .classMember (many g.decorator >> many (mark g (memberMarks g.dialect)) >>
      optional (sign "*") >> g.propertyName >> optional (sign "?") >> g.signature true) >>
    (sign "," <|> semicolon g.dialect false)

def field (g : Grammar) : Step :=
  let head : Step := many g.decorator >> many (mark g (memberMarks g.dialect)) >> g.propertyName >>
    g.typedOptional (sign "?" <|> sign "!") >> g.typedOptional (g.ascription true)
  let typedEnd : Step := if g.dialect.hasTypes then sign "," else fail
  (node .fieldDefinition (head >> g.initializer .final) >> (typedEnd <|> semicolon g.dialect true)) <|>
    (node .fieldDefinition head >> (typedEnd <|> semicolon g.dialect false))

def member (g : Grammar) : Step :=
  sign ";" <|> node .classStaticBlock (keyword "static" >> g.block) <|> g.method <|>
    g.typed (g.indexMember >> (sign "," <|> semicolon g.dialect false)) <|>
    g.typed g.methodSignature <|> g.field

/-- Reads what a class extends and implements. -/
def heritage (g : Grammar) : Step :=
  node .classHeritage (
    if g.dialect.hasTypes then
      (keyword "extends" >> sepBy1 (sign ",") (g.expression .bracketed >> optional g.typeArguments) >>
          optional (keyword "implements" >> sepBy1 (sign ",") g.type)) <|>
        (keyword "implements" >> sepBy1 (sign ",") g.type)
    else keyword "extends" >> g.expression .bracketed)

def classNameStops : List String := ["extends", "implements"]

/-- Reads a class from its word on; the name may be missing, or not. -/
def classTail (g : Grammar) (named : Bool) : Step :=
  keyword "class" >>
    (if named then g.name classNameStops else optional (g.name classNameStops)) >>
    g.typedOptional g.typeParameters >> optional g.heritage >>
    node .classBody (sign "\x7b" >> many g.member >> sign "\x7d")

def classExpression (g : Grammar) : Step :=
  node .classExpression (many g.decorator >> g.classTail false)

end AssetEmbed.Script.Grammar
