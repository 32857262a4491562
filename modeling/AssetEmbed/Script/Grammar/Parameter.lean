import AssetEmbed.Script.Grammar.Goal

/-!
# Parameters — annotations, type arguments, patterns and formal parameters
-/

namespace AssetEmbed.Script.Grammar

open Step

/-! ## 1. Annotations -/

/-- Reads a type that may say something about a parameter: `x is T`, or `asserts x`. -/
def predicate (g : Grammar) (mayEnd : Bool) : Step :=
  let subject : Step := keywordLeaf .thisKeyword "this" <|> wordBut .identifier []
  node .typeExpression (keyword "asserts" >> wordBut .identifier ["is"] >>
      optional (keyword "is" >> g.read (.type mayEnd))) <|>
    node .typeExpression (subject >> keyword "is" >> g.read (.type mayEnd)) <|>
    g.read (.type mayEnd)

def ascription (g : Grammar) (mayEnd : Bool) : Step :=
  node .typeAscription (sign ":" >> g.read (.type mayEnd))

def resultAscription (g : Grammar) (mayEnd : Bool) : Step :=
  node .typeAscription (sign ":" >> g.predicate mayEnd)

def typeArguments (g : Grammar) : Step :=
  node .typeArguments (sign "<" >> sepBy1 (sign ",") g.type >> optional (sign ",") >> sign ">")

def typeParameter (g : Grammar) : Step :=
  node .typeParameter (optional (mark g ["const"]) >> wordBut .identifier [] >>
    optional ((keyword "extends" <|> sign ":") >> g.type) >> optional (sign "=" >> g.type))

def typeParameters (g : Grammar) : Step :=
  node .typeParameters
    (sign "<" >> sepBy1 (sign ",") g.typeParameter >> optional (sign ",") >> sign ">")

/-! ## 2. Patterns -/

/-- Reads a member of what stands before it, by name or by index. -/
def memberAfter (g : Grammar) : Step :=
  extend .memberExpression (operator "." >> (privateName <|> propertyWord)) <|>
    extend .subscriptExpression (operator "[" >> g.expressions .bracketed >> sign "]")

/-- Reads a name, a pattern or a member. -/
def place (g : Grammar) : Step := g.read .binding >> many g.memberAfter

def restPattern (g : Grammar) : Step := node .restPattern (sign "..." >> g.place)

def defaulted (g : Grammar) : Step :=
  (g.restPattern <|> g.place) >> optional (extend .assignmentPattern (g.initializer .bracketed))

def patternEntry (g : Grammar) : Step :=
  g.restPattern <|>
    node .pairPattern (g.propertyName >> sign ":" >> g.defaulted) <|>
    (lexeme .shorthandPropertyIdentifierPattern word? >>
      optional (extend .objectAssignmentPattern (g.initializer .bracketed)))

def objectPattern (g : Grammar) : Step :=
  node .objectPattern (sign "\x7b" >> items g.patternEntry >> sign "\x7d")

def arrayPattern (g : Grammar) : Step :=
  node .arrayPattern (sign "[" >> items g.defaulted >> sign "]")

def bindingStep (g : Grammar) : Step := g.objectPattern <|> g.arrayPattern <|> g.name []

/-! ## 3. Decorators -/

def arguments (g : Grammar) : Step :=
  node .arguments (sign "(" >>
    items (node .spreadElement (sign "..." >> g.expression .bracketed) <|>
      g.expression .bracketed) >> sign ")")

def decorator (g : Grammar) : Step :=
  node .decorator (sign "@" >>
    (node .parenthesizedExpression (sign "(" >> g.expressions .bracketed >> sign ")") <|>
      (wordBut .identifier [] >>
        many (extend .memberExpression (operator "." >> propertyWord)) >>
        optional (extend .callExpression (g.typedOptional g.typeArguments >> g.arguments)))))

/-! ## 4. Formal parameters -/

/-- The words that may stand before a parameter. -/
def parameterMarks : List String := ["public", "private", "protected", "override", "readonly"]

def parameterMark : Step := choose fun s =>
  match word? s.ahead with
  | some (w, rest) =>
    let next := dropTrivia rest
    if parameterMarks.contains (String.ofList w) &&
        ((word? next).isSome || next.head? == some '{' || next.head? == some '[') then
      keyword (String.ofList w)
    else fail
  | none => fail

def typedParameter (g : Grammar) : Step :=
  node .requiredParameter (many g.decorator >> many parameterMark >>
    (keywordLeaf .thisKeyword "this" <|> g.restPattern <|> g.place) >>
    optional (sign "?") >> optional (g.ascription false) >> optional (g.initializer .bracketed))

def parameter (g : Grammar) : Step :=
  if g.dialect.hasTypes then g.typedParameter else g.defaulted

def parameters (g : Grammar) : Step :=
  node .formalParameters (sign "(" >>
    optional (sepBy1 (sign ",") g.parameter >> optional (sign ",")) >> sign ")")

def signature (g : Grammar) (mayEnd : Bool) : Step :=
  g.typedOptional g.typeParameters >> g.parameters >> g.typedOptional (g.resultAscription mayEnd)

end AssetEmbed.Script.Grammar
