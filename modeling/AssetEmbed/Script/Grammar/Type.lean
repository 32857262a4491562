import AssetEmbed.Script.Grammar.Parameter

/-!
# Types

What stands in annotations, in type arguments and behind `as`.  All types are of one kind in the tree; what
they hold besides types (literals, parameters with defaults, calls in queries) has its own kinds.
-/

namespace AssetEmbed.Script.Grammar

open Step

/-! ## 1. Members of object types -/

def propertyMarks : List String := ["public", "private", "protected", "static", "override", "readonly"]

def methodMarks : List String := propertyMarks ++ ["async", "get", "set"]

/-- Reads the annotation of a mapped member, which may add or remove that the member is optional. -/
def mappedAscription (g : Grammar) : Step :=
  node .typeAscription ((sign "-?:" <|> sign "+?:" <|> sign "?:" <|> sign ":") >>
    g.predicate true)

/-- Reads a member that stands for many: an index, or the members of a mapped type. -/
def indexMember (g : Grammar) : Step :=
  node .classMember (optional (optional (sign "-" <|> sign "+") >> mark g ["readonly"]) >> sign "[" >>
    wordBut .identifier [] >>
    ((sign ":" >> g.type) <|>
      (keyword "in" >> g.type >> optional (keyword "as" >> g.type))) >>
    sign "]" >> g.mappedAscription)

def typeMember (g : Grammar) : Step :=
  g.indexMember <|>
    node .classMember (many (mark g ["abstract"]) >> keyword "new" >> g.signature true) <|>
    node .classMember (g.signature true) <|>
    node .classMember (many (mark g methodMarks) >> optional (sign "*") >> g.propertyName >>
      optional (sign "?") >> g.signature true) <|>
    node .classMember (many (mark g propertyMarks) >> g.propertyName >> optional (sign "?") >>
      optional (g.ascription true))

def memberEnd (g : Grammar) : Step :=
  sign "," <|> semicolon g.dialect false <|> when (·.nextIs "\x7d") nothing

def typeMembers (g : Grammar) : Step :=
  sign "\x7b" >> optional (sign "," <|> sign ";") >> many (g.typeMember >> g.memberEnd) >> sign "\x7d"

/-! ## 2. Simple types -/

def tupleMember (g : Grammar) : Step :=
  (sign "..." >> wordBut .identifier [] >> sign ":" >> g.type) <|>
    (sign "..." >> g.type) <|>
    (wordBut .identifier [] >> optional (sign "?") >> sign ":" >> g.type) <|>
    (g.type >> optional (sign "?"))

/-- The plain characters of a template, up to a substitution, an escape or the end. -/
def templateChars : Text → Text × Text
  | [] => ([], [])
  | '$' :: '{' :: s => ([], '$' :: '{' :: s)
  | c :: s =>
    if c = '`' || c = '\\' || c = '\x00' then ([], c :: s) else before [c] (templateChars s)

def templateFragment : Step :=
  immediate .stringFragment fun s =>
    match templateChars s with
    | ([], _) => none
    | read => some read

def templateType (g : Grammar) : Step :=
  sign "`" >>
    many (templateFragment <|> (immediateSign "$\x7b" >> g.type >> sign "\x7d")) >> immediateSign "`"

/-- The words that begin a type of their own, so that they are no names of types. -/
def typeWords : List String := [
  "abstract", "import", "infer", "keyof", "new", "readonly", "typeof", "unique"]

/-- The words that are types by themselves, without members or arguments. -/
def plainTypes : List String := [
  "any", "boolean", "false", "never", "null", "number", "object", "string", "symbol", "this", "true",
  "undefined", "unknown", "void"]

def namedType (g : Grammar) : Step :=
  wordBut .identifier (typeWords ++ plainTypes) >> many (operator "." >> propertyWord) >>
    optional g.typeArguments

/-- Reads a query for the type of a value. -/
def typeQuery (g : Grammar) : Step :=
  keyword "typeof" >>
    (node .callExpression (keywordLeaf .importKeyword "import" >> g.arguments) <|>
      keywordLeaf .thisKeyword "this" <|> wordBut .identifier ["import"]) >>
    many (extend .memberExpression ((operator "." <|> operator "?.") >> (privateName <|> propertyWord)) <|>
      extend .subscriptExpression (operator "[" >> (string <|> lexeme .number number? <|>
        keywordLeaf .identifier "number" <|> keywordLeaf .identifier "string") >> sign "]")) >>
    optional g.typeArguments >>
    optional (extend .callExpression g.arguments)

def wordType (g : Grammar) : Step :=
  (keyword "unique" >> keyword "symbol") <|>
    (node .callExpression (keywordLeaf .importKeyword "import" >> g.arguments) >>
      many (operator "." >> propertyWord) >> optional g.typeArguments) <|>
    g.typeQuery <|> keywordOf plainTypes <|> g.namedType

/-- Reads a type without operators. -/
def simpleType (g : Grammar) : Step := choose fun s =>
  match s.ahead with
  | '(' :: _ => sign "(" >> g.type >> sign ")"
  | '{' :: _ => g.typeMembers
  | '[' :: _ =>
    sign "[" >> items g.tupleMember >> sign "]"
  | '`' :: _ => g.templateType
  | '\'' :: _ => string
  | '"' :: _ => string
  | '*' :: _ => sign "*"
  | '?' :: _ => sign "?" >> g.type
  | '-' :: _ => sign "-" >> lexeme .number number?
  | '+' :: _ => sign "+" >> lexeme .number number?
  | c :: _ => if isDecimal c then lexeme .number number? else g.wordType
  | [] => fail

/-! ## 3. Operators -/

/-- Reads a type with what may follow it in square brackets; where a statement may end, the brackets have
to be on the same line. -/
def indexedType (g : Grammar) (mayEnd : Bool) : Step :=
  g.simpleType >> many (choose fun s =>
    if mayEnd && Semicolon.mayMiss g.dialect false s.rest then fail
    else (sign "[" >> sign "]") <|> (sign "[" >> g.type >> sign "]"))

/-- Reads a type with the words that may stand before it. -/
def markedType (g : Grammar) (mayEnd : Bool) : Step :=
  many (keyword "keyof" <|> keyword "readonly") >>
    ((keyword "infer" >> wordBut .identifier [] >> optional (keyword "extends" >> g.type)) <|>
      g.indexedType mayEnd)

def functionType (g : Grammar) (mayEnd : Bool) : Step :=
  optional (keyword "abstract") >> optional (keyword "new") >> optional g.typeParameters >>
    g.parameters >> sign "=>" >> g.predicate mayEnd

def unionPart (g : Grammar) (mayEnd : Bool) : Step :=
  g.functionType mayEnd <|> g.markedType mayEnd

/-- Reads a union, an intersection, or a type that is neither. -/
def unionType (g : Grammar) (mayEnd : Bool) : Step :=
  optional (sign "|" <|> sign "&") >>
    sepBy1 (operator "|" <|> operator "&") (g.unionPart mayEnd)

def typeStep (g : Grammar) (mayEnd : Bool) : Step :=
  node .typeExpression (g.unionType mayEnd >>
    optional (keyword "extends" >> g.unionType false >> sign "?" >> g.type >> sign ":" >>
      g.read (.type mayEnd)))

end AssetEmbed.Script.Grammar
