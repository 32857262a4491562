import AssetEmbed.Script.Grammar.Expression

/-!
# Declarations
-/

namespace AssetEmbed.Script.Grammar

open Step

/-! ## 1. Variables -/

/-- Reads the name or pattern of a variable with its type, and its value. -/
def declarator (g : Grammar) (c : Context) : Step :=
  node .variableDeclarator (g.read .binding >>
    g.typedOptional ((sign "!" >> g.ascription c.mayEnd) <|> g.ascription c.mayEnd) >>
    optional (g.initializer c))

/-- Whether the latest declaration ends in a value, with which an expression could go on. -/
def endsInValue (s : State) : Bool :=
  s.last?.any fun t => t.parts.any (·.isToken "=")

def declarators (g : Grammar) : Step :=
  sepBy1 (sign ",") (g.declarator .final) >>
    choose fun s => semicolon g.dialect (endsInValue s)

def variableDeclaration (g : Grammar) : Step :=
  node .variableDeclaration (keyword "var" >> g.declarators)

/-- Reads a declaration of variables by `let` or `const`.  The word `let` is a name where a statement may
end after it. -/
def lexicalDeclaration (g : Grammar) : Step :=
  node .lexicalDeclaration
    ((keyword "const" <|> (keyword "let" >> choose fun s =>
        if Semicolon.mayMiss g.dialect true s.rest then fail else nothing)) >> g.declarators)

def usingDeclaration (g : Grammar) : Step :=
  node .usingDeclaration (optional (keyword "await") >> keyword "using" >>
    (choose fun s => if Semicolon.mayMiss g.dialect true s.rest then fail else nothing) >> g.declarators)

/-! ## 2. Functions and classes -/

/-- Reads a declaration of a function; with types, the body may be missing. -/
def functionDeclaration (g : Grammar) : Step :=
  let head : Step := optional (keyword "async") >> keyword "function"
  let tail : Step := g.name [] >> g.signature true
  node .generatorFunctionDeclaration (head >> sign "*" >> tail >> g.block) <|>
    node .functionDeclaration (head >> tail >> g.block) <|>
    g.typed (node .functionSignature (head >> optional (sign "*") >> tail >> semicolon g.dialect false))

def classDeclaration (g : Grammar) : Step :=
  node .classDeclaration (many g.decorator >> g.classTail true) <|>
    g.typed (node .abstractClassDeclaration
      (many g.decorator >> keyword "abstract" >> g.classTail true))

/-! ## 3. Types -/

/-- Reads a word that is no name here: a name has to follow it on the same line. -/
def leadingWord (g : Grammar) (word : String) : Step :=
  keyword word >> choose fun s =>
    if Semicolon.mayMiss g.dialect true s.rest then fail else nothing

def interfaceDeclaration (g : Grammar) : Step :=
  node .interfaceDeclaration (keyword "interface" >> wordBut .identifier [] >> optional g.typeParameters >>
    optional (keyword "extends" >> sepBy1 (sign ",") g.type) >>
    node .interfaceBody g.typeMembers)

def enumMember (g : Grammar) : Step :=
  node .pair (g.propertyName >> optional (g.initializer .bracketed))

def enumDeclaration (g : Grammar) : Step :=
  node .enumDeclaration (optional (keyword "const") >> keyword "enum" >> wordBut .identifier [] >>
    node .enumBody (sign "\x7b" >> optional (sepBy1 (sign ",") g.enumMember >> optional (sign ",")) >>
      sign "\x7d"))

def typeAlias (g : Grammar) : Step :=
  node .typeAliasDeclaration (g.leadingWord "type" >> wordBut .identifier [] >>
    optional g.typeParameters >> sign "=" >> g.read (.type true) >> semicolon g.dialect false)

def dottedName : Step :=
  wordBut .identifier [] >> many (extend .memberExpression (operator "." >> propertyWord))

def moduleDeclaration (g : Grammar) : Step :=
  node .internalModule (g.leadingWord "namespace" >> (string <|> dottedName) >> optional g.block) <|>
    node .moduleDeclaration (g.leadingWord "module" >> (string <|> dottedName) >> optional g.block)

def importAlias (g : Grammar) : Step :=
  node .importAlias (keyword "import" >> optional (mark g ["type"]) >> wordBut .identifier [] >> sign "=" >>
    ((keyword "require" >> sign "(" >> string >> sign ")") <|> dottedName) >>
    semicolon g.dialect false)

def plainDeclaration (g : Grammar) : Step :=
  g.typed g.enumDeclaration <|> g.variableDeclaration <|> g.lexicalDeclaration <|>
    g.functionDeclaration <|> g.classDeclaration <|> g.usingDeclaration <|>
    g.typed (g.interfaceDeclaration <|> g.typeAlias <|> g.moduleDeclaration <|> g.importAlias)

def ambientDeclaration (g : Grammar) : Step :=
  node .ambientDeclaration (g.leadingWord "declare" >>
    (g.plainDeclaration <|> (keyword "global" >> g.block) <|>
      (keyword "module" >> sign "." >> propertyWord >> sign ":" >> g.type >>
        semicolon g.dialect false)))

def declaration (g : Grammar) : Step :=
  g.plainDeclaration <|> g.typed g.ambientDeclaration

end AssetEmbed.Script.Grammar
