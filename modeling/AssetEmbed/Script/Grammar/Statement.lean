import AssetEmbed.Script.Grammar.Declaration

/-!
# Statements
-/

namespace AssetEmbed.Script.Grammar

open Step

/-! ## 1. Imports and exports -/

def exportName (g : Grammar) : Step :=
  wordBut .identifier (if g.dialect.hasTypes then [] else reservedWords.erase "default") <|> string

/-- Reads a name that is exported, with another name for it. -/
def exportSpecifier (g : Grammar) : Step :=
  let named : Step := g.exportName >> optional (keyword "as" >> g.exportName)
  choose fun s =>
    if g.dialect.hasTypes && (s.nextIsWord "type" || s.nextIsWord "typeof") then
      keywordOf ["type", "typeof"] >> named
    else named

/-- Reads a name that is imported, with another name for it.  Before the word `as`, the word `type` is a
name and no mark. -/
def importSpecifier (g : Grammar) : Step :=
  let renamed : Step := keyword "as" >> g.name []
  let named : Step := (g.exportName >> renamed) <|> g.name []
  g.typed ((keyword "type" >> (renamed <|> when (!·.nextIsWord "as") named)) <|>
    (keyword "typeof" >> named)) <|> named

def specifiers (specifier : Step) : Step :=
  node .exportClause (sign "\x7b" >> optional (sepBy1 (sign ",") specifier) >> optional (sign ",") >>
    sign "\x7d")

def source : Step := keyword "from" >> string

def importAttribute (g : Grammar) : Step := node .importAttribute (keyword "with" >> g.object)

def importClause (g : Grammar) : Step :=
  let all : Step := (sign "*" >> keyword "as" >> g.name []) <|> specifiers g.importSpecifier
  node .importClause (all <|> (g.name [] >> optional (sign "," >> all)))

def importStatement (g : Grammar) : Step :=
  let rest : Step := ((g.importClause >> source) <|> string) >> optional g.importAttribute >>
    semicolon g.dialect false
  node .importStatement (keyword "import" >> rest) <|>
    g.typed (node .importStatement (keyword "import" >> keywordOf ["type", "typeof"] >> rest))

def exportedNames (g : Grammar) : Step :=
  ((sign "*" >> optional (keyword "as" >> g.exportName) >> source) <|>
    (specifiers g.exportSpecifier >> optional source)) >> semicolon g.dialect false

def typedExport (g : Grammar) : Step :=
  (keyword "type" >> specifiers g.exportSpecifier >> optional source >> semicolon g.dialect false) <|>
    g.importAlias <|>
    (sign "=" >> g.expression .final >> semicolon g.dialect true) <|>
    (keyword "as" >> keyword "namespace" >> wordBut .identifier [] >> semicolon g.dialect false)

/-- Reads an export; only what it declares can have decorators. -/
def exportStatement (g : Grammar) : Step :=
  let declared : Step :=
    (keyword "default" >> (g.declaration <|> (g.expression .final >> semicolon g.dialect true))) <|>
      g.declaration
  node .exportStatement
    ((keyword "export" >> (g.exportedNames <|> g.typed g.typedExport <|> declared)) <|>
      (many1 g.decorator >> keyword "export" >> declared))

/-! ## 2. Control -/

def condition (g : Grammar) : Step := g.parenthesized

/-- Reads a part that a word begins, if that word comes next: then it begins nothing else. -/
def clause (kind : Kind) (word : String) (rest : Step) : Step := choose fun s =>
  if s.nextIsWord word then node kind (keyword word >> rest) else nothing

def ifStatement (g : Grammar) : Step :=
  node .ifStatement (keyword "if" >> g.condition >> g.read .statement >>
    clause .elseClause "else" (g.read .statement))

/-- Whether a new case of a choice comes next. -/
def beginsCase (s : State) : Bool := s.nextIsWord "case" || s.nextIsWord "default"

def switchStatement (g : Grammar) : Step :=
  let body : Step := many (when (!beginsCase ·) (g.read .statement))
  node .switchStatement (keyword "switch" >> g.condition >>
    node .switchBody (sign "\x7b" >>
      many (node .switchCase (keyword "case" >>
            g.expressions { Context.bracketed with beforeColon := true } >> sign ":" >> body) <|>
          node .switchDefault (keyword "default" >> sign ":" >> body)) >>
      sign "\x7d"))

/-- Whether the latest tree can be given an item of a loop. -/
def isTarget (s : State) : Bool :=
  s.last?.any fun t =>
    t.isPlace || t.isKind .parenthesizedExpression || t.isKind .objectPattern || t.isKind .arrayPattern

/-- Whether an expression may begin the head of a loop here: the words of declarations do not. -/
def beginsNoDeclaration (s : State) : Bool := !(s.nextIsWord "var" || s.nextIsWord "const")

/-- Reads the head of a loop over the items or the names of a value. -/
def iterationHead (g : Grammar) : Step :=
  let target : Step := g.read .binding
  sign "(" >>
    ((keyword "var" >> target >> optional (sign "=" >> g.expression ⟨false, true, false⟩) >>
        keywordOf ["in", "of"]) <|>
      (keywordOf ["let", "const"] >> target >> keywordOf ["in", "of"]) <|>
      (optional (keyword "await") >> keyword "using" >> target >> keyword "of") <|>
      (when beginsNoDeclaration (g.read (.operand .bracketed)) >> toPattern >> when isTarget nothing >>
        keywordOf ["in", "of"])) >>
    g.expressions .bracketed >> sign ")"

def countHead (g : Grammar) : Step :=
  let part : Step := (g.expressions .bracketed >> sign ";") <|> node .emptyStatement (sign ";")
  sign "(" >>
    (g.variableDeclaration <|> g.lexicalDeclaration <|> when beginsNoDeclaration part) >> part >>
    optional (g.expressions .bracketed) >> sign ")"

def forStatement (g : Grammar) : Step :=
  node .forInStatement (keyword "for" >> optional (keyword "await") >> g.iterationHead >>
      g.read .statement) <|>
    node .forStatement (keyword "for" >> g.countHead >> g.read .statement)

def whileStatement (g : Grammar) : Step :=
  node .whileStatement (keyword "while" >> g.condition >> g.read .statement)

def doStatement (g : Grammar) : Step :=
  node .doStatement (keyword "do" >> g.read .statement >> keyword "while" >> g.condition >>
    optional (semicolon g.dialect false))

def tryStatement (g : Grammar) : Step :=
  let parameter : Step := sign "(" >> g.read .binding >> g.typedOptional (g.ascription false) >> sign ")"
  node .tryStatement (keyword "try" >> g.block >>
    clause .catchClause "catch" (optional parameter >> g.block) >>
    clause .finallyClause "finally" g.block)

/-- Reads a statement of a word and an optional part that has to begin on the same line. -/
def jump (g : Grammar) (kind : Kind) (word : String) (part : Step) (inExpression : Bool) : Step :=
  node kind (keyword word >> choose fun s =>
    if Semicolon.mayMiss g.dialect false s.rest then nothing
    else (part >> semicolon g.dialect inExpression) <|> sign ";")

/-! ## 3. Statements -/

def expressionStatement (g : Grammar) : Step :=
  node .expressionStatement (g.expressions .final >> semicolon g.dialect true)

def labeledStatement (g : Grammar) : Step :=
  node .labeledStatement (g.reference >> sign ":" >> g.read .statement)

def otherStatement (g : Grammar) : Step := g.labeledStatement <|> g.expressionStatement

/-- Whether what comes next goes on with an expression and begins no statement. -/
def goesOn (s : State) : Bool :=
  match s.aheadOfExpression with
  | '.' :: rest => !rest.head?.any isDecimal
  | ch :: rest =>
    ",=?*%&|^>".toList.elem ch ||
      (wordAt? (ch :: rest)).any ["in", "instanceof"].contains
  | [] => false

/-- Reads a statement that begins like an expression: the first of two readings, unless it is followed by
something that only the expression can go on with. -/
def eitherStatement (g : Grammar) (statement : Step) : Step :=
  afterTrial statement fun
    | none => g.otherStatement
    | some t =>
      if goesOn t then g.expressionStatement <|> resume t else resume t

/-- Whether what comes next goes on with an export rather than with an expression that begins with the word
`export` as a name. -/
def goesOnExport (g : Grammar) (s : State) : Bool :=
  operatorSign? s.ahead == some "*" ||
    g.dialect.hasTypes && (operatorSign? s.ahead == some "=" || s.nextIsWord "as")

def wordStatement (g : Grammar) (word : String) : Step :=
  let inTyped (p : Step) : Step := g.typed p <|> g.otherStatement
  match word with
  | "var" => g.variableDeclaration
  | "let" => g.lexicalDeclaration <|> g.otherStatement
  | "const" => g.typed g.enumDeclaration <|> g.lexicalDeclaration
  | "using" => g.usingDeclaration <|> g.otherStatement
  | "await" => g.usingDeclaration <|> g.otherStatement
  | "function" => g.eitherStatement g.functionDeclaration
  | "async" => afterTrial (keyword "async") fun
    | some t =>
      -- where a statement may end behind the word, it is a name
      if Semicolon.mayMiss g.dialect true t.rest then g.otherStatement
      else g.eitherStatement g.functionDeclaration
    | none => fail
  | "class" => g.eitherStatement g.classDeclaration
  | "if" => g.ifStatement
  | "switch" => g.switchStatement
  | "for" => g.forStatement
  | "while" => g.whileStatement
  | "do" => g.doStatement
  | "try" => g.tryStatement
  | "with" => node .withStatement (keyword "with" >> g.condition >> g.read .statement)
  | "break" => g.jump .breakStatement "break" (g.name []) false
  | "continue" => g.jump .continueStatement "continue" (g.name []) false
  | "return" => g.jump .returnStatement "return" (g.expressions .final) true
  | "throw" => node .throwStatement (keyword "throw" >> g.expressions .final >> semicolon g.dialect true)
  | "debugger" => node .debuggerStatement (keyword "debugger" >> semicolon g.dialect false)
  | "import" => g.importStatement <|> g.typed g.importAlias <|> g.otherStatement
  | "export" => afterTrial (keyword "export") fun
    | some t =>
      if Semicolon.mayMiss g.dialect true t.rest then g.otherStatement
      else if g.goesOnExport t then g.exportStatement
      else g.exportStatement <|> g.otherStatement
    | none => fail
  | "enum" => if g.dialect.hasTypes then g.enumDeclaration else g.otherStatement
  | "interface" => if g.dialect.hasTypes then g.interfaceDeclaration else g.otherStatement
  | "abstract" => if g.dialect.hasTypes then g.classDeclaration else g.otherStatement
  | "type" => inTyped g.typeAlias
  | "namespace" => inTyped g.moduleDeclaration
  | "module" => inTyped g.moduleDeclaration
  | "declare" => inTyped g.ambientDeclaration
  | _ => g.otherStatement

def statementStep (g : Grammar) : Step := choose fun s =>
  match s.ahead with
  | [] => fail
  | ';' :: _ => node .emptyStatement (sign ";")
  | '{' :: _ => g.eitherStatement g.block
  | '@' :: _ => g.exportStatement <|> g.classDeclaration <|> g.expressionStatement
  | rest =>
    match wordAt? rest with
    | some word => g.wordStatement word
    | none => g.expressionStatement

/-! ## 4. Scripts -/

/-- Reads one level of a goal, with a way to read those within it. -/
def step (g : Grammar) : Goal → Step
  | .statement => g.statementStep
  | .expression c => g.expressionStep c
  | .operand c => g.operandStep c
  | .binding => g.bindingStep
  | .type mayEnd => g.typeStep mayEnd
  | .element => g.elementStep

/-- The grammar of a dialect for scripts in which goals are nested to at most a depth. -/
def ofDepth (d : Dialect) : (depth : Nat) → Grammar
  | 0 => ⟨d, fun _ => Step.fail⟩
  | depth + 1 => ⟨d, fun goal => (ofDepth d depth).step goal⟩

/-- The first line of a script that names the program to run it. -/
def interpreterLine? : Lexeme := fun s =>
  match s with
  | '#' :: '!' :: s =>
    let more (c : Char) : Bool := c ≠ '\n' && c ≠ '\x00'
    some ('#' :: '!' :: s.takeWhile more, s.dropWhile more)
  | _ => none

def script (g : Grammar) : Step :=
  optional (lexeme .hashBangLine interpreterLine?) >> many (g.read .statement) >> spaced nothing

end Grammar

/-- The depth to which goals can be nested in a script: every character opens only a few of them. -/
def Grammar.depthOf (script : Text) : Nat := 8 * script.length + 8

/-- A mistake in a script. -/
structure SyntaxError where
  offset : Nat
  deriving DecidableEq, Repr

/-- The mistake in a script of which reading failed at an offset.  A script that ends too early is wrong
as a whole. -/
def SyntaxError.ofReach (script : Text) (reach : Nat) : SyntaxError :=
  if dropTrivia (script.drop reach) = [] then ⟨(script.takeWhile isSpace).length⟩ else ⟨reach⟩

/-- The tree of a script, if it is well formed: it has been read to its end, and the defaults of properties are
in patterns. -/
def Tree.ofScript (d : Dialect) (script : Text) : Except SyntaxError Tree :=
  match (Grammar.ofDepth d (Grammar.depthOf script)).script (State.ofScript script) with
  | .ok s =>
    let tree := Tree.node .program s.trees.reverse
    if s.rest = [] && tree.defaultsAreInPatterns then .ok tree
    else .error (SyntaxError.ofReach script s.reach)
  | .error reach => .error (SyntaxError.ofReach script reach)

end AssetEmbed.Script
