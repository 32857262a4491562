import AssetEmbed.Script.Grammar.Markup

/-!
# Expressions

An operand is a simple expression with what stands before it (signs, `await`) and after it (members,
calls), or an assignment, or a function; operators join operands by their strength.
-/

namespace AssetEmbed.Script.Grammar

open Step

/-! ## 1. Operators -/

/-- The punctuation that can follow an operand, the longer ones first. -/
def operatorSigns : List String := [
  ">>>=", "...", "===", "!==", "**=", "<<=", ">>=", ">>>", "&&=", "||=", "??=", "=>", "==", "!=",
  "<=", ">=", "&&", "||", "??", "?.", "++", "--", "+=", "-=", "*=", "/=", "%=", "&=", "|=", "^=",
  "<<", ">>", "**", "<", ">", "=", "&", "|", "^", "+", "-", "*", "/", "%", "?", "!"]

def operatorSign? (s : Text) : Option String := operatorSigns.find? fun o => s.startsWith o.toList

/-- How strongly an operator joins its operands. -/
def strength? (d : Dialect) (stopsAtIn : Bool) (operator : String) : Option Nat :=
  if ["as", "satisfies"].contains operator then if d.hasTypes then some 0 else none
  else if ["||", "??"].contains operator then some 1
  else if operator = "&&" then some 2
  else if operator = "|" then some 3
  else if operator = "^" then some 4
  else if operator = "&" then some 5
  else if ["===", "!==", "==", "!="].contains operator then some 6
  else if operator = "in" then if stopsAtIn then none else some 7
  else if ["<", ">", "<=", ">=", "instanceof"].contains operator then some 7
  else if ["<<", ">>", ">>>"].contains operator then some 8
  else if ["+", "-"].contains operator then some 9
  else if ["*", "/", "%"].contains operator then some 10
  else if operator = "**" then some 11
  else none

/-- The operator that comes after an operand, with its strength. -/
def joint? (g : Grammar) (c : Context) (s : State) : Option (String × Nat) :=
  if g.ends c s then none
  else
    let s := s.aheadOfExpression
    ((wordAt? s).orElse fun _ => operatorSign? s).bind fun o =>
      (strength? g.dialect c.stopsAtIn o).map fun n => (o, n)

def updateSigns : List String := [
  "+=", "-=", "*=", "/=", "%=", "^=", "&=", "|=", ">>=", ">>>=", "<<=", "**=", "&&=", "||=", "??="]

/-! ## 2. Simple expressions -/

def parenthesized (g : Grammar) : Step :=
  node .parenthesizedExpression (sign "(" >> g.expressions .bracketed >>
    choose (fun s =>
      if s.lastKind? = some .sequenceExpression then nothing
      else g.typedOptional (g.ascription false)) >> sign ")")

/-- Reads an arrow function that begins with a parenthesis, or an expression in parentheses. -/
def parenthesizedOrArrow (g : Grammar) (c : Context) : Step :=
  afterTrial g.parenthesized fun
    | none => g.arrowFunction c
    | some t =>
      if t.operatorIs "=>" then g.arrowFunction c
      else if g.dialect.hasTypes && t.operatorIs ":" then
        g.arrowFunction c <|> resume t
      else resume t

/-- Reads what begins with the word `async`: a function, or the word as a name. -/
def asyncOperand (g : Grammar) (c : Context) : Step :=
  afterTrial (keyword "async") fun
    | none => fail
    | some t =>
      if g.ends c t then g.reference
      else if t.nextIsWord "function" then g.functionExpression
      else g.arrowFunction c <|> g.reference

/-- Reads what begins with the word `import`: a property of the module, or the word as a function that is
called or that has a member. -/
def importOperand (g : Grammar) : Step :=
  node .metaProperty (keyword "import" >> operator "." >> keyword "meta") <|>
    (keywordLeaf .importKeyword "import" >>
      when (fun s => s.operatorIs "(" || s.operatorIs "." || s.operatorIs "?." ||
        (g.dialect.hasTypes && s.operatorIs "<")) nothing)

/-- Reads a name, or an arrow function with one bare parameter. -/
def nameOrArrow (g : Grammar) (c : Context) : Step :=
  afterTrial g.reference fun
    | none => fail
    | some t => if t.operatorIs "=>" then g.arrowFunction c else g.reference

def wordOperand (g : Grammar) (c : Context) (word : String) : Step :=
  if word = "function" then g.functionExpression
  else if word = "async" then g.asyncOperand c
  else if word = "class" then g.classExpression
  else if word = "this" then keywordLeaf .thisKeyword "this"
  else if word = "super" then keywordLeaf .superKeyword "super"
  else if word = "true" then keywordLeaf .trueLiteral "true"
  else if word = "false" then keywordLeaf .falseLiteral "false"
  else if word = "null" then keywordLeaf .nullLiteral "null"
  else if word = "import" then g.importOperand
  else g.nameOrArrow c

def simple (g : Grammar) (c : Context) : Step := choose fun s =>
  match s.ahead with
  | [] => fail
  | ch :: rest =>
    if ch = '(' then g.parenthesizedOrArrow c
    else if ch = '{' then g.object
    else if ch = '[' then g.array
    else if ch = '`' then g.template
    else if ch = '\'' || ch = '"' then string
    else if ch = '/' then lexeme .regex regex?
    else if ch = '@' then g.classExpression
    else if isDecimal ch || (ch = '.' && rest.head?.any isDecimal) then lexeme .number number?
    -- an arrow function with type parameters begins as markup does
    else if ch = '<' then
      g.typed (g.arrowFunction c) <|> (if g.dialect.hasMarkup then g.read .element else fail)
    else match wordAt? (ch :: rest) with
      | some word => g.wordOperand c word
      | none => fail

/-! ## 3. Members and calls -/

/-- Whether an expression of a kind can stand before a template or a call that may be skipped. -/
def isPrimary (kind : Option Kind) : Bool :=
  kind ≠ some .updateExpression && kind ≠ some .instantiationExpression &&
    kind ≠ some .jsxElement && kind ≠ some .jsxSelfClosingElement

/-- Whether what follows type arguments cannot begin an operand, so that they belong to what stands
before them. -/
def endsInstantiation (g : Grammar) (c : Context) (s : State) : Bool :=
  g.ends c s ||
    match s.aheadOfExpression with
    | [] => true
    | ch :: rest =>
      ")]\x7b\x7d,;:?".toList.elem ch || (ch = '.' && !rest.head?.any isDecimal) ||
        (operatorSign? (ch :: rest)).any ["===", "!==", "==", "!=", "&&", "||", "??"].contains ||
        (wordAt? (ch :: rest)).any ["implements", "as", "satisfies", "instanceof", "in"].contains

/-- Reads type arguments after an expression, with the call that they belong to. -/
def typeArgumentsAfter (g : Grammar) (c : Context) : Step :=
  extend .callExpression (g.typeArguments >> g.arguments) <|>
    extend .callExpression (g.typeArguments >> when (·.operatorIs "`") g.template) <|>
    (extend .instantiationExpression g.typeArguments >>
      choose fun s => if g.endsInstantiation c s then nothing else fail)

def optionalChain (g : Grammar) (primary : Bool) : Step :=
  let chain : Step := fun s =>
    immediate .optionalChain (exactly "?.") s.skipAfterExpression
  extend .subscriptExpression (chain >> sign "[" >> g.expressions .bracketed >> sign "]") <|>
    (if primary then extend .callExpression (chain >> g.typedOptional g.typeArguments >> g.arguments)
      else fail) <|>
    extend .memberExpression (chain >> (privateName <|> propertyWord))

/-- Reads one thing that stands after an expression and belongs to it. -/
def suffix (g : Grammar) (c : Context) : Step := choose fun s =>
  if g.ends c s then fail
  else
    let primary := isPrimary s.lastKind?
    match s.aheadOfExpression with
    -- before a digit the point begins a number
    | '?' :: '.' :: ch :: _ => if isDecimal ch then fail else g.optionalChain primary
    | '.' :: _ => g.memberAfter
    | '[' :: _ => g.memberAfter
    | '(' :: _ => extend .callExpression g.arguments
    | '`' :: _ => if primary then extend .callExpression g.template else fail
    | '+' :: '+' :: _ => extend .updateExpression (operator "++")
    | '-' :: '-' :: _ => extend .updateExpression (operator "--")
    | '!' :: ch :: _ =>
      if g.dialect.hasTypes && ch ≠ '=' then extend .nonNullExpression (operator "!") else fail
    | ['!'] => g.typed (extend .nonNullExpression (operator "!"))
    | '<' :: _ => g.typed (g.typeArgumentsAfter c)
    | _ => fail

/-- Reads one thing that stands after what `new` constructs and belongs to it: a member, but no call. -/
def constructorSuffix (g : Grammar) : Step := choose fun s =>
  match s.aheadOfExpression with
  | '.' :: _ => g.memberAfter
  | '[' :: _ => g.memberAfter
  | '`' :: _ => extend .callExpression g.template
  | '?' :: '.' :: ch :: _ => if isDecimal ch || ch = '(' then fail else g.optionalChain false
  | '!' :: ch :: _ =>
    if g.dialect.hasTypes && ch ≠ '=' then extend .nonNullExpression (operator "!") else fail
  | _ => fail

/-- Reads what is constructed by `new`; an arrow function or markup cannot be. -/
def constructor (g : Grammar) : Step := choose fun s =>
  if s.nextIsWord "new" && !g.dialect.hasTypes then g.read (.operand .bracketed)
  else g.simple .bracketed >>
    when (fun s => isPrimary s.lastKind? && s.lastKind? ≠ some .arrowFunction) nothing >>
    many g.constructorSuffix

def newOperand (g : Grammar) (c : Context) : Step :=
  let typeArguments : Step :=
    g.typeArguments >>
      choose fun s => if s.operatorIs "(" || g.endsInstantiation c s then nothing else fail
  node .metaProperty (keyword "new" >> operator "." >> keyword "target") <|>
    node .newExpression (keyword "new" >> g.constructor >> g.typedOptional typeArguments >>
      choose fun s =>
        if !g.ends c s && s.operatorIs "(" then g.arguments else nothing)

/-! ## 4. Operands -/

/-- Reads the rest of an assignment after the place that is assigned to. -/
def assignmentTail (g : Grammar) (c : Context) : Step := choose fun s =>
  match s.last?, operatorSign? s.aheadOfExpression with
  | some place, some o =>
    let plain := place.isPlace || place.isKind .parenthesizedExpression
    if o = "=" && (plain || place.isKind .object || place.isKind .array) then
      toPattern >> extend .assignmentExpression (operator "=" >> g.expression c)
    else if updateSigns.contains o && plain then
      extend .augmentedAssignmentExpression (operator o >> g.expression c)
    else nothing
  | _, _ => nothing

def chain (g : Grammar) (start : Step) (c : Context) : Step :=
  start >> many (g.suffix c) >> g.assignmentTail c

def privateOperand : Step :=
  privateName >> choose fun s => if s.nextIsWord "in" then nothing else fail

def yieldOperand (g : Grammar) (c : Context) : Step :=
  node .yieldExpression (keyword "yield" >> choose fun s =>
    if g.ends c s then nothing
    else (operator "*" >> g.expression c) <|> optional (g.expression c))

def unary (g : Grammar) (c : Context) (mark : Step) : Step :=
  node .unaryExpression (mark >> g.read (.operand c))

def operandStep (g : Grammar) (c : Context) : Step := choose fun s =>
  match s.ahead with
  | [] => fail
  | '+' :: '+' :: _ => node .updateExpression (sign "++" >> g.read (.operand c))
  | '-' :: '-' :: _ => node .updateExpression (sign "--" >> g.read (.operand c))
  | '#' :: _ => privateOperand
  | ch :: rest =>
    if "!~+-".toList.elem ch then g.unary c (sign (String.ofList [ch]))
    else if ch = '<' && !g.dialect.hasMarkup then
      g.chain (g.arrowFunction c) c <|>
        node .typeAssertion (g.typeArguments >> g.read (.operand c))
    else match wordAt? (ch :: rest) with
      | some word =>
        if ["typeof", "void", "delete"].contains word then g.unary c (keyword word)
        else if word = "await" then node .awaitExpression (keyword word >> g.read (.operand c))
        else if word = "yield" then g.yieldOperand c
        else if word = "new" then g.chain (g.newOperand c) c
        else g.chain (g.simple c) c
      | none => g.chain (g.simple c) c

/-! ## 5. Operators between operands -/

/-- The kind of an expression with an operator. -/
def jointKind (operator : String) : Kind :=
  if operator = "as" then .asExpression
  else if operator = "satisfies" then .satisfiesExpression
  else .binaryExpression

/-- Reads operators of at least a strength, each with what it joins to what stands before it, in at most as
many steps as a bound has characters. -/
def jointsUpTo (g : Grammar) (c : Context) : (bound : Text) → (least : Nat) → Step
  | [], _ => nothing
  | _ :: bound, least => choose fun s =>
    match g.joint? c s with
    | none => nothing
    | some (o, strength) =>
      if strength < least then nothing
      else if ["as", "satisfies"].contains o then
        extend (jointKind o) (keyword o >> g.read (.type c.mayEnd)) >> jointsUpTo g c bound least
      else
        -- powers join to the right, all other operators to the left
        let right := if o = "**" then strength else strength + 1
        extend (jointKind o)
            ((if (wordAt? o.toList).isSome then keyword o else operator o) >> g.read (.operand c) >>
              jointsUpTo g c bound right) >>
          jointsUpTo g c bound least

/-- Whether a question mark comes next that a colon and another expression belong to. -/
def asksCondition (g : Grammar) (s : State) : Bool :=
  match s.aheadOfExpression with
  | '?' :: '?' :: _ => false
  | '?' :: '.' :: ch :: _ => isDecimal ch
  | '?' :: rest =>
    !(g.dialect.hasTypes && ":),".toList.any fun ch => (rest.dropWhile Semicolon.isBlank).head? == some ch)
  | _ => false

def conditional (g : Grammar) (c : Context) : Step := choose fun s =>
  if g.asksCondition s then
    extend .ternaryExpression (operator "?" >> g.expression { Context.bracketed with beforeColon := true } >>
      operator ":" >> g.expression c)
  else nothing

def expressionStep (g : Grammar) (c : Context) : Step :=
  g.read (.operand c) >> choose (fun s => g.jointsUpTo c s.rest 0) >> g.conditional c

end AssetEmbed.Script.Grammar
