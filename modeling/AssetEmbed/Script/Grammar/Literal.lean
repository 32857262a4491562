import AssetEmbed.Script.Grammar.Function

/-!
# Literals — objects, arrays, templates, and the patterns among them

An object or an array is read as an expression, in which the default of a property (`a = 1`) is allowed for
the time being.  Where it turns out to be assigned to, it becomes a pattern; where it does not, such a
default is a mistake.
-/

namespace AssetEmbed.Script

open Step

namespace Grammar

/-! ## 1. Objects, arrays and templates -/

def spread (g : Grammar) : Step := node .spreadElement (sign "..." >> g.expression .bracketed)

def objectEntry (g : Grammar) : Step :=
  g.spread <|>
    node .pair (g.propertyName >> sign ":" >> g.expression .bracketed) <|>
    g.method <|>
    (wordBut .shorthandPropertyIdentifier
        (if g.dialect.hasTypes then [] else reservedWords) >>
      optional (extend .objectAssignmentPattern (g.initializer .bracketed)))

def object (g : Grammar) : Step :=
  node .object (sign "\x7b" >> items g.objectEntry >> sign "\x7d")

def array (g : Grammar) : Step :=
  node .array (sign "[" >> items (g.spread <|> g.expression .bracketed) >> sign "]")

def template (g : Grammar) : Step :=
  node .templateString (sign "`" >>
    many (templateFragment <|> immediate .escapeSequence escape? <|>
      node .templateSubstitution (immediateSign "$\x7b" >> g.expressions .bracketed >> sign "\x7d")) >>
    immediateSign "`")

end Grammar

/-! ## 2. Patterns -/

namespace Tree

/-- The kinds of expressions that can be assigned to as they stand. -/
def isPlace (t : Tree) : Bool :=
  t.isKind .identifier || t.isKind .undefined || t.isKind .memberExpression ||
    t.isKind .subscriptExpression || t.isKind .nonNullExpression

mutual

/-- An expression as a pattern that is assigned to; none if it is not of the shape of one. -/
def toPattern? : Tree → Option Tree
  | .node .object children => (entriesToPatterns? children).map (.node .objectPattern)
  | .node .array children => (itemsToPatterns? children).map (.node .arrayPattern)
  | t => if t.isPlace then some t else none

/-- The entries of an object as those of a pattern. -/
def entriesToPatterns? : List Tree → Option (List Tree)
  | [] => some []
  | .node .pair children :: ts => do
    let children ← lastToPattern? children
    let ts ← entriesToPatterns? ts
    return .node .pairPattern children :: ts
  | .node .spreadElement children :: ts => do
    let children ← lastToPattern? children
    let ts ← entriesToPatterns? ts
    return .node .restPattern children :: ts
  | .node .methodDefinition _ :: _ => none
  | .leaf .shorthandPropertyIdentifier text :: ts =>
    (.leaf .shorthandPropertyIdentifierPattern text :: ·) <$> entriesToPatterns? ts
  | t :: ts => (t :: ·) <$> entriesToPatterns? ts

/-- The items of an array as those of a pattern. -/
def itemsToPatterns? : List Tree → Option (List Tree)
  | [] => some []
  | .blank text :: ts => (.blank text :: ·) <$> itemsToPatterns? ts
  | .token text :: ts => (.token text :: ·) <$> itemsToPatterns? ts
  | .leaf .comment text :: ts => (.leaf .comment text :: ·) <$> itemsToPatterns? ts
  | .leaf .htmlComment text :: ts => (.leaf .htmlComment text :: ·) <$> itemsToPatterns? ts
  | .node .spreadElement children :: ts => do
    let children ← lastToPattern? children
    let ts ← itemsToPatterns? ts
    return .node .restPattern children :: ts
  | .node .assignmentExpression children :: ts => do
    let children ← firstToPattern? children
    let ts ← itemsToPatterns? ts
    return .node .assignmentPattern children :: ts
  | t :: ts => do
    let t ← toPattern? t
    let ts ← itemsToPatterns? ts
    return t :: ts

/-- Trees of which the last one becomes a pattern, with a default if it has one. -/
def lastToPattern? : List Tree → Option (List Tree)
  | [] => none
  | [.node .assignmentExpression children] => do
    let children ← firstToPattern? children
    return [.node .assignmentPattern children]
  | [t] => do
    let t ← toPattern? t
    return [t]
  | t :: ts => (t :: ·) <$> lastToPattern? ts

/-- Trees of which the first one becomes a pattern; an assignment has brought its place into that form
already. -/
def firstToPattern? : List Tree → Option (List Tree)
  | .node .objectPattern children :: ts => some (.node .objectPattern children :: ts)
  | .node .arrayPattern children :: ts => some (.node .arrayPattern children :: ts)
  | t :: ts => if t.isPlace then some (t :: ts) else none
  | [] => none

end

mutual

/-- Whether no object that is an expression holds the default of a property. -/
def defaultsAreInPatterns : Tree → Bool
  | .node kind children =>
    !(kind = .object && children.any (·.isKind .objectAssignmentPattern)) &&
      defaultsOfListAreInPatterns children
  | _ => true

/-- Whether no object within trees that is an expression holds the default of a property. -/
def defaultsOfListAreInPatterns : List Tree → Bool
  | [] => true
  | t :: ts => defaultsAreInPatterns t && defaultsOfListAreInPatterns ts

end

end Tree

/-- Turns the latest tree into a pattern if it is an object or an array. -/
def Step.toPattern : Step := fun s =>
  match s.trees with
  | t :: ts =>
    if t.isKind .object || t.isKind .array then
      match t.toPattern? with
      | some t => .ok { s with trees := t :: ts }
      | none => Step.fail s
    else .ok s
  | [] => Step.fail s

end AssetEmbed.Script
