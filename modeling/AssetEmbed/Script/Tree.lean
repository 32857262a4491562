import AssetEmbed.Text

/-!
# Syntax trees

The tree of a script keeps every character of it: a leaf is a token, a blank or a comment, and the leaves in
order spell the script.  A kind says what a node or a token is; tokens that only hold a construct together
have no kind of their own.
-/

namespace AssetEmbed.Script

/-! ## 1. Kinds -/

/-- What a node or a named token is. -/
inductive Kind where
  | identifier | undefined | thisKeyword | superKeyword | number | string | templateString
  | stringFragment | escapeSequence | templateSubstitution | regex | trueLiteral | falseLiteral
  | nullLiteral | object | array | pair | methodDefinition | shorthandPropertyIdentifier
  | spreadElement | propertyIdentifier | privatePropertyIdentifier | computedPropertyName
  | objectPattern | arrayPattern | pairPattern | restPattern | assignmentPattern
  | objectAssignmentPattern | shorthandPropertyIdentifierPattern | functionExpression
  | generatorFunction | arrowFunction | classExpression | formalParameters | requiredParameter
  | optionalParameter | callExpression | memberExpression | subscriptExpression
  | parenthesizedExpression | newExpression | metaProperty | importKeyword | optionalChain
  | arguments | awaitExpression | yieldExpression | unaryExpression | updateExpression
  | binaryExpression | ternaryExpression | assignmentExpression | augmentedAssignmentExpression
  | sequenceExpression | asExpression | satisfiesExpression | nonNullExpression | typeAssertion
  | instantiationExpression | internalModule | jsxElement | jsxSelfClosingElement
  | jsxOpeningElement | jsxClosingElement | jsxExpression | jsxAttribute | jsxNamespaceName
  | jsxText | htmlCharacterReference | typeAscription | typeArguments | typeParameters
  | typeParameter | typeExpression | decorator | classHeritage | classBody | fieldDefinition
  | classStaticBlock | classMember | program | hashBangLine | statementBlock | expressionStatement
  | emptyStatement | lexicalDeclaration | variableDeclaration | usingDeclaration
  | variableDeclarator | functionDeclaration | generatorFunctionDeclaration | functionSignature
  | classDeclaration | importStatement | importClause | importAttribute | exportStatement
  | exportClause | ifStatement | elseClause | switchStatement | switchBody | switchCase
  | switchDefault | forStatement | forInStatement | whileStatement | doStatement | tryStatement
  | catchClause | finallyClause | withStatement | breakStatement | continueStatement
  | debuggerStatement | returnStatement | throwStatement | labeledStatement | enumDeclaration
  | enumBody | interfaceDeclaration | interfaceBody | typeAliasDeclaration | ambientDeclaration
  | moduleDeclaration | importAlias | abstractClassDeclaration | comment | htmlComment
  deriving DecidableEq, Repr

def Kind.name : Kind → String
  | .identifier => "identifier"
  | .undefined => "undefined"
  | .thisKeyword => "this"
  | .superKeyword => "super"
  | .number => "number"
  | .string => "string"
  | .templateString => "template_string"
  | .stringFragment => "string_fragment"
  | .escapeSequence => "escape_sequence"
  | .templateSubstitution => "template_substitution"
  | .regex => "regex"
  | .trueLiteral => "true"
  | .falseLiteral => "false"
  | .nullLiteral => "null"
  | .object => "object"
  | .array => "array"
  | .pair => "pair"
  | .methodDefinition => "method_definition"
  | .shorthandPropertyIdentifier => "shorthand_property_identifier"
  | .spreadElement => "spread_element"
  | .propertyIdentifier => "property_identifier"
  | .privatePropertyIdentifier => "private_property_identifier"
  | .computedPropertyName => "computed_property_name"
  | .objectPattern => "object_pattern"
  | .arrayPattern => "array_pattern"
  | .pairPattern => "pair_pattern"
  | .restPattern => "rest_pattern"
  | .assignmentPattern => "assignment_pattern"
  | .objectAssignmentPattern => "object_assignment_pattern"
  | .shorthandPropertyIdentifierPattern => "shorthand_property_identifier_pattern"
  | .functionExpression => "function_expression"
  | .generatorFunction => "generator_function"
  | .arrowFunction => "arrow_function"
  | .classExpression => "class"
  | .formalParameters => "formal_parameters"
  | .requiredParameter => "required_parameter"
  | .optionalParameter => "optional_parameter"
  | .callExpression => "call_expression"
  | .memberExpression => "member_expression"
  | .subscriptExpression => "subscript_expression"
  | .parenthesizedExpression => "parenthesized_expression"
  | .newExpression => "new_expression"
  | .metaProperty => "meta_property"
  | .importKeyword => "import"
  | .optionalChain => "optional_chain"
  | .arguments => "arguments"
  | .awaitExpression => "await_expression"
  | .yieldExpression => "yield_expression"
  | .unaryExpression => "unary_expression"
  | .updateExpression => "update_expression"
  | .binaryExpression => "binary_expression"
  | .ternaryExpression => "ternary_expression"
  | .assignmentExpression => "assignment_expression"
  | .augmentedAssignmentExpression => "augmented_assignment_expression"
  | .sequenceExpression => "sequence_expression"
  | .asExpression => "as_expression"
  | .satisfiesExpression => "satisfies_expression"
  | .nonNullExpression => "non_null_expression"
  | .typeAssertion => "type_assertion"
  | .instantiationExpression => "instantiation_expression"
  | .internalModule => "internal_module"
  | .jsxElement => "jsx_element"
  | .jsxSelfClosingElement => "jsx_self_closing_element"
  | .jsxOpeningElement => "jsx_opening_element"
  | .jsxClosingElement => "jsx_closing_element"
  | .jsxExpression => "jsx_expression"
  | .jsxAttribute => "jsx_attribute"
  | .jsxNamespaceName => "jsx_namespace_name"
  | .jsxText => "jsx_text"
  | .htmlCharacterReference => "html_character_reference"
  | .typeAscription => "type_annotation"
  | .typeArguments => "type_arguments"
  | .typeParameters => "type_parameters"
  | .typeParameter => "type_parameter"
  | .typeExpression => "type"
  | .decorator => "decorator"
  | .classHeritage => "class_heritage"
  | .classBody => "class_body"
  | .fieldDefinition => "field_definition"
  | .classStaticBlock => "class_static_block"
  | .classMember => "class_member"
  | .program => "program"
  | .hashBangLine => "hash_bang_line"
  | .statementBlock => "statement_block"
  | .expressionStatement => "expression_statement"
  | .emptyStatement => "empty_statement"
  | .lexicalDeclaration => "lexical_declaration"
  | .variableDeclaration => "variable_declaration"
  | .usingDeclaration => "using_declaration"
  | .variableDeclarator => "variable_declarator"
  | .functionDeclaration => "function_declaration"
  | .generatorFunctionDeclaration => "generator_function_declaration"
  | .functionSignature => "function_signature"
  | .classDeclaration => "class_declaration"
  | .importStatement => "import_statement"
  | .importClause => "import_clause"
  | .importAttribute => "import_attribute"
  | .exportStatement => "export_statement"
  | .exportClause => "export_clause"
  | .ifStatement => "if_statement"
  | .elseClause => "else_clause"
  | .switchStatement => "switch_statement"
  | .switchBody => "switch_body"
  | .switchCase => "switch_case"
  | .switchDefault => "switch_default"
  | .forStatement => "for_statement"
  | .forInStatement => "for_in_statement"
  | .whileStatement => "while_statement"
  | .doStatement => "do_statement"
  | .tryStatement => "try_statement"
  | .catchClause => "catch_clause"
  | .finallyClause => "finally_clause"
  | .withStatement => "with_statement"
  | .breakStatement => "break_statement"
  | .continueStatement => "continue_statement"
  | .debuggerStatement => "debugger_statement"
  | .returnStatement => "return_statement"
  | .throwStatement => "throw_statement"
  | .labeledStatement => "labeled_statement"
  | .enumDeclaration => "enum_declaration"
  | .enumBody => "enum_body"
  | .interfaceDeclaration => "interface_declaration"
  | .interfaceBody => "interface_body"
  | .typeAliasDeclaration => "type_alias_declaration"
  | .ambientDeclaration => "ambient_declaration"
  | .moduleDeclaration => "module"
  | .importAlias => "import_alias"
  | .abstractClassDeclaration => "abstract_class_declaration"
  | .comment => "comment"
  | .htmlComment => "html_comment"

/-! ## 2. Trees -/

inductive Tree where
  | blank (text : Text)
  /-- A token without a kind: punctuation, or a word that belongs to the construct it stands in. -/
  | token (text : Text)
  /-- A token with a kind, or a comment. -/
  | leaf (kind : Kind) (text : Text)
  /-- A construct. -/
  | node (kind : Kind) (children : List Tree)

namespace Tree

def kind? : Tree → Option Kind
  | .leaf kind _ => some kind
  | .node kind _ => some kind
  | _ => none

def isKind (kind : Kind) (t : Tree) : Bool := t.kind? == some kind

def children : Tree → List Tree
  | .node _ children => children
  | _ => []

def named (t : Tree) : List Tree := t.children.filter (·.kind?.isSome)

def isComment (t : Tree) : Bool := t.isKind .comment

/-- Whether a tree stands between the parts of a construct without being one of them. -/
def isTrivia : Tree → Bool
  | .blank _ => true
  | .leaf .comment _ => true
  | .leaf .htmlComment _ => true
  | _ => false

def parts (t : Tree) : List Tree := t.children.filter (!·.isTrivia)

def isToken (text : String) : Tree → Bool
  | .token t => t = text.toList
  | _ => false

mutual

def text : Tree → Text
  | .blank s => s
  | .token s => s
  | .leaf _ s => s
  | .node _ children => textOfList children

def textOfList : List Tree → Text
  | [] => []
  | t :: ts => t.text ++ textOfList ts

end

structure Placed where
  offset : Nat
  tree : Tree

def placeList (offset : Nat) : List Tree → List Placed
  | [] => []
  | t :: ts => ⟨offset, t⟩ :: placeList (offset + t.text.length) ts

def Placed.children (p : Placed) : List Placed := placeList p.offset p.tree.children

def Placed.named (p : Placed) : List Placed := p.children.filter (·.tree.kind?.isSome)

def Placed.parts (p : Placed) : List Placed := p.children.filter (!·.tree.isTrivia)

def Placed.stop (p : Placed) : Nat := p.offset + p.tree.text.length

theorem Placed.offset_le_stop (p : Placed) : p.offset ≤ p.stop := Nat.le_add_right _ _

mutual

/-- A tree and everything within it, in the order of the script, a construct before its parts. -/
def descend (offset : Nat) : Tree → List Placed
  | .node kind children => ⟨offset, .node kind children⟩ :: descendList offset children
  | t => [⟨offset, t⟩]

/-- Trees that follow each other from a place on, and everything within them. -/
def descendList (offset : Nat) : List Tree → List Placed
  | [] => []
  | t :: ts => descend offset t ++ descendList (offset + t.text.length) ts

end

end Tree

end AssetEmbed.Script
