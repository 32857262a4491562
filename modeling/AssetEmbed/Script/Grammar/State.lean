import AssetEmbed.Script.Dialect
import AssetEmbed.Script.Lexeme
import AssetEmbed.Script.Tree

/-!
# Reading — steps of a grammar

A step reads a part of a script and adds the trees of what it read to those read before; it fails if the
part is not there.  Steps follow each other, are tried one after the other, are repeated, and are wrapped
up as one construct.  What a step leaves behind is always a rest of the script, so the trees that were
read and the rest together are the script.
-/

namespace AssetEmbed.Script

/-! ## 1. States -/

/-- How far a script has been read. -/
structure State where
  rest : Text
  /-- The trees of the construct that is being read, the latest first. -/
  trees : List Tree
  /-- The number of characters before the rest. -/
  offset : Nat
  /-- The farthest offset at which a step has failed so far. -/
  reach : Nat

namespace State

/-- The state before a script. -/
def ofScript (script : Text) : State := ⟨script, [], 0, 0⟩

/-- The state after one more tree with given characters. -/
def push (s : State) (tree : Tree) (text rest : Text) : State :=
  { s with rest, trees := tree :: s.trees, offset := s.offset + text.length }

def reached (s : State) (reach : Nat) : State := { s with reach := max s.reach reach }

def last? (s : State) : Option Tree := s.trees.head?

def lastKind? (s : State) : Option Kind := s.last?.bind Tree.kind?

end State

/-- A piece of trivia at the start of a text: a run of blanks, or a comment, with its tree.  A comment in
the form of markup counts only where no expression can go on (`markup`). -/
def trivium? (markup : Bool) (s : Text) : Option (Tree × Text × Text) :=
  match s.takeWhile isSpace with
  | c :: cs => some (.blank (c :: cs), c :: cs, s.dropWhile isSpace)
  | [] =>
    match comment? s with
    | some (text, rest) => some (.leaf .comment text, text, rest)
    | none =>
      if markup then
        (markupComment? s).map fun (text, rest) => (.leaf .htmlComment text, text, rest)
      else none

/-- Reads trivia, at most as many pieces as a bound has characters. -/
def State.skipUpTo (markup : Bool) : (bound : Text) → State → State
  | [], s => s
  | _ :: bound, s =>
    match trivium? markup s.rest with
    | some (tree, text, rest) => skipUpTo markup bound (s.push tree text rest)
    | none => s

/-- Reads trivia where no expression can go on. -/
def State.skip (s : State) : State := s.skipUpTo true s.rest

/-- Reads trivia after an expression. -/
def State.skipAfterExpression (s : State) : State := s.skipUpTo false s.rest

/-- A text without the blanks and the ordinary comments at its start. -/
def dropTrivia (s : Text) : Text := (State.ofScript s).skipAfterExpression.rest

/-! ## 2. Steps -/

/-- A step of reading; a step that fails tells the farthest offset at which reading failed. -/
def Step : Type := State → Except Nat State

namespace Step

def nothing : Step := fun s => .ok s

def fail : Step := fun s => .error (max s.reach s.skip.offset)

def andThen (p : Step) (q : Unit → Step) : Step := fun s =>
  match p s with
  | .ok t => q () t
  | .error reach => .error reach

def orElse (p : Step) (q : Unit → Step) : Step := fun s =>
  match p s with
  | .ok t => .ok t
  | .error reach => q () (s.reached reach)

instance : AndThen Step := ⟨andThen⟩

instance : OrElse Step := ⟨orElse⟩

def optional (p : Step) : Step := p <|> nothing

def choose (next : State → Step) : Step := fun s => next s s

def when (test : State → Bool) (p : Step) : Step := choose fun s => if test s then p else fail

/-- A step that is made from the same place as a first one, and may depend on whether that one can be made
and on the state after it. -/
def afterTrial (p : Step) (next : Option State → Step) : Step := fun s =>
  match p s with
  | .ok t => next (some t) s
  | .error reach => next none (s.reached reach)

def resume (t : State) : Step := fun _ => .ok t

def manyUpTo (p : Step) : (bound : Text) → Step
  | [] => nothing
  | _ :: bound => (p >> manyUpTo p bound) <|> nothing

def many (p : Step) : Step := choose fun s => manyUpTo p s.rest

def many1 (p : Step) : Step := p >> many p

def sepBy1 (separator p : Step) : Step := p >> many (separator >> p)

def spaced (p : Step) : Step := fun s => p s.skip

/-- Wraps up what a step reads as one construct; trivia before it stays outside. -/
def node (kind : Kind) (p : Step) : Step := fun s =>
  let s := s.skip
  match p { s with trees := [] } with
  | .ok t => .ok { t with trees := .node kind t.trees.reverse :: s.trees }
  | .error reach => .error reach

/-- Wraps up the latest tree and what a step reads after it as one construct. -/
def extend (kind : Kind) (p : Step) : Step := fun s =>
  match s.trees with
  | [] => fail s
  | tree :: trees =>
    match p { s with trees := [tree] } with
    | .ok t => .ok { t with trees := .node kind t.trees.reverse :: trees }
    | .error reach => .error reach

/-! ## 3. Tokens -/

def immediateTree (tree : Text → Tree) (read : Lexeme) : Step := fun s =>
  match read s.rest with
  | some (text, rest) => .ok (s.push (tree text) text rest)
  | none => fail s

def immediate (kind : Kind) (read : Lexeme) : Step := immediateTree (.leaf kind) read

def lexeme (kind : Kind) (read : Lexeme) : Step := spaced (immediate kind read)

/-- A text at the start of another one, as a lexeme. -/
def exactly (text : String) : Lexeme := fun s =>
  (Text.dropStart? text.toList s).map fun rest => (text.toList, rest)

def immediateSign (text : String) : Step := immediateTree .token (exactly text)

def sign (text : String) : Step := spaced (immediateSign text)

def operator (text : String) : Step := fun s => immediateSign text s.skipAfterExpression

def exactWord (text : String) : Lexeme := fun s =>
  (word? s).bind fun (w, rest) => if w = text.toList then some (w, rest) else none

def keyword (text : String) : Step := spaced (immediateTree .token (exactWord text))

def keywordOf (texts : List String) : Step := texts.foldr (fun t p => keyword t <|> p) fail

def keywordLeaf (kind : Kind) (text : String) : Step := lexeme kind (exactWord text)

end Step

/-! ## 4. Looking ahead -/

def State.ahead (s : State) : Text := s.skip.rest

def State.aheadOfExpression (s : State) : Text := s.skipAfterExpression.rest

def wordAt? (s : Text) : Option String := (word? s).map fun (w, _) => String.ofList w

def State.nextWord? (s : State) : Option String := wordAt? s.ahead

def State.nextIsWord (s : State) (text : String) : Bool := s.nextWord? == some text

def State.nextIs (s : State) (text : String) : Bool := s.ahead.startsWith text.toList

def State.operatorIs (s : State) (text : String) : Bool := s.aheadOfExpression.startsWith text.toList

end AssetEmbed.Script
