import AssetEmbed.Script.StringLiteral
import AssetEmbed.Script.Tree

/-!
# Values — what expressions stand for as they are written

Parentheses around an expression do not change its value; the value of a quoted literal is its text, and
no other expression has a value here.
-/

namespace AssetEmbed.Script.Tree

/-- Whether a tree counts as one of the things in parentheses. -/
def counts (t : Tree) : Bool := t.kind?.isSome && !t.isComment

mutual

/-- An expression without the parentheses around it, at its place. -/
def unwrapAt (offset : Nat) : Tree → Placed
  | .node kind children =>
    if kind = .parenthesizedExpression then
      (soleAt? offset children).getD ⟨offset, .node kind children⟩
    else ⟨offset, .node kind children⟩
  | t => ⟨offset, t⟩

/-- The only one of some trees that counts, without the parentheses around it. -/
def soleAt? (offset : Nat) : List Tree → Option Placed
  | [] => none
  | t :: ts =>
    if t.counts then if ts.any counts then none else some (unwrapAt offset t)
    else soleAt? (offset + t.text.length) ts

end

def Placed.unwrapped (p : Placed) : Placed := unwrapAt p.offset p.tree

def unwrapped (t : Tree) : Tree := (unwrapAt 0 t).tree

def stringValue? (t : Tree) : Option Text :=
  match t.unwrapped with
  | .leaf .string raw => literalValue? raw
  | _ => none

end AssetEmbed.Script.Tree
