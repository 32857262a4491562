import AssetEmbed.Call.Resolve
import AssetEmbed.Script.Value

/-!
# Bindings — the variables of a module that stand for string literals

Only declarations at the top of a module count, exported or not; the last declaration of a name wins.
-/

namespace AssetEmbed.Script

namespace Tree

/-- Whether a tree declares variables. -/
def declaresVariables (t : Tree) : Bool :=
  t.isKind .lexicalDeclaration || t.isKind .variableDeclaration

def topDeclarations (script : Tree) : List Tree :=
  script.named.flatMap fun t =>
    if t.declaresVariables then [t]
    else if t.isKind .exportStatement then (t.named.filter declaresVariables).take 1
    else []

def initialValue? (declarator : Tree) : Option Tree :=
  (declarator.parts.dropWhile (!·.isToken "="))[1]?

def literalBinding? (declarator : Tree) : Option (Text × Text) :=
  match declarator.parts.head? with
  | some (.leaf .identifier name) => do
    let value ← declarator.initialValue?
    let value ← value.stringValue?
    return (name, value)
  | _ => none

def literalBindings (script : Tree) : List (Text × Text) :=
  script.topDeclarations.flatMap fun t =>
    (t.named.filter (·.isKind .variableDeclarator)).filterMap literalBinding?

end Tree

/-- The bindings of a script: of each name, the last one. -/
def bindings (script : Tree) : Bindings :=
  script.literalBindings.foldl (fun bs b => bs.filter (fun c => c.1 ≠ b.1) ++ [b]) []

end AssetEmbed.Script
