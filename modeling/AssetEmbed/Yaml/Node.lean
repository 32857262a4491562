import AssetEmbed.Yaml.Token

/-!
# YAML nodes

A document is a tree of scalars, sequences and mappings.  A node may have an anchor; an alias stands for the
node that last had its anchor.
-/

namespace AssetEmbed.Yaml

/-- A node of a document, with its tag if it has one. -/
inductive Node where
  | scalar (tag : Option Text) (plain : Bool) (text : Text)
  | sequence (tag : Option Text) (items : List Node)
  | mapping (tag : Option Text) (entries : List (Node × Node))
  /-- A collection that this node is a part of. -/
  | enclosing

def Node.empty : Node := .scalar none true []

inductive Schema where
  | old
  | core
  deriving DecidableEq, Repr

/-! ## 1. States -/

structure Reading where
  tokens : List Token
  anchors : List (Text × Node)
  /-- What the handles of tags stand for. -/
  handles : List (Text × Text)

abbrev Read (α : Type) := StateT Reading Option α

namespace Read

def peek : Read (Option Token) := do return (← get).tokens.head?

def skip : Read Unit := modify fun r => { r with tokens := r.tokens.tail }

/-- Whether one of some tokens comes next; the end of the document counts as none of them. -/
def nextIs (tokens : List Token) : Read Bool := do return (← peek).any tokens.contains

def require (t : Token) : Read Unit := do
  if ← nextIs [t] then skip else failure

def aliased (name : Text) : Read Node := do
  match (← get).anchors.find? (·.1 = name) with
  | some (_, node) => return node
  | none => failure

def anchored (anchor : Option Text) (node : Node) : Read Node := do
  match anchor with
  | some name => modify fun r => { r with anchors := (name, node) :: r.anchors }
  | none => pure ()
  return node

/-- Reads a collection.  Until it has been read, its anchor stands for a node that encloses what is read. -/
def collection (anchor : Option Text) (read : Read Node) : Read Node := do
  match anchor with
  | none => read
  | some name =>
    let before := (← get).anchors.length
    let _ ← anchored anchor .enclosing
    let node ← read
    modify fun r => { r with
      anchors := r.anchors.modify (r.anchors.length - 1 - before) fun _ => (name, node) }
    return node

/-! ## 2. Properties -/

def resolveTag (handle : Option Text) (suffix : Text) : Read Text := do
  match handle with
  | none => return suffix
  | some name =>
    match (← get).handles.find? (·.1 = name) with
    | some (_, expansion) => return expansion ++ suffix
    | none => failure

def anchor? : Read (Option Text) := do
  match ← peek with
  | some (.anchor name) => skip; return some name
  | _ => return none

def tag? : Read (Option Text) := do
  match ← peek with
  | some (.tag handle suffix) => skip; some <$> resolveTag handle suffix
  | _ => return none

/-- The anchor and the tag before a node, in either order. -/
def properties : Read (Option Text × Option Text) := do
  match ← anchor? with
  | some name => return (some name, ← tag?)
  | none =>
    match ← tag? with
    | some tag => return (← anchor?, some tag)
    | none => return (none, none)

/-- The tag of a node that leaves its kind open. -/
def openTag : Text := ['!']

/-- A scalar with the tag that was read before it. -/
def taggedScalar (tag : Option Text) (plain : Bool) (text : Text) : Node :=
  if tag = some openTag then .scalar none true text else .scalar tag (plain && tag.isNone) text

/-- The tag of a collection, from the one that was read before it. -/
def collectionTag (tag : Option Text) : Option Text := tag.filter (· ≠ openTag)

/-! ## 3. Nodes -/

inductive Site where
  /-- In brackets or braces. -/
  | flow
  /-- Where a block collection may begin. -/
  | block
  /-- In a block mapping, where a sequence need not be indented. -/
  | entry
  deriving DecidableEq, Repr

mutual

/-- Reads a node, through at most a number of levels and entries. -/
def node (site : Site) : (bound : Nat) → Read Node
  | 0 => failure
  | bound + 1 => do
    match ← peek with
    | some (.alias name) => skip; aliased name
    | _ =>
      let (anchor, tag) ← properties
      match ← peek with
      | some (.scalar plain text) => skip; anchored anchor (taggedScalar tag plain text)
      | some .flowSequence =>
        skip
        collection anchor (.sequence (collectionTag tag) <$> flowItems true bound)
      | some .flowMapping =>
        skip
        collection anchor (.mapping (collectionTag tag) <$> flowEntries true bound)
      | next =>
        if next = some .blockSequence && site ≠ .flow then do
          skip
          collection anchor (.sequence (collectionTag tag) <$> blockItems bound)
        else if next = some .blockMapping && site ≠ .flow then do
          skip
          collection anchor (.mapping (collectionTag tag) <$> blockEntries bound)
        -- no token opens a sequence that stands at the column of the key it belongs to
        else if next = some .blockEntry && site = .entry then
          collection anchor (.sequence (collectionTag tag) <$> looseItems bound)
        -- properties alone belong to an empty text
        else if anchor.isSome || tag.isSome then anchored anchor (taggedScalar tag true [])
        else failure

def nodeUnless (stops : List Token) (site : Site) : (bound : Nat) → Read Node
  | 0 => failure
  | bound + 1 => do
    if ← nextIs stops then return .empty else node site bound

def blockItems : (bound : Nat) → Read (List Node)
  | 0 => failure
  | bound + 1 => do
    if ← nextIs [.blockEntry] then
      skip
      let item ← nodeUnless [.blockEntry, .blockEnd] .block bound
      return item :: (← blockItems bound)
    else
      require .blockEnd
      return []

def looseItems : (bound : Nat) → Read (List Node)
  | 0 => failure
  | bound + 1 => do
    if ← nextIs [.blockEntry] then
      skip
      let item ← nodeUnless [.blockEntry, .key, .value, .blockEnd] .block bound
      return item :: (← looseItems bound)
    else return []

def blockEntries : (bound : Nat) → Read (List (Node × Node))
  | 0 => failure
  | bound + 1 => do
    if ← nextIs [.key, .value] then
      let key ← do
        if ← nextIs [.key] then
          skip
          nodeUnless [.key, .value, .blockEnd] .entry bound
        else pure .empty
      let value ← do
        if ← nextIs [.value] then
          skip
          nodeUnless [.key, .value, .blockEnd] .entry bound
        else pure .empty
      return (key, value) :: (← blockEntries bound)
    else
      require .blockEnd
      return []

def flowValue (closing : Token) : (bound : Nat) → Read Node
  | 0 => failure
  | bound + 1 => do
    if ← nextIs [.value] then
      skip
      nodeUnless [.flowEntry, closing] .flow bound
    else return .empty

/-- Reads the entries of a sequence in brackets; an entry with a key is a mapping of its own. -/
def flowItems (first : Bool) : (bound : Nat) → Read (List Node)
  | 0 => failure
  | bound + 1 => do
    if ← nextIs [.flowSequenceEnd] then
      skip
      return []
    if !first then require .flowEntry
    -- a comma may stand behind the last item
    if ← nextIs [.flowSequenceEnd] then
      skip
      return []
    let item ← do
      if ← nextIs [.key] then
        skip
        let key ← nodeUnless [.value, .flowEntry, .flowSequenceEnd] .flow bound
        let value ← flowValue .flowSequenceEnd bound
        pure (.mapping none [(key, value)])
      else node .flow bound
    return item :: (← flowItems false bound)

def flowEntries (first : Bool) : (bound : Nat) → Read (List (Node × Node))
  | 0 => failure
  | bound + 1 => do
    if ← nextIs [.flowMappingEnd] then
      skip
      return []
    if !first then require .flowEntry
    -- a comma may stand behind the last entry
    if ← nextIs [.flowMappingEnd] then
      skip
      return []
    let entry ← do
      if ← nextIs [.key] then
        skip
        let key ← nodeUnless [.value, .flowEntry, .flowMappingEnd] .flow bound
        pure (key, ← flowValue .flowMappingEnd bound)
      else if ← nextIs [.value] then pure (.empty, ← flowValue .flowMappingEnd bound)
      else pure (← node .flow bound, .empty)
    return entry :: (← flowEntries false bound)

end

/-! ## 4. Documents -/

/-- What the handles of tags stand for where no instruction says so. -/
def defaultHandles : List (Text × Text) :=
  [("!".toList, "!".toList), ("!!".toList, "tag:yaml.org,2002:".toList)]

/-- Reads the instructions before a document: the version, and the handles of tags. -/
def directives (version : Option (Nat × Nat)) (handles : List (Text × Text)) :
    List Token → Option (Option (Nat × Nat) × List (Text × Text) × List Token)
  | .version major minor :: rest =>
    if version.isSome || major ≠ 1 then none else directives (some (major, minor)) handles rest
  | .handle name expansion :: rest =>
    if handles.any (·.1 = name) then none
    else directives version ((name, expansion) :: handles) rest
  | .directive :: rest => directives version handles rest
  | rest => some (version, handles, rest)

def schemaOf (version : Option (Nat × Nat)) : Schema :=
  if version = some (1, 1) then .old else .core

def separates : Token → Bool
  | .version _ _ | .handle _ _ | .directive | .documentStart | .documentEnd => true
  | _ => false

/-- The node of a document, which is to be all that is left; a document without content is empty. -/
def onlyDocument? (tokens : List Token) (handles : List (Text × Text)) : Option Node :=
  let finish (node : Node) : List Token → Option Node
    | [] => some node
    | [.documentEnd] => some node
    | _ => none
  if tokens.head?.all separates then finish .empty tokens
  else
    ((node .block (4 * tokens.length + 4)).run ⟨tokens, [], handles⟩).bind fun (node, r) =>
      finish node r.tokens

end Read

/-- The node of the only document of some tokens, with the schema of the document. -/
def Node.ofTokens? (tokens : List Token) : Option (Schema × Node) :=
  match tokens with
  | [] => some (.core, .empty)
  | .documentEnd :: _ => none
  | first :: _ =>
    if Read.separates first then do
      let (version, handles, rest) ← Read.directives none [] tokens
      match rest with
      | .documentStart :: rest =>
        let node ← Read.onlyDocument? rest (handles ++ Read.defaultHandles)
        return (Read.schemaOf version, node)
      | _ => none
    else (Read.onlyDocument? tokens Read.defaultHandles).map (.core, ·)

end AssetEmbed.Yaml
