import AssetEmbed.Yaml.Number

/-!
# YAML values

What a document says: scalars by their kind, lists and maps.  A map has each key once; what is merged into
it gives way to its own entries.
-/

namespace AssetEmbed.Yaml

/-! ## 1. Values -/

inductive Value where
  | null
  | bool (b : Bool)
  | number (n : Number)
  | string (s : Text)
  /-- A value of another kind: a timestamp, or bytes. -/
  | other (kind : Kind) (text : Text)
  | list (items : List Value)
  | map (entries : List (Value × Value))
  | set (items : List Value)
  /-- A collection that this value is a part of. -/
  | enclosing

inductive Fault where
  | malformed
  /-- A scalar does not have the notation of its kind, or names a day that does not exist. -/
  | badScalar
  | badBool
  /-- A key holds a collection that cannot be compared. -/
  | badKey
  deriving DecidableEq, Repr

namespace Value

mutual

/-- Whether two keys are the same: truth values are the same as the numbers 0 and 1. -/
def same : Value → Value → Bool
  | .null, .null => true
  | .bool a, .bool b => a == b
  | .number m, .number n => m = n
  | .bool a, .number n => n = .finite (if a then 1 else 0)
  | .number n, .bool a => n = .finite (if a then 1 else 0)
  | .string s, .string t => s = t
  | .other k s, .other l t => k = l && s = t
  | .list xs, .list ys => sameAll xs ys
  | _, _ => false

def sameAll : List Value → List Value → Bool
  | [], [] => true
  | x :: xs, y :: ys => same x y && sameAll xs ys
  | _, _ => false

end

/-- Whether a value counts as nothing: zero, or without content. -/
def isNothing : Value → Bool
  | .null => true
  | .bool b => !b
  | .number n => n = .finite 0
  | .string s => s = []
  | .other kind s => kind = .binary && s = []
  | .list items => items.isEmpty
  | .map entries => entries.isEmpty
  | .set items => items.isEmpty
  | .enclosing => false

/-- Whether a value in a key can be compared: no collection can. -/
def isComparable : Value → Bool
  | .list _ | .map _ | .set _ | .enclosing => false
  | _ => true

/-- A value as a key.  A list is a key if its items can be compared. -/
def asKey : Value → Except Fault Value
  | .list items => if items.all isComparable then .ok (.list items) else .error .badKey
  | .map _ | .set _ | .enclosing => .error .malformed
  | v => .ok v

/-- The entries in which a key has a value, in its old position if it had one. -/
def put (key value : Value) : List (Value × Value) → List (Value × Value)
  | [] => [(key, value)]
  | (k, v) :: rest => if same k key then (k, value) :: rest else (k, v) :: put key value rest

/-- The entries of a map, if no key is there twice. -/
def distinct : List (Value × Value) → Except Fault (List (Value × Value))
  | [] => .ok []
  | (k, v) :: rest =>
    if rest.any fun e => same k e.1 then .error .malformed else ((k, v) :: ·) <$> distinct rest

/-! ## 2. Values of nodes -/

def boolOf? (s : Text) : Option Bool :=
  let word := s.map Char.toLower
  if isOneOf ["yes", "y", "true", "on"] word then some true
  else if isOneOf ["no", "n", "false", "off"] word then some false
  else none

def ofScalar (schema : Schema) (s : Text) : Kind → Except Fault Value
  | .null => .ok .null
  | .string => .ok (.string s)
  | .binary => .ok (.other .binary s)
  | .bool =>
    match boolOf? s with
    | some b => .ok (.bool b)
    | none => .error .badBool
  | .int =>
    match integer? schema s with
    | some n => .ok (.number (.finite n))
    | none => .error .badScalar
  | .float =>
    match float? schema s with
    | some n => .ok (.number n)
    | none => .error .badScalar
  | .timestamp =>
    match Timestamp.ofText? s with
    | none => .error .malformed
    | some t => if t.isValid then .ok (.other .timestamp s) else .error .badScalar
  | _ => .error .malformed

def collectionKind (own : Kind) : Option Text → Option Kind
  | none => some own
  | some tag => Kind.ofTag? tag

/-- Whether a key is the one under which other mappings are merged. -/
def isMergeKey (schema : Schema) : Node → Bool
  | .scalar tag plain s => Kind.ofScalar? schema tag plain s = some .merge
  | _ => false

/-- The map of entries that were merged, and of those that stand in it themselves. -/
def ofEntries (merged own : List (Value × Value)) : Except Fault (List (Value × Value)) :=
  if merged.isEmpty then distinct own
  else .ok ((merged ++ own).foldl (fun es (k, v) => put k v es) [])

mutual

def ofNode (schema : Schema) : Node → Except Fault Value
  | .enclosing => .ok .enclosing
  | .scalar tag plain s =>
    match Kind.ofScalar? schema tag plain s with
    | some kind => ofScalar schema s kind
    | none => .error .malformed
  | .sequence tag items =>
    match collectionKind .sequence tag with
    | some .sequence => .list <$> ofNodes schema items
    | some .orderedMapping => do .map <$> distinct (← pairs schema items)
    | some .pairs => do return .list ((← pairs schema items).map fun (k, v) => .list [k, v])
    | _ => .error .malformed
  | .mapping tag entries => do
    let (merged, own) ← split schema entries
    let entries ← ofEntries merged own
    match collectionKind .mapping tag with
    | some .mapping => return .map entries
    | some .set => return .set (entries.map (·.1))
    | _ => throw .malformed

def ofNodes (schema : Schema) : List Node → Except Fault (List Value)
  | [] => .ok []
  | node :: nodes => do return (← ofNode schema node) :: (← ofNodes schema nodes)

def pairs (schema : Schema) : List Node → Except Fault (List (Value × Value))
  | [] => .ok []
  | .mapping _ [(key, value)] :: nodes => do
    let key ← (← ofNode schema key).asKey
    return (key, ← ofNode schema value) :: (← pairs schema nodes)
  | _ :: _ => .error .malformed

/-- The entries that are merged into a mapping, and its own ones, in order.  Other mappings may be merged
under one key only. -/
def split (schema : Schema) :
    List (Node × Node) → Except Fault (List (Value × Value) × List (Value × Value))
  | [] => .ok ([], [])
  | (key, value) :: rest => do
    if isMergeKey schema key then
      let source ← mergeSource schema value
      let (merged, own) ← split schema rest
      if source.isEmpty then return (merged, own)
      else if merged.isEmpty then return (source, own)
      else throw .malformed
    else
      -- the sign for a default value stands for itself where it is a key
      let key ← match key with
        | .scalar tag plain s =>
          if Kind.ofScalar? schema tag plain s = some .default then pure (.string s)
          else ofNode schema key
        | _ => ofNode schema key
      let key ← key.asKey
      let value ← ofNode schema value
      let (merged, own) ← split schema rest
      return (merged, (key, value) :: own)

/-- The entries of a mapping that is merged, or of a list of mappings, of which the earlier ones count
more. -/
def mergeSource (schema : Schema) : Node → Except Fault (List (Value × Value))
  | .mapping _ entries => do
    let (merged, own) ← split schema entries
    return merged ++ own
  | .sequence _ items => mergeSources schema items
  | _ => .error .malformed

def mergeSources (schema : Schema) : List Node → Except Fault (List (Value × Value))
  | [] => .ok []
  | .mapping _ entries :: nodes => do
    let (merged, own) ← split schema entries
    return (← mergeSources schema nodes) ++ merged ++ own
  | _ :: _ => .error .malformed

end

def ofText (s : Text) : Except Fault Value :=
  match (Token.ofText? s).bind Node.ofTokens? with
  | some (schema, node) => ofNode schema node
  | none => .error .malformed

end Value

end AssetEmbed.Yaml
