import AssetEmbed.Yaml.Node

/-!
# YAML schema — what kind of value a scalar is

A tag tells the kind of a node.  A plain scalar without a tag is of the first kind whose notation it has;
every other scalar is a string.
-/

namespace AssetEmbed.Yaml

/-! ## 1. Kinds -/

inductive Kind where
  | null
  | bool
  | int
  | float
  | timestamp
  | binary
  | string
  | sequence
  | mapping
  | set
  /-- A mapping in the notation of a sequence. -/
  | orderedMapping
  | pairs
  /-- The key under which other mappings are merged into one. -/
  | merge
  /-- The key of a default value. -/
  | default
  deriving DecidableEq, Repr

def Kind.name : Kind → String
  | .null => "null"
  | .bool => "bool"
  | .int => "int"
  | .float => "float"
  | .timestamp => "timestamp"
  | .binary => "binary"
  | .string => "str"
  | .sequence => "seq"
  | .mapping => "map"
  | .set => "set"
  | .orderedMapping => "omap"
  | .pairs => "pairs"
  | .merge => "merge"
  | .default => "value"

def Kind.all : List Kind := [.null, .bool, .int, .float, .timestamp, .binary, .string, .sequence, .mapping,
  .set, .orderedMapping, .pairs, .merge, .default]

def Kind.ofTag? (tag : Text) : Option Kind :=
  Kind.all.find? fun k => tag = "tag:yaml.org,2002:".toList ++ k.name.toList

/-! ## 2. Notations -/

def unsigned (s : Text) : Text :=
  match s with
  | '+' :: rest => rest
  | '-' :: rest => rest
  | _ => s

def isOneOf (words : List String) (s : Text) : Bool := words.contains (String.ofList s)

def isDigits (isDigit : Char → Bool) (s : Text) : Bool := s ≠ [] && s.all fun c => isDigit c || c = '_'

def isOctal (c : Char) : Bool := '0' ≤ c && c ≤ '7'

def isHex (c : Char) : Bool := (Text.hexValue? c).isSome

/-- Whether a text is the exponent of a number; `signed` tells whether it must have a sign. -/
def isExponent (signed : Bool) : Text → Bool
  | e :: rest =>
    (e = 'e' || e = 'E') && (!signed || unsigned rest ≠ rest) && unsigned rest ≠ [] &&
      (unsigned rest).all Char.isDigit
  | [] => false

/-- Whether a text is the notation of an infinity, or of what is no number. -/
def isSpecial (s : Text) : Bool :=
  isOneOf [".inf", ".Inf", ".INF"] (unsigned s) || isOneOf [".nan", ".NaN", ".NAN"] s

/-- Whether a text is sixty-fold places between colons, the first of which is a plain number. -/
def isSexagesimal (s : Text) : Bool :=
  match s.splitOn ':' with
  | first :: place :: places =>
    isDigits Char.isDigit first && first.head? != some '_' && (place :: places).all fun p =>
      match p with
      | [d] => d.isDigit
      | [t, d] => '0' ≤ t && t ≤ '5' && d.isDigit
      | _ => false
  | _ => false

/-- Whether a text is the notation of a number with a fraction or an exponent. -/
def isFloat (schema : Schema) (s : Text) : Bool :=
  let body := unsigned s
  let whole := body.takeWhile fun c => c.isDigit || c = '_'
  let rest := body.dropWhile fun c => c.isDigit || c = '_'
  let isFraction (signed : Bool) (t : Text) : Bool :=
    let exponent := t.dropWhile fun c => c.isDigit || c = '_'
    exponent = [] || isExponent signed exponent
  isSpecial s ||
    (whole.head?.any Char.isDigit && match rest with
      | '.' :: t => isFraction false t
      | t => isExponent false t) ||
    -- only the newer schema has a sign before a number that begins with its point
    ((schema = .core || body = s) && whole = [] && match rest with
      | '.' :: d :: t => (d.isDigit || d = '_') && isFraction true t
      | _ => false) ||
    (schema = .old && rest.head? = some ':' &&
      isSexagesimal (body.takeWhile (· ≠ '.')) &&
      match body.dropWhile (· ≠ '.') with
      | '.' :: t => t.all fun c => c.isDigit || c = '_'
      | _ => false)

/-- Whether a text is the notation of an integer. -/
def isInt (schema : Schema) (s : Text) : Bool :=
  let body := unsigned s
  match body with
  | '0' :: 'b' :: t => isDigits (fun c => c = '0' || c = '1') t
  | '0' :: 'x' :: t => isDigits isHex t
  | '0' :: 'o' :: t => schema = .core && isDigits isOctal t
  | _ =>
    match schema with
    | .core => isDigits Char.isDigit body
    | .old =>
      isDigits isOctal body ||
        (isDigits Char.isDigit body && body.head?.any fun c => '1' ≤ c && c ≤ '9') ||
        (isSexagesimal body && body.head? ≠ some '0')

def boolWords (schema : Schema) : List String :=
  ["true", "True", "TRUE", "false", "False", "FALSE"] ++
    match schema with
    | .core => []
    | .old => ["y", "Y", "yes", "Yes", "YES", "n", "N", "no", "No", "NO", "on", "On", "ON", "off", "Off", "OFF"]

/-- The parts of a timestamp: year, month, day and, if it has a time, hour, minute and second. -/
structure Timestamp where
  date : Nat × Nat × Nat
  time : Option (Nat × Nat × Nat)
  deriving DecidableEq, Repr

/-- A number of so many digits at the start of a text. -/
def digits? (least most : Nat) (s : Text) : Option (Nat × Text) :=
  let ds := (s.take most).takeWhile Char.isDigit
  if ds.length < least then none
  else some (ds.foldl (fun n d => n * 10 + (d.toNat - '0'.toNat)) 0, s.drop ds.length)

def after? (c : Char) (s : Text) : Option Text := Text.dropStart? [c] s

/-- Whether a text is the end of a timestamp: a fraction of a second and a zone, or parts of them. -/
def isTimestampEnd (s : Text) : Bool :=
  let s := if s.head? = some '.' then s.tail.dropWhile Char.isDigit else s
  match s.dropWhile isBlank with
  | [] => s = []
  | ['Z'] => true
  | sign :: zone =>
    (sign = '+' || sign = '-') &&
      match digits? 1 2 zone with
      | some (_, []) => true
      | some (_, ':' :: rest) => (digits? 2 2 rest).any (·.2 = [])
      | _ => false

/-- The timestamp that a text is the notation of. -/
def Timestamp.ofText? (s : Text) : Option Timestamp := do
  let (year, rest) ← digits? 4 4 s
  let rest ← after? '-' rest
  let (month, rest) ← digits? 1 2 rest
  let rest ← after? '-' rest
  let (day, rest) ← digits? 1 2 rest
  if rest = [] then
    -- a date alone has all its digits
    if s.length = 10 then some ⟨(year, month, day), none⟩ else none
  else
    let rest ← match rest with
      | 'T' :: t => some t
      | 't' :: t => some t
      | c :: t => if isBlank c then some (t.dropWhile isBlank) else none
      | [] => none
    let (hour, rest) ← digits? 1 2 rest
    let rest ← after? ':' rest
    let (minute, rest) ← digits? 2 2 rest
    let rest ← after? ':' rest
    let (second, rest) ← digits? 2 2 rest
    if isTimestampEnd rest then some ⟨(year, month, day), some (hour, minute, second)⟩ else none

def daysOf (year month : Nat) : Nat :=
  if month = 2 then
    (if year % 4 = 0 ∧ (year % 100 ≠ 0 ∨ year % 400 = 0) then 29 else 28)
  else if month = 4 ∨ month = 6 ∨ month = 9 ∨ month = 11 then 30
  else 31

def Timestamp.isValid (t : Timestamp) : Bool :=
  let (year, month, day) := t.date
  1 ≤ year && 1 ≤ month && month ≤ 12 && 1 ≤ day && day ≤ daysOf year month &&
    t.time.all fun (hour, minute, second) => hour < 24 && minute < 60 && second < 60

def Kind.ofPlain (schema : Schema) (s : Text) : Kind :=
  if isOneOf (boolWords schema) s then .bool
  else if isFloat schema s then .float
  else if isInt schema s then .int
  else if s = ['<', '<'] then .merge
  else if isOneOf ["", "~", "null", "Null", "NULL"] s then .null
  else if (Timestamp.ofText? s).isSome then .timestamp
  else if s = ['='] then .default
  else .string

def Kind.ofScalar? (schema : Schema) (tag : Option Text) (plain : Bool) (s : Text) : Option Kind :=
  match tag with
  | some tag => Kind.ofTag? tag
  | none => some (if plain then Kind.ofPlain schema s else .string)

end AssetEmbed.Yaml
