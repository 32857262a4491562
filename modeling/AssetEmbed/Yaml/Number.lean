import AssetEmbed.Yaml.Schema

/-!
# YAML numbers

An integer has the value that is written down.  A number with a fraction or an exponent has the nearest value
of 64-bit binary floating point, so that two of them may be the same number though they are written with
different values.  All values are fractions, by which numbers of both sorts are compared.
-/

namespace AssetEmbed.Yaml

/-- A number as it is compared with others. -/
inductive Number where
  | finite (value : Rat)
  | infinite (negative : Bool)
  /-- What is no number by its own account. -/
  | undefined
  deriving DecidableEq, Repr

def Number.negate : Number → Number
  | .finite value => .finite (-value)
  | .infinite negative => .infinite !negative
  | .undefined => .undefined

/-! ## 1. Floating point -/

/-- The nearest integer; of two that are equally near the even one. -/
def nearest (q : Rat) : Int :=
  let r := q - q.floor
  if r < 1 / 2 ∨ r = 1 / 2 ∧ q.floor % 2 = 0 then q.floor else q.floor + 1

/-- The exponent of the last of the 53 binary places of a value, which are fewer where it is very small. -/
def lastPlace (q : Rat) : Int :=
  let top : Int := (q.num.natAbs.log2 : Int) - q.den.log2
  -- numerator and denominator tell the first place up to one
  let first := if q.abs < 2 ^ top then top - 1 else top
  max (first - 52) (-1074)

/-- A value rounded to the places of floating point, however large it is. -/
def rounded (q : Rat) : Rat := nearest (q / 2 ^ lastPlace q) * 2 ^ lastPlace q

/-- The number with a rounded value; beyond the largest exponent it is infinite. -/
def Number.ofRounded (q : Rat) : Number := if lastPlace q ≤ 971 then .finite q else .infinite (q.num < 0)

/-! ## 2. Decimal notation -/

/-- A number with finitely many decimal places: `mantissa · 10 ^ exponent`, where the mantissa is no multiple
of ten unless the number is zero. -/
structure Decimal where
  mantissa : Int
  exponent : Int
  deriving DecidableEq, Repr

/-- The normal form of a number; `places` bounds the number of zeros that are taken off. -/
def Decimal.ofParts : (places : Nat) → (mantissa exponent : Int) → Decimal
  | 0, m, e => if m = 0 then ⟨0, 0⟩ else ⟨m, e⟩
  | places + 1, m, e =>
    if m = 0 then ⟨0, 0⟩
    else if m % 10 = 0 then ofParts places (m / 10) (e + 1)
    else ⟨m, e⟩

/-- The value of a number in floating point.  Where it is too large or too small for that in any case, the
exponent is brought nearer to zero, so that no huge power has to be computed. -/
def Decimal.value (n : Decimal) : Rat :=
  let least : Int := -((Text.ofInt n.mantissa).length + 400)
  rounded (n.mantissa * 10 ^ max least (min n.exponent 400))

def Decimal.toNumber (n : Decimal) : Number := .ofRounded n.value

instance : Coe Decimal Number := ⟨Decimal.toNumber⟩

/-! ## 3. Notations -/

def ofDigits? (base : Nat) (s : Text) : Option Nat :=
  if s = [] then none
  else s.foldl (fun n c => do
    let n ← n
    let d ← Text.hexValue? c
    if d < base then some (n * base + d) else none) (some 0)

def signed (s : Text) (n : Int) : Int := if s.head? = some '-' then -n else n

def integer? (schema : Schema) (s : Text) : Option Int :=
  let s := s.filter (· ≠ '_')
  let magnitude : Option Nat := match unsigned s with
    | '0' :: 'b' :: t => ofDigits? 2 t
    | '0' :: 'x' :: t => ofDigits? 16 t
    | '0' :: 'o' :: t => ofDigits? 8 t
    | t =>
      if schema = .old && t.elem ':' then
        ((Text.splitOn ':' t).mapM (ofDigits? 10)).map fun ds => ds.foldl (fun n d => n * 60 + d) 0
      else if schema = .old && t.head? = some '0' then ofDigits? 8 t
      else ofDigits? 10 t
  magnitude.map fun n => signed s n

/-- The number that a notation with a fraction or an exponent denotes, in lower case and without underscores. -/
def decimal? (s : Text) : Option Decimal := do
  let body := unsigned s
  let whole := body.takeWhile Char.isDigit
  let rest := body.dropWhile Char.isDigit
  let (fraction, rest) := match rest with
    | '.' :: t => (t.takeWhile Char.isDigit, t.dropWhile Char.isDigit)
    | t => ([], t)
  -- the digits behind the point are read with those before it, and the exponent makes up for it
  let digits ← ofDigits? 10 (whole ++ fraction)
  let exponent ← match rest with
    | [] => some 0
    | e :: t => if e = 'e' then (ofDigits? 10 (unsigned t)).map fun n => signed t n else none
  return Decimal.ofParts (whole.length + fraction.length) (signed s digits) (exponent - fraction.length)

/-- The value of places to the base 60, the last of which counts least, as it is summed up in floating point. -/
def ofPlaces (places : List Rat) : Rat :=
  places.reverse.zipIdx.foldl (fun value (place, i) => rounded (value + rounded (place * rounded (60 ^ i)))) 0

def float? (schema : Schema) (s : Text) : Option Number :=
  let s := (s.filter (· ≠ '_')).map Char.toLower
  let body := unsigned s
  let magnitude : Option Number :=
    if body = ".inf".toList then some (.infinite false)
    else if body = ".nan".toList then some .undefined
    else if schema = .old && body.elem ':' then
      ((Text.splitOn ':' body).mapM decimal?).map fun places => .ofRounded (ofPlaces (places.map (·.value)))
    else (decimal? body).map (·.toNumber)
  if s.head? = some '-' then magnitude.map (·.negate) else magnitude

end AssetEmbed.Yaml
