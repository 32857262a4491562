import AssetEmbed.Text.Utf8

/-!
# UTF-16

Code units, surrogate pairs, and decoding in which every surrogate without its partner becomes U+FFFD.
-/

namespace AssetEmbed.Utf16

/-! ## 1. Code units -/

/-- Whether a unit opens a surrogate pair. -/
def isHigh (u : UInt16) : Bool := 0xD800 ≤ u && u < 0xDC00

/-- Whether a unit closes a surrogate pair. -/
def isLow (u : UInt16) : Bool := 0xDC00 ≤ u && u < 0xE000

/-- The units of a code point; a value beyond the first plane takes a surrogate pair. -/
def unitsOf (n : Nat) : List UInt16 :=
  if n < 0x10000 then [UInt16.ofNat n]
  else [UInt16.ofNat (0xD800 + (n - 0x10000) / 0x400), UInt16.ofNat (0xDC00 + (n - 0x10000) % 0x400)]

def encode (s : Text) : List UInt16 := s.flatMap fun c => unitsOf c.toNat

/-- The number of units that a text takes. -/
def width (s : Text) : Nat := s.foldr (fun c n => (if c.toNat < 0x10000 then 1 else 2) + n) 0

theorem width_nil : width [] = 0 := rfl

theorem width_cons (c : Char) (s : Text) :
    width (c :: s) = (if c.toNat < 0x10000 then 1 else 2) + width s := rfl

theorem width_append (s t : Text) : width (s ++ t) = width s + width t := by
  induction s with
  | nil => rw [List.nil_append, width_nil, Nat.zero_add]
  | cons c s ih => rw [List.cons_append, width_cons, width_cons, ih, Nat.add_assoc]

/-! ## 2. Decoding -/

/-- The scalar value of a surrogate pair. -/
def pair (high low : UInt16) : Char :=
  Char.ofNat (0x10000 + (high.toNat - 0xD800) * 0x400 + (low.toNat - 0xDC00))

/-- The text of a sequence of units, with U+FFFD for each unpaired surrogate.  A sequence that was cut
within a unit (`cut`) ends in one more U+FFFD, unless its last whole unit is waiting for a partner. -/
def decodeCut (cut : Bool) : List UInt16 → Text
  | [] => if cut then [Utf8.replacement] else []
  | [u] =>
    if isHigh u then [Utf8.replacement]
    else (if isLow u then Utf8.replacement else Char.ofNat u.toNat) :: decodeCut cut []
  | u :: v :: us =>
    if isHigh u then
      if isLow v then pair u v :: decodeCut cut us
      else Utf8.replacement :: decodeCut cut (v :: us)
    else (if isLow u then Utf8.replacement else Char.ofNat u.toNat) :: decodeCut cut (v :: us)

def decode (us : List UInt16) : Text := decodeCut false us

/-! ## 3. Units in bytes -/

/-- The order of the bytes of a unit. -/
inductive ByteOrder where
  | littleEndian
  | bigEndian
  deriving DecidableEq, Repr

/-- The unit of two bytes. -/
def ByteOrder.unit (order : ByteOrder) (a b : UInt8) : UInt16 :=
  match order with
  | .littleEndian => UInt16.ofNat (b.toNat * 256 + a.toNat)
  | .bigEndian => UInt16.ofNat (a.toNat * 256 + b.toNat)

/-- The units of a byte sequence, and whether a byte is left over. -/
def unitsOfBytes (order : ByteOrder) : Bytes → List UInt16 × Bool
  | [] => ([], false)
  | [_] => ([], true)
  | a :: b :: bs =>
    let (us, cut) := unitsOfBytes order bs
    (order.unit a b :: us, cut)

def decodeBytes (order : ByteOrder) (bs : Bytes) : Text :=
  let (us, cut) := unitsOfBytes order bs
  decodeCut cut us

/-- The text of a byte sequence that may open with a byte order mark; without one it is little-endian. -/
def decodeMarked : Bytes → Text
  | 0xFF :: 0xFE :: bs => decodeBytes .littleEndian bs
  | 0xFE :: 0xFF :: bs => decodeBytes .bigEndian bs
  | bs => decodeBytes .littleEndian bs

end AssetEmbed.Utf16
