import AssetEmbed.Text.Utf16

/-!
# UTF-32

Decoding of four-byte code points; a surrogate, a value beyond U+10FFFF and a cut sequence each become
one U+FFFD.
-/

namespace AssetEmbed.Utf32

open Utf16 (ByteOrder)

def value (order : ByteOrder) (a b c d : UInt8) : Nat :=
  match order with
  | .littleEndian => ((d.toNat * 256 + c.toNat) * 256 + b.toNat) * 256 + a.toNat
  | .bigEndian => ((a.toNat * 256 + b.toNat) * 256 + c.toNat) * 256 + d.toNat

/-- The character of a value, or U+FFFD where the value is no scalar. -/
def scalar (n : Nat) : Char := if n.isValidChar then Char.ofNat n else Utf8.replacement

def decodeBytes (order : ByteOrder) : Bytes → Text
  | [] => []
  | a :: b :: c :: d :: bs => scalar (value order a b c d) :: decodeBytes order bs
  | _ => [Utf8.replacement]

/-- The text of a byte sequence that may open with a byte order mark; without one it is little-endian. -/
def decodeMarked : Bytes → Text
  | 0xFF :: 0xFE :: 0 :: 0 :: bs => decodeBytes .littleEndian bs
  | 0 :: 0 :: 0xFE :: 0xFF :: bs => decodeBytes .bigEndian bs
  | bs => decodeBytes .littleEndian bs

end AssetEmbed.Utf32
