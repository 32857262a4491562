import AssetEmbed.Text

/-!
# Bytes — byte sequences and their textual encodings

Hexadecimal and base64 notation (both alphabets) of a byte sequence, each beside its decoder.
-/

namespace AssetEmbed

abbrev Bytes := List UInt8

namespace Bytes

/-! ## 1. Hexadecimal notation -/

def toHex : Bytes → Text
  | [] => []
  | b :: bs => Text.hexDigit (b.toNat / 16) :: Text.hexDigit (b.toNat % 16) :: toHex bs

/-- Reads pairs of hexadecimal digits of either case. -/
def ofHex? : Text → Option Bytes
  | [] => some []
  | [_] => none
  | h :: l :: cs => do
    let h ← Text.hexValue? h
    let l ← Text.hexValue? l
    let bs ← ofHex? cs
    return UInt8.ofNat (h * 16 + l) :: bs

theorem ofHex?_toHex (bs : Bytes) : ofHex? (toHex bs) = some bs := by
  induction bs with
  | nil => rfl
  | cons b bs ih =>
    have hlt := b.toNat_lt
    have hh := Text.hexValue?_hexDigit (b.toNat / 16) (by omega)
    have hl := Text.hexValue?_hexDigit (b.toNat % 16) (by omega)
    have hb : b.toNat / 16 * 16 + b.toNat % 16 = b.toNat := by omega
    simp [toHex, ofHex?, hh, hl, ih, hb, -UInt8.ofNat_add, -UInt8.ofNat_mul]

/-! ## 2. Base64 -/

/-- The digits of a base64 alphabet are those of the letters and numbers followed by two of its own. -/
structure Base64Alphabet where
  plus : Char
  slash : Char

def standard : Base64Alphabet := ⟨'+', '/'⟩

/-- The alphabet with `-` and `_`, which needs no escaping in an address or a file name. -/
def urlSafe : Base64Alphabet := ⟨'-', '_'⟩

def Base64Alphabet.digit (alphabet : Base64Alphabet) (n : Nat) : Char :=
  if n < 26 then Char.ofNat ('A'.toNat + n)
  else if n < 52 then Char.ofNat ('a'.toNat + (n - 26))
  else if n < 62 then Char.ofNat ('0'.toNat + (n - 52))
  else if n = 62 then alphabet.plus
  else alphabet.slash

def Base64Alphabet.value? (alphabet : Base64Alphabet) (c : Char) : Option Nat :=
  if 'A' ≤ c ∧ c ≤ 'Z' then some (c.toNat - 'A'.toNat)
  else if 'a' ≤ c ∧ c ≤ 'z' then some (c.toNat - 'a'.toNat + 26)
  else if '0' ≤ c ∧ c ≤ '9' then some (c.toNat - '0'.toNat + 52)
  else if c = alphabet.plus then some 62
  else if c = alphabet.slash then some 63
  else none

/-- Base64 notation: three bytes give four digits, and a shorter last group is padded with `=`. -/
def toBase64 (alphabet : Base64Alphabet) : Bytes → Text
  | [] => []
  | [a] =>
    [alphabet.digit (a.toNat / 4), alphabet.digit (a.toNat % 4 * 16), '=', '=']
  | [a, b] =>
    [alphabet.digit (a.toNat / 4), alphabet.digit (a.toNat % 4 * 16 + b.toNat / 16),
      alphabet.digit (b.toNat % 16 * 4), '=']
  | a :: b :: c :: bs =>
    alphabet.digit (a.toNat / 4) :: alphabet.digit (a.toNat % 4 * 16 + b.toNat / 16) ::
      alphabet.digit (b.toNat % 16 * 4 + c.toNat / 64) :: alphabet.digit (c.toNat % 64) ::
      toBase64 alphabet bs

/-- Reads padded base64; the bits that a padded group leaves over have to be zero. -/
def ofBase64? (alphabet : Base64Alphabet) : Text → Option Bytes
  | [] => some []
  | [p, q, '=', '='] => do
    let p ← alphabet.value? p
    let q ← alphabet.value? q
    if q % 16 = 0 then some [UInt8.ofNat (p * 4 + q / 16)] else none
  | [p, q, r, '='] => do
    let p ← alphabet.value? p
    let q ← alphabet.value? q
    let r ← alphabet.value? r
    if r % 4 = 0 then
      some [UInt8.ofNat (p * 4 + q / 16), UInt8.ofNat (q % 16 * 16 + r / 4)]
    else none
  | p :: q :: r :: s :: cs => do
    let p ← alphabet.value? p
    let q ← alphabet.value? q
    let r ← alphabet.value? r
    let s ← alphabet.value? s
    let bs ← ofBase64? alphabet cs
    return UInt8.ofNat (p * 4 + q / 16) :: UInt8.ofNat (q % 16 * 16 + r / 4) ::
      UInt8.ofNat (r % 4 * 64 + s) :: bs
  | _ => none

def toBase64Unpadded (alphabet : Base64Alphabet) (bs : Bytes) : Text :=
  ((toBase64 alphabet bs).reverse.dropWhile (· = '=')).reverse

/-- Fills a text up with `=` to a multiple of four digits. -/
def padBase64 (s : Text) : Text := s ++ List.replicate ((4 - s.length % 4) % 4) '='

end Bytes

end AssetEmbed
