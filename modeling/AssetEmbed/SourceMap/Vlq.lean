import AssetEmbed.Bytes

/-!
# Variable-length quantities

An integer in base64 digits, five bits at a time from the lowest, with a sixth bit that says whether more
digits follow.  The lowest bit of the quantity is its sign.
-/

namespace AssetEmbed.Vlq

/-- The sign in the lowest bit, the magnitude above it. -/
def zigzag (n : Int) : Nat := if n < 0 then 2 * n.natAbs + 1 else 2 * n.natAbs

/-- The six-bit digits of a quantity, from a bound on their number. -/
def digitsUpTo : (bound : Nat) → Nat → List Nat
  | 0, v => [v % 32]
  | bound + 1, v => if v < 32 then [v] else (v % 32 + 32) :: digitsUpTo bound (v / 32)

def digits (v : Nat) : List Nat := digitsUpTo v v

def encode (n : Int) : Text := (digits (zigzag n)).map Bytes.standard.digit

end AssetEmbed.Vlq
