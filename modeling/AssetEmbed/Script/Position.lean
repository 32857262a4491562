import AssetEmbed.Diagnostic
import AssetEmbed.Text.Utf8

/-!
# Positions — offsets, bytes and lines of a script
-/

namespace AssetEmbed.Script

def maxCharacterBytes : Nat := 4

def decodedLength? (bytes : Bytes) : Option Nat := (Utf8.decode? bytes).toOption.map List.length

/-- The number of characters of the longest well-formed beginning of some bytes that ends at a place, or at
most a number of bytes before it. -/
def charactersBefore? (bytes : Bytes) : (back stop : Nat) → Option Nat
  | 0, stop => decodedLength? (bytes.take stop)
  | back + 1, stop =>
    match decodedLength? (bytes.take stop) with
    | some length => some length
    | none => charactersBefore? bytes back (stop - 1)

/-- The position of the character at a byte: the number of characters that end before it.  A byte within
a character counts as its first one; a byte before the script or behind it, as the nearest end. -/
def characterPosition (script : Text) (byte : Int) : Nat :=
  let bytes := Utf8.encode script
  if byte ≤ 0 then 0
  else if bytes.length ≤ byte.toNat then script.length
  else (charactersBefore? bytes (min byte.toNat maxCharacterBytes) byte.toNat).getD 0

/-- The line of a position, from 1. -/
def lineOf (script : Text) (position : Nat) : Nat := (script.take position).count '\n' + 1

def columnOf (script : Text) (position : Nat) : Nat :=
  ((script.take position).reverse.takeWhile (· ≠ '\n')).length

def locate (moduleId script : Text) (position : Nat) : Location :=
  ⟨moduleId, lineOf script position, columnOf script position⟩

end AssetEmbed.Script
