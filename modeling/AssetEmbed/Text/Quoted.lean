import AssetEmbed.Text.Printable

/-!
# Quoted texts — a text within a message

A text stands in single quotes, or in double quotes if it holds a single quote and no double one.  The
quote, the backslash and what is not printable are escaped.
-/

namespace AssetEmbed.Text

/-- A number in lower-case hexadecimal digits, with zeros in front up to a width. -/
def hexOfWidth : (width : Nat) → Nat → Text
  | 0, _ => []
  | width + 1, n => hexOfWidth width (n / 16) ++ [hexDigit (n % 16)]

def quoteOf (s : Text) : Char := if s.elem '\'' && !s.elem '"' then '"' else '\''

def quoteChar (quote c : Char) : Text :=
  if c = quote || c = '\\' then ['\\', c]
  else if c = '\t' then ['\\', 't']
  else if c = '\n' then ['\\', 'n']
  else if c = '\r' then ['\\', 'r']
  else if isPrintable c then [c]
  else if c.toNat < 0x100 then '\\' :: 'x' :: hexOfWidth 2 c.toNat
  else if c.toNat < 0x10000 then '\\' :: 'u' :: hexOfWidth 4 c.toNat
  else '\\' :: 'U' :: hexOfWidth 8 c.toNat

def quoted (s : Text) : Text := quoteOf s :: s.flatMap (quoteChar (quoteOf s)) ++ [quoteOf s]

end AssetEmbed.Text
