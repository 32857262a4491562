import AssetEmbed.Text

/-!
# JSON — values and their compact notation

The notation has no space between tokens.  In a string only the quote, the backslash and the control
characters below U+0020 are escaped; everything else stands for itself.
-/

namespace AssetEmbed

/-- A JSON value with integer numbers; the fields of an object keep their order. -/
inductive Json where
  | null
  | bool (b : Bool)
  | number (n : Int)
  | string (s : Text)
  | array (items : List Json)
  | object (fields : List (Text × Json))

namespace Json

/-! ## 1. Strings -/

/-- The notation of one character within a string. -/
def escapeChar (c : Char) : Text :=
  if c = '"' then ['\\', '"']
  else if c = '\\' then ['\\', '\\']
  else if c.toNat < 0x20 then
    if c = '\n' then ['\\', 'n']
    else if c = '\r' then ['\\', 'r']
    else if c = '\t' then ['\\', 't']
    else if c = '\x08' then ['\\', 'b']
    else if c = '\x0C' then ['\\', 'f']
    else ['\\', 'u', '0', '0', Text.hexDigit (c.toNat / 16), Text.hexDigit (c.toNat % 16)]
  else [c]

def escape (s : Text) : Text := s.flatMap escapeChar

def quote (s : Text) : Text := '"' :: escape s ++ ['"']

/-! ## 2. Values -/

mutual

def render : Json → Text
  | .null => "null".toList
  | .bool true => "true".toList
  | .bool false => "false".toList
  | .number n => Text.ofInt n
  | .string s => quote s
  | .array items => '[' :: renderItems items ++ [']']
  | .object fields => '{' :: renderFields fields ++ ['}']

def renderItems : List Json → Text
  | [] => []
  | [item] => render item
  | item :: items => render item ++ ',' :: renderItems items

def renderFields : List (Text × Json) → Text
  | [] => []
  | [(key, value)] => quote key ++ ':' :: render value
  | (key, value) :: fields => quote key ++ ':' :: render value ++ ',' :: renderFields fields

end

end Json

end AssetEmbed
