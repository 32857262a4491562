import AssetEmbed.Text.Class
import AssetEmbed.Text.Lower
import AssetEmbed.Text.SingleByte
import AssetEmbed.Text.Utf32

/-!
# Encodings — from the bytes of a file to the embedded text

An encoding name selects either a notation of the bytes themselves (base64, hexadecimal) or a character
set.  Names are compared without regard to letter case; beyond a few names of their own, character sets
are found by their registered names and aliases, where runs of punctuation count as one underscore.

Which sets are registered is a matter of the host.  Those of `codecs` are registered on every host and are
spelled out here; `Charsets` stands for all others, about which nothing is assumed.
-/

namespace AssetEmbed

/-! ## 1. Character sets -/

/-- A character set by which bytes are read as text. -/
inductive Charset where
  | utf8
  /-- UTF-8 of which an opening byte order mark is dropped. -/
  | utf8Signed
  /-- UTF-16 that may open with a byte order mark. -/
  | utf16
  | utf16In (order : Utf16.ByteOrder)
  /-- UTF-32 that may open with a byte order mark. -/
  | utf32
  | utf32In (order : Utf16.ByteOrder)
  /-- A set with one byte per character, by the table of its upper half. -/
  | singleByte (upper : Array Nat)

/-- The text of a byte sequence; what cannot be read becomes U+FFFD. -/
def Charset.decode : Charset → Bytes → Text
  | .utf8, bs => Utf8.decode bs
  | .utf8Signed, 0xEF :: 0xBB :: 0xBF :: bs => Utf8.decode bs
  | .utf8Signed, bs => Utf8.decode bs
  | .utf16, bs => Utf16.decodeMarked bs
  | .utf16In order, bs => Utf16.decodeBytes order bs
  | .utf32, bs => Utf32.decodeMarked bs
  | .utf32In order, bs => Utf32.decodeBytes order bs
  | .singleByte upper, bs => SingleByte.decode upper bs

/-- The character sets a host knows beside those of `codecs`, by their normalized names.  A set reads bytes as
text, or refuses them with a message. -/
class Charsets where
  find? : String → Option (Bytes → Except String Text)

/-- A host that knows the sets of `codecs` alone. -/
instance : Charsets := ⟨fun _ => none⟩

/-- A registered codec: a character set, or a transformation of bytes that yields no text. -/
inductive Codec where
  | charset (c : Charset)
  /-- A character set of `Charsets`. -/
  | further (decode : Bytes → Except String Text)
  | transformation (name : String)

/-- The names of a codec: the ones it is registered under, its aliases, and the codec itself. -/
structure CodecEntry where
  /-- Names that are registered as they stand. -/
  names : List String
  aliases : List String
  codec : Codec

/-- The codecs that are spelled out: the encodings of Unicode, the sets with one byte per character that texts
are mostly written in, and every transformation, since these are refused by name. -/
def codecs : List CodecEntry := [
  ⟨["utf_8"], ["u8", "utf", "utf8", "utf8_ucs2", "utf8_ucs4", "cp65001"], .charset .utf8⟩,
  ⟨["utf_8_sig"], [], .charset .utf8Signed⟩,
  ⟨["utf_16"], ["u16", "utf16"], .charset .utf16⟩,
  ⟨["utf_16_le"], ["unicodelittleunmarked", "utf_16le"], .charset (.utf16In .littleEndian)⟩,
  ⟨["utf_16_be"], ["unicodebigunmarked", "utf_16be"], .charset (.utf16In .bigEndian)⟩,
  ⟨["utf_32"], ["u32", "utf32"], .charset .utf32⟩,
  ⟨["utf_32_le"], ["utf_32le"], .charset (.utf32In .littleEndian)⟩,
  ⟨["utf_32_be"], ["utf_32be"], .charset (.utf32In .bigEndian)⟩,
  ⟨["ascii"], ["646", "ansi_x3.4_1968", "ansi_x3_4_1968", "ansi_x3.4_1986", "cp367", "csascii",
    "ibm367", "iso646_us", "iso_646.irv_1991", "iso_ir_6", "us", "us_ascii"],
    .charset (.singleByte SingleByte.ascii)⟩,
  ⟨["latin_1", "iso8859_1"], ["8859", "cp819", "csisolatin1", "ibm819", "iso8859", "iso8859_1",
    "iso_8859_1", "iso_8859_1_1987", "iso_ir_100", "l1", "latin", "latin1"],
    .charset (.singleByte SingleByte.iso8859Part1)⟩,
  ⟨["iso8859_2"], ["csisolatin2", "iso_8859_2", "iso_8859_2_1987", "iso_ir_101", "l2", "latin2"],
    .charset (.singleByte SingleByte.iso8859Part2)⟩,
  ⟨["iso8859_15"], ["iso_8859_15", "l9", "latin9"],
    .charset (.singleByte SingleByte.iso8859Part15)⟩,
  ⟨["cp1251"], ["1251", "windows_1251"], .charset (.singleByte SingleByte.windows1251)⟩,
  ⟨["cp1252"], ["1252", "windows_1252"], .charset (.singleByte SingleByte.windows1252)⟩,
  ⟨["cp437"], ["437", "cspc8codepage437", "ibm437"],
    .charset (.singleByte SingleByte.codePage437)⟩,
  ⟨["koi8_r"], ["cskoi8r"], .charset (.singleByte SingleByte.koi8R)⟩,
  ⟨["mac_roman"], ["macintosh", "macroman"], .charset (.singleByte SingleByte.macRoman)⟩,
  ⟨["rot_13"], ["rot13"], .transformation "rot-13"⟩,
  ⟨["hex_codec"], ["hex"], .transformation "hex"⟩,
  ⟨["base64_codec"], ["base64", "base_64"], .transformation "base64"⟩,
  ⟨["zlib_codec"], ["zip", "zlib"], .transformation "zlib"⟩,
  ⟨["bz2_codec"], ["bz2"], .transformation "bz2"⟩,
  ⟨["quopri_codec"], ["quopri", "quoted_printable", "quotedprintable"], .transformation "quopri"⟩,
  ⟨["uu_codec"], ["uu"], .transformation "uu"⟩]

/-- A codec name with each run of other characters than letters, digits and full stops between two of
those turned into one underscore, and those at either end dropped. -/
def normalizeCodecName (name : Text) : String :=
  go false false name
where
  go (started gap : Bool) : Text → String
    | [] => ""
    | c :: cs =>
      if c.isAlphanum || c == '.' then
        (if gap && started then "_" else "") ++ c.toLower.toString ++ go true false cs
      else go started true cs

def Codec.find? [Charsets] (name : Text) : Option Codec :=
  let name := normalizeCodecName name
  let dotless := String.ofList (name.toList.map fun c => if c = '.' then '_' else c)
  let entry :=
    (codecs.find? (·.aliases.contains name)).orElse fun _ =>
    (codecs.find? (·.aliases.contains dotless)).orElse fun _ =>
    codecs.find? (·.names.contains name)
  (entry.map (·.codec)).orElse fun _ => (Charsets.find? name).map .further

/-! ## 2. Encodings -/

inductive Encoding where
  | base64
  /-- Base64 in the alphabet for addresses, without padding. -/
  | base64Url
  | hex
  | charset (c : Charset)
  | further (decode : Bytes → Except String Text)

inductive EncodingError where
  | unknown (name : Text)
  | notText (codec : String)
  /-- The name holds a NUL character, which no registered name can. -/
  | embeddedNul
  /-- A character set refuses the bytes. -/
  | refused (message : String)
  deriving DecidableEq, Repr

def EncodingError.message : EncodingError → String
  | .unknown name => s!"unknown encoding: {String.ofList name}"
  | .notText codec =>
    s!"'{codec}' is not a text encoding; use codecs.decode() to handle arbitrary codecs"
  | .embeddedNul => "embedded null character"
  | .refused message => message

def Encoding.named : List (String × Encoding) := [
  ("base64", .base64), ("base64url", .base64Url), ("hex", .hex),
  ("utf8", .charset .utf8), ("utf-8", .charset .utf8),
  ("ascii", .charset (.singleByte SingleByte.ascii)),
  ("latin1", .charset (.singleByte SingleByte.iso8859Part1)),
  ("binary", .charset (.singleByte SingleByte.iso8859Part1)),
  ("utf16le", .charset (.utf16In .littleEndian)), ("utf-16le", .charset (.utf16In .littleEndian)),
  ("ucs2", .charset (.utf16In .littleEndian)), ("ucs-2", .charset (.utf16In .littleEndian))]

/-- The encoding of a name, in any letter case. -/
def Encoding.ofName [Charsets] (name : Text) : Except EncodingError Encoding :=
  let name := Text.lower name
  match Encoding.named.lookup (String.ofList name) with
  | some encoding => .ok encoding
  | none =>
    if '\x00' ∈ name then .error .embeddedNul
    else match Codec.find? name with
      | some (.charset c) => .ok (.charset c)
      | some (.further decode) => .ok (.further decode)
      | some (.transformation codec) => .error (.notText codec)
      | none => .error (.unknown name)

def Encoding.decode : Encoding → Bytes → Except EncodingError Text
  | .base64, bs => .ok (Bytes.toBase64 Bytes.standard bs)
  | .base64Url, bs => .ok (Bytes.toBase64Unpadded Bytes.urlSafe bs)
  | .hex, bs => .ok (Bytes.toHex bs)
  | .charset c, bs => .ok (c.decode bs)
  | .further _, [] => .ok []
  | .further decode, bs => (decode bs).mapError .refused

/-- The embedded text of the bytes of a file under the encoding of a name; no bytes are the empty text under
the name of any codec, for text or not. -/
def decodeContent [Charsets] (bs : Bytes) (encoding : Text) : Except EncodingError Text :=
  match bs, Encoding.ofName encoding with
  | bs, .ok encoding => encoding.decode bs
  | [], .error (.notText _) => .ok []
  | _, .error e => .error e

end AssetEmbed
