import AssetEmbed.FileSystem
import AssetEmbed.Text.Utf8

/-!
# Text files

A text file is UTF-8 with line breaks of any of the three usual kinds.
-/

namespace AssetEmbed

inductive TextFileError where
  | file (e : FileError)
  | encoding (e : Utf8.DecodeError)
  deriving DecidableEq, Repr

def TextFileError.message : TextFileError → String
  | .file e => e.message
  | .encoding e => e.message

def FileSystem.readText (fs : FileSystem) (path : Text) : Except TextFileError Text :=
  match fs.read path with
  | .error e => .error (.file e)
  | .ok bytes => ((Utf8.decode? bytes).mapError .encoding).map Text.unifyBreaks

end AssetEmbed
