import AssetEmbed.FileSystem.Path
import AssetEmbed.Text.Lower

/-!
# Dialects — which language a module is written in

The extension of a module decides: plain scripts may hold markup, typed scripts may hold types, and only
typed scripts of one extension, or of an unknown one, may hold both.
-/

namespace AssetEmbed.Script

/-- A language of modules. -/
inductive Dialect where
  /-- JavaScript with markup. -/
  | plain
  | typed
  | typedMarkup
  deriving DecidableEq, Repr

namespace Dialect

def hasTypes (d : Dialect) : Bool := d ≠ .plain

def hasMarkup (d : Dialect) : Bool := d ≠ .typed

def plainExtensions : List String := [".js", ".jsx", ".mjs", ".cjs"]

def typedExtensions : List String := [".ts", ".mts", ".cts"]

def typedMarkupExtension : String := ".tsx"

/-- The dialect of an extension in lower case. -/
def ofExtension (extension : Text) : Dialect :=
  if plainExtensions.contains extension.toString then .plain
  else if typedExtensions.contains extension.toString then .typed
  else .typedMarkup

/-- The extension of a module in lower case; one that is not known counts as that of typed scripts with
markup. -/
def extensionOf (moduleId : Text) : Text :=
  let extension := (Path.suffix moduleId).lower
  if ofExtension extension = .typedMarkup then typedMarkupExtension.toList else extension

def ofModuleId (moduleId : Text) : Dialect := ofExtension (extensionOf moduleId)

end Dialect

end AssetEmbed.Script
