import AssetEmbed.FileSystem.TextFile
import AssetEmbed.Script.Dialect
import AssetEmbed.Text.Class
import AssetEmbed.Text.Lower
import AssetEmbed.Yaml.Value

/-!
# Configuration

A configuration is a mapping of known keys; what it leaves out has a default.  It is read from a file of a
fixed name, or from a file that is named; a file of the fixed name that is not there, or that says nothing,
leaves all defaults.
-/

namespace AssetEmbed

open Yaml (Value)

/-! ## 1. Settings -/

/-- The settings of a run. -/
structure Config where
  marker : Text
  /-- The encoding of the files of a call that names none. -/
  encoding : Text
  /-- The extensions of modules, in lower case. -/
  extensions : List Text
  included : List Text
  excluded : List Text
  sourceMap : Bool
  path : Option Text
  deriving DecidableEq, Repr

/-- The settings that hold where nothing else is said. -/
def Config.default : Config where
  marker := "constSysfsExpr".toList
  encoding := "utf8".toList
  extensions := Text.sort <| (Script.Dialect.plainExtensions ++ Script.Dialect.typedExtensions ++
    [Script.Dialect.typedMarkupExtension]).map (·.toList)
  included := []
  excluded := ["node_modules/".toList, ".git/".toList]
  sourceMap := true
  path := none

inductive ConfigKey where
  | marker
  | encoding
  | extensions
  | included
  | excluded
  | sourceMap
  deriving DecidableEq, Repr

def ConfigKey.name : ConfigKey → String
  | .marker => "marker"
  | .encoding => "encoding"
  | .extensions => "extensions"
  | .included => "include"
  | .excluded => "exclude"
  | .sourceMap => "sourcemap"

def ConfigKey.all : List ConfigKey :=
  [.marker, .encoding, .extensions, .included, .excluded, .sourceMap]

/-! ## 2. Errors -/

inductive ConfigError where
  | notFound (path : Text)
  | malformed
  | notMapping
  | unknownKeys (names : List Text)
  | notBool (key : ConfigKey)
  | notText (key : ConfigKey)
  | notTexts (key : ConfigKey)
  deriving DecidableEq, Repr

def ConfigError.message : ConfigError → String
  | .notFound path => s!"Config file not found: {path.toString}"
  | .malformed => "invalid YAML"
  | .notMapping => "top-level value must be a mapping"
  | .unknownKeys names =>
    "Unknown config key(s): " ++ ", ".intercalate (names.map fun n => n.toString)
  | .notBool key => s!"{key.name}: expected true or false"
  | .notText key => s!"{key.name}: expected a non-empty string"
  | .notTexts key => s!"{key.name}: expected a string or a list of strings"

inductive ConfigFailure where
  /-- It is wrong, in a file if it comes from one. -/
  | refused (e : ConfigError) (path : Option Text)
  /-- Unknown keys are not all strings, and cannot be told. -/
  | foreignKey
  /-- A value of the document cannot be built. -/
  | value (fault : Yaml.Fault)
  /-- The file cannot be read. -/
  | unreadable (e : TextFileError)
  deriving DecidableEq, Repr

def ConfigError.messageIn (e : ConfigError) : Option Text → String
  | some path => s!"{path.toString}: {e.message}"
  | none => e.message

/-! ## 3. Reading a mapping -/

def textOf? : Value → Option Text
  | .string s => some s
  | _ => none

def ConfigKey.given? (key : ConfigKey) (entries : List (Value × Value)) : Option Value :=
  (entries.reverse.find? fun e => textOf? e.1 = some key.name.toList).map (·.2)

def ConfigKey.text (key : ConfigKey) (default : Text) (entries : List (Value × Value)) :
    Except ConfigError Text :=
  match key.given? entries with
  | none => .ok default
  | some v =>
    match textOf? v with
    | some (c :: s) => .ok (c :: s)
    | _ => .error (.notText key)

/-- The value of a key that has to be a text or a list of texts. -/
def ConfigKey.texts (key : ConfigKey) (default : List Text) (entries : List (Value × Value)) :
    Except ConfigError (List Text) :=
  match key.given? entries with
  | none => .ok default
  | some (.string s) => .ok [s]
  | some (.list items) =>
    match items.mapM textOf? with
    | some ts => .ok ts
    | none => .error (.notTexts key)
  | some _ => .error (.notTexts key)

/-- The value of a key that has to be a truth value. -/
def ConfigKey.bool (key : ConfigKey) (default : Bool) (entries : List (Value × Value)) :
    Except ConfigError Bool :=
  match key.given? entries with
  | none => .ok default
  | some (.bool b) => .ok b
  | some _ => .error (.notBool key)

/-- An extension in lower case, without white space around it and with a full stop before it. -/
def normalizeExtension (extension : Text) : Text :=
  let extension := (Text.strip extension).lower
  if extension.head? = some '.' then extension else '.' :: extension

def unknownKeys (entries : List (Value × Value)) : List Value :=
  (entries.map (·.1)).filter fun key =>
    !ConfigKey.all.any fun known => textOf? key = some known.name.toList

def Config.ofKnown (entries : List (Value × Value)) (path : Option Text) : Except ConfigError Config := do
  let sourceMap ← ConfigKey.sourceMap.bool default.sourceMap entries
  let marker ← ConfigKey.marker.text default.marker entries
  let encoding ← ConfigKey.encoding.text default.encoding entries
  let extensions ← ConfigKey.extensions.texts default.extensions entries
  let included ← ConfigKey.included.texts default.included entries
  let excluded ← ConfigKey.excluded.texts default.excluded entries
  return {
    marker, encoding, included, excluded, sourceMap, path
    extensions := extensions.map normalizeExtension }

def Config.ofEntries (entries : List (Value × Value)) (path : Option Text) :
    Except ConfigFailure Config :=
  match unknownKeys entries with
  | [] => (Config.ofKnown entries path).mapError (.refused · path)
  | unknown =>
    match unknown.mapM textOf? with
    | some names => .error (.refused (.unknownKeys (Text.sort names)) path)
    | none => .error .foreignKey

/-! ## 4. Files -/

def Config.fileName : Text := "sysfs-embed.yaml".toList

/-- The file that settings are read from: one that is named and has to be there, or the one of the fixed
name in a directory. -/
def Config.find (fs : FileSystem) (directory : Text) :
    (named : Option Text) → Except ConfigFailure Text
  | some path =>
    let path := Path.tidy path
    match fs.entry? path with
    | .ok (.file _) => .ok path
    | .error .nameTooLong => .error (.unreadable (.file ⟨.nameTooLong, path⟩))
    | _ => .error (.refused (.notFound path) none)
  | none => .ok (Path.tidy (Path.join directory Config.fileName))

def Config.ofText (path text : Text) : Except ConfigFailure Config :=
  match Yaml.Value.ofText text with
  | .error .malformed => .error (.refused .malformed (some path))
  | .error fault => .error (.value fault)
  | .ok value =>
    if value.isNothing then Config.ofEntries [] (some path)
    else match value with
      | .map entries => Config.ofEntries entries (some path)
      | _ => .error (.refused .notMapping (some path))

/-- The settings of a file; the defaults, if nothing is there. -/
def Config.load (fs : FileSystem) (path : Text) : Except ConfigFailure Config :=
  match fs.entry? path with
  | .error .nameTooLong => .error (.unreadable (.file ⟨.nameTooLong, path⟩))
  | .error _ => .ok Config.default
  | .ok _ =>
    match fs.readText path with
    | .error e => .error (.unreadable e)
    | .ok text => Config.ofText path text

/-- The settings for a directory, or those of a file that is named. -/
def Config.forDirectory (fs : FileSystem) (directory : Text) (named : Option Text) :
    Except ConfigFailure Config :=
  Config.find fs directory named >>= Config.load fs

end AssetEmbed
