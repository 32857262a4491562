import AssetEmbed.Proofs.Base64
import AssetEmbed.Proofs.JsonReading
import AssetEmbed.Proofs.Text.Utf8
import AssetEmbed.SourceMap

/-!
# Addressing — the map that an address holds

The address of a map is a fixed beginning with base64 behind it, of the bytes of the notation of a value.  Taken apart
layer by layer it gives that value back, and the value tells the map by the keys of its fields.
-/

namespace AssetEmbed

/-! ## 1. Reading a value -/

namespace Json

def number? : Json → Option Int
  | .number n => some n
  | _ => none

def items? {α : Type} (read : Json → Option α) : Json → Option (List α)
  | .array items => items.mapM read
  | _ => none

def stringOrNull? : Json → Option (Option Text)
  | .null => some none
  | .string s => some (some s)
  | _ => none

theorem items?_strings (ss : List Text) : items? string? (.array (ss.map .string)) = some ss :=
  mapM_map_of_reads (fun _ : Text => rfl) ss

theorem items?_contents (contents : List (Option Text)) :
    items? stringOrNull? (.array (contents.map fun
      | some s => .string s
      | none => .null)) = some contents :=
  mapM_map_of_reads (fun content : Option Text => by cases content <;> rfl) contents

end Json

namespace SourceMap

def fileOfJson? (value : Json) : Option (Option Text) :=
  match value.field? "file".toList with
  | none => some none
  | some file => file.string?.map some

/-- The map of version 3 that a value describes. -/
def ofJson? (value : Json) : Option SourceMap := do
  let version ← (value.field? "version".toList).bind Json.number?
  let file ← fileOfJson? value
  let sources ← (value.field? "sources".toList).bind (Json.items? Json.string?)
  let sourcesContent ← (value.field? "sourcesContent".toList).bind (Json.items? Json.stringOrNull?)
  let names ← (value.field? "names".toList).bind (Json.items? Json.string?)
  let mappings ← (value.field? "mappings".toList).bind Json.string?
  if version = 3 then some { file, sources, sourcesContent, names, mappings } else none

theorem field?_file (m : SourceMap) : m.toJson.field? "file".toList = m.file.map .string := by
  obtain ⟨file, sources, sourcesContent, names, mappings⟩ := m
  cases file <;> rfl

theorem fileOfJson?_toJson (m : SourceMap) : fileOfJson? m.toJson = some m.file := by
  unfold fileOfJson?
  rw [field?_file]
  cases m.file <;> rfl

/-- The value of a map describes the map. -/
theorem ofJson?_toJson (m : SourceMap) : ofJson? m.toJson = some m := by
  have hfields : m.toJson.field? "version".toList = some (.number 3) ∧
      m.toJson.field? "sources".toList = some (.array (m.sources.map .string)) ∧
      m.toJson.field? "sourcesContent".toList = some (.array (m.sourcesContent.map fun
        | some s => .string s
        | none => .null)) ∧
      m.toJson.field? "names".toList = some (.array (m.names.map .string)) ∧
      m.toJson.field? "mappings".toList = some (.string m.mappings) := by
    obtain ⟨file, sources, sourcesContent, names, mappings⟩ := m
    -- if a file is told, it stands between the version and the sources
    cases file <;> exact ⟨rfl, rfl, rfl, rfl, rfl⟩
  obtain ⟨hversion, hsources, hcontents, hnames, hmappings⟩ := hfields
  unfold ofJson?
  rw [hversion, fileOfJson?_toJson, hsources, hcontents, hnames, hmappings]
  simp only [Option.bind_some, Json.items?_strings, Json.items?_contents]
  rfl

/-! ## 2. Taking an address apart -/

/-- The value whose notation an address holds: behind the fixed beginning base64, in it UTF-8, and in this JSON. -/
def valueOfUrl? (url : Text) : Option Json := do
  let payload ← Text.dropStart? urlStart url
  let bytes ← Bytes.ofBase64? Bytes.standard payload
  let text ← (Utf8.decode? bytes).toOption
  Json.read? text

/-- An address holds the value of its map, whatever characters the texts of the map are made of: the value has a file
exactly if the map has one, and nothing of the map is lost in it. -/
theorem url_holds_map (m : SourceMap) :
    valueOfUrl? m.toUrl = some m.toJson ∧ m.toJson.field? "file".toList = m.file.map .string ∧
      ofJson? m.toJson = some m := by
  refine ⟨?_, field?_file m, ofJson?_toJson m⟩
  have hpayload : Text.dropStart? urlStart m.toUrl =
      some (Bytes.toBase64 Bytes.standard (Utf8.encode m.toJson.render)) :=
    Text.dropStart?_eq_some.2 rfl
  unfold valueOfUrl?
  rw [hpayload]
  simp only [Option.bind_eq_bind, Option.bind_some,
    Bytes.ofBase64?_toBase64 Bytes.standard_isFaithful, Utf8.decode?_encode, Except.toOption,
    Json.read?_render]

end SourceMap

end AssetEmbed
