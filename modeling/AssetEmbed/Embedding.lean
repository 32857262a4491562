import AssetEmbed.Json

/-!
# Embeddings — what takes the place of a call

A file is embedded as a record of its content and its names.  A call for one file is replaced by a record,
a call for a pattern by an array of records.
-/

namespace AssetEmbed

/-- An embedded file. -/
structure FileRecord where
  content : Text
  filePath : Text
  /-- The path as seen from the root of the search. -/
  fileName : Text
  deriving DecidableEq, Repr

def FileRecord.toJson (r : FileRecord) : Json :=
  .object [("content".toList, .string r.content), ("filePath".toList, .string r.filePath),
    ("fileName".toList, .string r.fileName)]

inductive Embedding where
  | one (record : FileRecord)
  | many (records : List FileRecord)
  deriving DecidableEq, Repr

def Embedding.records : Embedding → List FileRecord
  | .one r => [r]
  | .many rs => rs

def Embedding.toJson : Embedding → Json
  | .one r => r.toJson
  | .many rs => .array (rs.map (·.toJson))

def Embedding.literal (e : Embedding) : Text := e.toJson.render

end AssetEmbed
