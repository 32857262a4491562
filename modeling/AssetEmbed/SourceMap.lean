import AssetEmbed.Edit
import AssetEmbed.Json
import AssetEmbed.SourceMap.Vlq
import AssetEmbed.Text.Utf16

/-!
# Source maps — where the pieces of an edited text come from

A map of version 3: for each line of the edited text the columns at which a piece begins, and the line and
column of the source that the piece comes from.  A piece of unchanged text maps to its own place, a piece
of a replacement to the start of the range that it replaces.  Columns count UTF-16 units.
-/

namespace AssetEmbed

/-- A segment: from a column of the edited text on, the text comes from a place of the source. -/
structure Segment where
  column : Nat
  sourceLine : Nat
  sourceColumn : Nat
  deriving DecidableEq, Repr

namespace SourceMap

/-! ## 1. Tracing -/

structure Trace where
  finished : List (List Segment)
  current : List Segment
  column : Nat
  sourceLine : Nat
  sourceColumn : Nat

def Trace.empty : Trace := ⟨[], [], 0, 0, 0⟩

/-- Begins a segment at the current place, unless one begins there already. -/
def Trace.mark (t : Trace) : Trace :=
  match t.current with
  | s :: _ =>
    if s.column = t.column then t
    else { t with current := ⟨t.column, t.sourceLine, t.sourceColumn⟩ :: t.current }
  | [] => { t with current := [⟨t.column, t.sourceLine, t.sourceColumn⟩] }

def Trace.breakLine (t : Trace) : Trace :=
  { t with finished := t.current.reverse :: t.finished, current := [], column := 0 }

def Trace.write (t : Trace) (piece : Text) : Trace :=
  if piece = [] then t else { t.mark with column := t.column + Utf16.width piece }

def Trace.copyPiece (t : Trace) (piece : Text) : Trace :=
  { t.write piece with sourceColumn := t.sourceColumn + Utf16.width piece }

def Trace.copyBreak (t : Trace) : Trace :=
  { t.breakLine with sourceLine := t.sourceLine + 1, sourceColumn := 0 }

/-- Writes unchanged text. -/
def Trace.copy (t : Trace) (text : Text) : Trace :=
  match text.splitOn '\n' with
  | [] => t
  | first :: rest => rest.foldl (fun t piece => t.copyBreak.copyPiece piece) (t.copyPiece first)

def Trace.skip (t : Trace) (source : Text) : Trace :=
  match (source.splitOn '\n').reverse with
  | [] => t
  | [piece] => { t with sourceColumn := t.sourceColumn + Utf16.width piece }
  | last :: rest =>
    { t with sourceLine := t.sourceLine + rest.length, sourceColumn := Utf16.width last }

def Trace.replace (t : Trace) (source replacement : Text) : Trace :=
  match replacement.splitOn '\n' with
  | [] => t
  | first :: rest =>
    (rest.foldl (fun t piece => t.breakLine.write piece) (t.write first)).skip source

def Trace.lines (t : Trace) : List (List Segment) := (t.current.reverse :: t.finished).reverse

def trace (text : Text) : (cursor : Int) → List Edit → Trace → Trace
  | cursor, [], t => t.copy (text.slice cursor text.length)
  | cursor, e :: es, t =>
    trace text e.range.stop es
      ((t.copy (text.slice cursor e.range.start)).replace
        (text.slice e.range.start e.range.stop) e.replacement)

def segments (text : Text) (edits : List Edit) : List (List Segment) :=
  (trace text 0 (edits.mergeSort fun a b => a.range.start ≤ b.range.start) Trace.empty).lines

/-! ## 2. Notation of the segments -/

/-- The notation of one segment: its distance from the segment before it.  The single source has the
index 0 throughout. -/
def renderSegment (column sourceLine sourceColumn : Nat) (s : Segment) : Text :=
  Vlq.encode (s.column - column) ++ Vlq.encode 0 ++
    Vlq.encode ((s.sourceLine : Int) - sourceLine) ++
    Vlq.encode ((s.sourceColumn : Int) - sourceColumn)

def renderLine (column sourceLine sourceColumn : Nat) : List Segment → List Text
  | [] => []
  | s :: ss =>
    renderSegment column sourceLine sourceColumn s ::
      renderLine s.column s.sourceLine s.sourceColumn ss

/-- The place in the source that a line ends at, when the line before it ended at a given place. -/
def lastPlace (sourceLine sourceColumn : Nat) (line : List Segment) : Nat × Nat :=
  match line.getLast? with
  | some s => (s.sourceLine, s.sourceColumn)
  | none => (sourceLine, sourceColumn)

def renderLines (sourceLine sourceColumn : Nat) : List (List Segment) → List Text
  | [] => []
  | line :: lines =>
    let (nextLine, nextColumn) := lastPlace sourceLine sourceColumn line
    Text.joinWith ',' (renderLine 0 sourceLine sourceColumn line) ::
      renderLines nextLine nextColumn lines

/-- The mappings of a source map: segments between commas, lines between semicolons. -/
def renderMappings (lines : List (List Segment)) : Text :=
  Text.joinWith ';' (renderLines 0 0 lines)

end SourceMap

/-! ## 3. Maps -/

structure SourceMap where
  file : Option Text
  sources : List Text
  sourcesContent : List (Option Text)
  names : List Text
  mappings : Text

def SourceMap.ofEdits (text : Text) (edits : List Edit) (source : Text)
    (file : Option Text) (includeContent : Bool) : SourceMap where
  file := file
  sources := [source]
  sourcesContent := [if includeContent then some text else none]
  names := []
  mappings := SourceMap.renderMappings (SourceMap.segments text edits)

def SourceMap.toJson (m : SourceMap) : Json :=
  .object <|
    [("version".toList, .number 3)] ++
    (m.file.map fun f => ("file".toList, Json.string f)).toList ++
    [("sources".toList, .array (m.sources.map .string)),
     ("sourcesContent".toList, .array (m.sourcesContent.map fun
        | some s => .string s
        | none => .null)),
     ("names".toList, .array (m.names.map .string)),
     ("mappings".toList, .string m.mappings)]

def SourceMap.urlStart : Text := "data:application/json;charset=utf-8;base64,".toList

def SourceMap.toUrl (m : SourceMap) : Text :=
  SourceMap.urlStart ++ Bytes.toBase64 Bytes.standard (Utf8.encode m.toJson.render)

end AssetEmbed
