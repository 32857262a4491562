import AssetEmbed.SourceMap

/-!
# Decoding source maps

The mappings of a map of version 3 are read back by the rules of that format: lines between semicolons,
segments between commas, in a segment one, four or five integers, each of which is a distance from the one
before it.  The column starts anew on each line, everything else goes on.  Reading what was written gives
the segments that it was written from.
-/

namespace AssetEmbed

/-! ## 1. Variable-length quantities -/

namespace Vlq

/-- The integer with its sign in the lowest bit. -/
def unzigzag (v : Nat) : Int := if v % 2 = 0 then ((v / 2 : Nat) : Int) else -((v / 2 : Nat) : Int)

/-- Reads integers, the digits read so far of the first one making some value, and the next of them having
some weight. -/
def decodeFrom (value weight : Nat) : Text → Option (List Int)
  | [] => if weight = 1 then some [] else none
  | c :: s =>
    match Bytes.standard.value? c with
    | none => none
    | some d =>
      if d < 32 then (decodeFrom 0 1 s).map (unzigzag (value + weight * d) :: ·)
      else decodeFrom (value + weight * (d - 32)) (32 * weight) s

def decode (s : Text) : Option (List Int) := decodeFrom 0 1 s

theorem unzigzag_zigzag (n : Int) : unzigzag (zigzag n) = n := by
  unfold unzigzag zigzag
  by_cases h : n < 0
  · rw [if_pos h, if_neg (by omega)]
    omega
  · rw [if_neg h, if_pos (by omega)]
    omega

theorem value?_digit {n : Nat} (h : n < 64) :
    Bytes.standard.value? (Bytes.standard.digit n) = some n := by
  have hall : ∀ m < 64, Bytes.standard.value? (Bytes.standard.digit m) = some m := by decide
  exact hall n h

theorem digit_ne {n : Nat} (h : n < 64) :
    Bytes.standard.digit n ≠ ',' ∧ Bytes.standard.digit n ≠ ';' := by
  have hall : ∀ m < 64, Bytes.standard.digit m ≠ ',' ∧ Bytes.standard.digit m ≠ ';' := by decide
  exact hall n h

theorem lt_of_mem_digitsUpTo {bound v d : Nat} (h : d ∈ digitsUpTo bound v) : d < 64 := by
  induction bound generalizing v with
  | zero =>
    rw [digitsUpTo, List.mem_singleton] at h
    omega
  | succ bound ih =>
    rw [digitsUpTo] at h
    split at h
    · rw [List.mem_singleton] at h
      omega
    · rcases List.mem_cons.1 h with h | h
      · omega
      · exact ih h

/-- Reading the digits of a quantity completes it, and what follows is read anew. -/
theorem decodeFrom_digitsUpTo {bound v : Nat} (h : v ≤ bound) (value weight : Nat) (s : Text) :
    decodeFrom value weight ((digitsUpTo bound v).map Bytes.standard.digit ++ s) =
      (decodeFrom 0 1 s).map (unzigzag (value + weight * v) :: ·) := by
  induction bound generalizing v value weight with
  | zero =>
    obtain rfl : v = 0 := by omega
    rw [digitsUpTo, List.map_singleton, List.singleton_append, decodeFrom, value?_digit (by decide)]
    rfl
  | succ bound ih =>
    rw [digitsUpTo]
    -- a digit below 32 is the last one, any other one says that more follow
    by_cases hv : v < 32
    · rw [if_pos hv, List.map_singleton, List.singleton_append, decodeFrom, value?_digit (by omega)]
      simp only [if_pos hv]
    · rw [if_neg hv, List.map_cons, List.cons_append, decodeFrom, value?_digit (by omega)]
      have hmore : ¬ v % 32 + 32 < 32 := by omega
      simp only [if_neg hmore]
      rw [ih (by omega), Nat.add_sub_cancel]
      have hvalue : value + weight * (v % 32) + 32 * weight * (v / 32) = value + weight * v := by
        have hdiv : v % 32 + 32 * (v / 32) = v := Nat.mod_add_div v 32
        calc value + weight * (v % 32) + 32 * weight * (v / 32)
            = value + weight * (v % 32 + 32 * (v / 32)) := by
              rw [Nat.mul_add, Nat.mul_comm 32 weight, Nat.mul_assoc, Nat.add_assoc]
          _ = value + weight * v := by rw [hdiv]
      rw [hvalue]

theorem decode_encode_append (n : Int) (s : Text) :
    decode (encode n ++ s) = (decode s).map (n :: ·) := by
  unfold decode encode digits
  rw [decodeFrom_digitsUpTo (Nat.le_refl _), Nat.zero_add, Nat.one_mul, unzigzag_zigzag]

/-- Reading the notations of integers one after the other gives the integers. -/
theorem decode_flatMap_encode (ns : List Int) : decode (ns.flatMap encode) = some ns := by
  induction ns with
  | nil => rfl
  | cons n ns ih =>
    rw [List.flatMap_cons, decode_encode_append, ih]
    rfl

theorem not_mem_encode (n : Int) : ',' ∉ encode n ∧ ';' ∉ encode n := by
  constructor
  · intro h
    obtain ⟨d, hd, hdigit⟩ := List.mem_map.1 h
    exact (digit_ne (lt_of_mem_digitsUpTo hd)).1 hdigit
  · intro h
    obtain ⟨d, hd, hdigit⟩ := List.mem_map.1 h
    exact (digit_ne (lt_of_mem_digitsUpTo hd)).2 hdigit

end Vlq

namespace SourceMap

/-! ## 2. Reading mappings -/

structure Place where
  source : Int
  line : Int
  column : Int
  deriving DecidableEq, Repr

/-- What a segment says: from a column on, the text comes from a place and bears a name, if these are
told. -/
structure Mapping where
  column : Int
  place : Option Place
  name : Option Int
  deriving DecidableEq, Repr

/-- What the distances in the next segment are counted from. -/
structure Reader where
  column : Int
  place : Place
  name : Int

def Reader.start : Reader := ⟨0, ⟨0, 0, 0⟩, 0⟩

/-- The place at some distances from the one that was told last. -/
def Reader.placeAt (r : Reader) (source line column : Int) : Place :=
  ⟨r.place.source + source, r.place.line + line, r.place.column + column⟩

/-- Reads the integers of a segment. -/
def Reader.readSegment (r : Reader) : List Int → Option (Mapping × Reader)
  | [c] => some (⟨r.column + c, none, none⟩, { r with column := r.column + c })
  | [c, source, line, column] =>
    let place := r.placeAt source line column
    some (⟨r.column + c, some place, none⟩, { r with column := r.column + c, place := place })
  | [c, source, line, column, name] =>
    let place := r.placeAt source line column
    some (⟨r.column + c, some place, some (r.name + name)⟩,
      ⟨r.column + c, place, r.name + name⟩)
  | _ => none

def Reader.readLine (r : Reader) : List Text → Option (List Mapping × Reader)
  | [] => some ([], r)
  | segment :: segments => do
    let values ← Vlq.decode segment
    let (mapping, r) ← r.readSegment values
    let (mappings, r) ← r.readLine segments
    return (mapping :: mappings, r)

def Reader.readLines (r : Reader) : List Text → Option (List (List Mapping))
  | [] => some []
  | line :: lines => do
    let (mappings, r) ← { r with column := 0 }.readLine (if line = [] then [] else line.splitOn ',')
    let rest ← r.readLines lines
    return mappings :: rest

def decodeMappings (mappings : Text) : Option (List (List Mapping)) :=
  Reader.start.readLines (mappings.splitOn ';')

end SourceMap

/-! ## 3. Reading what was written -/

def Segment.mapping (s : Segment) : SourceMap.Mapping :=
  ⟨s.column, some ⟨0, s.sourceLine, s.sourceColumn⟩, none⟩

namespace SourceMap

def Reader.after (column sourceLine sourceColumn : Nat) : Reader :=
  ⟨column, ⟨0, sourceLine, sourceColumn⟩, 0⟩

theorem decode_renderSegment (column sourceLine sourceColumn : Nat) (s : Segment) :
    Vlq.decode (renderSegment column sourceLine sourceColumn s) =
      some [(s.column : Int) - column, 0, (s.sourceLine : Int) - sourceLine,
        (s.sourceColumn : Int) - sourceColumn] := by
  unfold renderSegment
  rw [List.append_assoc, List.append_assoc, Vlq.decode_encode_append, Vlq.decode_encode_append,
    Vlq.decode_encode_append, ← List.append_nil (Vlq.encode _), Vlq.decode_encode_append]
  rfl

theorem readSegment_render (column sourceLine sourceColumn : Nat) (s : Segment) :
    (Reader.after column sourceLine sourceColumn).readSegment
        [(s.column : Int) - column, 0, (s.sourceLine : Int) - sourceLine,
          (s.sourceColumn : Int) - sourceColumn] =
      some (s.mapping, Reader.after s.column s.sourceLine s.sourceColumn) := by
  have hadd : ∀ a b : Nat, (a : Int) + ((b : Int) - a) = b := by omega
  unfold Reader.after Reader.readSegment Reader.placeAt Segment.mapping
  simp only [hadd, Int.add_zero]

theorem lastPlace_cons (sourceLine sourceColumn : Nat) (s : Segment) (ss : List Segment) :
    lastPlace sourceLine sourceColumn (s :: ss) = lastPlace s.sourceLine s.sourceColumn ss := by
  unfold lastPlace
  cases ss with
  | nil => rfl
  | cons t ss => rw [List.getLast?_cons_cons]; cases h : (t :: ss).getLast? <;> simp_all

theorem readLine_renderLine (column sourceLine sourceColumn : Nat) (line : List Segment) :
    ∃ last, (Reader.after column sourceLine sourceColumn).readLine
        (renderLine column sourceLine sourceColumn line) =
      some (line.map Segment.mapping, Reader.after last (lastPlace sourceLine sourceColumn line).1
        (lastPlace sourceLine sourceColumn line).2) := by
  induction line generalizing column sourceLine sourceColumn with
  | nil => exact ⟨column, rfl⟩
  | cons s ss ih =>
    obtain ⟨last, hrest⟩ := ih s.column s.sourceLine s.sourceColumn
    refine ⟨last, ?_⟩
    rw [renderLine, Reader.readLine, decode_renderSegment, lastPlace_cons]
    simp only [Option.bind_eq_bind, Option.bind_some, readSegment_render, hrest]
    rfl

theorem not_mem_renderLine {c : Char} (hc : c = ',' ∨ c = ';') {column sourceLine sourceColumn : Nat}
    {line : List Segment} {piece : Text} (h : piece ∈ renderLine column sourceLine sourceColumn line) :
    c ∉ piece := by
  induction line generalizing column sourceLine sourceColumn with
  | nil => exact absurd h List.not_mem_nil
  | cons s ss ih =>
    rw [renderLine] at h
    rcases List.mem_cons.1 h with rfl | h
    · have hencode : ∀ n, c ∉ Vlq.encode n := by
        intro n
        rcases hc with rfl | rfl
        · exact (Vlq.not_mem_encode n).1
        · exact (Vlq.not_mem_encode n).2
      unfold renderSegment
      simp only [List.mem_append, hencode, or_self, not_false_eq_true]
    · exact ih h

theorem renderSegment_ne_nil (column sourceLine sourceColumn : Nat) (s : Segment) :
    renderSegment column sourceLine sourceColumn s ≠ [] := by
  intro hnil
  have hdecode := decode_renderSegment column sourceLine sourceColumn s
  rw [hnil] at hdecode
  cases hdecode

theorem splitOn_renderLine (sourceLine sourceColumn : Nat) (line : List Segment) :
    (if Text.joinWith ',' (renderLine 0 sourceLine sourceColumn line) = [] then []
      else (Text.joinWith ',' (renderLine 0 sourceLine sourceColumn line)).splitOn ',') =
      renderLine 0 sourceLine sourceColumn line := by
  cases line with
  | nil => rfl
  | cons s ss =>
    -- the text of a line with segments is not empty, since no segment is
    have hne : Text.joinWith ',' (renderLine 0 sourceLine sourceColumn (s :: ss)) ≠ [] := by
      intro hnil
      rw [renderLine] at hnil
      cases hrest : renderLine s.column s.sourceLine s.sourceColumn ss with
      | nil =>
        rw [hrest] at hnil
        exact renderSegment_ne_nil _ _ _ _ hnil
      | cons q rest =>
        rw [hrest, Text.joinWith_cons_cons, List.append_eq_nil_iff] at hnil
        exact renderSegment_ne_nil _ _ _ _ hnil.1
    rw [if_neg hne, Text.splitOn_joinWith (by simp [renderLine])]
    intro piece hpiece
    exact not_mem_renderLine (.inl rfl) hpiece

/-- Reading lines that were written tells what their segments say. -/
theorem readLines_renderLines (column sourceLine sourceColumn : Nat) (lines : List (List Segment)) :
    (Reader.after column sourceLine sourceColumn).readLines
        (renderLines sourceLine sourceColumn lines) =
      some (lines.map fun line => line.map Segment.mapping) := by
  induction lines generalizing column sourceLine sourceColumn with
  | nil => rfl
  | cons line lines ih =>
    obtain ⟨last, hline⟩ := readLine_renderLine 0 sourceLine sourceColumn line
    have hrest := ih last (lastPlace sourceLine sourceColumn line).1
      (lastPlace sourceLine sourceColumn line).2
    -- only the column starts anew
    have hstart : { Reader.after column sourceLine sourceColumn with column := 0 } =
        Reader.after 0 sourceLine sourceColumn := rfl
    rw [renderLines, Reader.readLines, splitOn_renderLine, hstart, hline]
    simp only [Option.bind_eq_bind, Option.bind_some, hrest]
    rfl

theorem not_mem_renderLines {sourceLine sourceColumn : Nat} {lines : List (List Segment)} {piece : Text}
    (h : piece ∈ renderLines sourceLine sourceColumn lines) : ';' ∉ piece := by
  induction lines generalizing sourceLine sourceColumn with
  | nil => exact absurd h List.not_mem_nil
  | cons line lines ih =>
    rw [renderLines] at h
    rcases List.mem_cons.1 h with rfl | h
    · refine Text.not_mem_joinWith (by decide) ?_
      intro p hp
      exact not_mem_renderLine (.inr rfl) hp
    · exact ih h

/-- Reading the mappings of some lines tells what their segments say. -/
theorem decodeMappings_renderMappings {lines : List (List Segment)} (hne : lines ≠ []) :
    decodeMappings (renderMappings lines) =
      some (lines.map fun line => line.map Segment.mapping) := by
  have hrender : renderLines 0 0 lines ≠ [] := by
    cases lines with
    | nil => exact absurd rfl hne
    | cons line lines => simp [renderLines]
  unfold decodeMappings renderMappings
  rw [Text.splitOn_joinWith hrender fun piece hpiece => not_mem_renderLines hpiece]
  exact readLines_renderLines 0 0 0 lines

/-- Integers of any size and sign are read back from their notations, which stand one after the other and hold neither
separator.  So lines of segments are read back from their mappings; any of them may be without segments, and there is
always a first one, for a trace begins with a line. -/
theorem mappings_read_back (ns : List Int) (first : List Segment) (lines : List (List Segment)) :
    Vlq.decode (ns.flatMap Vlq.encode) = some ns ∧
      (∀ n, ',' ∉ Vlq.encode n ∧ ';' ∉ Vlq.encode n) ∧
      decodeMappings (renderMappings (first :: lines)) =
        some ((first :: lines).map fun line => line.map Segment.mapping) :=
  ⟨Vlq.decode_flatMap_encode ns, Vlq.not_mem_encode, decodeMappings_renderMappings (List.cons_ne_nil first lines)⟩

end SourceMap

end AssetEmbed
