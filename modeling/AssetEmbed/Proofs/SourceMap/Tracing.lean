import AssetEmbed.Proofs.SourceMap.Decoding
import AssetEmbed.Proofs.Splice

/-!
# Tracing — a source map tells where an edited text comes from

A trace goes through the characters of an edited text, each of which is a kept one or an inserted one.
While it goes on, its lines are those of the characters so far, and each character but the line breaks is
governed by the last segment that begins before it or with it: counted from there, it has its own place in
the source, or the place of the range that it is inserted for.
-/

namespace AssetEmbed.SourceMap

/-! ## 1. Lines and columns -/

def breaks (s : Text) : Nat := s.count '\n'

/-- The column behind a text: the number of UTF-16 units since its last line break. -/
def endColumn (s : Text) : Nat := Utf16.width (s.reverse.takeWhile (· ≠ '\n')).reverse

/-- The line of a position in a text, from 0. -/
def lineAt (text : Text) (k : Nat) : Nat := breaks (text.take k)

/-- The column of a position in a text, in UTF-16 units from 0. -/
def columnAt (text : Text) (k : Nat) : Nat := endColumn (text.take k)

theorem breaks_append (s t : Text) : breaks (s ++ t) = breaks s + breaks t := List.count_append

theorem breaks_eq_zero {s : Text} (h : '\n' ∉ s) : breaks s = 0 := List.count_eq_zero.2 h

theorem breaks_cons_break (s : Text) : breaks ('\n' :: s) = breaks s + 1 := List.count_cons_self

theorem endColumn_append {s : Text} (h : '\n' ∉ s) (before : Text) :
    endColumn (before ++ s) = endColumn before + Utf16.width s := by
  have hall : ∀ c ∈ s.reverse, decide (c ≠ '\n') = true := by
    intro c hc
    rw [decide_eq_true_eq]
    rintro rfl
    exact h (List.mem_reverse.1 hc)
  unfold endColumn
  rw [List.reverse_append, List.takeWhile_append_of_pos hall, List.reverse_append,
    List.reverse_reverse, Utf16.width_append]

theorem endColumn_append_break {s : Text} (h : '\n' ∉ s) (before : Text) :
    endColumn (before ++ '\n' :: s) = Utf16.width s := by
  have hbreak : endColumn (before ++ ['\n']) = 0 := by
    unfold endColumn
    rw [List.reverse_append]
    rfl
  rw [List.append_cons, endColumn_append h, hbreak, Nat.zero_add]

theorem width_pos {s : Text} (h : s ≠ []) : 0 < Utf16.width s := by
  cases s with
  | nil => exact absurd rfl h
  | cons c s =>
    rw [Utf16.width_cons]
    split <;> omega

theorem length_splitOn (s : Text) : (s.splitOn '\n').length = breaks s + 1 := by
  induction s with
  | nil => rfl
  | cons c s ih =>
    rw [Text.splitOn]
    by_cases hc : c = '\n'
    · rw [if_pos hc, hc, List.length_cons, ih, breaks_cons_break]
    · rw [if_neg hc]
      have hcount : breaks (c :: s) = breaks s := List.count_cons_of_ne hc
      rw [hcount, ← ih]
      cases hs : Text.splitOn '\n' s with
      | nil => exact absurd hs (Text.splitOn_ne_nil _ _)
      | cons p ps => rfl

/-! ## 2. Pieces of a source -/

theorem take_add_length {text s : Text} {p : Nat} (h : s <+: text.drop p) :
    text.take (p + s.length) = text.take p ++ s := by
  obtain ⟨rest, hrest⟩ := h
  rw [List.take_add, ← hrest, List.take_left]

theorem lineAt_add {text s : Text} {p : Nat} (h : s <+: text.drop p) :
    lineAt text (p + s.length) = lineAt text p + breaks s := by
  unfold lineAt
  rw [take_add_length h, breaks_append]

theorem columnAt_add {text s : Text} {p : Nat} (h : s <+: text.drop p) (hs : '\n' ∉ s) :
    columnAt text (p + s.length) = columnAt text p + Utf16.width s := by
  unfold columnAt
  rw [take_add_length h, endColumn_append hs]

theorem columnAt_add_break {text last : Text} {p : Nat} (before : Text)
    (h : before ++ '\n' :: last <+: text.drop p) (hlast : '\n' ∉ last) :
    columnAt text (p + (before ++ '\n' :: last).length) = Utf16.width last := by
  unfold columnAt
  rw [take_add_length h, ← List.append_assoc, endColumn_append_break hlast]

theorem drop_add_length {text s t : Text} {p : Nat} (h : s ++ t <+: text.drop p) :
    t <+: text.drop (p + s.length) := by
  obtain ⟨rest, hrest⟩ := h
  rw [← List.drop_drop, ← hrest, List.append_assoc, List.drop_left]
  exact List.prefix_append t rest

/-- The characters of a piece that is kept from a position on. -/
def keptFrom : (p : Nat) → Text → List (Char × Origin)
  | _, [] => []
  | p, c :: s => (c, .kept p) :: keptFrom (p + 1) s

theorem keptFrom_append (p : Nat) (s t : Text) :
    keptFrom p (s ++ t) = keptFrom p s ++ keptFrom (p + s.length) t := by
  induction s generalizing p with
  | nil => rfl
  | cons c s ih =>
    rw [List.cons_append, keptFrom, keptFrom, ih, List.cons_append, List.length_cons]
    have hp : p + 1 + s.length = p + (s.length + 1) := by omega
    rw [hp]

theorem keptFrom_map_fst (p : Nat) (s : Text) : (keptFrom p s).map (·.1) = s := by
  induction s generalizing p with
  | nil => rfl
  | cons c s ih => rw [keptFrom, List.map_cons, ih]

theorem origin_of_keptFrom {p : Nat} {s : Text} {before after : List (Char × Origin)} {c : Char}
    {o : Origin} (h : keptFrom p s = before ++ (c, o) :: after) : o = .kept (p + before.length) := by
  induction before generalizing p s with
  | nil =>
    cases s with
    | nil => cases h
    | cons d s => cases h; rfl
  | cons x before ih =>
    cases s with
    | nil => cases h
    | cons d s =>
      rw [keptFrom, List.cons_append, List.cons.injEq] at h
      rw [ih h.2, List.length_cons]
      have hp : p + 1 + before.length = p + (before.length + 1) := by omega
      rw [hp]

theorem keptBetween_eq_keptFrom (text : Text) (i n : Nat) :
    ((List.range' i n).flatMap (characterAt text)) = keptFrom i ((text.drop i).take n) := by
  induction n generalizing i with
  | zero => simp [keptFrom]
  | succ n ih =>
    rw [List.range'_succ, List.flatMap_cons, ih]
    -- behind the end of the text both sides have nothing
    by_cases hi : i < text.length
    · rw [List.drop_eq_getElem_cons hi, List.take_succ_cons, keptFrom]
      simp [characterAt, List.getElem?_eq_getElem hi]
    · rw [List.drop_eq_nil_of_le (by omega), List.drop_eq_nil_of_le (by omega)]
      simp [characterAt, List.getElem?_eq_none (by omega : text.length ≤ i), keptFrom]

/-! ## 3. The invariant of a trace -/

/-- Whether a segment that governs a column tells where a character there comes from. -/
def Segment.Explains (text : Text) (o : Origin) (column : Nat) (s : Segment) : Prop :=
  match o with
  | .kept k => s.sourceLine = lineAt text k ∧ s.sourceColumn + (column - s.column) = columnAt text k
  | .inserted e =>
    s.sourceLine = lineAt text e.range.start.toNat ∧ s.sourceColumn = columnAt text e.range.start.toNat

/-- The segment of a line that governs a column: the last one that does not begin behind it. -/
def governing (line : List Segment) (column : Nat) : Option Segment :=
  (line.filter fun s => s.column ≤ column).getLast?

def chars (out : List (Char × Origin)) : Text := out.map (·.1)

theorem chars_append (as bs : List (Char × Origin)) : chars (as ++ bs) = chars as ++ chars bs :=
  List.map_append

theorem chars_cons (c : Char) (o : Origin) (out : List (Char × Origin)) :
    chars ((c, o) :: out) = c :: chars out := rfl

/-- What a trace holds once it has gone through some characters. -/
structure Describes (text : Text) (out : List (Char × Origin)) (t : Trace) : Prop where
  finished : t.finished.length = breaks (chars out)
  column : t.column = endColumn (chars out)
  increasing : ∀ line ∈ t.lines, line.Pairwise fun a b => a.column < b.column
  /-- The segments of the current line begin before the column. -/
  reached : ∀ s ∈ t.current, s.column < t.column
  /-- Every character but the line breaks is explained by the segment that governs it. -/
  governed : ∀ before c o after, out = before ++ (c, o) :: after → c ≠ '\n' →
    ∃ line s, t.lines[breaks (chars before)]? = some line ∧
      governing line (endColumn (chars before)) = some s ∧ s.column ≤ endColumn (chars before) ∧
      Segment.Explains text o (endColumn (chars before)) s

/-- A trace has reached a position of the source. -/
structure At (text : Text) (p : Nat) (t : Trace) : Prop where
  line : t.sourceLine = lineAt text p
  column : t.sourceColumn = columnAt text p

variable {text : Text} {out piece : List (Char × Origin)} {t : Trace} {p : Nat}

theorem describes_empty (text : Text) : Describes text [] Trace.empty where
  finished := rfl
  column := rfl
  increasing line hline := by
    obtain rfl : line = [] := by simpa [Trace.lines, Trace.empty] using hline
    exact List.Pairwise.nil
  reached _ hs := absurd hs List.not_mem_nil
  governed before c o after h := by simp at h

theorem at_empty (text : Text) : At text 0 Trace.empty := ⟨rfl, rfl⟩

theorem lines_eq (t : Trace) : t.lines = t.finished.reverse ++ [t.current.reverse] := by
  unfold Trace.lines
  rw [List.reverse_cons]

theorem split_append {x : Char × Origin} {before after : List (Char × Origin)}
    (h : out ++ piece = before ++ x :: after) :
    (∃ rest, out = before ++ x :: rest) ∨
      ∃ start, before = out ++ start ∧ piece = start ++ x :: after := by
  rcases List.append_eq_append_iff.1 h with ⟨start, hbefore, hpiece⟩ | ⟨rest, hout, hrest⟩
  · exact .inr ⟨start, hbefore, hpiece⟩
  · cases rest with
    | nil =>
      rw [List.append_nil] at hout
      exact .inr ⟨[], by rw [hout, List.append_nil], hrest.symm⟩
    | cons y rest =>
      rw [List.cons_append, List.cons.injEq] at hrest
      exact .inl ⟨rest, by rw [hout, hrest.1]⟩

theorem Describes.breakLine (h : Describes text out t) (o : Origin) :
    Describes text (out ++ [('\n', o)]) t.breakLine := by
  have hlines : t.breakLine.lines = t.lines ++ [[]] := by
    simp [lines_eq, Trace.breakLine]
  refine ⟨?_, ?_, ?_, ?_, ?_⟩
  · rw [chars_append, breaks_append, ← h.finished]
    rfl
  · rw [chars_append]
    exact (endColumn_append_break List.not_mem_nil _).symm
  · intro line hline
    rw [hlines, List.mem_append, List.mem_singleton] at hline
    rcases hline with hline | rfl
    · exact h.increasing line hline
    · exact List.Pairwise.nil
  · intro s hs
    exact absurd hs List.not_mem_nil
  · intro before c o' after hout hc
    rcases split_append hout with ⟨rest, hout⟩ | ⟨start, -, hpiece⟩
    · obtain ⟨line, s, hline, hgoverns⟩ := h.governed before c o' rest hout hc
      obtain ⟨hlt, -⟩ := List.getElem?_eq_some_iff.1 hline
      rw [hlines, List.getElem?_append_left hlt]
      exact ⟨line, s, hline, hgoverns⟩
    · -- the new character is a line break
      obtain ⟨-, heq⟩ | ⟨x, rest, -, hrest⟩ : (start = [] ∧ c = '\n') ∨
          ∃ x rest, start = x :: rest ∧ [] = rest ++ (c, o') :: after := by
        cases start with
        | nil => cases hpiece; exact .inl ⟨rfl, rfl⟩
        | cons x rest => exact .inr ⟨x, rest, rfl, (List.cons.inj hpiece).2⟩
      · exact absurd heq hc
      · simp at hrest

theorem mark_eq (h : ∀ s ∈ t.current, s.column < t.column) :
    t.mark = { t with current := ⟨t.column, t.sourceLine, t.sourceColumn⟩ :: t.current } := by
  unfold Trace.mark
  cases hcurrent : t.current with
  | nil => rfl
  | cons s ss =>
    have hlt := h s (by rw [hcurrent]; exact List.mem_cons_self)
    simp only [if_neg (Nat.ne_of_lt hlt)]

/-- On the last line, a character begins before the column behind all of them. -/
theorem endColumn_lt {before rest : List (Char × Origin)} {c : Char} {o : Origin}
    (hout : out = before ++ (c, o) :: rest) (hlast : breaks (chars before) = breaks (chars out)) :
    endColumn (chars before) < endColumn (chars out) := by
  rw [hout, chars_append, chars_cons] at hlast ⊢
  rw [breaks_append] at hlast
  have hno : '\n' ∉ c :: chars rest := by
    have hzero : breaks (c :: chars rest) = 0 := by omega
    exact List.count_eq_zero.1 hzero
  have hpos : 0 < Utf16.width (c :: chars rest) := width_pos (List.cons_ne_nil _ _)
  rw [endColumn_append hno]
  omega

theorem governing_append_left {line : List Segment} {s : Segment} {column : Nat}
    (h : column < s.column) : governing (line ++ [s]) column = governing line column := by
  unfold governing
  rw [List.filter_append]
  have hnone : [s].filter (fun s => decide (s.column ≤ column)) = [] := by
    rw [List.filter_cons_of_neg, List.filter_nil]
    rw [decide_eq_true_eq]
    omega
  rw [hnone, List.append_nil]

theorem governing_append_right {line : List Segment} {s : Segment} {column : Nat}
    (h : s.column ≤ column) : governing (line ++ [s]) column = some s := by
  unfold governing
  rw [List.filter_append]
  have hsome : [s].filter (fun s => decide (s.column ≤ column)) = [s] := by
    rw [List.filter_cons_of_pos, List.filter_nil]
    rw [decide_eq_true_eq]
    exact h
  rw [hsome, List.getLast?_concat]

/-- What is said of an earlier character stays true when a segment is added at the column that is reached. -/
theorem Describes.governed_earlier (h : Describes text out t) {s : Segment} (hs : s.column = t.column)
    {before rest : List (Char × Origin)} {c : Char} {o : Origin} (hout : out = before ++ (c, o) :: rest)
    (hc : c ≠ '\n') :
    ∃ line s', (t.finished.reverse ++ [t.current.reverse ++ [s]])[breaks (chars before)]? = some line ∧
      governing line (endColumn (chars before)) = some s' ∧ s'.column ≤ endColumn (chars before) ∧
      Segment.Explains text o (endColumn (chars before)) s' := by
  obtain ⟨line, s', hline, hgoverns, hexplained⟩ := h.governed before c o rest hout hc
  rw [lines_eq] at hline
  by_cases hearlier : breaks (chars before) < t.finished.length
  · rw [List.getElem?_append_left (by rw [List.length_reverse]; exact hearlier)] at hline ⊢
    exact ⟨line, s', hline, hgoverns, hexplained⟩
  · -- on the current line the new segment begins behind the character, and so does not govern it
    have hle : breaks (chars before) ≤ breaks (chars out) := by
      rw [hout, chars_append, breaks_append]
      omega
    have hthis : breaks (chars before) = t.finished.length := by
      have := h.finished
      omega
    have hlt := endColumn_lt hout (by rw [hthis, h.finished])
    rw [← h.column, ← hs] at hlt
    rw [List.getElem?_append_right (by rw [List.length_reverse]; omega), List.length_reverse, hthis,
      Nat.sub_self] at hline ⊢
    obtain rfl : t.current.reverse = line := Option.some.inj hline
    refine ⟨_, s', rfl, ?_, hexplained⟩
    rw [governing_append_left hlt]
    exact hgoverns

/-- A segment that is added at the column that is reached governs what follows on the current line. -/
theorem Describes.governed_later (h : Describes text out t) {s : Segment} (hs : s.column = t.column)
    {start : List (Char × Origin)} {o : Origin} (hstart : '\n' ∉ chars start)
    (hexplains : Segment.Explains text o (t.column + Utf16.width (chars start)) s) :
    ∃ line s', (t.finished.reverse ++ [t.current.reverse ++ [s]])[breaks (chars (out ++ start))]? = some line ∧
      governing line (endColumn (chars (out ++ start))) = some s' ∧
      s'.column ≤ endColumn (chars (out ++ start)) ∧
      Segment.Explains text o (endColumn (chars (out ++ start))) s' := by
  have hbreaks : breaks (chars (out ++ start)) = t.finished.reverse.length := by
    rw [chars_append, breaks_append, breaks_eq_zero hstart, List.length_reverse, h.finished, Nat.add_zero]
  have hcolumn : endColumn (chars (out ++ start)) = t.column + Utf16.width (chars start) := by
    rw [chars_append, endColumn_append hstart, h.column]
  have hreached : s.column ≤ t.column + Utf16.width (chars start) := by omega
  rw [hbreaks, List.getElem?_append_right (Nat.le_refl _), Nat.sub_self, hcolumn]
  exact ⟨_, s, rfl, governing_append_right hreached, hreached, hexplains⟩

/-- Writing a piece keeps the invariant, if each of its characters is explained by a segment that begins
with the piece. -/
theorem Describes.write (h : Describes text out t) (hpiece : '\n' ∉ chars piece)
    (hexplains : ∀ start c o rest, piece = start ++ (c, o) :: rest →
      Segment.Explains text o (t.column + Utf16.width (chars start))
        ⟨t.column, t.sourceLine, t.sourceColumn⟩) :
    Describes text (out ++ piece) (t.write (chars piece)) := by
  unfold Trace.write
  by_cases hnil : chars piece = []
  · rw [if_pos hnil]
    obtain rfl : piece = [] := List.map_eq_nil_iff.1 hnil
    rw [List.append_nil]
    exact h
  -- no segment begins at the column yet, so that one is marked there
  rw [if_neg hnil, mark_eq h.reached]
  have hwidth := width_pos hnil
  have hlines : ∀ column, Trace.lines ⟨t.finished,
      ⟨t.column, t.sourceLine, t.sourceColumn⟩ :: t.current, column, t.sourceLine, t.sourceColumn⟩ =
      t.finished.reverse ++ [t.current.reverse ++ [⟨t.column, t.sourceLine, t.sourceColumn⟩]] := by
    intro column
    rw [lines_eq, List.reverse_cons]
  refine ⟨?_, ?_, ?_, ?_, ?_⟩
  · rw [chars_append, breaks_append, breaks_eq_zero hpiece]
    exact h.finished
  · rw [chars_append, endColumn_append hpiece, ← h.column]
  · intro line hline
    rw [hlines, List.mem_append, List.mem_singleton] at hline
    have hold : ∀ l, l ∈ t.finished.reverse ∨ l = t.current.reverse → l ∈ t.lines := by
      intro l hl
      rw [lines_eq, List.mem_append, List.mem_singleton]
      exact hl
    rcases hline with hline | rfl
    · exact h.increasing line (hold line (.inl hline))
    · rw [List.pairwise_append]
      refine ⟨h.increasing _ (hold _ (.inr rfl)), List.pairwise_singleton _ _, ?_⟩
      intro a ha b hb
      obtain rfl := List.mem_singleton.1 hb
      exact h.reached a (List.mem_reverse.1 ha)
  · intro s hs
    show s.column < t.column + Utf16.width (chars piece)
    rcases List.mem_cons.1 hs with rfl | hs
    · show t.column < t.column + Utf16.width (chars piece)
      omega
    · have := h.reached s hs
      omega
  · intro before c o after hout hc
    rw [hlines]
    rcases split_append hout with ⟨rest, hold⟩ | ⟨start, rfl, hsplit⟩
    · exact h.governed_earlier rfl hold hc
    · have hstart : '\n' ∉ chars start := by
        intro hmem
        apply hpiece
        rw [hsplit, chars_append]
        exact List.mem_append_left _ hmem
      exact h.governed_later rfl hstart (hexplains start c o after hsplit)

/-! ## 4. Copying and replacing -/

theorem Describes.withPlace (h : Describes text out t) (line column : Nat) :
    Describes text out { t with sourceLine := line, sourceColumn := column } :=
  ⟨h.finished, h.column, h.increasing, h.reached, h.governed⟩

theorem At.write (hat : At text p t) (s : Text) : At text p (t.write s) := by
  have hmark : t.mark.sourceLine = t.sourceLine ∧ t.mark.sourceColumn = t.sourceColumn := by
    unfold Trace.mark
    split
    · split <;> exact ⟨rfl, rfl⟩
    · exact ⟨rfl, rfl⟩
  unfold Trace.write
  split
  · exact hat
  · exact ⟨hmark.1.trans hat.line, hmark.2.trans hat.column⟩

/-- Copying a piece of the source from the position that is reached keeps the invariant. -/
theorem Describes.copyPiece (h : Describes text out t) (hat : At text p t) {s : Text}
    (hs : '\n' ∉ s) (hfollows : s <+: text.drop p) :
    Describes text (out ++ keptFrom p s) (t.copyPiece s) ∧ At text (p + s.length) (t.copyPiece s) := by
  have hchars : chars (keptFrom p s) = s := keptFrom_map_fst p s
  have hwritten : Describes text (out ++ keptFrom p s) (t.write s) := by
    have hpiece : '\n' ∉ chars (keptFrom p s) := by
      rw [hchars]
      exact hs
    rw [← congrArg t.write hchars]
    refine h.write hpiece ?_
    intro start c o rest hsplit
    -- the position of a character is that of the piece, further on by what stands before it
    obtain rfl := origin_of_keptFrom hsplit
    have hstart : chars start ++ c :: chars rest = s := by
      rw [← chars_cons c (.kept (p + start.length)), ← chars_append, ← hsplit, hchars]
    have hno : '\n' ∉ chars start := by
      intro hmem
      apply hs
      rw [← hstart]
      exact List.mem_append_left _ hmem
    have hpre : chars start <+: text.drop p := by
      refine List.IsPrefix.trans ?_ hfollows
      rw [← hstart]
      exact List.prefix_append _ _
    have hlength : start.length = (chars start).length := (List.length_map _).symm
    constructor
    · show t.sourceLine = lineAt text (p + start.length)
      rw [hat.line, hlength, lineAt_add hpre, breaks_eq_zero hno, Nat.add_zero]
    · show t.sourceColumn + (t.column + Utf16.width (chars start) - t.column) =
        columnAt text (p + start.length)
      rw [hat.column, hlength, columnAt_add hpre hno, Nat.add_sub_cancel_left]
  refine ⟨hwritten.withPlace _ _, ?_, ?_⟩
  · have hline : (t.copyPiece s).sourceLine = lineAt text p := (hat.write s).line
    rw [hline, lineAt_add hfollows, breaks_eq_zero hs, Nat.add_zero]
  · show t.sourceColumn + Utf16.width s = columnAt text (p + s.length)
    rw [hat.column, columnAt_add hfollows hs]

theorem Describes.copyBreak (h : Describes text out t) (hat : At text p t)
    (hfollows : ['\n'] <+: text.drop p) :
    Describes text (out ++ [('\n', .kept p)]) t.copyBreak ∧ At text (p + 1) t.copyBreak := by
  refine ⟨(h.breakLine _).withPlace _ _, ?_, ?_⟩
  · show t.sourceLine + 1 = lineAt text (p + 1)
    rw [hat.line]
    exact (lineAt_add hfollows).symm
  · show 0 = columnAt text (p + 1)
    exact (columnAt_add_break [] hfollows List.not_mem_nil).symm

/-- Copying pieces with line breaks between them keeps the invariant. -/
theorem Describes.copyPieces {first : Text} {rest : List Text} (h : Describes text out t)
    (hat : At text p t) (hpieces : ∀ s ∈ first :: rest, '\n' ∉ s)
    (hfollows : Text.joinWith '\n' (first :: rest) <+: text.drop p) :
    Describes text (out ++ keptFrom p (Text.joinWith '\n' (first :: rest)))
      (rest.foldl (fun t piece => t.copyBreak.copyPiece piece) (t.copyPiece first)) ∧
    At text (p + (Text.joinWith '\n' (first :: rest)).length)
      (rest.foldl (fun t piece => t.copyBreak.copyPiece piece) (t.copyPiece first)) := by
  -- the place that is reached moves along with the pieces, so the invariant and the place are carried together
  induction rest generalizing first out t p with
  | nil => exact h.copyPiece hat (hpieces first List.mem_cons_self) hfollows
  | cons next rest ih =>
    rw [Text.joinWith_cons_cons, List.append_cons] at hfollows
    have hfirst : first <+: text.drop p := by
      rw [List.append_assoc] at hfollows
      exact (List.prefix_append _ _).trans hfollows
    obtain ⟨h, hat⟩ := h.copyPiece hat (hpieces first List.mem_cons_self) hfirst
    have hbreak : ['\n'] <+: text.drop (p + first.length) :=
      drop_add_length ((List.prefix_append _ _).trans hfollows)
    obtain ⟨h, hat⟩ := h.copyBreak hat hbreak
    have hnext : Text.joinWith '\n' (next :: rest) <+: text.drop (p + first.length + 1) := by
      have hdrop := drop_add_length hfollows
      rw [List.length_append, List.length_singleton, ← Nat.add_assoc] at hdrop
      exact hdrop
    have hlast := ih h hat (fun s hs => hpieces s (List.mem_cons_of_mem _ hs)) hnext
    have hkept : keptFrom p (Text.joinWith '\n' (first :: next :: rest)) =
        keptFrom p first ++ [('\n', .kept (p + first.length))] ++
          keptFrom (p + first.length + 1) (Text.joinWith '\n' (next :: rest)) := by
      rw [Text.joinWith_cons_cons, keptFrom_append, keptFrom, List.append_assoc]
      rfl
    have hlength : p + (Text.joinWith '\n' (first :: next :: rest)).length =
        p + first.length + 1 + (Text.joinWith '\n' (next :: rest)).length := by
      rw [Text.joinWith_cons_cons, List.length_append, List.length_cons]
      omega
    rw [hkept, hlength, ← List.append_assoc, ← List.append_assoc]
    exact hlast

theorem Describes.copy (h : Describes text out t) (hat : At text p t) {s : Text}
    (hfollows : s <+: text.drop p) :
    Describes text (out ++ keptFrom p s) (t.copy s) ∧ At text (p + s.length) (t.copy s) := by
  unfold Trace.copy
  cases hsplit : s.splitOn '\n' with
  | nil => exact absurd hsplit (Text.splitOn_ne_nil _ _)
  | cons first rest =>
    have hjoin := Text.joinWith_splitOn '\n' s
    rw [hsplit] at hjoin
    rw [← hjoin] at hfollows ⊢
    refine h.copyPieces hat ?_ hfollows
    intro piece hpiece
    rw [← hsplit] at hpiece
    exact Text.not_mem_of_mem_splitOn hpiece

/-- Writing a piece of a replacement while the start of its range is reached keeps the invariant. -/
theorem Describes.writeInserted {e : Edit} (h : Describes text out t)
    (hat : At text e.range.start.toNat t) {s : Text} (hs : '\n' ∉ s) :
    Describes text (out ++ s.map fun c => (c, .inserted e)) (t.write s) := by
  have hchars : chars (s.map fun c => (c, Origin.inserted e)) = s := by
    unfold chars
    rw [List.map_map]
    exact List.map_id' s
  have hpiece : '\n' ∉ chars (s.map fun c => (c, Origin.inserted e)) := by
    rw [hchars]
    exact hs
  rw [← congrArg t.write hchars]
  refine h.write hpiece ?_
  intro start c o rest hsplit
  have hmem : (c, o) ∈ s.map fun c => (c, Origin.inserted e) := by
    rw [hsplit]
    exact List.mem_append_right _ List.mem_cons_self
  obtain ⟨d, -, heq⟩ := List.mem_map.1 hmem
  cases heq
  exact ⟨hat.line, hat.column⟩

/-- Writing the pieces of a replacement with line breaks between them keeps the invariant, and does not
move in the source. -/
theorem Describes.writePieces {e : Edit} {first : Text} {rest : List Text} (h : Describes text out t)
    (hat : At text e.range.start.toNat t) (hpieces : ∀ s ∈ first :: rest, '\n' ∉ s) :
    Describes text (out ++ (Text.joinWith '\n' (first :: rest)).map fun c => (c, .inserted e))
      (rest.foldl (fun t piece => t.breakLine.write piece) (t.write first)) ∧
    At text e.range.start.toNat
      (rest.foldl (fun t piece => t.breakLine.write piece) (t.write first)) := by
  -- the place in the source stays at the start of the range, whatever is written
  induction rest generalizing first out t with
  | nil => exact ⟨h.writeInserted hat (hpieces first List.mem_cons_self), hat.write first⟩
  | cons next rest ih =>
    have hwritten := h.writeInserted hat (hpieces first List.mem_cons_self)
    have hbroken := hwritten.breakLine (.inserted e)
    have hatBroken : At text e.range.start.toNat (t.write first).breakLine :=
      ⟨(hat.write first).line, (hat.write first).column⟩
    have hlast := ih hbroken hatBroken fun s hs => hpieces s (List.mem_cons_of_mem _ hs)
    rw [Text.joinWith_cons_cons, List.append_cons, List.map_append, List.map_append,
      ← List.append_assoc, ← List.append_assoc]
    exact hlast

theorem joinWith_concat {sep : Char} {pieces : List Text} (hne : pieces ≠ []) (last : Text) :
    Text.joinWith sep (pieces ++ [last]) = Text.joinWith sep pieces ++ sep :: last := by
  induction pieces with
  | nil => exact absurd rfl hne
  | cons piece rest ih =>
    cases rest with
    | nil => rfl
    | cons next rest =>
      rw [List.cons_append, List.cons_append, Text.joinWith_cons_cons, Text.joinWith_cons_cons,
        ← List.cons_append, ih (List.cons_ne_nil _ _), List.append_assoc]
      rfl

/-- Passing over a part of the source that begins where it is reached ends where that ends. -/
theorem At.skip (hat : At text p t) {s : Text} (hfollows : s <+: text.drop p) :
    At text (p + s.length) (t.skip s) := by
  have hjoin := Text.joinWith_splitOn '\n' s
  have hlength := length_splitOn s
  unfold Trace.skip
  split
  next hnil =>
    rw [List.reverse_eq_nil_iff] at hnil
    exact absurd hnil (Text.splitOn_ne_nil _ _)
  next piece hone =>
    -- no line break is passed over
    have hone : s.splitOn '\n' = [piece] := by
      rw [← List.reverse_reverse (s.splitOn '\n'), hone]
      rfl
    rw [hone] at hjoin hlength
    obtain rfl : piece = s := hjoin
    have hzero : breaks piece = 0 := (Nat.succ.inj hlength).symm
    constructor
    · show t.sourceLine = lineAt text (p + piece.length)
      rw [lineAt_add hfollows, hzero, hat.line, Nat.add_zero]
    · show t.sourceColumn + Utf16.width piece = columnAt text (p + piece.length)
      rw [columnAt_add hfollows (List.count_eq_zero.1 hzero), hat.column]
  next last rest hnotone hmany =>
    -- the last piece begins its own line
    have hmany : s.splitOn '\n' = rest.reverse ++ [last] := by
      rw [← List.reverse_reverse (s.splitOn '\n'), hmany, List.reverse_cons]
    have hrest : rest.reverse ≠ [] := by
      intro hnil
      exact hnotone (List.reverse_eq_nil_iff.1 hnil)
    have hlast : '\n' ∉ last := by
      have hmem : last ∈ s.splitOn '\n' := by
        rw [hmany]
        exact List.mem_append_right _ (List.mem_singleton.2 rfl)
      exact Text.not_mem_of_mem_splitOn hmem
    rw [hmany, joinWith_concat hrest] at hjoin
    rw [hmany, List.length_append, List.length_reverse, List.length_singleton] at hlength
    have hcount : breaks s = rest.length := by omega
    constructor
    · show t.sourceLine + rest.length = lineAt text (p + s.length)
      rw [lineAt_add hfollows, hcount, hat.line]
    · show Utf16.width last = columnAt text (p + s.length)
      rw [← hjoin] at hfollows ⊢
      exact (columnAt_add_break _ hfollows hlast).symm

theorem Describes.skip (h : Describes text out t) (s : Text) : Describes text out (t.skip s) := by
  unfold Trace.skip
  split
  · exact h
  · exact h.withPlace t.sourceLine _
  · exact h.withPlace _ _

theorem Describes.replace {e : Edit} (h : Describes text out t) (hat : At text e.range.start.toNat t)
    {s : Text} (hfollows : s <+: text.drop e.range.start.toNat) :
    Describes text (out ++ e.characters) (t.replace s e.replacement) ∧
      At text (e.range.start.toNat + s.length) (t.replace s e.replacement) := by
  unfold Trace.replace
  cases hsplit : e.replacement.splitOn '\n' with
  | nil => exact absurd hsplit (Text.splitOn_ne_nil _ _)
  | cons first rest =>
    have hjoin := Text.joinWith_splitOn '\n' e.replacement
    rw [hsplit] at hjoin
    have hpieces : ∀ piece ∈ first :: rest, '\n' ∉ piece := by
      intro piece hpiece
      rw [← hsplit] at hpiece
      exact Text.not_mem_of_mem_splitOn hpiece
    obtain ⟨hwritten, hstays⟩ := h.writePieces hat hpieces
    rw [hjoin] at hwritten
    exact ⟨hwritten.skip s, hstays.skip hfollows⟩

/-! ## 5. The whole trace -/

/-- Tracing a text with replacements that are in order goes through what is woven together. -/
theorem trace_describes {cursor : Int} {es : List Edit} (hes : Ordered text cursor es)
    (h : Describes text out t) (hat : At text cursor.toNat t) :
    Describes text (out ++ weaveOrigins text cursor es) (trace text cursor es t) := by
  induction es generalizing cursor out t with
  | nil =>
    have hslice := slice_eq_take_drop hes.1 hes.2 (Int.le_refl _)
    rw [Int.toNat_natCast] at hslice
    unfold trace weaveOrigins keptBetween
    rw [keptBetween_eq_keptFrom, hslice]
    exact (h.copy hat (List.take_prefix _ _)).1
  | cons e es ih =>
    obtain ⟨h0, hstart, hrest⟩ := hes
    have hle := e.range.start_le_stop
    have hstop := hrest.bounds.2
    -- what is kept before the range of `e`, and what its replacement takes out
    have hkept := slice_eq_take_drop h0 hstart (show e.range.start ≤ text.length by omega)
    have hgone := slice_eq_take_drop (show 0 ≤ e.range.start by omega) hle hstop
    have hcopied := h.copy hat (List.take_prefix (e.range.start.toNat - cursor.toNat) _)
    obtain ⟨hcopied, hatStart⟩ := hcopied
    -- the cursor stands at the start of the range when the replacement is written, and at its stop afterwards
    have hreached : cursor.toNat +
        ((text.drop cursor.toNat).take (e.range.start.toNat - cursor.toNat)).length =
        e.range.start.toNat := by
      rw [List.length_take, List.length_drop]
      omega
    rw [hreached] at hatStart
    obtain ⟨hreplaced, hatStop⟩ :=
      hcopied.replace hatStart (List.take_prefix (e.range.stop.toNat - e.range.start.toNat) _)
    have hpassed : e.range.start.toNat +
        ((text.drop e.range.start.toNat).take (e.range.stop.toNat - e.range.start.toNat)).length =
        e.range.stop.toNat := by
      rw [List.length_take, List.length_drop]
      omega
    rw [hpassed] at hatStop
    have hlast := ih hrest hreplaced hatStop
    unfold trace weaveOrigins keptBetween
    rw [keptBetween_eq_keptFrom, hkept, hgone, ← List.append_assoc, ← List.append_assoc]
    exact hlast

/-- The segments of an edited text describe its characters. -/
theorem segments_describe {edits : List Edit} (hfits : ∀ e ∈ edits, e.Fits text)
    (horder : (⟨text, edits⟩ : Editor).InOrder) :
    ∃ t, Describes text (provenance text edits) t ∧ segments text edits = t.lines := by
  have hordered : Ordered text 0 (Editor.sorted ⟨text, edits⟩) :=
    Editor.ordered_sorted hfits horder
  have htrace := trace_describes hordered (describes_empty text) (at_empty text)
  rw [List.nil_append, weaveOrigins_eq_flatMap hordered] at htrace
  -- the trace goes through sorted replacements, whose provenance is that of the replacements as they come
  have hprovenance := Editor.provenance_sorted ⟨text, edits⟩ text
  unfold provenance at hprovenance
  rw [List.range_eq_range'] at hprovenance
  refine ⟨_, ?_, rfl⟩
  unfold provenance
  rw [List.range_eq_range', ← hprovenance]
  exact htrace

/-! ## 6. What a reader of the map learns -/

/-- The place of a position of the single source. -/
def Place.ofPosition (text : Text) (k : Nat) : Place := ⟨0, lineAt text k, columnAt text k⟩

/-- The mapping of a line that governs a column: the last one that does not begin behind it. -/
def Mapping.governing (line : List Mapping) (column : Nat) : Option Mapping :=
  (line.filter fun m => m.column ≤ (column : Int)).getLast?

/-- The place of a column that a mapping governs, as far from its place as the column is from its own. -/
def Mapping.placeAt (m : Mapping) (column : Nat) : Option Place :=
  m.place.map fun place => { place with column := place.column + ((column : Int) - m.column) }

theorem governing_map (line : List Segment) (column : Nat) :
    Mapping.governing (line.map Segment.mapping) column =
      (governing line column).map Segment.mapping := by
  have hcolumn : ∀ s : Segment, decide ((s.mapping.column : Int) ≤ (column : Int)) =
      decide (s.column ≤ column) := by
    intro s
    rw [decide_eq_decide]
    exact Int.ofNat_le
  unfold Mapping.governing governing
  rw [List.filter_map, List.getLast?_map]
  congr 2
  exact List.filter_congr fun s _ => hcolumn s

/-- Read by the rules of the format, the map of an edited text describes that text: it has as many lines,
its columns increase, the mapping that governs a kept character leads to the position it is kept from, and
the mapping that governs a character of a replacement is placed at the start of its range. -/
theorem map_describes_edited_text {edits : List Edit} (hfits : ∀ e ∈ edits, e.Fits text)
    (horder : (⟨text, edits⟩ : Editor).InOrder) (source : Text) (file : Option Text)
    (includeContent : Bool) :
    ∃ edited lines, (⟨text, edits⟩ : Editor).apply = .ok edited ∧
      edited.text = chars (provenance text edits) ∧
      decodeMappings (SourceMap.ofEdits text edits source file includeContent).mappings = some lines ∧
      lines.length = (edited.text.splitOn '\n').length ∧
      (∀ line ∈ lines, line.Pairwise fun a b => a.column < b.column) ∧
      ∀ before c o after, provenance text edits = before ++ (c, o) :: after → c ≠ '\n' →
        ∃ line m, lines[breaks (chars before)]? = some line ∧
          Mapping.governing line (endColumn (chars before)) = some m ∧
          match o with
          | .kept k => m.placeAt (endColumn (chars before)) = some (Place.ofPosition text k)
          | .inserted e => m.place = some (Place.ofPosition text e.range.start.toNat) := by
  obtain ⟨edited, happly, htext, -⟩ := Editor.apply_eq_spliced hfits horder
  obtain ⟨t, h, hsegments⟩ := segments_describe hfits horder
  have hne : t.lines ≠ [] := by
    rw [lines_eq]
    exact List.append_ne_nil_of_right_ne_nil _ (List.cons_ne_nil _ _)
  refine ⟨edited, t.lines.map fun line => line.map Segment.mapping, happly, htext, ?_, ?_, ?_, ?_⟩
  · show decodeMappings (renderMappings (segments text edits)) = _
    rw [hsegments]
    exact decodeMappings_renderMappings hne
  · rw [List.length_map, length_splitOn, htext, lines_eq, List.length_append, List.length_reverse,
      h.finished]
    rfl
  · intro line hline
    obtain ⟨segments, hsegments, rfl⟩ := List.mem_map.1 hline
    rw [List.pairwise_map]
    exact (h.increasing segments hsegments).imp Int.ofNat_lt.2
  -- what the trace says of a segment, a reader finds in its mapping
  · intro before c o after hsplit hc
    obtain ⟨line, s, hline, hgoverns, hreached, hexplains⟩ := h.governed before c o after hsplit hc
    refine ⟨line.map Segment.mapping, s.mapping, ?_, ?_, ?_⟩
    · rw [List.getElem?_map, hline]
      rfl
    · rw [governing_map, hgoverns]
      rfl
    · cases o with
      | kept k =>
        obtain ⟨hlineAt, hcolumnAt⟩ := hexplains
        show some (⟨0, (s.sourceLine : Int), (s.sourceColumn : Int) +
          ((endColumn (chars before) : Int) - s.column)⟩ : Place) = some (Place.ofPosition text k)
        unfold Place.ofPosition
        rw [hlineAt, ← hcolumnAt]
        congr 2
        omega
      | inserted e =>
        obtain ⟨hlineAt, hcolumnAt⟩ := hexplains
        show some (⟨0, (s.sourceLine : Int), (s.sourceColumn : Int)⟩ : Place) = _
        unfold Place.ofPosition
        rw [hlineAt, hcolumnAt]

/-- A text of two lines with a character that takes two UTF-16 units. -/
def twoLines : Text := ['a', '\n', '😀', 'b']

/-- An insertion, and a range replaced by two lines. -/
def twoEdits : List Edit :=
  [⟨⟨0, 0, by decide⟩, "z".toList⟩, ⟨⟨2, 3, by decide⟩, "x\ny".toList⟩]

/-- The map of `twoLines` with `twoEdits` has three lines. -/
theorem map_describes_twoEdits :
    ∃ edited lines, (⟨twoLines, twoEdits⟩ : Editor).apply = .ok edited ∧
      edited.text = "za\nx\nyb".toList ∧
      decodeMappings (SourceMap.ofEdits twoLines twoEdits [] none true).mappings = some lines ∧
      lines.length = 3 := by
  have hfits : ∀ e ∈ twoEdits, e.Fits twoLines := by
    intro e he
    simp only [twoEdits, List.mem_cons, List.not_mem_nil, or_false] at he
    rcases he with rfl | rfl <;> exact ⟨by decide, by decide⟩
  have horder : (⟨twoLines, twoEdits⟩ : Editor).InOrder := by
    have hsorted : (⟨twoLines, twoEdits⟩ : Editor).sorted = twoEdits :=
      List.mergeSort_of_pairwise (by decide)
    show ((⟨twoLines, twoEdits⟩ : Editor).sorted).Pairwise fun a b => a.range.stop ≤ b.range.start
    rw [hsorted]
    decide
  obtain ⟨edited, lines, happly, htext, hlines, hlength, -⟩ :=
    map_describes_edited_text hfits horder [] none true
  have htext : edited.text = "za\nx\nyb".toList := by
    rw [htext]
    decide
  exact ⟨edited, lines, happly, htext, hlines, by rw [hlength, htext]; decide⟩

end AssetEmbed.SourceMap
