import AssetEmbed.Diagnostic

/-!
# Edits — replacements of ranges of a text

An editor collects replacements for one text.  Of two replacements that overlap the wider one stays; of two
that are equally wide, the one that was offered first.  The replacements that are left are applied
together.
-/

namespace AssetEmbed

/-! ## 1. Ranges -/

/-- A half-open range of positions of a text. -/
structure Range where
  start : Int
  stop : Int
  /-- The ends are in order. -/
  start_le_stop : start ≤ stop
  deriving DecidableEq, Repr

/-- The range between two positions, if they are in order. -/
def Range.ofEnds? (start stop : Int) : Option Range :=
  if h : start ≤ stop then some ⟨start, stop, h⟩ else none

def Range.disorderMessage (start stop : Int) : String :=
  s!"Invalid range: start_char ({start}) > end_char ({stop})"

def Range.width (r : Range) : Int := r.stop - r.start

/-- Whether two ranges overlap: neither ends before the other one starts. -/
def Range.overlaps (r s : Range) : Bool := !(r.stop ≤ s.start || s.stop ≤ r.start)

theorem Range.overlaps_comm (r s : Range) : r.overlaps s = s.overlaps r := by
  simp [Range.overlaps, Bool.or_comm]

def Range.render (r : Range) : String := s!"TextRange(start_char={r.start}, end_char={r.stop})"

/-! ## 2. Editors -/

structure Edit where
  range : Range
  replacement : Text
  deriving DecidableEq, Repr

/-- A text and the replacements collected for it, in the order in which they were accepted. -/
structure Editor where
  text : Text
  edits : List Edit
  deriving DecidableEq, Repr

def Editor.ofText (text : Text) : Editor := ⟨text, []⟩

inductive Editor.Outcome where
  /-- An accepted replacement that is at least as wide stands in the way. -/
  | refused (blocker : Edit)
  /-- The replacement is accepted in place of the narrower ones it overlaps. -/
  | accepted (editor : Editor) (absorbed : List Edit)

def Editor.offer (ed : Editor) (edit : Edit) : Editor.Outcome :=
  match ed.edits.find? fun e =>
      edit.range.overlaps e.range && decide (edit.range.width ≤ e.range.width) with
  | some e => .refused e
  | none =>
    .accepted { ed with edits := ed.edits.filter (fun e => !edit.range.overlaps e.range) ++ [edit] }
      (ed.edits.filter fun e => edit.range.overlaps e.range)

/-- The editor after an offer, and whether the replacement was accepted. -/
def Editor.add (ed : Editor) (edit : Edit) : Editor × Bool :=
  match ed.offer edit with
  | .refused _ => (ed, false)
  | .accepted ed' _ => (ed', true)

/-- A replacement of what stands between two positions, which need not be in order. -/
structure Proposal where
  start : Int
  stop : Int
  replacement : Text
  deriving DecidableEq, Repr

/-- The editor after a proposal, and whether that was accepted; a message if its ends are not in order. -/
def Editor.propose (ed : Editor) (p : Proposal) : Editor × Except String Bool :=
  match Range.ofEnds? p.start p.stop with
  | none => (ed, .error (Range.disorderMessage p.start p.stop))
  | some range =>
    let (ed, accepted) := ed.add ⟨range, p.replacement⟩
    (ed, .ok accepted)

/-- The remarks about an offer: what stood in the way, or what was absorbed, the latest first. -/
def Editor.Outcome.remarks (edit : Edit) : Editor.Outcome → List Event
  | .refused e => [.debug s!"Skipping edit {edit.range.render}: overlaps {e.range.render}"]
  | .accepted _ absorbed => absorbed.reverse.map fun e =>
    .debug s!"Edit {e.range.render} absorbed by wider edit {edit.range.render}"

/-- The replacements by ascending start; those with the same start keep their order. -/
def Editor.sorted (ed : Editor) : List Edit :=
  ed.edits.mergeSort fun a b => a.range.start ≤ b.range.start

/-! ## 3. Application -/

/-- Why a replacement does not fit the text. -/
inductive Editor.Misfit where
  | negativeStart (index : Nat) (start : Int)
  | stopBeyondText (index : Nat) (stop : Int) (length : Nat)
  deriving DecidableEq, Repr

def Editor.Misfit.message : Editor.Misfit → String
  | .negativeStart i start => s!"Edit {i}: start_char ({start}) is negative"
  | .stopBeyondText i stop length =>
    s!"Edit {i}: end_char ({stop}) exceeds text length ({length})"

def Edit.misfits (length : Nat) (index : Nat) (edit : Edit) : List Editor.Misfit :=
  (if edit.range.start < 0 then [.negativeStart index edit.range.start] else []) ++
    (if edit.range.stop > length then [.stopBeyondText index edit.range.stop length] else [])

def Editor.misfits (ed : Editor) : List Editor.Misfit :=
  (ed.edits.zipIdx.map fun (edit, i) => edit.misfits ed.text.length i).flatten

def Editor.misfitMessage (misfits : List Editor.Misfit) : String :=
  "Edit validation failed: " ++ "; ".intercalate (misfits.map (·.message))

/-- A text from a position on, with the ranges of the given replacements replaced. -/
def weave (text : Text) : (cursor : Int) → List Edit → Text
  | cursor, [] => text.slice cursor text.length
  | cursor, e :: es =>
    text.slice cursor e.range.start ++ e.replacement ++ weave text e.range.stop es

/-- The edited text and what was done to it. -/
structure Edited where
  text : Text
  applied : Nat
  removed : Int
  /-- The number of characters in the replacements. -/
  added : Nat
  deriving DecidableEq, Repr

/-- Applies all accepted replacements, if they all fit the text. -/
def Editor.apply (ed : Editor) : Except (List Editor.Misfit) Edited :=
  match ed.misfits with
  | [] => .ok {
      text := weave ed.text 0 ed.sorted
      applied := ed.edits.length
      removed := ed.edits.foldr (fun e n => e.range.width + n) 0
      added := ed.edits.foldr (fun e n => e.replacement.length + n) 0 }
  | misfits => .error misfits

end AssetEmbed
