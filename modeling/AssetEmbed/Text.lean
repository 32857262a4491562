/-!
# Text — the strings of the library

A text is a list of Unicode scalar values.  Offsets, lengths and columns everywhere in the library
count list elements, and every operation on a text is a function on lists, so that statements about
texts are statements about lists.
-/

namespace AssetEmbed

/-- A text: Unicode scalar values in order. -/
abbrev Text := List Char

namespace Text

def toString (s : Text) : String := String.ofList s

/-! ## 1. Splitting and joining -/

/-- The pieces of a text between the occurrences of a separator; never an empty list. -/
def splitOn (sep : Char) : Text → List Text
  | [] => [[]]
  | c :: cs =>
    if c = sep then [] :: splitOn sep cs
    else match splitOn sep cs with
      | [] => [[c]]
      | piece :: pieces => (c :: piece) :: pieces

def joinWith (sep : Char) : List Text → Text
  | [] => []
  | [piece] => piece
  | piece :: rest => piece ++ sep :: joinWith sep rest

theorem splitOn_ne_nil (sep : Char) (s : Text) : splitOn sep s ≠ [] := by
  induction s with
  | nil => simp [splitOn]
  | cons c cs ih =>
    simp only [splitOn]
    split
    · simp
    · split <;> simp

theorem joinWith_cons_cons (sep : Char) (p q : Text) (rest : List Text) :
    joinWith sep (p :: q :: rest) = p ++ sep :: joinWith sep (q :: rest) := rfl

/-- Joining the pieces of a text gives the text back. -/
theorem joinWith_splitOn (sep : Char) (s : Text) : joinWith sep (splitOn sep s) = s := by
  induction s with
  | nil => rfl
  | cons c cs ih =>
    simp only [splitOn]
    split
    · rename_i h
      cases hs : splitOn sep cs with
      | nil => exact absurd hs (splitOn_ne_nil sep cs)
      | cons p ps => rw [joinWith_cons_cons, ← hs, ih, h]; rfl
    · cases hs : splitOn sep cs with
      | nil => exact absurd hs (splitOn_ne_nil sep cs)
      | cons p ps =>
        rw [hs] at ih
        cases ps with
        | nil => simp only [joinWith] at ih ⊢; rw [ih]
        | cons q qs => rw [joinWith_cons_cons] at ih ⊢; rw [← ih]; rfl

/-- No piece of a text holds the separator. -/
theorem not_mem_of_mem_splitOn {sep : Char} {s piece : Text} (h : piece ∈ splitOn sep s) :
    sep ∉ piece := by
  induction s generalizing piece with
  | nil => simp_all [splitOn]
  | cons c cs ih =>
    simp only [splitOn] at h
    split at h
    · rcases List.mem_cons.1 h with rfl | h
      · simp
      · exact ih h
    · rename_i hc
      split at h
      · rename_i hs; exact absurd hs (splitOn_ne_nil sep cs)
      · rename_i p ps hs
        rw [hs] at ih
        rcases List.mem_cons.1 h with rfl | h
        · simpa [Ne.symm hc] using ih (List.mem_cons_self)
        · exact ih (List.mem_cons_of_mem _ h)

theorem mem_joinWith {sep c : Char} {pieces : List Text} {piece : Text} (hpiece : piece ∈ pieces)
    (hc : c ∈ piece) : c ∈ joinWith sep pieces := by
  induction pieces with
  | nil => exact absurd hpiece List.not_mem_nil
  | cons first rest ih =>
    cases rest with
    | nil =>
      rw [List.mem_singleton.1 hpiece] at hc
      exact hc
    | cons q rest =>
      rw [joinWith_cons_cons, List.mem_append, List.mem_cons]
      rcases List.mem_cons.1 hpiece with rfl | hpiece
      · exact .inl hc
      · exact .inr (.inr (ih hpiece))

theorem mem_of_mem_splitOn {sep c : Char} {s piece : Text} (hpiece : piece ∈ splitOn sep s)
    (hc : c ∈ piece) : c ∈ s := by
  rw [← joinWith_splitOn sep s]
  exact mem_joinWith hpiece hc

theorem splitOn_eq_singleton {sep : Char} {s : Text} (h : sep ∉ s) : splitOn sep s = [s] := by
  induction s with
  | nil => rfl
  | cons c s ih =>
    rw [List.mem_cons, not_or] at h
    rw [splitOn, if_neg (Ne.symm h.1), ih h.2]

theorem splitOn_append_cons {sep : Char} {piece : Text} (h : sep ∉ piece) (s : Text) :
    splitOn sep (piece ++ sep :: s) = piece :: splitOn sep s := by
  induction piece with
  | nil => rw [List.nil_append, splitOn, if_pos rfl]
  | cons c piece ih =>
    rw [List.mem_cons, not_or] at h
    rw [List.cons_append, splitOn, if_neg (Ne.symm h.1), ih h.2]

/-- Splitting joined pieces gives the pieces back, unless one of them holds the separator. -/
theorem splitOn_joinWith {sep : Char} {pieces : List Text} (hne : pieces ≠ [])
    (h : ∀ piece ∈ pieces, sep ∉ piece) : splitOn sep (joinWith sep pieces) = pieces := by
  induction pieces with
  | nil => exact absurd rfl hne
  | cons piece rest ih =>
    have hpiece := h piece List.mem_cons_self
    cases rest with
    | nil => exact splitOn_eq_singleton hpiece
    | cons q rest =>
      rw [joinWith_cons_cons, splitOn_append_cons hpiece, ih (by simp)]
      intro p hp
      exact h p (List.mem_cons_of_mem _ hp)

theorem not_mem_joinWith {c sep : Char} {pieces : List Text} (hsep : c ≠ sep)
    (h : ∀ piece ∈ pieces, c ∉ piece) : c ∉ joinWith sep pieces := by
  induction pieces with
  | nil => exact List.not_mem_nil
  | cons piece rest ih =>
    have hrest := ih fun p hp => h p (List.mem_cons_of_mem _ hp)
    cases rest with
    | nil => exact h piece List.mem_cons_self
    | cons q rest =>
      rw [joinWith_cons_cons, List.mem_append, List.mem_cons, not_or, not_or]
      exact ⟨h piece List.mem_cons_self, hsep, hrest⟩

/-- A text in which every line break is a line feed: a carriage return counts as one, alone or before a
line feed. -/
def unifyBreaks : Text → Text
  | [] => []
  | '\r' :: '\n' :: s => '\n' :: unifyBreaks s
  | c :: s => (if c = '\r' then '\n' else c) :: unifyBreaks s

/-! ## 2. Searching -/

theorem dropWhile_eq_self {p : Char → Bool} {s : Text} (h : ∀ c ∈ s.head?, p c = false) :
    s.dropWhile p = s := by
  cases s with
  | nil => rfl
  | cons c s => exact List.dropWhile_cons_of_neg (by simp [h c rfl])

theorem takeWhile_eq_nil {p : Char → Bool} {s : Text} (h : ∀ c ∈ s.head?, p c = false) :
    s.takeWhile p = [] := by
  cases s with
  | nil => rfl
  | cons c s => exact List.takeWhile_cons_of_neg (by simp [h c rfl])

/-- A run of characters of a class reaches up to a text that begins with none of them. -/
theorem takeWhile_append_of_stop {p : Char → Bool} {a b : Text} (ha : ∀ c ∈ a, p c)
    (hb : ∀ c ∈ b.head?, p c = false) : (a ++ b).takeWhile p = a := by
  rw [List.takeWhile_append_of_pos ha, takeWhile_eq_nil hb, List.append_nil]

theorem dropWhile_append_of_stop {p : Char → Bool} {a b : Text} (ha : ∀ c ∈ a, p c)
    (hb : ∀ c ∈ b.head?, p c = false) : (a ++ b).dropWhile p = b := by
  rw [List.dropWhile_append_of_pos ha, dropWhile_eq_self hb]

def startsWith (s p : Text) : Bool := p.isPrefixOf s

/-- The rest of a text after a beginning it has. -/
def dropStart? : (p s : Text) → Option Text
  | [], s => some s
  | _ :: _, [] => none
  | c :: p, d :: s => if c = d then dropStart? p s else none

theorem dropStart?_eq_some {p s rest : Text} : dropStart? p s = some rest ↔ s = p ++ rest := by
  induction p generalizing s with
  | nil => simp [dropStart?, eq_comm]
  | cons c p ih =>
    cases s with
    | nil => simp [dropStart?]
    | cons d s =>
      simp only [dropStart?, List.cons_append, List.cons.injEq]
      split
      · rename_i h; simp [ih, h]
      · rename_i h; simp [Ne.symm h]

def contains (s p : Text) : Bool :=
  p.isPrefixOf s || match s with
    | [] => false
    | _ :: rest => contains rest p

/-- Whether nothing, or one last line break, is left of a text. -/
def isAtEnd (s : Text) : Bool := s = [] || s = ['\n']

/-- The place that a position names: a negative one counts from the end, and no place lies outside. -/
def place (s : Text) (i : Int) : Nat :=
  min (if i < 0 then i + s.length else i).toNat s.length

/-- The part of a text from one position up to another; empty when they are not in order. -/
def slice (s : Text) (i j : Int) : Text := (s.take (s.place j)).drop (s.place i)

/-! ## 3. Numbers -/

def ofNat (n : Nat) : Text := (Nat.toDigits 10 n)

/-- Decimal notation of an integer, with a minus sign below zero. -/
def ofInt : Int → Text
  | .ofNat n => ofNat n
  | .negSucc n => '-' :: ofNat (n + 1)

/-- The value of a hexadecimal digit of either case. -/
def hexValue? (c : Char) : Option Nat :=
  if '0' ≤ c ∧ c ≤ '9' then some (c.toNat - '0'.toNat)
  else if 'a' ≤ c ∧ c ≤ 'f' then some (c.toNat - 'a'.toNat + 10)
  else if 'A' ≤ c ∧ c ≤ 'F' then some (c.toNat - 'A'.toNat + 10)
  else none

/-- The lower-case hexadecimal digit of a value below sixteen. -/
def hexDigit (n : Nat) : Char :=
  if n < 10 then Char.ofNat ('0'.toNat + n) else Char.ofNat ('a'.toNat + (n - 10))

def ofHex (ds : Text) : Nat := ds.foldl (fun n d => n * 16 + (hexValue? d).getD 0) 0

theorem hexValue?_hexDigit : ∀ n : Nat, n < 16 → hexValue? (hexDigit n) = some n := by decide

/-! ## 4. Order -/

def le (s t : Text) : Bool := ¬ (t < s)

def sort (ts : List Text) : List Text := ts.mergeSort le

def sortUnique (ts : List Text) : List Text := sort ts.eraseDups

end Text

end AssetEmbed
