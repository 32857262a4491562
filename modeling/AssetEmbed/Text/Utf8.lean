import AssetEmbed.Bytes

/-!
# UTF-8

Encoding, and decoding in the way that finds the maximal malformed parts: a part that cannot be
continued to a well-formed sequence ends before the first byte that spoils it.  Decoding with
replacement writes one U+FFFD per malformed part, strict decoding stops at the first one.
-/

namespace AssetEmbed.Utf8

def replacement : Char := '\uFFFD'

def encode (s : Text) : Bytes := s.flatMap String.utf8EncodeChar

/-! ## 1. Decoding -/

inductive Fault where
  | invalidStart
  | invalidContinuation
  | unexpectedEnd
  deriving DecidableEq, Repr

def Fault.message : Fault → String
  | .invalidStart => "invalid start byte"
  | .invalidContinuation => "invalid continuation byte"
  | .unexpectedEnd => "unexpected end of data"

/-- A malformed part: its length in bytes, its first byte, and what is wrong. -/
structure Malformed where
  /-- The number of bytes of the part, at least one. -/
  length : Nat
  first : UInt8
  fault : Fault
  deriving DecidableEq, Repr

inductive Piece where
  | scalar (c : Char)
  | malformed (m : Malformed)
  deriving DecidableEq, Repr

/-- What a lead byte announces: how many bytes follow, the bounds of the first of them, and the bits
that the lead contributes. -/
structure Lead where
  count : Nat
  /-- The least first continuation byte. -/
  low : Nat
  /-- The greatest first continuation byte. -/
  high : Nat
  bits : Nat

/-- The lead bytes of multi-byte sequences; the bounds exclude overlong forms, surrogates and values
beyond U+10FFFF. -/
def Lead.ofByte? (b : UInt8) : Option Lead :=
  let n := b.toNat
  if n < 0xC2 then none
  else if n < 0xE0 then some ⟨1, 0x80, 0xBF, n % 32⟩
  else if n = 0xE0 then some ⟨2, 0xA0, 0xBF, n % 16⟩
  else if n = 0xED then some ⟨2, 0x80, 0x9F, n % 16⟩
  else if n < 0xF0 then some ⟨2, 0x80, 0xBF, n % 16⟩
  else if n = 0xF0 then some ⟨3, 0x90, 0xBF, n % 8⟩
  else if n < 0xF4 then some ⟨3, 0x80, 0xBF, n % 8⟩
  else if n = 0xF4 then some ⟨3, 0x80, 0x8F, n % 8⟩
  else none

/-- Reads the continuation bytes of a sequence: how many are still to come, the bounds of the next
one, the value so far, and how many bytes have been read. -/
def trail (first : UInt8) : (count low high value read : Nat) → Bytes → Piece × Bytes
  | 0, _, _, value, _, bs => (.scalar (Char.ofNat value), bs)
  | _ + 1, _, _, _, read, [] => (.malformed ⟨read, first, .unexpectedEnd⟩, [])
  | count + 1, low, high, value, read, b :: bs =>
    if low ≤ b.toNat ∧ b.toNat ≤ high then
      trail first count 0x80 0xBF (value * 64 + b.toNat % 64) (read + 1) bs
    else (.malformed ⟨read, first, .invalidContinuation⟩, b :: bs)

theorem trail_length_le (first : UInt8) (count low high value read : Nat) (bs : Bytes) :
    (trail first count low high value read bs).2.length ≤ bs.length := by
  induction bs generalizing count low high value read with
  | nil => cases count <;> simp [trail]
  | cons b bs ih =>
    cases count with
    | zero => simp [trail]
    | succ count =>
      simp only [trail]
      split
      · exact Nat.le_succ_of_le (ih ..)
      · simp

/-- The first piece of a nonempty byte sequence, and what follows it. -/
def step (b : UInt8) (bs : Bytes) : Piece × Bytes :=
  if b.toNat < 0x80 then (.scalar (Char.ofNat b.toNat), bs)
  else match Lead.ofByte? b with
    | none => (.malformed ⟨1, b, .invalidStart⟩, bs)
    | some lead => trail b lead.count lead.low lead.high lead.bits 1 bs

theorem step_length_le (b : UInt8) (bs : Bytes) : (step b bs).2.length ≤ bs.length := by
  simp only [step]
  split
  · simp
  · split
    · simp
    · exact trail_length_le ..

/-- The pieces of a byte sequence, from a bound on their number. -/
def piecesUpTo : (bound : Nat) → Bytes → List Piece
  | 0, _ => []
  | _ + 1, [] => []
  | bound + 1, b :: bs => (step b bs).1 :: piecesUpTo bound (step b bs).2

def pieces (bs : Bytes) : List Piece := piecesUpTo bs.length bs

/-- A bound that covers the bytes is never met. -/
theorem piecesUpTo_congr {m n : Nat} {bs : Bytes} (hm : bs.length ≤ m) (hn : bs.length ≤ n) :
    piecesUpTo m bs = piecesUpTo n bs := by
  induction m generalizing n bs with
  | zero =>
    obtain rfl := List.length_eq_zero_iff.1 (Nat.le_zero.1 hm)
    cases n <;> rfl
  | succ m ih =>
    cases bs with
    | nil => cases n <;> rfl
    | cons b bs =>
      rw [List.length_cons] at hm hn
      cases n with
      | zero => omega
      | succ n =>
        have hrest := step_length_le b bs
        have hsame : piecesUpTo m (step b bs).2 = piecesUpTo n (step b bs).2 := ih (by omega) (by omega)
        rw [piecesUpTo, piecesUpTo, hsame]

/-- The pieces of a nonempty byte sequence are the first one and those of what follows it. -/
theorem pieces_cons (b : UInt8) (bs : Bytes) : pieces (b :: bs) = (step b bs).1 :: pieces (step b bs).2 := by
  rw [pieces, List.length_cons, piecesUpTo, pieces,
    piecesUpTo_congr (step_length_le b bs) (Nat.le_refl _)]

/-- The text of a byte sequence, with one U+FFFD for each malformed part. -/
def decode (bs : Bytes) : Text :=
  (pieces bs).map fun
    | .scalar c => c
    | .malformed _ => replacement

/-! ## 2. Strict decoding -/

structure DecodeError where
  offset : Nat
  part : Malformed
  deriving DecidableEq, Repr

def DecodeError.message (e : DecodeError) : String :=
  let place :=
    if e.part.length = 1 then
      let n := e.part.first.toNat
      s!"byte 0x{Text.hexDigit (n / 16)}{Text.hexDigit (n % 16)} in position {e.offset}"
    else s!"bytes in position {e.offset}-{e.offset + e.part.length - 1}"
  s!"'utf-8' codec can't decode {place}: {e.part.fault.message}"

/-- Reads pieces up to the first malformed one, of which it tells the offset. -/
def collect : (offset : Nat) → List Piece → Except DecodeError Text
  | _, [] => .ok []
  | offset, .scalar c :: ps => (c :: ·) <$> collect (offset + c.utf8Size) ps
  | offset, .malformed m :: _ => .error ⟨offset, m⟩

def decode? (bs : Bytes) : Except DecodeError Text := collect 0 (pieces bs)

end AssetEmbed.Utf8
