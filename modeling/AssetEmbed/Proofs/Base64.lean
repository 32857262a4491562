import AssetEmbed.Bytes
import Mathlib.Data.List.TakeWhile

/-!
# Base64 — notations that read back

The notation of a byte sequence consists of digits, and of the padding that fills them up to groups of four.
Reading it gives the bytes back; so does reading the digits alone once they are filled up again.
-/

namespace AssetEmbed.Bytes

/-! ## 1. Digits -/

def Base64Alphabet.IsDigit (alphabet : Base64Alphabet) (c : Char) : Prop :=
  ∃ n < 64, c = alphabet.digit n

/-- An alphabet of which every digit has the value that it is the digit of, and none is the padding. -/
structure Base64Alphabet.IsFaithful (alphabet : Base64Alphabet) : Prop where
  value?_digit : ∀ n < 64, alphabet.value? (alphabet.digit n) = some n
  digit_ne : ∀ n < 64, alphabet.digit n ≠ '='

theorem standard_isFaithful : standard.IsFaithful := ⟨by decide, by decide⟩

theorem urlSafe_isFaithful : urlSafe.IsFaithful := ⟨by decide, by decide⟩

theorem urlSafe_isDigit {c : Char} (h : urlSafe.IsDigit c) : c.isAlphanum ∨ c = '-' ∨ c = '_' := by
  obtain ⟨n, hn, rfl⟩ := h
  have hall : ∀ m < 64, (urlSafe.digit m).isAlphanum ∨ urlSafe.digit m = '-' ∨ urlSafe.digit m = '_' := by
    decide
  exact hall n hn

section

variable {alphabet : Base64Alphabet}

/-! ## 2. Reading -/

theorem ofBase64?_group (h : alphabet.IsFaithful) (a b c : UInt8) (s : Text) :
    ofBase64? alphabet (alphabet.digit (a.toNat / 4) ::
        alphabet.digit (a.toNat % 4 * 16 + b.toNat / 16) ::
        alphabet.digit (b.toNat % 16 * 4 + c.toNat / 64) :: alphabet.digit (c.toNat % 64) :: s) =
      (ofBase64? alphabet s).map fun bs => a :: b :: c :: bs := by
  have ha := a.toNat_lt
  have hb := b.toNat_lt
  have hc := c.toNat_lt
  have hfirst : a.toNat / 4 * 4 + (a.toNat % 4 * 16 + b.toNat / 16) / 16 = a.toNat := by omega
  have hsecond : (a.toNat % 4 * 16 + b.toNat / 16) % 16 * 16 + (b.toNat % 16 * 4 + c.toNat / 64) / 4 =
      b.toNat := by omega
  have hthird : (b.toNat % 16 * 4 + c.toNat / 64) % 4 * 64 + c.toNat % 64 = c.toNat := by omega
  -- the last digit is no padding, so that the group is a whole one
  have hlast := h.digit_ne (c.toNat % 64) (by omega)
  rw [ofBase64?, h.value?_digit _ (by omega), h.value?_digit _ (by omega),
    h.value?_digit _ (by omega), h.value?_digit _ (by omega)]
  · cases hrest : ofBase64? alphabet s with
    | none => rfl
    | some bs =>
      simp only [Option.bind_eq_bind, Option.bind_some, Option.map_some, Option.pure_def, hfirst,
        hsecond, hthird, UInt8.ofNat_toNat]
  · intro _ heq _
    exact absurd heq hlast
  · intro heq _
    exact absurd heq hlast

/-- Base64 notation reads back. -/
theorem ofBase64?_toBase64 (h : alphabet.IsFaithful) (bs : Bytes) :
    ofBase64? alphabet (toBase64 alphabet bs) = some bs := by
  fun_induction toBase64 alphabet bs with
  | case1 => rfl
  -- one byte is left: two digits, of which the second one has four zero bits
  | case2 a =>
    have ha := a.toNat_lt
    have hleft : a.toNat % 4 * 16 % 16 = 0 := by omega
    have hvalue : a.toNat / 4 * 4 + a.toNat % 4 * 16 / 16 = a.toNat := by omega
    rw [ofBase64?, h.value?_digit _ (by omega), h.value?_digit _ (by omega)]
    simp only [Option.bind_eq_bind, Option.bind_some, hleft, if_true, hvalue, UInt8.ofNat_toNat]
  -- two bytes are left: three digits, of which the last one has two zero bits
  | case3 a b =>
    have ha := a.toNat_lt
    have hb := b.toNat_lt
    have hleft : b.toNat % 16 * 4 % 4 = 0 := by omega
    have hfirst : a.toNat / 4 * 4 + (a.toNat % 4 * 16 + b.toNat / 16) / 16 = a.toNat := by omega
    have hsecond : (a.toNat % 4 * 16 + b.toNat / 16) % 16 * 16 + b.toNat % 16 * 4 / 4 = b.toNat := by
      omega
    have hthird := h.digit_ne (b.toNat % 16 * 4) (by omega)
    rw [ofBase64?, h.value?_digit _ (by omega), h.value?_digit _ (by omega),
      h.value?_digit _ (by omega)]
    · simp only [Option.bind_eq_bind, Option.bind_some, hleft, if_true, hfirst, hsecond,
        UInt8.ofNat_toNat]
    · exact hthird
  | case4 a b c bs ih =>
    rw [ofBase64?_group h, ih]
    rfl

/-! ## 3. Padding -/

theorem padBase64_group (p q r t : Char) (s : Text) :
    padBase64 (p :: q :: r :: t :: s) = p :: q :: r :: t :: padBase64 s := by
  have hlength : (p :: q :: r :: t :: s).length % 4 = s.length % 4 := by
    simp only [List.length_cons]
    omega
  rw [padBase64, hlength]
  rfl

/-- The notation of a byte sequence is made of digits, filled up to groups of four. -/
theorem exists_digits (alphabet : Base64Alphabet) (bs : Bytes) :
    ∃ digits, toBase64 alphabet bs = padBase64 digits ∧ ∀ c ∈ digits, alphabet.IsDigit c := by
  fun_induction toBase64 alphabet bs with
  | case1 => exact ⟨[], rfl, fun c hc => absurd hc List.not_mem_nil⟩
  | case2 a =>
    have ha := a.toNat_lt
    refine ⟨[_, _], rfl, ?_⟩
    simp only [List.forall_mem_cons]
    exact ⟨⟨_, by omega, rfl⟩, ⟨_, by omega, rfl⟩, fun c hc => absurd hc List.not_mem_nil⟩
  | case3 a b =>
    have ha := a.toNat_lt
    have hb := b.toNat_lt
    refine ⟨[_, _, _], rfl, ?_⟩
    simp only [List.forall_mem_cons]
    exact ⟨⟨_, by omega, rfl⟩, ⟨_, by omega, rfl⟩, ⟨_, by omega, rfl⟩,
      fun c hc => absurd hc List.not_mem_nil⟩
  | case4 a b c bs ih =>
    -- a whole group goes in front of the digits, which does not change what fills them up
    obtain ⟨digits, hpad, hdigits⟩ := ih
    have ha := a.toNat_lt
    have hb := b.toNat_lt
    have hc := c.toNat_lt
    rw [hpad, ← padBase64_group]
    refine ⟨_, rfl, ?_⟩
    simp only [List.forall_mem_cons]
    exact ⟨⟨_, by omega, rfl⟩, ⟨_, by omega, rfl⟩, ⟨_, by omega, rfl⟩, ⟨_, by omega, rfl⟩, hdigits⟩

/-- The notation without its padding is made of digits, and filling it up gives the notation. -/
theorem toBase64Unpadded_spec (h : alphabet.IsFaithful) (bs : Bytes) :
    padBase64 (toBase64Unpadded alphabet bs) = toBase64 alphabet bs ∧
      ∀ c ∈ toBase64Unpadded alphabet bs, alphabet.IsDigit c := by
  obtain ⟨digits, hpad, hdigits⟩ := exists_digits alphabet bs
  -- nothing but the padding is dropped
  have hunpadded : toBase64Unpadded alphabet bs = digits := by
    have hlast : digits.reverse.dropWhile (· = '=') = digits.reverse := by
      refine List.dropWhile_eq_self_iff.2 fun hpos => ?_
      obtain ⟨n, hn, hdigit⟩ := hdigits _ (List.mem_reverse.1 (List.getElem_mem hpos))
      rw [hdigit]
      simpa using h.digit_ne n hn
    unfold toBase64Unpadded
    rw [hpad, padBase64, List.reverse_append, List.reverse_replicate,
      List.dropWhile_append_of_pos (by simp), hlast, List.reverse_reverse]
  rw [hunpadded]
  exact ⟨hpad.symm, hdigits⟩

theorem length_padBase64 (s : Text) : 4 ∣ (padBase64 s).length := by
  unfold padBase64
  rw [List.length_append, List.length_replicate]
  omega

end

end AssetEmbed.Bytes
