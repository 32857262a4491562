import AssetEmbed.Text.Utf8

/-!
# UTF-8 — the bytes of texts

The first piece of the bytes of a text is its first character, whatever bytes follow.  So the bytes of a
text are decoded to the text, a byte order mark at its start included.  Where they are cut off within a
character they are malformed.
-/

namespace AssetEmbed.Utf8

/-! ## 1. The bytes of a character -/

theorem trail_cons (first : UInt8) {count low high : Nat} (value read m : Nat) (bs : Bytes)
    (hlow : low ≤ m % 64 + 0x80) (hhigh : m % 64 + 0x80 ≤ high) :
    trail first (count + 1) low high value read (UInt8.ofNat (m % 64 + 0x80) :: bs) =
      trail first count 0x80 0xBF (value * 64 + m % 64) (read + 1) bs := by
  have hbyte : (UInt8.ofNat (m % 64 + 0x80)).toNat = m % 64 + 0x80 :=
    UInt8.toNat_ofNat_of_lt' (show _ < 256 by omega)
  have hbits : (m % 64 + 0x80) % 64 = m % 64 := by omega
  rw [trail, hbyte, if_pos ⟨hlow, hhigh⟩, hbits]

theorem step_of_lead {b : UInt8} {lead : Lead} (h : Lead.ofByte? b = some lead) (bs : Bytes) :
    step b bs = trail b lead.count lead.low lead.high lead.bits 1 bs := by
  have hlarge : ¬ b.toNat < 0x80 := by
    intro hsmall
    rw [Lead.ofByte?] at h
    simp only [show b.toNat < 0xC2 by omega, if_true] at h
    cases h
  rw [step, if_neg hlarge, h]

theorem ofByte?_two {n : Nat} (hlow : 0x80 ≤ n) (hhigh : n < 0x800) :
    Lead.ofByte? (UInt8.ofNat (n / 64 % 0x20 + 0xC0)) = some ⟨1, 0x80, 0xBF, n / 64⟩ := by
  have hbyte : (UInt8.ofNat (n / 64 % 0x20 + 0xC0)).toNat = n / 64 % 0x20 + 0xC0 :=
    UInt8.toNat_ofNat_of_lt' (show _ < 256 by omega)
  have hbits : (n / 64 % 0x20 + 0xC0) % 32 = n / 64 := by omega
  simp only [Lead.ofByte?, hbyte, hbits]
  rw [if_neg (by omega), if_pos (by omega)]

theorem ofByte?_three {n : Nat} (hlow : 0x800 ≤ n) (hhigh : n < 0x10000)
    (hscalar : n < 0xD800 ∨ 0xDFFF < n) :
    ∃ low high, Lead.ofByte? (UInt8.ofNat (n / 4096 % 0x10 + 0xE0)) = some ⟨2, low, high, n / 4096⟩ ∧
      low ≤ n / 64 % 64 + 0x80 ∧ n / 64 % 64 + 0x80 ≤ high := by
  have hbyte : (UInt8.ofNat (n / 4096 % 0x10 + 0xE0)).toNat = n / 4096 % 0x10 + 0xE0 :=
    UInt8.toNat_ofNat_of_lt' (show _ < 256 by omega)
  have hbits : (n / 4096 % 0x10 + 0xE0) % 16 = n / 4096 := by omega
  simp only [Lead.ofByte?, hbyte, hbits]
  rw [if_neg (by omega), if_neg (by omega)]
  split
  next => exact ⟨_, _, rfl, by omega, by omega⟩
  split
  next => exact ⟨_, _, rfl, by omega, by omega⟩
  rw [if_pos (by omega)]
  exact ⟨_, _, rfl, by omega, by omega⟩

theorem ofByte?_four {n : Nat} (hlow : 0x10000 ≤ n) (hhigh : n < 0x110000) :
    ∃ low high, Lead.ofByte? (UInt8.ofNat (n / 262144 % 0x08 + 0xF0)) =
        some ⟨3, low, high, n / 262144⟩ ∧
      low ≤ n / 4096 % 64 + 0x80 ∧ n / 4096 % 64 + 0x80 ≤ high := by
  have hbyte : (UInt8.ofNat (n / 262144 % 0x08 + 0xF0)).toNat = n / 262144 % 0x08 + 0xF0 :=
    UInt8.toNat_ofNat_of_lt' (show _ < 256 by omega)
  have hbits : (n / 262144 % 0x08 + 0xF0) % 8 = n / 262144 := by omega
  simp only [Lead.ofByte?, hbyte, hbits]
  rw [if_neg (by omega), if_neg (by omega), if_neg (by omega), if_neg (by omega), if_neg (by omega)]
  split
  next => exact ⟨_, _, rfl, by omega, by omega⟩
  split
  next => exact ⟨_, _, rfl, by omega, by omega⟩
  rw [if_pos (by omega)]
  exact ⟨_, _, rfl, by omega, by omega⟩

/-- The first piece of the bytes of a character is the character, whatever bytes follow. -/
theorem exists_step_encodeChar (c : Char) (bs : Bytes) :
    ∃ b tail, String.utf8EncodeChar c = b :: tail ∧ step b (tail ++ bs) = (.scalar c, bs) := by
  have hscalar : c.toNat < 0xD800 ∨ 0xDFFF < c.toNat ∧ c.toNat < 0x110000 := c.valid
  -- the bounds of the last byte of two and more
  have hleast : 0x80 ≤ c.toNat % 64 + 0x80 := by omega
  have hgreatest : c.toNat % 64 + 0x80 ≤ 0xBF := by omega
  unfold String.utf8EncodeChar
  simp only [Char.toNat_val]
  split
  next hone =>
    have hbyte : (UInt8.ofNat c.toNat).toNat = c.toNat :=
      UInt8.toNat_ofNat_of_lt' (show _ < 256 by omega)
    refine ⟨_, _, rfl, ?_⟩
    rw [step, hbyte, if_pos (by omega), Char.ofNat_toNat]
    rfl
  split
  next htwo =>
    have hvalue : c.toNat / 64 * 64 + c.toNat % 64 = c.toNat := by omega
    refine ⟨_, _, rfl, ?_⟩
    rw [step_of_lead (ofByte?_two (by omega) (by omega)), List.cons_append,
      trail_cons _ _ _ _ _ hleast hgreatest, trail, hvalue, Char.ofNat_toNat]
    rfl
  split
  next hthree =>
    obtain ⟨low, high, hlead, hlow, hhigh⟩ :=
      ofByte?_three (n := c.toNat) (by omega) (by omega) (by omega)
    have hvalue : (c.toNat / 4096 * 64 + c.toNat / 64 % 64) * 64 + c.toNat % 64 = c.toNat := by omega
    refine ⟨_, _, rfl, ?_⟩
    rw [step_of_lead hlead, List.cons_append, trail_cons _ _ _ _ _ hlow hhigh, List.cons_append,
      trail_cons _ _ _ _ _ hleast hgreatest, trail, hvalue, Char.ofNat_toNat]
    rfl
  next hfour =>
    obtain ⟨low, high, hlead, hlow, hhigh⟩ := ofByte?_four (n := c.toNat) (by omega) (by omega)
    have hvalue : ((c.toNat / 262144 * 64 + c.toNat / 4096 % 64) * 64 + c.toNat / 64 % 64) * 64 +
        c.toNat % 64 = c.toNat := by omega
    refine ⟨_, _, rfl, ?_⟩
    rw [step_of_lead hlead, List.cons_append, trail_cons _ _ _ _ _ hlow hhigh, List.cons_append,
      trail_cons _ _ _ _ _ (by omega) (by omega), List.cons_append,
      trail_cons _ _ _ _ _ hleast hgreatest, trail, hvalue, Char.ofNat_toNat]
    rfl

/-! ## 2. The bytes of a text -/

theorem encode_cons (c : Char) (s : Text) : encode (c :: s) = String.utf8EncodeChar c ++ encode s := rfl

theorem pieces_encode_append (s : Text) (bs : Bytes) : pieces (encode s ++ bs) = s.map .scalar ++ pieces bs := by
  induction s with
  | nil => rfl
  | cons c s ih =>
    obtain ⟨b, tail, hbytes, hstep⟩ := exists_step_encodeChar c (encode s ++ bs)
    rw [encode_cons, hbytes, List.append_assoc, List.cons_append, pieces_cons, hstep, List.map_cons, ih]
    rfl

theorem pieces_encode (s : Text) : pieces (encode s) = s.map .scalar := by
  rw [← List.append_nil (encode s), pieces_encode_append]
  exact List.append_nil _

theorem decode_encode (s : Text) : decode (encode s) = s := by
  unfold decode
  rw [pieces_encode, List.map_map]
  exact List.map_id s

theorem encode_append (s t : Text) : encode (s ++ t) = encode s ++ encode t := List.flatMap_append

theorem length_encode_cons (c : Char) (s : Text) : (encode (c :: s)).length = c.utf8Size + (encode s).length := by
  rw [encode_cons, List.length_append, String.length_utf8EncodeChar]

/-- Behind the characters of a text, an offset is greater by the number of their bytes. -/
theorem collect_scalars_append (offset : Nat) (s : Text) (ps : List Piece) :
    collect offset (s.map .scalar ++ ps) = (s ++ ·) <$> collect (offset + (encode s).length) ps := by
  induction s generalizing offset with
  | nil => exact (id_map _).symm
  | cons c s ih =>
    rw [List.map_cons, List.cons_append, collect, ih, length_encode_cons, Nat.add_assoc]
    exact (comp_map _ _ _).symm

theorem decode?_encode (s : Text) : decode? (encode s) = .ok s := by
  rw [decode?, pieces_encode, ← List.append_nil (s.map _), collect_scalars_append]
  exact congrArg Except.ok (List.append_nil s)

/-! ## 3. The bytes of a part of a character -/

/-- A sequence of bytes that is cut off ends a piece before its character is complete. -/
theorem trail_take {first : UInt8} {count low high value read : Nat} {bs : Bytes} {c : Char}
    (h : trail first count low high value read bs = (.scalar c, [])) {n : Nat} (hn : n < bs.length) :
    trail first count low high value read (bs.take n) = (.malformed ⟨read + n, first, .unexpectedEnd⟩, []) := by
  induction bs generalizing count low high value read n with
  | nil => exact absurd hn (Nat.not_lt_zero n)
  | cons b bs ih =>
    cases count with
    | zero => cases h
    | succ count =>
      rw [trail] at h
      split at h
      next hbounds =>
        cases n with
        | zero => rfl
        | succ n =>
          rw [List.take_succ_cons, trail, if_pos hbounds, ih h (Nat.lt_of_succ_lt_succ hn), Nat.add_assoc,
            Nat.add_comm 1 n]
      next => cases h

/-- The first bytes of a character, but not all of them, are one malformed part. -/
theorem step_take {b : UInt8} {bs : Bytes} {c : Char} (h : step b bs = (.scalar c, [])) {n : Nat}
    (hn : n < bs.length) : step b (bs.take n) = (.malformed ⟨1 + n, b, .unexpectedEnd⟩, []) := by
  unfold step at h ⊢
  split at h
  next =>
    -- a byte that stands for itself is a whole character
    obtain rfl : bs = [] := (Prod.ext_iff.1 h).2
    exact absurd hn (Nat.not_lt_zero n)
  next hlarge =>
    rw [if_neg hlarge]
    cases hlead : Lead.ofByte? b with
    | none =>
      rw [hlead] at h
      cases h
    | some lead =>
      rw [hlead] at h
      exact trail_take h hn

/-- Text behind which a character is cut off is not well-formed, for want of the other bytes. -/
theorem decode?_encode_append_take (s : Text) (c : Char) {n : Nat} (hpos : 0 < n) (hn : n < c.utf8Size) :
    ∃ first, decode? (encode s ++ (String.utf8EncodeChar c).take n) =
      .error ⟨(encode s).length, n, first, .unexpectedEnd⟩ := by
  obtain ⟨b, tail, hbytes, hstep⟩ := exists_step_encodeChar c []
  rw [List.append_nil] at hstep
  obtain ⟨n, rfl⟩ := Nat.exists_eq_add_one_of_ne_zero (Nat.ne_of_gt hpos)
  have hlength : n < tail.length := by
    rw [← String.length_utf8EncodeChar, hbytes] at hn
    exact Nat.lt_of_succ_lt_succ hn
  have hcut : pieces ((String.utf8EncodeChar c).take (n + 1)) = [.malformed ⟨n + 1, b, .unexpectedEnd⟩] := by
    rw [hbytes, List.take_succ_cons, pieces_cons, step_take hstep hlength, Nat.add_comm 1 n]
    rfl
  refine ⟨b, ?_⟩
  rw [decode?, pieces_encode_append, hcut, collect_scalars_append, Nat.zero_add]
  rfl

end AssetEmbed.Utf8
