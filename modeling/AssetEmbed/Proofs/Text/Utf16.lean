import AssetEmbed.Text.Utf16

/-!
# UTF-16 — what units are decoded to

The text of a sequence of units is determined by what each unit stands for: the units of a character give
the character, and a surrogate without its partner gives U+FFFD.  So the units of a text are decoded to the
text, and so are their bytes.
-/

namespace AssetEmbed.Utf16

/-! ## 1. Units -/

theorem isHigh_iff {u : UInt16} : isHigh u ↔ 0xD800 ≤ u.toNat ∧ u.toNat < 0xDC00 := by
  simp [isHigh, UInt16.le_iff_toNat_le, UInt16.lt_iff_toNat_lt]

theorem isLow_iff {u : UInt16} : isLow u ↔ 0xDC00 ≤ u.toNat ∧ u.toNat < 0xE000 := by
  simp [isLow, UInt16.le_iff_toNat_le, UInt16.lt_iff_toNat_lt]

theorem not_isHigh_of_isLow {u : UInt16} (h : isLow u) : ¬ isHigh u := by
  rw [isLow_iff] at h
  rw [isHigh_iff]
  omega

theorem toNat_cases (c : Char) : c.toNat < 0xD800 ∨ 0xDFFF < c.toNat ∧ c.toNat < 0x110000 :=
  c.valid

theorem unitsOf_of_lt {c : Char} (h : c.toNat < 0x10000) :
    ∃ u, unitsOf c.toNat = [u] ∧ u.toNat = c.toNat ∧ ¬ isHigh u ∧ ¬ isLow u := by
  have hvalue : (UInt16.ofNat c.toNat).toNat = c.toNat := UInt16.toNat_ofNat_of_lt' h
  have hcases := toNat_cases c
  refine ⟨UInt16.ofNat c.toNat, if_pos h, hvalue, ?_, ?_⟩
  · rw [isHigh_iff, hvalue]
    omega
  · rw [isLow_iff, hvalue]
    omega

theorem unitsOf_of_le {c : Char} (h : 0x10000 ≤ c.toNat) :
    ∃ high low, unitsOf c.toNat = [high, low] ∧ isHigh high ∧ isLow low ∧ pair high low = c := by
  have hcases := toNat_cases c
  have hhigh : (UInt16.ofNat (0xD800 + (c.toNat - 0x10000) / 0x400)).toNat =
      0xD800 + (c.toNat - 0x10000) / 0x400 :=
    UInt16.toNat_ofNat_of_lt' (show _ < 0x10000 by omega)
  have hlow : (UInt16.ofNat (0xDC00 + (c.toNat - 0x10000) % 0x400)).toNat =
      0xDC00 + (c.toNat - 0x10000) % 0x400 :=
    UInt16.toNat_ofNat_of_lt' (show _ < 0x10000 by omega)
  refine ⟨_, _, if_neg (Nat.not_lt.2 h), ?_, ?_, ?_⟩
  · rw [isHigh_iff, hhigh]
    omega
  · rw [isLow_iff, hlow]
    omega
  · have hvalue : 0x10000 + (0xD800 + (c.toNat - 0x10000) / 0x400 - 0xD800) * 0x400 +
        (0xDC00 + (c.toNat - 0x10000) % 0x400 - 0xDC00) = c.toNat := by omega
    rw [pair, hhigh, hlow, hvalue, Char.ofNat_toNat]

/-! ## 2. Decoding -/

theorem decodeCut_cons {u : UInt16} (h : ¬ isHigh u) (cut : Bool) (us : List UInt16) :
    decodeCut cut (u :: us) =
      (if isLow u then Utf8.replacement else Char.ofNat u.toNat) :: decodeCut cut us := by
  cases us <;> simp [decodeCut, h]

theorem decodeCut_unitsOf (c : Char) (cut : Bool) (us : List UInt16) :
    decodeCut cut (unitsOf c.toNat ++ us) = c :: decodeCut cut us := by
  by_cases h : c.toNat < 0x10000
  · obtain ⟨u, hunits, hvalue, hhigh, hlow⟩ := unitsOf_of_lt h
    rw [hunits, List.singleton_append, decodeCut_cons hhigh, if_neg hlow, hvalue, Char.ofNat_toNat]
  · obtain ⟨high, low, hunits, hhigh, hlow, hpair⟩ := unitsOf_of_le (Nat.not_lt.1 h)
    rw [hunits, List.cons_append, List.singleton_append, decodeCut, if_pos hhigh, if_pos hlow, hpair]

theorem decode_cons_high {u : UInt16} (h : isHigh u) {us : List UInt16}
    (hus : ∀ v ∈ us.head?, ¬ isLow v) : decode (u :: us) = Utf8.replacement :: decode us := by
  unfold decode
  cases us with
  | nil => simp [decodeCut, h]
  | cons v us =>
    have hv : ¬ isLow v := hus v rfl
    rw [decodeCut, if_pos h, if_neg hv]

/-- What a sequence of units is read as: the units of a character as the character, and a surrogate that is
not part of a pair as U+FFFD. -/
inductive Reads : List UInt16 → Text → Prop where
  | nil : Reads [] []
  | character (c : Char) {us : List UInt16} {s : Text} : Reads us s →
      Reads (unitsOf c.toNat ++ us) (c :: s)
  | high {u : UInt16} {us : List UInt16} {s : Text} : isHigh u → (∀ v ∈ us.head?, ¬ isLow v) →
      Reads us s → Reads (u :: us) (Utf8.replacement :: s)
  | low {u : UInt16} {us : List UInt16} {s : Text} : isLow u → Reads us s →
      Reads (u :: us) (Utf8.replacement :: s)

theorem Reads.decode_eq {us : List UInt16} {s : Text} (h : Reads us s) : decode us = s := by
  induction h with
  | nil => rfl
  | character c _ ih => rw [decode, decodeCut_unitsOf, ← decode, ih]
  | high hu hus _ ih => rw [decode_cons_high hu hus, ih]
  | low hu _ ih => rw [decode, decodeCut_cons (not_isHigh_of_isLow hu), if_pos hu, ← decode, ih]

theorem exists_toNat_eq {n : Nat} (h : n.isValidChar) : ∃ c : Char, c.toNat = n :=
  ⟨Char.ofNatAux n h, rfl⟩

theorem exists_unitsOf_of_pair {high low : UInt16} (hhigh : isHigh high) (hlow : isLow low) :
    ∃ c : Char, unitsOf c.toNat = [high, low] := by
  rw [isHigh_iff] at hhigh
  rw [isLow_iff] at hlow
  obtain ⟨c, hc⟩ := exists_toNat_eq
    (n := 0x10000 + (high.toNat - 0xD800) * 0x400 + (low.toNat - 0xDC00)) (.inr (by omega))
  have hdiv : 0xD800 + (c.toNat - 0x10000) / 0x400 = high.toNat := by omega
  have hmod : 0xDC00 + (c.toNat - 0x10000) % 0x400 = low.toNat := by omega
  refine ⟨c, ?_⟩
  rw [unitsOf, if_neg (by omega), hdiv, hmod, UInt16.ofNat_toNat, UInt16.ofNat_toNat]

theorem exists_unitsOf_of_not_surrogate {u : UInt16} (hhigh : ¬ isHigh u) (hlow : ¬ isLow u) :
    ∃ c : Char, unitsOf c.toNat = [u] := by
  rw [isHigh_iff] at hhigh
  rw [isLow_iff] at hlow
  have hlt : u.toNat < 0x10000 := u.toNat_lt
  have hvalid : u.toNat.isValidChar := by
    unfold Nat.isValidChar
    omega
  obtain ⟨c, hc⟩ := exists_toNat_eq hvalid
  refine ⟨c, ?_⟩
  rw [unitsOf, hc, if_pos hlt, UInt16.ofNat_toNat]

theorem exists_reads (us : List UInt16) : ∃ s, Reads us s := by
  -- a pair takes two units, so the induction is on the length
  induction hn : us.length using Nat.strongRecOn generalizing us with
  | ind n ih =>
    cases us with
    | nil => exact ⟨[], .nil⟩
    | cons u us =>
      rw [List.length_cons] at hn
      obtain ⟨s, hs⟩ := ih us.length (by omega) us rfl
      by_cases hlow : isLow u
      · exact ⟨_, .low hlow hs⟩
      by_cases hhigh : isHigh u
      · by_cases hpair : ∀ v ∈ us.head?, ¬ isLow v
        · exact ⟨_, .high hhigh hpair hs⟩
        · cases us with
          | nil => exact absurd (fun _ hv => nomatch hv) hpair
          | cons v us =>
            have hv : isLow v := by
              refine Decidable.byContradiction fun hv => hpair ?_
              intro w hw
              cases hw
              exact hv
            rw [List.length_cons] at hn
            obtain ⟨s, hs⟩ := ih us.length (by omega) us rfl
            obtain ⟨c, hc⟩ := exists_unitsOf_of_pair hhigh hv
            have hread := Reads.character c hs
            rw [hc] at hread
            exact ⟨_, hread⟩
      · obtain ⟨c, hc⟩ := exists_unitsOf_of_not_surrogate hhigh hlow
        have hread := Reads.character c hs
        rw [hc] at hread
        exact ⟨_, hread⟩

/-- What units are decoded to is the one thing that they are read as. -/
theorem reads_iff {us : List UInt16} {s : Text} : Reads us s ↔ s = decode us := by
  constructor
  · intro h
    exact h.decode_eq.symm
  · rintro rfl
    obtain ⟨s, hs⟩ := exists_reads us
    rw [hs.decode_eq]
    exact hs

/-! ## 3. Texts -/

theorem encode_cons (c : Char) (s : Text) : encode (c :: s) = unitsOf c.toNat ++ encode s := rfl

theorem reads_encode (s : Text) : Reads (encode s) s := by
  induction s with
  | nil => exact .nil
  | cons c s ih => exact .character c ih

theorem decode_encode (s : Text) : decode (encode s) = s := (reads_encode s).decode_eq

/-! ## 4. Bytes -/

def ByteOrder.bytes (order : ByteOrder) (u : UInt16) : Bytes :=
  match order with
  | .littleEndian => [UInt8.ofNat (u.toNat % 256), UInt8.ofNat (u.toNat / 256)]
  | .bigEndian => [UInt8.ofNat (u.toNat / 256), UInt8.ofNat (u.toNat % 256)]

def encodeBytes (order : ByteOrder) (s : Text) : Bytes := (encode s).flatMap order.bytes

theorem unitsOfBytes_bytes (order : ByteOrder) (u : UInt16) (bs : Bytes) :
    unitsOfBytes order (order.bytes u ++ bs) =
      (u :: (unitsOfBytes order bs).1, (unitsOfBytes order bs).2) := by
  have hlt := u.toNat_lt
  have hlow : (UInt8.ofNat (u.toNat % 256)).toNat = u.toNat % 256 :=
    UInt8.toNat_ofNat_of_lt' (by show _ < 256; omega)
  have hhigh : (UInt8.ofNat (u.toNat / 256)).toNat = u.toNat / 256 :=
    UInt8.toNat_ofNat_of_lt' (by show _ < 256; omega)
  have hvalue : u.toNat / 256 * 256 + u.toNat % 256 = u.toNat := by omega
  cases order <;>
    simp only [ByteOrder.bytes, List.cons_append, List.nil_append, unitsOfBytes, ByteOrder.unit, hlow,
      hhigh, hvalue, UInt16.ofNat_toNat]

theorem unitsOfBytes_flatMap (order : ByteOrder) (us : List UInt16) :
    unitsOfBytes order (us.flatMap order.bytes) = (us, false) := by
  induction us with
  | nil => rfl
  | cons u us ih => rw [List.flatMap_cons, unitsOfBytes_bytes, ih]

theorem decodeBytes_encodeBytes (order : ByteOrder) (s : Text) :
    decodeBytes order (encodeBytes order s) = s := by
  simp only [decodeBytes, encodeBytes, unitsOfBytes_flatMap]
  exact decode_encode s

end AssetEmbed.Utf16
