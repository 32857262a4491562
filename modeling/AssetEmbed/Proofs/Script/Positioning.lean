import AssetEmbed.Proofs.Text.Utf8
import AssetEmbed.Script.Position
import Mathlib.Order.Bounds.Basic

/-!
# Positioning — the characters at the bytes of a script

The position at a byte is looked for backwards: a beginning of the bytes is well-formed exactly if it ends between two
characters, and from a byte within a character its start is less than four bytes away.  So the position is the greatest
offset with no more bytes before it.
-/

namespace AssetEmbed.Script

variable {s : Text} {i j n : Nat}

/-! ## 1. Bytes -/

def byteOffset (s : Text) (offset : Nat) : Nat := (Utf8.encode (s.take offset)).length

theorem byteOffset_left (before after : Text) :
    byteOffset (before ++ after) before.length = (Utf8.encode before).length := by
  rw [byteOffset, List.take_left]

theorem byteOffset_length (s : Text) : byteOffset s s.length = (Utf8.encode s).length := by
  rw [byteOffset, List.take_length]

theorem byteOffset_succ (h : i < s.length) : byteOffset s (i + 1) = byteOffset s i + s[i].utf8Size := by
  unfold byteOffset
  rw [List.take_succ_eq_append_getElem h, Utf8.encode_append, List.length_append, Utf8.length_encode_cons]
  rfl

theorem byteOffset_mono (s : Text) : Monotone (byteOffset s) := by
  refine monotone_nat_of_le_succ fun i => ?_
  by_cases h : i < s.length
  · rw [byteOffset_succ h]
    exact Nat.le_add_right _ _
  · rw [byteOffset, byteOffset, List.take_of_length_le (by omega), List.take_of_length_le (by omega)]

theorem byteOffset_lt (hij : i < j) (hj : j ≤ s.length) : byteOffset s i < byteOffset s j := by
  have hi : i < s.length := Nat.lt_of_lt_of_le hij hj
  calc byteOffset s i < byteOffset s i + s[i].utf8Size := Nat.lt_add_of_pos_right s[i].utf8Size_pos
    _ = byteOffset s (i + 1) := (byteOffset_succ hi).symm
    _ ≤ byteOffset s j := byteOffset_mono s hij

theorem exists_byteOffset_le (h : n < byteOffset s j) : ∃ i < j, byteOffset s i ≤ n ∧ n < byteOffset s (i + 1) := by
  induction j with
  | zero => exact absurd h (Nat.not_lt_zero n)
  | succ j ih =>
    by_cases hj : n < byteOffset s j
    · obtain ⟨i, hi, hbounds⟩ := ih hj
      exact ⟨i, Nat.lt_succ_of_lt hi, hbounds⟩
    · exact ⟨j, Nat.lt_succ_self j, Nat.le_of_not_lt hj, h⟩

theorem drop_take_encode (before s after : Text) :
    ((Utf8.encode (before ++ s ++ after)).take (byteOffset (before ++ s ++ after) (before.length + s.length))).drop
      (byteOffset (before ++ s ++ after) before.length) = Utf8.encode s := by
  -- both ends of the range are at whole characters
  have hstart := byteOffset_left before (s ++ after)
  have hstop := byteOffset_left (before ++ s) after
  rw [List.length_append] at hstop
  rw [hstop, List.append_assoc, hstart, ← List.append_assoc, Utf8.encode_append (before ++ s), List.take_left,
    Utf8.encode_append, List.drop_left]

/-! ## 2. Beginnings -/

theorem take_encode (h : i < s.length) (hn : n ≤ s[i].utf8Size) :
    (Utf8.encode s).take (byteOffset s i + n) =
      Utf8.encode (s.take i) ++ (String.utf8EncodeChar s[i]).take n := by
  have hsplit : s = s.take i ++ s[i] :: s.drop (i + 1) := by
    rw [← List.drop_eq_getElem_cons h, List.take_append_drop]
  have hbytes : Utf8.encode s =
      Utf8.encode (s.take i) ++ (String.utf8EncodeChar s[i] ++ Utf8.encode (s.drop (i + 1))) := by
    conv_lhs => rw [hsplit]
    rw [Utf8.encode_append, Utf8.encode_cons]
  rw [hbytes, byteOffset, List.take_length_add_append, List.take_append_of_le_length]
  rwa [String.length_utf8EncodeChar]

theorem decodedLength?_boundary (h : i < s.length) :
    decodedLength? ((Utf8.encode s).take (byteOffset s i)) = some i := by
  have htake := take_encode h (Nat.zero_le _)
  rw [Nat.add_zero, List.take_zero, List.append_nil] at htake
  rw [decodedLength?, htake, Utf8.decode?_encode]
  exact congrArg some (List.length_take_of_le (Nat.le_of_lt h))

theorem decodedLength?_inside (h : i < s.length) (hpos : 0 < n) (hn : n < s[i].utf8Size) :
    decodedLength? ((Utf8.encode s).take (byteOffset s i + n)) = none := by
  obtain ⟨first, herror⟩ := Utf8.decode?_encode_append_take (s.take i) s[i] hpos hn
  rw [decodedLength?, take_encode h (Nat.le_of_lt hn), herror]
  rfl

/-- Going back from a byte of a character, the search passes over the beginnings that end within it. -/
theorem charactersBefore?_eq {back : Nat} (h : i < s.length) (hn : n < s[i].utf8Size) (hback : n ≤ back) :
    charactersBefore? (Utf8.encode s) back (byteOffset s i + n) = some i := by
  induction n generalizing back with
  | zero =>
    have hfound : decodedLength? ((Utf8.encode s).take (byteOffset s i + 0)) = some i := decodedLength?_boundary h
    cases back with
    | zero => exact hfound
    | succ back => rw [charactersBefore?, hfound]
  | succ n ih =>
    obtain ⟨back, rfl⟩ := Nat.exists_eq_add_one_of_ne_zero (Nat.ne_of_gt (Nat.lt_of_lt_of_le n.succ_pos hback))
    rw [charactersBefore?, decodedLength?_inside h n.succ_pos hn]
    exact ih (Nat.lt_of_succ_lt hn) (Nat.le_of_succ_le_succ hback)

/-! ## 3. Positions -/

theorem characterPosition_eq (h : i < s.length) (hstart : byteOffset s i ≤ n) (hstop : n < byteOffset s (i + 1)) :
    characterPosition s n = i := by
  have htotal : byteOffset s (i + 1) ≤ (Utf8.encode s).length := by
    rw [← byteOffset_length]
    exact byteOffset_mono s h
  obtain ⟨k, rfl⟩ := Nat.exists_eq_add_of_le hstart
  rw [byteOffset_succ h] at hstop htotal
  unfold characterPosition
  split
  next hzero =>
    -- only the first character has bytes before the second one
    by_contra hne
    have hpos := byteOffset_lt (s := s) (Nat.pos_of_ne_zero (Ne.symm hne)) (Nat.le_of_lt h)
    omega
  next =>
    have hwidth : s[i].utf8Size ≤ maxCharacterBytes := s[i].utf8Size_le_four
    rw [Int.toNat_natCast, if_neg (by omega), charactersBefore?_eq h (by omega) (by omega)]
    rfl

theorem characterPosition_of_nonpos {byte : Int} (h : byte ≤ 0) (s : Text) : characterPosition s byte = 0 :=
  if_pos h

theorem characterPosition_of_length_le (h : (Utf8.encode s).length ≤ n) : characterPosition s n = s.length := by
  unfold characterPosition
  split
  next hzero =>
    -- a script without bytes has no characters
    have hempty : ¬ 0 < s.length := fun hpos => by
      have hbytes := byteOffset_lt hpos le_rfl
      rw [byteOffset_length] at hbytes
      omega
    show 0 = s.length
    omega
  next => exact if_pos h

theorem characterPosition_toNat (s : Text) (byte : Int) : characterPosition s byte.toNat = characterPosition s byte := by
  cases byte with
  | ofNat n => rfl
  | negSucc n =>
    rw [characterPosition_of_nonpos (Int.le_of_lt (Int.negSucc_lt_zero n))]
    exact characterPosition_of_nonpos le_rfl s

theorem characterPosition_byteOffset (h : i ≤ s.length) : characterPosition s (byteOffset s i) = i := by
  rcases Nat.lt_or_eq_of_le h with hlt | rfl
  · exact characterPosition_eq hlt le_rfl (byteOffset_lt (Nat.lt_succ_self i) hlt)
  · exact characterPosition_of_length_le (byteOffset_length s).ge

theorem isGreatest_characterPosition (s : Text) (n : Nat) :
    IsGreatest {i | i ≤ s.length ∧ byteOffset s i ≤ n} (characterPosition s n) := by
  by_cases hn : n < byteOffset s s.length
  · obtain ⟨i, hi, hstart, hstop⟩ := exists_byteOffset_le hn
    rw [characterPosition_eq hi hstart hstop]
    refine ⟨⟨Nat.le_of_lt hi, hstart⟩, ?_⟩
    rintro j ⟨-, hj⟩
    -- all bytes of the character lie before every later offset
    by_contra hlater
    have hmono : byteOffset s (i + 1) ≤ byteOffset s j := byteOffset_mono s (Nat.lt_of_not_le hlater)
    omega
  · rw [byteOffset_length] at hn
    rw [characterPosition_of_length_le (Nat.le_of_not_lt hn)]
    refine ⟨⟨le_rfl, ?_⟩, fun j hj => hj.1⟩
    rw [byteOffset_length]
    exact Nat.le_of_not_lt hn

/-- The position at a byte is the greatest offset with no more bytes before it.  So it grows with the byte, gives every
offset back, and within a character is the position before it. -/
theorem characterPosition_counts_characters (script : Text) :
    (∀ byte : Int, IsGreatest {i | i ≤ script.length ∧ (byteOffset script i : Int) ≤ max byte 0}
      (characterPosition script byte)) ∧
    (∀ a b : Int, a ≤ b → characterPosition script a ≤ characterPosition script b) ∧
    (∀ i ≤ script.length, characterPosition script (byteOffset script i) = i) ∧
    ∀ i < script.length, ∀ byte : Int, byteOffset script i < byte → byte < byteOffset script (i + 1) →
      characterPosition script byte = i := by
  have hgreatest : ∀ byte : Int, IsGreatest {i | i ≤ script.length ∧ (byteOffset script i : Int) ≤ max byte 0}
      (characterPosition script byte) := by
    intro byte
    have hbyte := isGreatest_characterPosition script byte.toNat
    rw [characterPosition_toNat] at hbyte
    simpa only [← Int.toNat_eq_max, Int.ofNat_le] using hbyte
  refine ⟨hgreatest, ?_, fun i hi => characterPosition_byteOffset hi, ?_⟩
  · intro a b hab
    refine (hgreatest a).mono (hgreatest b) ?_
    rintro i ⟨hi, hbytes⟩
    exact ⟨hi, hbytes.trans (by omega)⟩
  · intro i hi byte hstart hstop
    rw [← characterPosition_toNat]
    exact characterPosition_eq hi (by omega) (by omega)

/-- A script of characters of one, two and four bytes. -/
def wideScript : Text := "aü😀".toList

/-- The third byte lies within the second character, and the fifth one within the last. -/
theorem characterPosition_counts_characters_wideScript :
    byteOffset wideScript 3 = 7 ∧ characterPosition wideScript 2 = 1 ∧ characterPosition wideScript 4 = 2 ∧
      characterPosition wideScript 7 = 3 ∧ characterPosition wideScript (-1) ≤ characterPosition wideScript 9 := by
  have hend : byteOffset wideScript 3 = 7 := by decide +kernel
  obtain ⟨-, hmono, hback, hinside⟩ := characterPosition_counts_characters wideScript
  refine ⟨hend, hinside 1 (by decide) 2 ?_ ?_, hinside 2 (by decide) 4 ?_ ?_, ?_, hmono _ _ (by decide)⟩
  · decide +kernel
  · decide +kernel
  · decide +kernel
  · decide +kernel
  · have hlast := hback 3 (by decide)
    rwa [hend] at hlast

end AssetEmbed.Script
