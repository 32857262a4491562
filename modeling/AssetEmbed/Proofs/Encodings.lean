import AssetEmbed.Encoding
import AssetEmbed.Proofs.Base64
import AssetEmbed.Proofs.Text.Utf16
import AssetEmbed.Proofs.Text.Utf8

/-!
# Encodings — embedded texts that can be read back

The notations of bytes lose nothing: base64, hexadecimal digits and Latin-1 give texts from which the bytes of
a file can be read back.  The encodings of Unicode lose nothing of a text that was written in them, down to a
byte order mark at its start.  Both hold however the letters of the name of an encoding are capitalized.
-/

namespace AssetEmbed

/-! ## 1. Names -/

def IsName (word : String) (name : Text) : Prop := name.map Char.toLower = word.toList

instance (word : String) (name : Text) : Decidable (IsName word name) := inferInstanceAs (Decidable (_ = _))

theorem toNat_lt_of_toLower {c : Char} (h : c.toLower.toNat < 0x80) : c.toNat < 0x80 := by
  unfold Char.toLower at h
  split at h
  next hcapital =>
    have hle : c.toNat ≤ 'Z'.toNat := hcapital.2
    have hlast : 'Z'.toNat = 90 := rfl
    omega
  next => exact h

/-- Letters of ASCII have their own lower case wherever they stand. -/
theorem Text.lowerAfter_ascii (before : Text) {s : Text} (hs : ∀ c ∈ s, c.toNat < 0x80) :
    Text.lowerAfter before s = s.map Char.toLower := by
  induction s generalizing before with
  | nil => rfl
  | cons c s ih =>
    obtain ⟨hc, hs⟩ := List.forall_mem_cons.1 hs
    have hsigma : c ≠ 'Σ' := by
      rintro rfl
      exact absurd hc (by decide)
    rw [lowerAfter, if_neg fun h => hsigma h.1, lowerChar, if_pos hc, ih _ hs, List.singleton_append,
      List.map_cons]

theorem IsName.lower_eq {word : String} {name : Text} (h : IsName word name)
    (hword : ∀ c ∈ word.toList, c.toNat < 0x80) : Text.lower name = word.toList := by
  unfold IsName at h
  -- the characters of the name are of ASCII because those of the word are
  rw [← h] at hword ⊢
  exact Text.lowerAfter_ascii [] fun c hc => toNat_lt_of_toLower (hword _ (List.mem_map_of_mem hc))

theorem IsName.decodeContent_eq [Charsets] {word : String} {name : Text} {encoding : Encoding}
    (h : IsName word name) (hnamed : Encoding.named.lookup word = some encoding) (bs : Bytes) :
    decodeContent bs name = encoding.decode bs := by
  have hascii : ∀ entry ∈ Encoding.named, entry.1.toList.all fun c => c.toNat < 0x80 := by decide
  have hmem : (word, encoding) ∈ Encoding.named := by
    obtain ⟨before, after, hsplit, -⟩ := List.lookup_eq_some_iff.1 hnamed
    rw [hsplit]
    exact List.mem_append_right _ List.mem_cons_self
  have hlower := h.lower_eq fun c hc => of_decide_eq_true (List.all_eq_true.1 (hascii _ hmem) c hc)
  have hencoding : Encoding.ofName name = .ok encoding := by
    simp only [Encoding.ofName, hlower, String.ofList_toList, hnamed]
  simp only [decodeContent, hencoding]

/-! ## 2. Notations of bytes -/

theorem toNat_ofNat_of_lt {n : Nat} (h : n < 0x100) : (Char.ofNat n).toNat = n := by
  have hvalid : n.isValidChar := .inl (by omega)
  rw [Char.ofNat, dif_pos hvalid]
  rfl

theorem toNat_decode_iso8859Part1 (bs : Bytes) :
    (SingleByte.decode SingleByte.iso8859Part1 bs).map Char.toNat = bs.map UInt8.toNat := by
  unfold SingleByte.decode
  rw [List.map_map]
  refine List.map_congr_left fun b _ => ?_
  have hlt := b.toNat_lt
  simp only [Function.comp_apply]
  split
  next => exact toNat_ofNat_of_lt hlt
  next hle =>
    have hupper : SingleByte.iso8859Part1.getD (b.toNat - 0x80) 0xFFFD = b.toNat := by
      rw [SingleByte.iso8859Part1, Array.getD_eq_getD_getElem?, Array.getElem?_ofFn, dif_pos (by omega),
        Option.getD_some]
      show b.toNat - 0x80 + 0x80 = b.toNat
      omega
    rw [hupper]
    exact toNat_ofNat_of_lt hlt

theorem length_toHex (bs : Bytes) : (Bytes.toHex bs).length = 2 * bs.length := by
  induction bs with
  | nil => rfl
  | cons b bs ih =>
    rw [Bytes.toHex, List.length_cons, List.length_cons, List.length_cons, ih]
    omega

theorem mem_digits_of_mem_toHex {bs : Bytes} {c : Char} (h : c ∈ Bytes.toHex bs) :
    c ∈ "0123456789abcdef".toList := by
  have hdigit : ∀ n < 16, Text.hexDigit n ∈ "0123456789abcdef".toList := by decide
  induction bs with
  | nil => exact absurd h List.not_mem_nil
  | cons b bs ih =>
    have hlt := b.toNat_lt
    rcases List.mem_cons.1 h with rfl | h
    · exact hdigit _ (by omega)
    rcases List.mem_cons.1 h with rfl | h
    · exact hdigit _ (by omega)
    · exact ih h

/-! ## 3. Reading back -/

/-- Under each name, in any letter case, the bytes of a file or the text that they are of can be read back from
the embedded text. -/
theorem decodeContent_reads_back [Charsets] (name : Text) (bs : Bytes) (s : Text) :
    (IsName "base64" name → ∃ t digits, decodeContent bs name = .ok t ∧ t = Bytes.padBase64 digits ∧
      4 ∣ t.length ∧ (∀ c ∈ digits, Bytes.standard.IsDigit c) ∧ Bytes.ofBase64? Bytes.standard t = some bs) ∧
    (IsName "base64url" name → ∃ t, decodeContent bs name = .ok t ∧
      (∀ c ∈ t, c.isAlphanum ∨ c = '-' ∨ c = '_') ∧ '=' ∉ t ∧
      Bytes.ofBase64? Bytes.urlSafe (Bytes.padBase64 t) = some bs) ∧
    (IsName "hex" name → ∃ t, decodeContent bs name = .ok t ∧ t.length = 2 * bs.length ∧
      (∀ c ∈ t, c ∈ "0123456789abcdef".toList) ∧ Bytes.ofHex? t = some bs) ∧
    (IsName "latin1" name ∨ IsName "binary" name → ∃ t, decodeContent bs name = .ok t ∧
      t.map Char.toNat = bs.map UInt8.toNat) ∧
    (IsName "utf8" name → decodeContent (Utf8.encode s) name = .ok s) ∧
    (IsName "utf16le" name ∨ IsName "ucs2" name →
      decodeContent (Utf16.encodeBytes .littleEndian s) name = .ok s) := by
  refine ⟨?_, ?_, ?_, ?_, ?_, ?_⟩
  · intro h
    obtain ⟨digits, hpad, hdigits⟩ := Bytes.exists_digits Bytes.standard bs
    refine ⟨_, digits, h.decodeContent_eq rfl bs, hpad, ?_, hdigits,
      Bytes.ofBase64?_toBase64 Bytes.standard_isFaithful bs⟩
    rw [hpad]
    exact Bytes.length_padBase64 digits
  · intro h
    obtain ⟨hpad, hdigits⟩ := Bytes.toBase64Unpadded_spec Bytes.urlSafe_isFaithful bs
    refine ⟨_, h.decodeContent_eq rfl bs, fun c hc => Bytes.urlSafe_isDigit (hdigits c hc), ?_, ?_⟩
    · intro hc
      exact absurd (Bytes.urlSafe_isDigit (hdigits _ hc)) (by decide)
    · rw [hpad]
      exact Bytes.ofBase64?_toBase64 Bytes.urlSafe_isFaithful bs
  · intro h
    exact ⟨_, h.decodeContent_eq rfl bs, length_toHex bs, fun c => mem_digits_of_mem_toHex,
      Bytes.ofHex?_toHex bs⟩
  · intro h
    have hdecode : decodeContent bs name =
        (Encoding.charset (.singleByte SingleByte.iso8859Part1)).decode bs :=
      h.elim (·.decodeContent_eq rfl bs) (·.decodeContent_eq rfl bs)
    exact ⟨_, hdecode, toNat_decode_iso8859Part1 bs⟩
  · intro h
    -- the bytes of a text are well-formed, so that no character of it is replaced
    have hdecode : ∀ bs, decodeContent bs name = (Encoding.charset .utf8).decode bs :=
      fun bs => h.decodeContent_eq rfl bs
    rw [hdecode, Encoding.decode, Charset.decode, Utf8.decode_encode]
  · intro h
    have hdecode : ∀ bs, decodeContent bs name = (Encoding.charset (.utf16In .littleEndian)).decode bs :=
      fun bs => h.elim (·.decodeContent_eq rfl bs) (·.decodeContent_eq rfl bs)
    rw [hdecode, Encoding.decode, Charset.decode, Utf16.decodeBytes_encodeBytes]

theorem decodeContent_reads_back_capitals :
    (IsName "base64" "BASE64".toList ∧ ∃ t digits, decodeContent [0xFB, 0xEF] "BASE64".toList = .ok t ∧
      t = Bytes.padBase64 digits ∧ 4 ∣ t.length ∧ (∀ c ∈ digits, Bytes.standard.IsDigit c) ∧
      Bytes.ofBase64? Bytes.standard t = some [0xFB, 0xEF]) ∧
    (IsName "base64url" "base64URL".toList ∧ ∃ t, decodeContent [0xFB, 0xEF] "base64URL".toList = .ok t ∧
      (∀ c ∈ t, c.isAlphanum ∨ c = '-' ∨ c = '_') ∧ '=' ∉ t ∧
      Bytes.ofBase64? Bytes.urlSafe (Bytes.padBase64 t) = some [0xFB, 0xEF]) ∧
    (IsName "hex" "Hex".toList ∧ ∃ t, decodeContent [0xFB, 0xEF] "Hex".toList = .ok t ∧ t.length = 2 * 2 ∧
      (∀ c ∈ t, c ∈ "0123456789abcdef".toList) ∧ Bytes.ofHex? t = some [0xFB, 0xEF]) ∧
    (IsName "binary" "Binary".toList ∧ ∃ t, decodeContent [0xFB, 0xEF] "Binary".toList = .ok t ∧
      t.map Char.toNat = [0xFB, 0xEF]) ∧
    (IsName "utf8" "UTF8".toList ∧ decodeContent (Utf8.encode ['\uFEFF', '😀']) "UTF8".toList =
      .ok ['\uFEFF', '😀']) ∧
    (IsName "utf16le" "UTF16LE".toList ∧
      decodeContent (Utf16.encodeBytes .littleEndian ['\uFEFF', '😀']) "UTF16LE".toList =
        .ok ['\uFEFF', '😀']) := by
  have hread := fun name => decodeContent_reads_back name [0xFB, 0xEF] ['\uFEFF', '😀']
  exact ⟨⟨by decide, (hread _).1 (by decide)⟩, ⟨by decide, (hread _).2.1 (by decide)⟩,
    ⟨by decide, (hread _).2.2.1 (by decide)⟩, ⟨by decide, (hread _).2.2.2.1 (.inr (by decide))⟩,
    ⟨by decide, (hread _).2.2.2.2.1 (by decide)⟩, ⟨by decide, (hread _).2.2.2.2.2 (.inl (by decide))⟩⟩

end AssetEmbed
