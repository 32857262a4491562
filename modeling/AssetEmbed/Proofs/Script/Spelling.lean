import Mathlib.Algebra.Ring.Nat
import AssetEmbed.Proofs.Text.Utf16
import AssetEmbed.Script.StringLiteral

/-!
# Spelling — the values of string literals

The body of a string literal spells UTF-16 units, each unit or pair of surrogates in one of several ways, with
line continuations anywhere between them.  However a sequence of units is spelled, the value of the body is the
text that the units are read as.
-/

namespace AssetEmbed.Script

open Utf16 (unitsOf)

/-! ## 1. The units of a body -/

def units (body : Text) : List UInt16 := unitsUpTo body.length body

theorem unescape_eq_decode_units (body : Text) : unescape body = Utf16.decode (units body) := rfl

theorem fixedHex?_length_le {count n : Nat} {s rest : Text} (h : fixedHex? count s = some (n, rest)) :
    rest.length ≤ s.length := by
  unfold fixedHex? at h
  simp only at h
  split at h
  next =>
    cases h
    rw [List.length_drop]
    omega
  next => cases h

theorem bracedHex?_length_le {s digits rest : Text} (h : bracedHex? s = some (digits, rest)) :
    rest.length ≤ s.length := by
  unfold bracedHex? at h
  simp only at h
  split at h
  next hrest =>
    cases h
    have hsuffix := (List.dropWhile_suffix isHex (l := s)).length_le
    rw [hrest, List.length_cons] at hsuffix
    omega
  next => cases h

theorem escapeUnits_length_le (s : Text) : (escapeUnits s).2.length ≤ s.length := by
  fun_cases escapeUnits s
  case case2 hdigits | case7 hdigits => exact Nat.le_succ_of_le (fixedHex?_length_le hdigits)
  case case4 hdigits _ | case5 hdigits _ =>
    exact Nat.le_succ_of_le (Nat.le_succ_of_le (bracedHex?_length_le hdigits))
  all_goals
    simp only [List.length_cons]
    omega

theorem unitsUpTo_congr (s : Text) {m n : Nat} (hm : s.length ≤ m) (hn : s.length ≤ n) :
    unitsUpTo m s = unitsUpTo n s := by
  induction m generalizing s n with
  | zero =>
    obtain rfl : s = [] := List.eq_nil_of_length_eq_zero (Nat.le_zero.1 hm)
    cases n <;> rfl
  | succ m ih =>
    cases s with
    | nil => cases n <;> rfl
    | cons c s =>
      rw [List.length_cons] at hm hn
      obtain ⟨n, rfl⟩ : ∃ k, n = k + 1 := ⟨n - 1, by omega⟩
      by_cases hc : c = '\\'
      · subst hc
        have hrest := escapeUnits_length_le s
        rw [unitsUpTo, unitsUpTo, ih (n := n) _ (by omega) (by omega)]
      · rw [unitsUpTo, unitsUpTo, ih (n := n) _ (by omega) (by omega)] <;> exact hc

theorem units_cons {c : Char} (h : c ≠ '\\') (s : Text) : units (c :: s) = unitsOf c.toNat ++ units s := by
  unfold units
  rw [List.length_cons, unitsUpTo]
  exact h

theorem units_backslash (s : Text) : units ('\\' :: s) = (escapeUnits s).1 ++ units (escapeUnits s).2 := by
  unfold units
  rw [List.length_cons, unitsUpTo, unitsUpTo_congr _ (escapeUnits_length_le s) (Nat.le_refl _)]

/-! ## 2. Numerals -/

/-- A hexadecimal numeral and its value, by the places of the digits. -/
inductive Denotes : Text → Nat → Prop where
  | nil : Denotes [] 0
  | digit {d : Char} {v n : Nat} {ds : Text} : Text.hexValue? d = some v → Denotes ds n →
      Denotes (d :: ds) (v * 16 ^ ds.length + n)

theorem hexValue?_lt {d : Char} {v : Nat} (h : Text.hexValue? d = some v) : v < 16 := by
  have hzero : '0'.toNat = 48 := rfl
  have hlower : 'a'.toNat = 97 := rfl
  have hupper : 'A'.toNat = 65 := rfl
  -- one case for the digits and one for the letters of either case
  unfold Text.hexValue? at h
  split at h
  next hd =>
    cases h
    have hle : d.toNat ≤ 57 := hd.2
    omega
  split at h
  next hd =>
    cases h
    have hle : d.toNat ≤ 102 := hd.2
    omega
  split at h
  next hd =>
    cases h
    have hle : d.toNat ≤ 70 := hd.2
    omega
  next => cases h

namespace Denotes

variable {ds : Text} {n : Nat}

theorem isHex_of_mem (h : Denotes ds n) : ∀ d ∈ ds, isHex d := by
  induction h with
  | nil => exact fun _ hd => absurd hd List.not_mem_nil
  | digit hv _ ih =>
    intro d hd
    rcases List.mem_cons.1 hd with rfl | hd
    · rw [isHex, hv]
      rfl
    · exact ih d hd

theorem lt (h : Denotes ds n) : n < 16 ^ ds.length := by
  induction h with
  | nil => exact Nat.one_pos
  | @digit d v n ds hv _ ih =>
    have hv := Nat.mul_le_mul_right (16 ^ ds.length) (hexValue?_lt hv)
    rw [List.length_cons, Nat.pow_succ]
    rw [Nat.succ_mul] at hv
    omega

theorem foldl_eq (h : Denotes ds n) (m : Nat) :
    ds.foldl (fun n d => n * 16 + (Text.hexValue? d).getD 0) m = m * 16 ^ ds.length + n := by
  induction h generalizing m with
  | nil => simp
  | @digit d v n ds hv _ ih =>
    rw [List.foldl_cons, ih, hv, Option.getD_some, List.length_cons, Nat.pow_succ, Nat.add_mul,
      Nat.mul_assoc, Nat.mul_comm 16, Nat.add_assoc]

theorem ofHex_eq (h : Denotes ds n) : Text.ofHex ds = n := by
  rw [Text.ofHex, h.foldl_eq, Nat.zero_mul, Nat.zero_add]

theorem fixedHex?_append (h : Denotes ds n) (s : Text) : fixedHex? ds.length (ds ++ s) = some (n, s) := by
  have hall : ds.all isHex := List.all_eq_true.2 h.isHex_of_mem
  simp [fixedHex?, hall, h.ofHex_eq]

theorem bracedHex?_append (h : Denotes ds n) (hne : ds ≠ []) (s : Text) :
    bracedHex? (ds ++ '}' :: s) = some (ds, s) := by
  have hbrace : ∀ c ∈ ('}' :: s).head?, isHex c = false := by
    rintro _ ⟨⟩
    decide
  have htake := Text.takeWhile_append_of_stop h.isHex_of_mem hbrace
  have hdrop := Text.dropWhile_append_of_stop h.isHex_of_mem hbrace
  obtain ⟨d, ds, rfl⟩ := List.exists_cons_of_ne_nil hne
  rw [bracedHex?, htake, hdrop]
  rfl

end Denotes

theorem escapeUnits_u {ds : Text} {n : Nat} (h : Denotes ds n) (hlength : ds.length = 4) (s : Text) :
    escapeUnits ('u' :: (ds ++ s)) = (unitsOf n, s) := by
  have hdigits := h.fixedHex?_append s
  rw [hlength] at hdigits
  rw [escapeUnits, hdigits]
  rintro rest hrest
  cases h with
  | nil => cases hlength
  | digit hv _ =>
    rw [List.cons_append, List.cons.injEq] at hrest
    obtain ⟨rfl, -⟩ := hrest
    cases hv

/-! ## 3. Spellings -/

def controlLetters : List (Char × Char) :=
  [('n', '\n'), ('r', '\r'), ('t', '\t'), ('b', '\x08'), ('f', '\x0C'), ('v', '\x0B'), ('0', '\x00')]

/-- What can follow a backslash to continue a literal on the next line. -/
def lineBreaks : List Text := [['\r', '\n'], ['\n'], ['\u2028'], ['\u2029']]

/-- The spellings of one unit, or of a pair of surrogates: the character itself, its value in hexadecimal, or
a backslash before a letter or before the character. -/
inductive Spelling : Text → List UInt16 → Prop where
  | plain {c : Char} : c ≠ '\\' → ¬ isLineTerminator c → Spelling [c] (unitsOf c.toNat)
  | byte {ds : Text} {n : Nat} : Denotes ds n → ds.length = 2 → Spelling ('\\' :: 'x' :: ds) [UInt16.ofNat n]
  | unit {ds : Text} {n : Nat} : Denotes ds n → ds.length = 4 → Spelling ('\\' :: 'u' :: ds) [UInt16.ofNat n]
  | point {ds : Text} {n : Nat} : Denotes ds n → ds ≠ [] → n ≤ 0x10FFFF →
      Spelling ('\\' :: 'u' :: '{' :: ds ++ ['}']) (unitsOf n)
  | control {letter c : Char} : (letter, c) ∈ controlLetters → Spelling ['\\', letter] (unitsOf c.toNat)
  | identity {c : Char} : ¬ c.isDigit → c ≠ 'x' → c ≠ 'u' → c ∉ controlLetters.map Prod.fst →
      ¬ isLineTerminator c → Spelling ['\\', c] (unitsOf c.toNat)

/-- The bodies that spell a sequence of units, with line continuations anywhere between the spellings. -/
inductive Spells : Text → List UInt16 → Prop where
  | nil : Spells [] []
  | spelling {t body : Text} {us vs : List UInt16} : Spelling t us → Spells body vs →
      Spells (t ++ body) (us ++ vs)
  | continuation {t body : Text} {us : List UInt16} : t ∈ lineBreaks → Spells body us →
      Spells ('\\' :: t ++ body) us

theorem unitsOf_of_lt_four_digits {n : Nat} (h : n < 16 ^ 4) : unitsOf n = [UInt16.ofNat n] := if_pos h

theorem escapeUnits_letter {c : Char} (hx : c ≠ 'x') (hu : c ≠ 'u') (hline : ¬ isLineTerminator c) (s : Text) :
    escapeUnits (c :: s) = (unitsOf (simpleEscape c).toNat, s) := by
  rw [escapeUnits, if_neg hline]
  · exact hx
  · exact fun _ hc _ => hu hc
  · exact hu
  · rintro _ rfl _
    exact hline (by decide)

theorem simpleEscape_of_mem : ∀ p ∈ controlLetters,
    p.1 ≠ 'x' ∧ p.1 ≠ 'u' ∧ ¬ isLineTerminator p.1 ∧ simpleEscape p.1 = p.2 := by decide

theorem simpleEscape_of_not_mem {c : Char} (h : c ∉ controlLetters.map Prod.fst) : simpleEscape c = c := by
  simp only [controlLetters, List.map_cons, List.map_nil, List.mem_cons, List.not_mem_nil, or_false,
    not_or] at h
  obtain ⟨hn, hr, ht, hb, hf, hv, hzero⟩ := h
  rw [simpleEscape, if_neg hn, if_neg hr, if_neg ht, if_neg hb, if_neg hf, if_neg hv, if_neg hzero]

theorem escapeUnits_lineBreak {t : Text} (h : t ∈ lineBreaks) (s : Text) : escapeUnits (t ++ s) = ([], s) := by
  simp only [lineBreaks, List.mem_cons, List.not_mem_nil, or_false] at h
  rcases h with rfl | rfl | rfl | rfl <;> rfl

theorem Spelling.units_append {t : Text} {us : List UInt16} (h : Spelling t us) (s : Text) :
    units (t ++ s) = us ++ units s := by
  -- an escape of digits ends with the last of them, and every other one with its letter
  cases h with
  | plain hc _ => exact units_cons hc s
  | byte hds hlength =>
    have hdigits := hds.fixedHex?_append s
    have hlt := hds.lt
    rw [hlength] at hdigits hlt
    rw [List.cons_append, List.cons_append, units_backslash, escapeUnits, hdigits]
    simp only
    rw [unitsOf_of_lt_four_digits (by omega)]
  | unit hds hlength =>
    have hlt := hds.lt
    rw [hlength] at hlt
    rw [List.cons_append, List.cons_append, units_backslash, escapeUnits_u hds hlength,
      unitsOf_of_lt_four_digits hlt]
  | point hds hne hle =>
    have hdigits := hds.bracedHex?_append hne s
    simp only [List.cons_append, List.append_assoc, List.nil_append]
    rw [units_backslash, escapeUnits, hdigits]
    simp only [hds.ofHex_eq, if_pos hle]
  | control hletter =>
    obtain ⟨hx, hu, hline, hescape⟩ := simpleEscape_of_mem _ hletter
    rw [List.cons_append, List.singleton_append, units_backslash, escapeUnits_letter hx hu hline, hescape]
  | identity _ hx hu hletter hline =>
    rw [List.cons_append, List.singleton_append, units_backslash, escapeUnits_letter hx hu hline,
      simpleEscape_of_not_mem hletter]

/-! ## 4. Values -/

theorem Spells.units_eq {body : Text} {us : List UInt16} (h : Spells body us) : units body = us := by
  induction h with
  | nil => rfl
  | spelling ht _ ih => rw [ht.units_append, ih]
  | continuation ht _ ih =>
    rw [List.cons_append, units_backslash, escapeUnits_lineBreak ht, List.nil_append, ih]

def fourDigits (n : Nat) : Text :=
  [n / 0x1000, n / 0x100 % 16, n / 0x10 % 16, n % 16].map Text.hexDigit

theorem denotes_fourDigits {n : Nat} (h : n < 0x10000) : Denotes (fourDigits n) n := by
  have hdigits : Denotes (fourDigits n)
      (n / 0x1000 * 16 ^ 3 + (n / 0x100 % 16 * 16 ^ 2 + (n / 0x10 % 16 * 16 ^ 1 + (n % 16 * 16 ^ 0 + 0)))) :=
    .digit (Text.hexValue?_hexDigit _ (by omega)) (.digit (Text.hexValue?_hexDigit _ (by omega))
      (.digit (Text.hexValue?_hexDigit _ (by omega)) (.digit (Text.hexValue?_hexDigit _ (by omega)) .nil)))
  have hvalue : n / 0x1000 * 16 ^ 3 + (n / 0x100 % 16 * 16 ^ 2 + (n / 0x10 % 16 * 16 ^ 1 +
      (n % 16 * 16 ^ 0 + 0))) = n := by omega
  rw [hvalue] at hdigits
  exact hdigits

theorem exists_spells (us : List UInt16) : ∃ body, Spells body us := by
  induction us with
  | nil => exact ⟨[], .nil⟩
  | cons u us ih =>
    obtain ⟨body, hbody⟩ := ih
    have hunit := Spelling.unit (denotes_fourDigits u.toNat_lt) rfl
    rw [UInt16.ofNat_toNat] at hunit
    exact ⟨_, .spelling hunit hbody⟩

/-- The value of a literal is the one text that its units are read as, however they are spelled. -/
theorem unescape_spelled (us : List UInt16) :
    ∃ s, (∀ t, Utf16.Reads us t ↔ t = s) ∧ (∃ body, Spells body us) ∧
      ∀ body, Spells body us → unescape body = s := by
  refine ⟨Utf16.decode us, fun _ => Utf16.reads_iff, exists_spells us, ?_⟩
  intro body hbody
  rw [unescape_eq_decode_units, hbody.units_eq]

/-- A pair may be spelled in two ways and on two lines; a surrogate before a whole pair is left alone. -/
example : unescape "\\uD83D\\\n\\u\x7bDE00\x7d\\xe9\\uD83D😀\\n".toList = "😀é\uFFFD😀\n".toList := by
  decide +kernel

end AssetEmbed.Script
