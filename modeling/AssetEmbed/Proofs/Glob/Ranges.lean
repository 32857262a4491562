import AssetEmbed.Glob.Braces
import Mathlib.Algebra.Order.Ring.Int
import Mathlib.Data.Char
import Mathlib.Data.List.TakeWhile

/-!
# Ranges — what a range in braces stands for

A range is bounded by two numbers or by two letters, and stands for whatever lies between them, in either
direction.
-/

namespace AssetEmbed.Glob

/-! ## 1. Bounds -/

/-- A bound of a range of numbers: decimal digits, of any script, with an optional minus sign. -/
structure Decimal where
  negative : Bool
  digits : Text
  digits_ne_nil : digits ≠ []
  isDigit : ∀ c ∈ digits, Text.isDigit c = true

def Decimal.text (n : Decimal) : Text := if n.negative then '-' :: n.digits else n.digits

def Decimal.value (n : Decimal) : Int :=
  if n.negative then -(Text.ofDigits n.digits : Int) else Text.ofDigits n.digits

def rangeText (first last : Text) : Text := first ++ '.' :: '.' :: last

/-- The whole numbers from one to another, both included, one by one in either direction. -/
def valuesBetween (first last : Int) : List Int :=
  (List.range ((last - first).natAbs + 1)).map fun (i : Nat) => first + (last - first).sign * i

/-- Whether the body of a pair of braces is a range. -/
def IsRange (body : Text) : Prop :=
  (∃ first last : Decimal, body = rangeText first.text last.text) ∨
    ∃ first last : Char, first.isAlpha = true ∧ last.isAlpha = true ∧ body = rangeText [first] [last]

/-! ## 2. Digits and letters -/

theorem isDigit_of_lt (n : Nat) (hn : n < 128) :
    Text.isDigit (Char.ofNat n) = (Char.ofNat n).isDigit := by
  revert n
  decide +kernel

theorem isDigit_of_ascii {c : Char} (hc : c.toNat < 128) : Text.isDigit c = c.isDigit := by
  rw [← Char.ofNat_toNat c]
  exact isDigit_of_lt c.toNat hc

theorem isAlpha_bounds {c : Char} (hc : c.isAlpha = true) : 65 ≤ c.toNat ∧ c.toNat ≤ 122 := by
  change (c.isUpper || c.isLower) = true at hc
  rcases Bool.or_eq_true_iff.1 hc with h | h
  · obtain ⟨h, h'⟩ := of_decide_eq_true h
    exact ⟨UInt32.le_iff_toNat_le.1 h, (UInt32.le_iff_toNat_le.1 h').trans (by decide)⟩
  · obtain ⟨h, h'⟩ := (Bool.and_eq_true_iff.1 h).imp of_decide_eq_true of_decide_eq_true
    exact ⟨le_trans (by decide) (UInt32.le_iff_toNat_le.1 h), UInt32.le_iff_toNat_le.1 h'⟩

theorem not_isDigit_of_isAlpha {c : Char} (hc : c.isAlpha = true) : Text.isDigit c = false := by
  obtain ⟨h, h'⟩ := isAlpha_bounds hc
  rw [isDigit_of_ascii (by omega), ← Bool.not_eq_true]
  intro hdigit
  simp only [Char.isDigit, Bool.and_eq_true, decide_eq_true_eq] at hdigit
  have : c.toNat ≤ 57 := UInt32.le_iff_toNat_le.1 hdigit.2
  omega

/-! ## 3. Ranges -/

theorem steps_eq (first last : Int) : steps first last = valuesBetween first last := by
  unfold steps valuesBetween
  split
  · rename_i h
    have hcount : (last - first + 1).toNat = (last - first).natAbs + 1 := by omega
    rw [hcount]
    refine List.map_congr_left fun i hi => ?_
    rw [List.mem_range] at hi
    -- equal bounds have no direction, but then there is only one value
    rcases h.eq_or_lt with rfl | hlt
    · obtain rfl : i = 0 := by omega
      simp
    · rw [Int.sign_eq_one_of_pos (by omega), one_mul]
  · rename_i h
    have hcount : (first - last + 1).toNat = (last - first).natAbs + 1 := by omega
    rw [hcount, Int.sign_eq_neg_one_of_neg (by omega)]
    refine List.map_congr_left fun i _ => ?_
    rw [neg_one_mul, sub_eq_add_neg]

theorem mem_valuesBetween {first last n : Int} (h : n ∈ valuesBetween first last) :
    min first last ≤ n ∧ n ≤ max first last := by
  obtain ⟨i, hi, rfl⟩ := List.mem_map.1 h
  rw [List.mem_range] at hi
  rcases lt_trichotomy first last with hlt | rfl | hlt
  · rw [Int.sign_eq_one_of_pos (by omega)]
    omega
  · simp
  · rw [Int.sign_eq_neg_one_of_neg (by omega)]
    omega

/-- A number is read up to where its digits end. -/
theorem Decimal.readInt?_text (n : Decimal) {t : Text} (ht : ∀ c, t.head? = some c → Text.isDigit c = false) :
    readInt? (n.text ++ t) = some (n.value, t) := by
  obtain ⟨negative, digits, hne, hdigits⟩ := n
  have htake := Text.takeWhile_append_of_stop hdigits ht
  have hdrop := Text.dropWhile_append_of_stop hdigits ht
  cases digits with
  | nil => exact absurd rfl hne
  | cons d ds =>
    cases negative with
    | true =>
      show readInt? ('-' :: (d :: ds ++ t)) = _
      simp only [readInt?, htake, hdrop]
      rfl
    | false =>
      -- a digit is no minus sign, so that the notation of a positive number is all digits
      have hd : d ≠ '-' := by
        rintro rfl
        exact absurd (hdigits '-' List.mem_cons_self) (by decide)
      show readInt? (d :: (ds ++ t)) = _
      rw [List.cons_append] at htake hdrop
      unfold readInt?
      split
      rename_i negative s heq
      split at heq
      · rename_i rest hrest
        exact absurd (List.cons.inj hrest).1 hd
      · cases heq
        rw [htake]
        simp only [hdrop]
        rfl

theorem exists_decimal_of_readInt? {s rest : Text} {v : Int} (h : readInt? s = some (v, rest)) :
    ∃ n : Decimal, n.value = v ∧ s = n.text ++ rest := by
  unfold readInt? at h
  split at h
  rename_i negative t ht
  split at h
  · cases h
  · rename_i hdigits
    -- the digits that are read make the number, and what is in front of them its sign
    have hall : ∀ c ∈ t.takeWhile Text.isDigit, Text.isDigit c = true := fun c hc => List.mem_takeWhile_imp hc
    refine ⟨⟨negative, t.takeWhile Text.isDigit, hdigits, hall⟩, ?_⟩
    simp only [Option.some.injEq, Prod.mk.injEq] at h
    obtain ⟨hv, hrest⟩ := h
    refine ⟨?_, ?_⟩
    · exact hv
    · rw [← hrest]
      split at ht
      · cases ht
        exact congrArg ('-' :: ·) List.takeWhile_append_dropWhile.symm
      · cases ht
        exact List.takeWhile_append_dropWhile.symm

theorem rangeValues?_numbers (first last : Decimal) :
    rangeValues? (rangeText first.text last.text) =
      some ((valuesBetween first.value last.value).map Text.ofInt) := by
  have hfirst : readInt? (rangeText first.text last.text) = some (first.value, '.' :: '.' :: last.text) :=
    first.readInt?_text fun c hc => by
      obtain rfl := Option.some.inj hc
      decide
  have hlast : readInt? last.text = some (last.value, []) := by
    have := last.readInt?_text (t := []) nofun
    rwa [List.append_nil] at this
  unfold rangeValues?
  rw [hfirst]
  simp only [hlast, steps_eq]
  rfl

theorem rangeValues?_letters {first last : Char} (hfirst : first.isAlpha = true)
    (hlast : last.isAlpha = true) :
    rangeValues? (rangeText [first] [last]) =
      some ((valuesBetween first.toNat last.toNat).map fun n => [Char.ofNat n.toNat]) := by
  have hread : readInt? (rangeText [first] [last]) = none := by
    have hminus : first ≠ '-' := by
      rintro rfl
      exact absurd hfirst (by decide)
    unfold readInt?
    split
    rename_i negative s heq
    split at heq
    · rename_i rest hrest
      exact absurd (List.cons.inj hrest).1 hminus
    · cases heq
      simp [rangeText, not_isDigit_of_isAlpha hfirst]
  unfold rangeValues?
  rw [hread]
  simp only [rangeText, List.cons_append, List.nil_append, hfirst, hlast, steps_eq]
  rfl

/-- Only ranges have values. -/
theorem isRange_of_rangeValues? {body : Text} {values : List Text} (h : rangeValues? body = some values)
    (hbreak : '\n' ∉ body) : IsRange body := by
  -- a range may only be followed by a line break, of which there is none
  have hend : ∀ {rest : Text}, rest.isAtEnd = true → '\n' ∉ rest → rest = [] := by
    intro rest hrest hmem
    unfold Text.isAtEnd at hrest
    rw [Bool.or_eq_true, decide_eq_true_eq, decide_eq_true_eq] at hrest
    rcases hrest with rfl | rfl
    · rfl
    · simp at hmem
  unfold rangeValues? at h
  split at h
  · rename_i v rest hfirst
    split at h
    · rename_i v' rest' hlast
      split at h
      · rename_i hrest
        obtain ⟨first, -, rfl⟩ := exists_decimal_of_readInt? hfirst
        obtain ⟨last, -, rfl⟩ := exists_decimal_of_readInt? hlast
        simp only [List.mem_append, List.mem_cons, not_or] at hbreak
        obtain rfl := hend hrest hbreak.2.2.2.2
        exact .inl ⟨first, last, by simp [rangeText]⟩
      · cases h
    · cases h
  · split at h
    · rename_i first last rest _
      split at h
      · rename_i hletters
        simp only [Bool.and_eq_true] at hletters
        simp only [List.mem_cons, not_or] at hbreak
        obtain rfl := hend hletters.2 hbreak.2.2.2.2
        exact .inr ⟨first, last, hletters.1.1, hletters.1.2, rfl⟩
      · cases h
    · cases h

theorem not_isRange {body : Text} (h : rangeValues? body = none) : ¬ IsRange body := by
  rintro (⟨first, last, rfl⟩ | ⟨first, last, hfirst, hlast, rfl⟩)
  · rw [rangeValues?_numbers] at h
    cases h
  · rw [rangeValues?_letters hfirst hlast] at h
    cases h

/-- The values of a range hold no braces. -/
theorem not_mem_of_mem_rangeValues? {body value : Text} {values : List Text}
    (h : rangeValues? body = some values) (hvalue : value ∈ values) : '{' ∉ value := by
  have hnat : ∀ n, '{' ∉ Text.ofNat n := fun n hn =>
    absurd (Nat.isDigit_of_mem_toDigits (by decide) (by decide) hn) (by decide)
  unfold rangeValues? at h
  split at h
  · split at h
    · split at h
      · cases h
        obtain ⟨n, -, rfl⟩ := List.mem_map.1 hvalue
        cases n with
        | ofNat n => exact hnat n
        | negSucc n =>
          intro hn
          rcases List.mem_cons.1 hn with heq | hn
          · exact absurd heq (by decide)
          · exact hnat _ hn
      · cases h
    · cases h
  · split at h
    · rename_i first last rest _
      split at h
      · rename_i hletters
        cases h
        simp only [Bool.and_eq_true] at hletters
        obtain ⟨n, hn, rfl⟩ := List.mem_map.1 hvalue
        -- a value lies between two letters, and an opening brace behind both
        rw [steps_eq] at hn
        have hbound := (mem_valuesBetween hn).2
        have hfirst := (isAlpha_bounds hletters.1.1).2
        have hlast := (isAlpha_bounds hletters.1.2).2
        have hbehind : ∀ m < 123, '{' ≠ Char.ofNat m := by decide
        exact fun hmem => hbehind n.toNat (by omega) (List.mem_singleton.1 hmem)
      · cases h
    · cases h

end AssetEmbed.Glob
