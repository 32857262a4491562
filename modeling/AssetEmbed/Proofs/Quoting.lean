import AssetEmbed.Embedding
import AssetEmbed.Proofs.JsonReading
import AssetEmbed.Proofs.Script.Spelling
import AssetEmbed.Script.Position

/-!
# Quoting — literals read as JSON and as script

The literal that takes the place of a call is JSON in the midst of a script.  The two languages do not have the
same escapes, but they agree on those that the notation of strings uses, so each string of a literal has the
same value in both, and no control character is left that could end a line.
-/

namespace AssetEmbed

open Script (Spelling units unescape)
open Utf16 (unitsOf)

namespace Json

/-! ## 1. The escapes of the notation -/

theorem fourDigits_of_lt {n : Nat} (h : n < 0x20) :
    Script.fourDigits n = ['0', '0', Text.hexDigit (n / 16), Text.hexDigit (n % 16)] := by
  have hfirst : n / 0x1000 = 0 := by omega
  have hsecond : n / 0x100 % 16 = 0 := by omega
  have hthird : n / 0x10 % 16 = n / 16 := by omega
  rw [Script.fourDigits, hfirst, hsecond, hthird]
  rfl

/-- How a character is written in a string: as an escape of one letter that scripts have too, by its value, or
as itself. -/
inductive Escaped (c : Char) : Text → Prop where
  | letter {d : Char} : 0x20 ≤ d.toNat → Spelling ['\\', d] (unitsOf c.toNat) → Escaped c ['\\', d]
  | digits : c.toNat < 0x20 → Escaped c ('\\' :: 'u' :: Script.fourDigits c.toNat)
  | itself : c ≠ '"' → c ≠ '\\' → 0x20 ≤ c.toNat → Escaped c [c]

theorem escaped_escapeChar (c : Char) : Escaped c (escapeChar c) := by
  rcases escapeChar_cases c with ⟨d, hd, hescape⟩ | ⟨hlt, hescape⟩ | ⟨hquote, hbackslash, hle, hescape⟩ <;>
    rw [hescape]
  -- the letters of the notation are five of the seven for control characters, and two characters themselves
  · have hletters : ∀ p ∈ escapeLetters, 0x20 ≤ p.1.toNat ∧ (p ∈ Script.controlLetters ∨
        p.1 = p.2 ∧ (p.1 = '"' ∨ p.1 = '\\')) := by decide
    obtain ⟨hle, hcontrol | ⟨hsame, hidentity⟩⟩ := hletters _ hd
    · exact .letter hle (.control hcontrol)
    · obtain rfl : d = c := hsame
      rcases hidentity with rfl | rfl <;>
        exact .letter (by decide) (.identity (by decide) (by decide) (by decide) (by decide) (by decide))
  · exact fourDigits_of_lt hlt ▸ .digits hlt
  · exact .itself hquote hbackslash hle

theorem fourDigits_plain {n : Nat} (h : n < 0x20) :
    ∀ d ∈ Script.fourDigits n, 0x20 ≤ d.toNat ∧ d ≠ '"' ∧ d ≠ '\\' := by
  have hplain : ∀ n < 0x20, (Script.fourDigits n).all fun d => 0x20 ≤ d.toNat ∧ d ≠ '"' ∧ d ≠ '\\' := by decide
  exact fun d hd => of_decide_eq_true (List.all_eq_true.1 (hplain n h) d hd)

namespace Escaped

variable {c : Char} {t : Text}

theorem units_append (h : Escaped c t) (s : Text) : units (t ++ s) = unitsOf c.toNat ++ units s := by
  cases h with
  | letter _ hspelling => exact hspelling.units_append s
  | digits hlt =>
    have hunit := Spelling.unit (Script.denotes_fourDigits (show c.toNat < 0x10000 by omega)) rfl
    rw [unitsOf, if_pos (by omega)]
    exact hunit.units_append s
  | itself _ hbackslash _ => exact Script.units_cons hbackslash s

theorem le_of_mem (h : Escaped c t) : ∀ d ∈ t, 0x20 ≤ d.toNat := by
  have hbackslash : 0x20 ≤ '\\'.toNat := by decide
  cases h with
  | letter hletter _ => exact List.forall_mem_cons.2 ⟨hbackslash, List.forall_mem_singleton.2 hletter⟩
  | digits hlt =>
    refine List.forall_mem_cons.2 ⟨hbackslash, List.forall_mem_cons.2 ⟨by decide, fun d hd => ?_⟩⟩
    exact (fourDigits_plain hlt d hd).1
  | itself _ _ hle => exact List.forall_mem_singleton.2 hle

end Escaped

theorem escape_cons (c : Char) (s : Text) : escape (c :: s) = escapeChar c ++ escape s := rfl

theorem unescape_escape (s : Text) : unescape (escape s) = s := by
  have hunits : units (escape s) = Utf16.encode s := by
    induction s with
    | nil => rfl
    | cons c s ih => rw [escape_cons, (escaped_escapeChar c).units_append, ih, Utf16.encode_cons]
  rw [Script.unescape_eq_decode_units, hunits, Utf16.decode_encode]

/-! ## 2. The strings of a notation -/

/-- The bodies of strings in a notation, from what has been read of the body that is open, if one is.  A body
reaches up to the next quote that is not escaped. -/
def bodiesFrom : (body? : Option Text) → Text → List Text
  | _, [] => []
  | none, c :: s => if c = '"' then bodiesFrom (some []) s else bodiesFrom none s
  | some body, '\\' :: c :: s => bodiesFrom (some (body ++ ['\\', c])) s
  | some body, c :: s => if c = '"' then body :: bodiesFrom none s else bodiesFrom (some (body ++ [c])) s

def bodies (s : Text) : List Text := bodiesFrom none s

theorem bodiesFrom_backslash (body : Text) (c : Char) (s : Text) :
    bodiesFrom (some body) ('\\' :: c :: s) = bodiesFrom (some (body ++ ['\\', c])) s := rfl

theorem bodiesFrom_plain {t : Text} (h : ∀ c ∈ t, c ≠ '"' ∧ c ≠ '\\') (body s : Text) :
    bodiesFrom (some body) (t ++ s) = bodiesFrom (some (body ++ t)) s := by
  induction t generalizing body with
  | nil => rw [List.append_nil, List.nil_append]
  | cons c t ih =>
    obtain ⟨⟨hquote, hbackslash⟩, ht⟩ := List.forall_mem_cons.1 h
    rw [List.cons_append, bodiesFrom, if_neg hquote, ih ht, List.append_assoc, List.singleton_append]
    exact fun _ _ hc _ => hbackslash hc

theorem Escaped.bodiesFrom_append {c : Char} {t : Text} (h : Escaped c t) (body s : Text) :
    bodiesFrom (some body) (t ++ s) = bodiesFrom (some (body ++ t)) s := by
  cases h with
  | letter _ _ => rfl
  | digits hlt =>
    rw [List.cons_append, List.cons_append, bodiesFrom_backslash,
      bodiesFrom_plain (fun d hd => (fourDigits_plain hlt d hd).2), List.append_assoc]
    rfl
  | itself hquote hbackslash _ => exact bodiesFrom_plain (List.forall_mem_singleton.2 ⟨hquote, hbackslash⟩) body s

theorem bodiesFrom_escape (body t s : Text) :
    bodiesFrom (some body) (escape t ++ '"' :: s) = (body ++ escape t) :: bodies s := by
  induction t generalizing body with
  | nil => simp [escape, bodiesFrom, bodies]
  | cons c t ih =>
    rw [escape_cons, List.append_assoc, (escaped_escapeChar c).bodiesFrom_append, ih, List.append_assoc]

theorem bodies_quote (t s : Text) : bodies (quote t ++ s) = escape t :: bodies s := by
  rw [quote_append]
  exact bodiesFrom_escape [] t s

/-- A notation that holds some strings in order, and neither control characters nor quotes besides. -/
inductive Written : Text → List Text → Prop where
  | nil : Written [] []
  | char {c : Char} {s : Text} {ts : List Text} : 0x20 ≤ c.toNat → c ≠ '"' → Written s ts → Written (c :: s) ts
  | string (t : Text) {s : Text} {ts : List Text} : Written s ts → Written (quote t ++ s) (t :: ts)

namespace Written

variable {s s' : Text} {ts ts' : List Text}

theorem append (h : Written s ts) (h' : Written s' ts') : Written (s ++ s') (ts ++ ts') := by
  induction h with
  | nil => exact h'
  | char hle hquote _ ih => exact .char hle hquote ih
  | string t _ ih =>
    rw [List.append_assoc, List.cons_append]
    exact .string t ih

theorem quote (t : Text) : Written (Json.quote t) [t] := by
  have h := Written.string t .nil
  rw [List.append_nil] at h
  exact h

theorem plain (h : s.all fun c => 0x20 ≤ c.toNat ∧ c ≠ '"') : Written s [] := by
  induction s with
  | nil => exact .nil
  | cons c s ih =>
    rw [List.all_cons, Bool.and_eq_true] at h
    obtain ⟨hle, hquote⟩ := of_decide_eq_true h.1
    exact .char hle hquote (ih h.2)

theorem bodies_eq (h : Written s ts) : bodies s = ts.map escape := by
  induction h with
  | nil => rfl
  | char _ hquote _ ih =>
    rw [bodies, bodiesFrom, if_neg hquote, ← bodies, ih]
  | string t _ ih => rw [bodies_quote, ih, List.map_cons]

theorem le_of_mem (h : Written s ts) : ∀ c ∈ s, 0x20 ≤ c.toNat := by
  induction h with
  | nil => exact fun _ hc => absurd hc List.not_mem_nil
  | char hle _ _ ih => exact List.forall_mem_cons.2 ⟨hle, ih⟩
  | string t _ ih =>
    intro c hc
    rw [quote_append, List.mem_cons, List.mem_append, List.mem_cons] at hc
    rcases hc with rfl | hc | rfl | hc
    · decide
    · obtain ⟨d, -, hd⟩ := List.mem_flatMap.1 hc
      exact (escaped_escapeChar d).le_of_mem c hd
    · decide
    · exact ih c hc

end Written

mutual

/-- The strings of a value in the order of its notation, the keys of fields among them. -/
def strings : Json → List Text
  | .null | .bool _ | .number _ => []
  | .string s => [s]
  | .array items => stringsOfItems items
  | .object fields => stringsOfFields fields

def stringsOfItems : List Json → List Text
  | [] => []
  | item :: items => strings item ++ stringsOfItems items

def stringsOfFields : List (Text × Json) → List Text
  | [] => []
  | (key, value) :: fields => key :: (strings value ++ stringsOfFields fields)

end

theorem written_ofInt (n : Int) : Written (Text.ofInt n) [] := by
  have hdigits : ∀ n, Written (Text.ofNat n) [] := by
    intro n
    refine .plain (List.all_eq_true.2 fun c hc => decide_eq_true ?_)
    have hdigit := isDigit_of_mem_ofNat c hc
    refine ⟨?_, ?_⟩
    · have hle : 48 ≤ c.toNat := by
        simp only [Char.isDigit, Bool.and_eq_true, decide_eq_true_eq] at hdigit
        exact hdigit.1
      omega
    · rintro rfl
      cases hdigit
  cases n with
  | ofNat n => exact hdigits n
  | negSucc n => exact .char (by decide) (by decide) (hdigits (n + 1))

mutual

theorem written_render (value : Json) : Written value.render value.strings := by
  match value with
  | .null | .bool true | .bool false => exact .plain (by decide)
  | .number n => exact written_ofInt n
  | .string s => exact .quote s
  | .array items =>
    have h := (written_renderItems items).append (.plain (s := [']']) (by decide))
    rw [List.append_nil] at h
    exact .char (by decide) (by decide) h
  | .object fields =>
    have h := (written_renderFields fields).append (.plain (s := ['\x7d']) (by decide))
    rw [List.append_nil] at h
    exact .char (by decide) (by decide) h

theorem written_renderItems (items : List Json) : Written (renderItems items) (stringsOfItems items) := by
  match items with
  | [] => exact .nil
  | [item] =>
    rw [stringsOfItems, stringsOfItems, List.append_nil]
    exact written_render item
  | item :: next :: items =>
    rw [renderItems_cons_cons]
    exact (written_render item).append (.char (by decide) (by decide) (written_renderItems (next :: items)))

theorem written_renderFields (fields : List (Text × Json)) :
    Written (renderFields fields) (stringsOfFields fields) := by
  match fields with
  | [] => exact .nil
  | [(key, value)] =>
    rw [stringsOfFields, stringsOfFields, List.append_nil]
    exact (Written.quote key).append (.char (by decide) (by decide) (written_render value))
  | (key, value) :: next :: fields =>
    rw [renderFields_cons_cons]
    exact ((Written.quote key).append (.char (by decide) (by decide) (written_render value))).append
      (.char (by decide) (by decide) (written_renderFields (next :: fields)))

end

end Json

/-! ## 3. Records -/

def FileRecord.ofJson? (value : Json) : Option FileRecord := do
  let content ← (value.field? "content".toList).bind Json.string?
  let filePath ← (value.field? "filePath".toList).bind Json.string?
  let fileName ← (value.field? "fileName".toList).bind Json.string?
  return ⟨content, filePath, fileName⟩

/-- The embedding that a value describes: an array for many records, an object for one. -/
def Embedding.ofJson? : Json → Option Embedding
  | .array items => (items.mapM FileRecord.ofJson?).map .many
  | value => (FileRecord.ofJson? value).map .one

def FileRecord.strings (r : FileRecord) : List Text :=
  ["content".toList, r.content, "filePath".toList, r.filePath, "fileName".toList, r.fileName]

theorem FileRecord.ofJson?_toJson (r : FileRecord) : ofJson? r.toJson = some r := rfl

theorem Embedding.ofJson?_toJson (e : Embedding) : ofJson? e.toJson = some e := by
  cases e with
  | one r => rfl
  | many rs =>
    rw [toJson, ofJson?, Json.mapM_map_of_reads FileRecord.ofJson?_toJson]
    rfl

theorem Embedding.strings_toJson (e : Embedding) : e.toJson.strings = e.records.flatMap FileRecord.strings := by
  have hrecord : ∀ r : FileRecord, r.toJson.strings = r.strings := fun _ => rfl
  cases e with
  | one r => rw [toJson, hrecord, records, List.flatMap_singleton]
  | many rs =>
    rw [toJson, records, Json.strings]
    induction rs with
    | nil => rfl
    | cons r rs ih => rw [List.map_cons, Json.stringsOfItems, ih, hrecord, List.flatMap_cons]

/-! ## 4. Literals -/

theorem Embedding.written_literal (e : Embedding) :
    Json.Written e.literal (e.records.flatMap FileRecord.strings) :=
  e.strings_toJson ▸ Json.written_render e.toJson

theorem lineOf_append_of_not_mem {inserted : Text} (h : '\n' ∉ inserted) (before after : Text) :
    Script.lineOf (before ++ inserted ++ after) (before ++ inserted).length =
      Script.lineOf (before ++ after) before.length := by
  rw [Script.lineOf, Script.lineOf, List.take_left, List.take_left, List.count_append,
    List.count_eq_zero.2 h, Nat.add_zero]

/-- A literal is the records it stands for when it is read as JSON; it keeps the text after it on its line; and
its strings are those of the records, whether they are read as JSON or as script. -/
theorem Embedding.literal_reads_alike (e : Embedding) :
    (Json.read? e.literal).bind ofJson? = some e ∧
      (∀ c ∈ e.literal, 0x20 ≤ c.toNat) ∧
      (∀ before after, Script.lineOf (before ++ e.literal ++ after) (before ++ e.literal).length =
        Script.lineOf (before ++ after) before.length) ∧
      (Json.bodies e.literal).map unescape = e.records.flatMap FileRecord.strings ∧
      ∀ body ∈ Json.bodies e.literal, Json.readString? (body ++ ['"']) = some (unescape body, []) := by
  have hprinted := e.written_literal.le_of_mem
  have hbodies := e.written_literal.bodies_eq
  refine ⟨?_, hprinted, ?_, ?_, ?_⟩
  · rw [literal, Json.read?_render, Option.bind_some, ofJson?_toJson]
  · refine lineOf_append_of_not_mem fun hbreak => ?_
    exact absurd (hprinted _ hbreak) (by decide)
  · rw [hbodies, List.map_map]
    exact List.map_id'' Json.unescape_escape _
  · intro body hbody
    rw [hbodies] at hbody
    obtain ⟨s, -, rfl⟩ := List.mem_map.1 hbody
    rw [Json.unescape_escape]
    exact Json.readString?_escape s []

/-- Quotes, backslashes and control characters are read back from both notations. -/
example : unescape (Json.escape "a\"\\\n\x07/\u2028😀".toList) = "a\"\\\n\x07/\u2028😀".toList := by
  decide +kernel

end AssetEmbed
