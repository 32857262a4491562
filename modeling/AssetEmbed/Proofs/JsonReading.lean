import AssetEmbed.Json
import AssetEmbed.Text.Utf16

/-!
# Reading JSON

A reader for the notation of JSON values, with space between tokens and every escape that strings may hold.
Numbers with a fraction or an exponent are not among the values.  Reading the compact notation of a value
gives the value back.
-/

namespace AssetEmbed.Json

/-! ## 1. Strings -/

def isSpace (c : Char) : Bool := c = ' ' || c = '\t' || c = '\n' || c = '\r'

def skipSpace (s : Text) : Text := s.dropWhile isSpace

/-- The UTF-16 unit of four hexadecimal digits, and what follows them. -/
def readUnit? : Text → Option (UInt16 × Text)
  | a :: b :: c :: d :: s =>
    match Text.hexValue? a, Text.hexValue? b, Text.hexValue? c, Text.hexValue? d with
    | some a, some b, some c, some d => some (UInt16.ofNat (((a * 16 + b) * 16 + c) * 16 + d), s)
    | _, _, _, _ => none
  | _ => none

/-- The character that a letter stands for behind a backslash. -/
def shortEscape? (c : Char) : Option Char :=
  if c = '"' || c = '\\' || c = '/' then some c
  else if c = 'b' then some '\x08'
  else if c = 'f' then some '\x0C'
  else if c = 'n' then some '\n'
  else if c = 'r' then some '\r'
  else if c = 't' then some '\t'
  else none

/-- The second unit of a surrogate pair, which is escaped like the first one. -/
def readLow? : Text → Option (UInt16 × Text)
  | '\\' :: 'u' :: s =>
    match readUnit? s with
    | some (low, s) => if Utf16.isLow low then some (low, s) else none
    | none => none
  | _ => none

def readEscape? : Text → Option (Char × Text)
  | [] => none
  | c :: s =>
    if c = 'u' then
      match readUnit? s with
      | some (u, s) =>
        if Utf16.isHigh u then (readLow? s).map fun (low, s) => (Utf16.pair u low, s)
        else if Utf16.isLow u then none
        else some (Char.ofNat u.toNat, s)
      | none => none
    else (shortEscape? c).map (·, s)

def readChar? : Text → Option (Char × Text)
  | [] => none
  | c :: s =>
    if c = '\\' then readEscape? s
    else if c.toNat < 0x20 || c = '"' then none
    else some (c, s)

def readBody? : (bound : Nat) → Text → Option (Text × Text)
  | 0, _ => none
  | bound + 1, s =>
    if s.head? = some '"' then some ([], s.tail)
    else
      match readChar? s with
      | some (c, s) => (readBody? bound s).map fun (cs, s) => (c :: cs, s)
      | none => none

def readString? (s : Text) : Option (Text × Text) := readBody? (s.length + 1) s

/-! ## 2. Numbers -/

def ofDigits (ds : Text) : Nat := ds.foldl (fun n d => 10 * n + (d.toNat - '0'.toNat)) 0

def readNat? (s : Text) : Option (Nat × Text) :=
  let digits := s.takeWhile Char.isDigit
  let rest := s.dropWhile Char.isDigit
  if digits = [] || (digits.head? = some '0' && digits ≠ ['0']) ||
      rest.head?.any (fun c => c = '.' || c = 'e' || c = 'E') then none
  else some (ofDigits digits, rest)

def readNumber? : Text → Option (Json × Text)
  | '-' :: s => (readNat? s).map fun (n, s) => (.number (-(n : Int)), s)
  | s => (readNat? s).map fun (n, s) => (.number n, s)

/-! ## 3. Values -/

def readWord? (s : Text) : Option (Json × Text) :=
  match Text.dropStart? "null".toList s with
  | some s => some (.null, s)
  | none =>
    match Text.dropStart? "true".toList s with
    | some s => some (.bool true, s)
    | none => (Text.dropStart? "false".toList s).map (.bool false, ·)

mutual

/-- A value and what follows it, from a bound on how far it goes. -/
def readValue? : (bound : Nat) → Text → Option (Json × Text)
  | 0, _ => none
  | bound + 1, s =>
    match skipSpace s with
    | [] => none
    | c :: s =>
      if c = '"' then (readString? s).map fun (body, s) => (.string body, s)
      else if c = '[' then
        if (skipSpace s).head? = some ']' then some (.array [], (skipSpace s).tail)
        else (readItems? bound s).map fun (items, s) => (.array items, s)
      else if c = '{' then
        if (skipSpace s).head? = some '}' then some (.object [], (skipSpace s).tail)
        else (readFields? bound s).map fun (fields, s) => (.object fields, s)
      else (readWord? (c :: s)).orElse fun _ => readNumber? (c :: s)

def readItems? : (bound : Nat) → Text → Option (List Json × Text)
  | 0, _ => none
  | bound + 1, s =>
    match readValue? bound s with
    | none => none
    | some (item, s) =>
      match skipSpace s with
      | ',' :: s => (readItems? bound s).map fun (items, s) => (item :: items, s)
      | ']' :: s => some ([item], s)
      | _ => none

def readFields? : (bound : Nat) → Text → Option (List (Text × Json) × Text)
  | 0, _ => none
  | bound + 1, s =>
    match skipSpace s with
    | '"' :: s =>
      match readString? s with
      | none => none
      | some (key, s) =>
        match skipSpace s with
        | ':' :: s =>
          match readValue? bound s with
          | none => none
          | some (value, s) =>
            match skipSpace s with
            | ',' :: s => (readFields? bound s).map fun (fields, s) => ((key, value) :: fields, s)
            | '}' :: s => some ([(key, value)], s)
            | _ => none
        | _ => none
    | _ => none

end

def read? (s : Text) : Option Json :=
  match readValue? (s.length + 1) s with
  | some (value, rest) => if skipSpace rest = [] then some value else none
  | none => none

/-! ## 4. Reading strings that were written -/

theorem readUnit?_hexDigits {n : Nat} (h : n < 0x20) (s : Text) :
    readUnit? ('0' :: '0' :: Text.hexDigit (n / 16) :: Text.hexDigit (n % 16) :: s) =
      some (UInt16.ofNat n, s) := by
  have hhigh := Text.hexValue?_hexDigit (n / 16) (by omega)
  have hlow := Text.hexValue?_hexDigit (n % 16) (by omega)
  have hzero : Text.hexValue? '0' = some 0 := rfl
  have hn : ((0 * 16 + 0) * 16 + n / 16) * 16 + n % 16 = n := by omega
  simp only [readUnit?, hzero, hhigh, hlow, hn]

theorem not_surrogate_of_lt {n : Nat} (h : n < 0x20) :
    Utf16.isHigh (UInt16.ofNat n) = false ∧ Utf16.isLow (UInt16.ofNat n) = false ∧
      (UInt16.ofNat n).toNat = n := by
  have hall : ∀ m < 0x20, Utf16.isHigh (UInt16.ofNat m) = false ∧
      Utf16.isLow (UInt16.ofNat m) = false ∧ (UInt16.ofNat m).toNat = m := by decide
  exact hall n h

theorem readChar?_unitEscape {c : Char} (h : c.toNat < 0x20) (s : Text) :
    readChar? (['\\', 'u', '0', '0', Text.hexDigit (c.toNat / 16), Text.hexDigit (c.toNat % 16)] ++
      s) = some (c, s) := by
  obtain ⟨hhigh, hlow, hvalue⟩ := not_surrogate_of_lt h
  show readEscape? ('u' :: '0' :: '0' :: _ :: _ :: s) = _
  simp only [readEscape?, if_true, readUnit?_hexDigits h, hhigh, hlow, hvalue, Bool.false_eq_true,
    if_false, Char.ofNat_toNat]

/-- The letters of the escapes, each with the character that it stands for. -/
def escapeLetters : List (Char × Char) := [
  ('"', '"'), ('\\', '\\'), ('n', '\n'), ('r', '\r'), ('t', '\t'), ('b', '\x08'), ('f', '\x0C')]

/-- A character is written by a letter, by its number, or as itself. -/
theorem escapeChar_cases (c : Char) :
    (∃ d, (d, c) ∈ escapeLetters ∧ escapeChar c = ['\\', d]) ∨
      (c.toNat < 0x20 ∧ escapeChar c =
        ['\\', 'u', '0', '0', Text.hexDigit (c.toNat / 16), Text.hexDigit (c.toNat % 16)]) ∨
      (c ≠ '"' ∧ c ≠ '\\' ∧ 0x20 ≤ c.toNat ∧ escapeChar c = [c]) := by
  have hletters : ∀ p ∈ escapeLetters, escapeChar p.2 = ['\\', p.1] := by decide
  by_cases hletter : ∃ d, (d, c) ∈ escapeLetters
  · exact .inl (hletter.imp fun d hd => ⟨hd, hletters _ hd⟩)
  · have hne : ∀ p ∈ escapeLetters, c ≠ p.2 := by
      rintro ⟨d, _⟩ hp rfl
      exact hletter ⟨d, hp⟩
    simp only [escapeLetters, List.forall_mem_cons] at hne
    obtain ⟨hquote, hslash, hn, hr, ht, hb, hf, -⟩ := hne
    by_cases hcontrol : c.toNat < 0x20
    · refine .inr (.inl ⟨hcontrol, ?_⟩)
      rw [escapeChar, if_neg hquote, if_neg hslash, if_pos hcontrol, if_neg hn, if_neg hr, if_neg ht, if_neg hb,
        if_neg hf]
    · refine .inr (.inr ⟨hquote, hslash, Nat.not_lt.1 hcontrol, ?_⟩)
      rw [escapeChar, if_neg hquote, if_neg hslash, if_neg hcontrol]

theorem readChar?_escapeChar (c : Char) (s : Text) :
    readChar? (escapeChar c ++ s) = some (c, s) := by
  rcases escapeChar_cases c with ⟨d, hd, hescape⟩ | ⟨hcontrol, hescape⟩ | ⟨hquote, hslash, hle, hescape⟩ <;>
    rw [hescape]
  · simp only [escapeLetters, List.mem_cons, List.not_mem_nil, or_false, Prod.mk.injEq] at hd
    rcases hd with ⟨rfl, rfl⟩ | ⟨rfl, rfl⟩ | ⟨rfl, rfl⟩ | ⟨rfl, rfl⟩ | ⟨rfl, rfl⟩ | ⟨rfl, rfl⟩ | ⟨rfl, rfl⟩ <;>
      rfl
  · exact readChar?_unitEscape hcontrol s
  · simp [readChar?, hquote, hslash, Nat.not_lt.2 hle]

theorem escapeChar_head (c : Char) (s : Text) : (escapeChar c ++ s).head? ≠ some '"' := by
  intro hhead
  have hread := readChar?_escapeChar c s
  cases htext : escapeChar c ++ s with
  | nil =>
    rw [htext] at hhead
    cases hhead
  | cons d rest =>
    rw [htext] at hhead hread
    obtain rfl : d = '"' := Option.some.inj hhead
    cases hread

theorem length_escapeChar_pos (c : Char) : 0 < (escapeChar c).length := by
  have hread := readChar?_escapeChar c []
  cases hescape : escapeChar c with
  | nil =>
    rw [hescape] at hread
    cases hread
  | cons d s => exact Nat.succ_pos _

theorem length_le_escape (s : Text) : s.length ≤ (escape s).length := by
  induction s with
  | nil => exact Nat.le_refl 0
  | cons c s ih =>
    have hpos := length_escapeChar_pos c
    unfold escape at ih ⊢
    rw [List.flatMap_cons, List.length_append, List.length_cons]
    omega

theorem readBody?_escape (body : Text) {bound : Nat} (h : body.length < bound) (s : Text) :
    readBody? bound (escape body ++ '"' :: s) = some (body, s) := by
  induction body generalizing bound with
  | nil =>
    obtain ⟨bound, rfl⟩ : ∃ n, bound = n + 1 := ⟨bound - 1, by omega⟩
    rfl
  | cons c body ih =>
    rw [List.length_cons] at h
    obtain ⟨bound, rfl⟩ : ∃ n, bound = n + 1 := ⟨bound - 1, by omega⟩
    have hbody : escape (c :: body) ++ '"' :: s = escapeChar c ++ (escape body ++ '"' :: s) := by
      unfold escape
      rw [List.flatMap_cons, List.append_assoc]
    rw [hbody, readBody?, if_neg (escapeChar_head _ _), readChar?_escapeChar]
    have hrest := ih (show body.length < bound by omega)
    simp only [hrest]
    rfl

theorem readString?_escape (body s : Text) :
    readString? (escape body ++ '"' :: s) = some (body, s) := by
  have hlength := length_le_escape body
  unfold readString?
  refine readBody?_escape body ?_ s
  rw [List.length_append]
  omega

/-! ## 5. Reading numbers that were written -/

theorem ofDigits_append (ds es : Text) :
    ofDigits (ds ++ es) = es.foldl (fun n d => 10 * n + (d.toNat - '0'.toNat)) (ofDigits ds) := by
  unfold ofDigits
  rw [List.foldl_append]

theorem digitChar_value {n : Nat} (h : n < 10) : n.digitChar.toNat - '0'.toNat = n := by
  have hall : ∀ m < 10, m.digitChar.toNat - '0'.toNat = m := by decide
  exact hall n h

theorem digitChar_ne_zero {n : Nat} (h : n < 10) (hn : n ≠ 0) : n.digitChar ≠ '0' := by
  have hall : ∀ m < 10, m ≠ 0 → m.digitChar ≠ '0' := by decide
  exact hall n h hn

theorem ofNat_eq (n : Nat) :
    Text.ofNat n = if n < 10 then [n.digitChar] else Text.ofNat (n / 10) ++ [(n % 10).digitChar] :=
  Nat.toDigits_eq_if (by decide)

theorem ofDigits_ofNat (n : Nat) : ofDigits (Text.ofNat n) = n := by
  induction n using Nat.strongRecOn with
  | ind n ih =>
    rw [ofNat_eq]
    by_cases h : n < 10
    · rw [if_pos h]
      have := digitChar_value h
      show 10 * 0 + (n.digitChar.toNat - '0'.toNat) = n
      omega
    · rw [if_neg h, ofDigits_append, ih (n / 10) (by omega)]
      have := digitChar_value (n := n % 10) (by omega)
      show 10 * (n / 10) + ((n % 10).digitChar.toNat - '0'.toNat) = n
      omega

theorem ofNat_head {n : Nat} (hn : n ≠ 0) : ∃ d ds, Text.ofNat n = d :: ds ∧ d ≠ '0' := by
  induction n using Nat.strongRecOn with
  | ind n ih =>
    rw [ofNat_eq]
    by_cases h : n < 10
    · rw [if_pos h]
      exact ⟨_, [], rfl, digitChar_ne_zero h hn⟩
    · obtain ⟨d, ds, hds, hd⟩ := ih (n / 10) (by omega) (by omega)
      rw [if_neg h, hds]
      exact ⟨d, ds ++ [(n % 10).digitChar], rfl, hd⟩

theorem isDigit_of_mem_ofNat {n : Nat} : ∀ c ∈ Text.ofNat n, c.isDigit = true :=
  fun _ hc => Nat.isDigit_of_mem_toDigits (by decide) (by decide) hc

def EndsNumber (s : Text) : Prop :=
  ∀ c, s.head? = some c → ¬ c.isDigit ∧ c ≠ '.' ∧ c ≠ 'e' ∧ c ≠ 'E'

theorem readNat?_ofNat (n : Nat) {s : Text} (hs : EndsNumber s) :
    readNat? (Text.ofNat n ++ s) = some (n, s) := by
  have hstop : ∀ c ∈ s.head?, c.isDigit = false := fun c hc => Bool.not_eq_true _ ▸ (hs c hc).1
  have htake := Text.takeWhile_append_of_stop (@isDigit_of_mem_ofNat n) hstop
  have hdrop := Text.dropWhile_append_of_stop (@isDigit_of_mem_ofNat n) hstop
  have hrest : s.head?.any (fun c => c = '.' || c = 'e' || c = 'E') = false := by
    cases s with
    | nil => rfl
    | cons c s => simp [(hs c rfl).2]
  -- zero is written as one zero, and no other number begins with one
  have hdigits : (Text.ofNat n = [] ∨ (Text.ofNat n).head? = some '0' ∧ Text.ofNat n ≠ ['0']) → False := by
    by_cases hn : n = 0
    · subst hn
      decide
    · obtain ⟨d, ds, hds, hd⟩ := ofNat_head hn
      rw [hds]
      simp [hd]
  unfold readNat?
  simp only [htake, hdrop, hrest, ofDigits_ofNat, Bool.or_false]
  rw [if_neg]
  simpa using hdigits

/-! ## 6. Reading values that were written -/

theorem ofNat_cons (n : Nat) : ∃ d ds, Text.ofNat n = d :: ds ∧ d.isDigit = true := by
  cases hdigits : Text.ofNat n with
  | nil =>
    rw [ofNat_eq] at hdigits
    split at hdigits <;> simp at hdigits
  | cons d ds =>
    refine ⟨d, ds, rfl, isDigit_of_mem_ofNat (n := n) d ?_⟩
    rw [hdigits]
    exact List.mem_cons_self

theorem readNumber?_ofInt (n : Int) {s : Text} (hs : EndsNumber s) :
    readNumber? (Text.ofInt n ++ s) = some (.number n, s) := by
  cases n with
  | negSucc n =>
    show (readNat? (Text.ofNat (n + 1) ++ s)).map _ = _
    rw [readNat?_ofNat (n + 1) hs]
    rfl
  | ofNat n =>
    obtain ⟨d, ds, hdigits, hd⟩ := ofNat_cons n
    have hread := readNat?_ofNat n hs
    show readNumber? (Text.ofNat n ++ s) = _
    unfold readNumber?
    split
    -- a number without a sign does not begin with one
    next heq =>
      rw [hdigits, List.cons_append, List.cons.injEq] at heq
      rw [heq.1] at hd
      exact absurd hd (by decide)
    next =>
      rw [hread]
      rfl

theorem ofInt_cons (n : Int) :
    ∃ c rest, Text.ofInt n = c :: rest ∧ ∀ s, c ≠ '"' ∧ c ≠ '[' ∧ c ≠ '{' ∧ readWord? (c :: s) = none := by
  cases n with
  | negSucc n => exact ⟨'-', _, rfl, fun s => ⟨by decide, by decide, by decide, rfl⟩⟩
  | ofNat n =>
    obtain ⟨d, ds, hdigits, hd⟩ := ofNat_cons n
    refine ⟨d, ds, hdigits, fun s => ?_⟩
    have hne : ∀ c, c.isDigit = false → d ≠ c := by
      rintro c hc rfl
      rw [hc] at hd
      exact absurd hd (by decide)
    have hn := hne 'n' (by decide)
    have ht := hne 't' (by decide)
    have hf := hne 'f' (by decide)
    refine ⟨hne _ (by decide), hne _ (by decide), hne _ (by decide), ?_⟩
    simp [readWord?, Text.dropStart?, hn.symm, ht.symm, hf.symm]

/-- What the notation of a value begins with. -/
theorem render_head (value : Json) :
    ∃ c rest, value.render = c :: rest ∧ isSpace c = false ∧ c ≠ ']' ∧ c ≠ '}' := by
  cases value with
  | null => exact ⟨'n', _, rfl, by decide, by decide, by decide⟩
  | bool b => cases b <;> exact ⟨_, _, rfl, by decide, by decide, by decide⟩
  | string body => exact ⟨'"', _, rfl, by decide, by decide, by decide⟩
  | array items => exact ⟨'[', _, rfl, by decide, by decide, by decide⟩
  | object fields => exact ⟨'{', _, rfl, by decide, by decide, by decide⟩
  -- only the first digit of a number is not fixed
  | number n =>
    cases n with
    | negSucc n => exact ⟨'-', _, rfl, by decide, by decide, by decide⟩
    | ofNat n =>
      obtain ⟨d, ds, hdigits, hd⟩ := ofNat_cons n
      refine ⟨d, ds, hdigits, ?_, ?_, ?_⟩
      · rw [← Bool.not_eq_true]
        intro hspace
        simp only [isSpace, Bool.or_eq_true, decide_eq_true_eq] at hspace
        rcases hspace with ((rfl | rfl) | rfl) | rfl <;> exact absurd hd (by decide)
      · rintro rfl
        exact absurd hd (by decide)
      · rintro rfl
        exact absurd hd (by decide)

theorem skipSpace_of_not_isSpace {c : Char} (h : isSpace c = false) (s : Text) :
    skipSpace (c :: s) = c :: s := by
  unfold skipSpace
  rw [List.dropWhile_cons_of_neg]
  rw [h]
  decide

theorem skipSpace_render (value : Json) (s : Text) :
    skipSpace (value.render ++ s) = value.render ++ s := by
  obtain ⟨c, rest, hrender, hspace, -⟩ := render_head value
  rw [hrender]
  exact skipSpace_of_not_isSpace hspace _

theorem endsNumber_cons {c : Char} (h : c = ',' ∨ c = ']' ∨ c = '}') (s : Text) :
    EndsNumber (c :: s) := by
  intro d hd
  obtain rfl : c = d := Option.some.inj hd
  rcases h with rfl | rfl | rfl <;> decide

theorem endsNumber_nil : EndsNumber [] := fun _ h => by cases h

theorem renderItems_cons_cons (item next : Json) (items : List Json) :
    renderItems (item :: next :: items) = item.render ++ ',' :: renderItems (next :: items) := by
  rw [renderItems]
  exact List.cons_ne_nil _ _

theorem renderItems_head {items : List Json} (h : items ≠ []) (s : Text) :
    skipSpace (renderItems items ++ s) = renderItems items ++ s ∧
      (renderItems items ++ s).head? ≠ some ']' := by
  cases items with
  | nil => exact absurd rfl h
  | cons item items =>
    obtain ⟨c, rest, hrender, hspace, hbracket, -⟩ := render_head item
    have hcons : ∃ rest, renderItems (item :: items) ++ s = c :: rest := by
      cases items with
      | nil => exact ⟨_, by rw [renderItems, hrender, List.cons_append]⟩
      | cons next items =>
        exact ⟨_, by rw [renderItems_cons_cons, hrender, List.cons_append, List.cons_append]⟩
    obtain ⟨rest, hcons⟩ := hcons
    rw [hcons]
    exact ⟨skipSpace_of_not_isSpace hspace _, fun hhead => hbracket (Option.some.inj hhead)⟩

theorem renderFields_cons_cons (key : Text) (value : Json) (next : Text × Json)
    (fields : List (Text × Json)) :
    renderFields ((key, value) :: next :: fields) =
      quote key ++ ':' :: value.render ++ ',' :: renderFields (next :: fields) := by
  rw [renderFields]
  exact List.cons_ne_nil _ _

theorem renderFields_head {fields : List (Text × Json)} (h : fields ≠ []) (s : Text) :
    ∃ rest, renderFields fields ++ s = '"' :: rest := by
  obtain ⟨⟨key, value⟩, fields, rfl⟩ := List.exists_cons_of_ne_nil h
  cases fields with
  | nil => exact ⟨_, by rw [renderFields, quote, List.cons_append, List.cons_append, List.cons_append]⟩
  | cons next fields =>
    rw [renderFields_cons_cons, quote]
    exact ⟨_, rfl⟩

theorem quote_append (key s : Text) : quote key ++ s = '"' :: (escape key ++ '"' :: s) := by
  rw [quote, List.cons_append, List.cons_append, List.append_assoc]
  rfl

theorem readValue?_number (n : Int) {s : Text} (hs : EndsNumber s) (bound : Nat) :
    readValue? (bound + 1) ((number n).render ++ s) = some (number n, s) := by
  have hread := readNumber?_ofInt n hs
  obtain ⟨c, rest, hint, hfirst⟩ := ofInt_cons n
  obtain ⟨hquote, hbracket, hbrace, hword⟩ := hfirst (rest ++ s)
  rw [readValue?, skipSpace_render, render]
  rw [hint, List.cons_append] at hread ⊢
  simp only [hquote, hbracket, hbrace, if_false, hword, Option.orElse_none, hread]

theorem readValue?_string (body s : Text) (bound : Nat) :
    readValue? (bound + 1) ((string body).render ++ s) = some (string body, s) := by
  rw [readValue?, skipSpace_render, render, quote_append]
  simp only [if_true, readString?_escape]
  rfl

theorem readValue?_array {items : List Json} (hne : items ≠ []) {bound : Nat} {s : Text}
    (hread : readItems? bound (renderItems items ++ ']' :: s) = some (items, s)) :
    readValue? (bound + 1) ((array items).render ++ s) = some (array items, s) := by
  have htext : (array items).render ++ s = '[' :: (renderItems items ++ ']' :: s) := by
    rw [render, List.cons_append, List.cons_append, List.append_assoc]
    rfl
  obtain ⟨hskip, hhead⟩ := renderItems_head hne (']' :: s)
  have hquote : ¬ '[' = '"' := by decide
  rw [readValue?, skipSpace_render, htext]
  simp only [hquote, if_false, if_true, hskip, if_neg hhead, hread]
  rfl

theorem readValue?_object {fields : List (Text × Json)} (hne : fields ≠ []) {bound : Nat} {s : Text}
    (hread : readFields? bound (renderFields fields ++ '}' :: s) = some (fields, s)) :
    readValue? (bound + 1) ((object fields).render ++ s) = some (object fields, s) := by
  have htext : (object fields).render ++ s = '{' :: (renderFields fields ++ '}' :: s) := by
    rw [render, List.cons_append, List.cons_append, List.append_assoc]
    rfl
  obtain ⟨rest, hrest⟩ := renderFields_head hne ('}' :: s)
  have hskip : skipSpace ('"' :: rest) = '"' :: rest := skipSpace_of_not_isSpace (by decide) _
  have hquote : ¬ '{' = '"' := by decide
  have hbracket : ¬ '{' = '[' := by decide
  have hhead : ¬ ('"' :: rest).head? = some '}' := by
    intro h
    exact absurd (Option.some.inj h) (by decide)
  rw [readValue?, skipSpace_render, htext]
  rw [hrest] at hread ⊢
  simp only [hquote, hbracket, if_false, if_true, hskip, if_neg hhead, hread]
  rfl

theorem readItems?_cons {item : Json} {items : List Json} {bound : Nat} {rest s : Text}
    (hread : readValue? bound (item.render ++ ',' :: rest) = some (item, ',' :: rest))
    (hrest : readItems? bound rest = some (items, s)) :
    readItems? (bound + 1) (item.render ++ ',' :: rest) = some (item :: items, s) := by
  have hcomma : skipSpace (',' :: rest) = ',' :: rest := skipSpace_of_not_isSpace (by decide) _
  rw [readItems?, hread]
  simp only [hcomma, hrest]
  rfl

theorem readFields?_singleton {key : Text} {value : Json} {bound : Nat} {s : Text}
    (hread : readValue? bound (value.render ++ '}' :: s) = some (value, '}' :: s)) :
    readFields? (bound + 1) (quote key ++ ':' :: (value.render ++ '}' :: s)) = some ([(key, value)], s) := by
  have hquote : ∀ t, skipSpace ('"' :: t) = '"' :: t := skipSpace_of_not_isSpace (by decide)
  have hcolon : ∀ t, skipSpace (':' :: t) = ':' :: t := skipSpace_of_not_isSpace (by decide)
  rw [quote_append, readFields?, hquote]
  simp only [readString?_escape, hcolon, hread]
  rfl

theorem readFields?_cons {key : Text} {value : Json} {fields : List (Text × Json)} {bound : Nat} {rest s : Text}
    (hread : readValue? bound (value.render ++ ',' :: rest) = some (value, ',' :: rest))
    (hrest : readFields? bound rest = some (fields, s)) :
    readFields? (bound + 1) (quote key ++ ':' :: (value.render ++ ',' :: rest)) = some ((key, value) :: fields, s) := by
  have hquote : ∀ t, skipSpace ('"' :: t) = '"' :: t := skipSpace_of_not_isSpace (by decide)
  have hcolon : ∀ t, skipSpace (':' :: t) = ':' :: t := skipSpace_of_not_isSpace (by decide)
  have hcomma : skipSpace (',' :: rest) = ',' :: rest := skipSpace_of_not_isSpace (by decide) _
  rw [quote_append, readFields?, hquote]
  simp only [readString?_escape, hcolon, hread, hcomma, hrest]
  rfl

-- Values hold items and fields, and these hold values, so that the three are read back together: each step takes one
-- from the bound, and what is read next is shorter by a sign at least.

mutual

theorem readValue?_render (value : Json) {bound : Nat} {s : Text}
    (hbound : value.render.length ≤ bound) (hs : EndsNumber s) :
    readValue? bound (value.render ++ s) = some (value, s) := by
  have hpos : 0 < value.render.length := by
    obtain ⟨c, rest, hrender, -⟩ := render_head value
    rw [hrender, List.length_cons]
    omega
  obtain ⟨bound, rfl⟩ : ∃ n, bound = n + 1 := ⟨bound - 1, by omega⟩
  match value with
  | .null => rfl
  | .bool true => rfl
  | .bool false => rfl
  | .number n => exact readValue?_number n hs bound
  | .string body => exact readValue?_string body s bound
  | .array [] => rfl
  | .array (item :: items) =>
    have hlength : (array (item :: items)).render.length = (renderItems (item :: items)).length + 2 := by
      rw [render, List.length_append]
      rfl
    exact readValue?_array (List.cons_ne_nil _ _) (readItems?_render (item :: items) (List.cons_ne_nil _ _)
      (show (renderItems (item :: items)).length + 1 ≤ bound by omega) s)
  | .object [] => rfl
  | .object ((key, field) :: fields) =>
    have hlength : (object ((key, field) :: fields)).render.length =
        (renderFields ((key, field) :: fields)).length + 2 := by
      rw [render, List.length_append]
      rfl
    exact readValue?_object (List.cons_ne_nil _ _) (readFields?_render ((key, field) :: fields) (List.cons_ne_nil _ _)
      (show (renderFields ((key, field) :: fields)).length + 1 ≤ bound by omega) s)

theorem readItems?_render (items : List Json) (hne : items ≠ []) {bound : Nat}
    (hbound : (renderItems items).length + 1 ≤ bound) (s : Text) :
    readItems? bound (renderItems items ++ ']' :: s) = some (items, s) := by
  obtain ⟨bound, rfl⟩ : ∃ n, bound = n + 1 := ⟨bound - 1, by omega⟩
  match items with
  | [] => exact absurd rfl hne
  | [item] =>
    rw [renderItems] at hbound ⊢
    have hread := readValue?_render item (show item.render.length ≤ bound by omega)
      (endsNumber_cons (.inr (.inl rfl)) s)
    rw [readItems?, hread]
    rfl
  | item :: next :: items =>
    rw [renderItems_cons_cons, List.length_append, List.length_cons] at hbound
    rw [renderItems_cons_cons, List.append_assoc, List.cons_append]
    exact readItems?_cons
      (readValue?_render item (show item.render.length ≤ bound by omega) (endsNumber_cons (.inl rfl) _))
      (readItems?_render (next :: items) (List.cons_ne_nil _ _)
        (show (renderItems (next :: items)).length + 1 ≤ bound by omega) s)

theorem readFields?_render (fields : List (Text × Json)) (hne : fields ≠ []) {bound : Nat}
    (hbound : (renderFields fields).length + 1 ≤ bound) (s : Text) :
    readFields? bound (renderFields fields ++ '}' :: s) = some (fields, s) := by
  obtain ⟨bound, rfl⟩ : ∃ n, bound = n + 1 := ⟨bound - 1, by omega⟩
  match fields with
  | [] => exact absurd rfl hne
  | [(key, value)] =>
    rw [renderFields, List.length_append, List.length_cons] at hbound
    rw [renderFields, List.append_assoc, List.cons_append]
    exact readFields?_singleton
      (readValue?_render value (show value.render.length ≤ bound by omega) (endsNumber_cons (.inr (.inr rfl)) s))
  | (key, value) :: next :: fields =>
    rw [renderFields_cons_cons, List.length_append, List.length_append, List.length_cons, List.length_cons] at hbound
    rw [renderFields_cons_cons, List.append_assoc, List.append_assoc, List.cons_append, List.cons_append]
    exact readFields?_cons
      (readValue?_render value (show value.render.length ≤ bound by omega) (endsNumber_cons (.inl rfl) _))
      (readFields?_render (next :: fields) (List.cons_ne_nil _ _)
        (show (renderFields (next :: fields)).length + 1 ≤ bound by omega) s)

end

theorem read?_render (value : Json) : read? value.render = some value := by
  have hread := readValue?_render value (Nat.le_succ value.render.length) endsNumber_nil
  rw [List.append_nil] at hread
  unfold read?
  rw [hread]
  rfl

/-! ## 7. Looking into values -/

def field? (name : Text) : Json → Option Json
  | .object fields => fields.lookup name
  | _ => none

def string? : Json → Option Text
  | .string s => some s
  | _ => none

/-- What is read from each of some written values is what they were written for. -/
theorem mapM_map_of_reads {α : Type} {write : α → Json} {read : Json → Option α}
    (h : ∀ a, read (write a) = some a) (as : List α) : (as.map write).mapM read = some as := by
  induction as with
  | nil => rfl
  | cons a as ih => simp [List.mapM_cons, ih, h]

end AssetEmbed.Json
