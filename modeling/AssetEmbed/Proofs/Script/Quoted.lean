import AssetEmbed.Proofs.JsonReading
import AssetEmbed.Script.Lexeme

/-!
# Quoted literals

What a quoted literal is does not depend on the text behind it, and the strings that JSON writes are quoted
literals.
-/

namespace AssetEmbed.Script

/-- What is said about the characters of a list is decided by going through the list, not through all
characters. -/
instance (priority := 2000) decidableForallMem {p : Char → Prop} [DecidablePred p] (l : List Char) :
    Decidable (∀ c ∈ l, p c) := List.decidableBAll p l

/-- A character of a kind is none of some signs that are not of that kind. -/
theorem ne_of_forall_mem_eq_false {kind : Char → Bool} {c : Char} {signs : List Char} (hc : kind c = true)
    (hsigns : ∀ sign ∈ signs, kind sign = false) : ∀ sign ∈ signs, c ≠ sign := by
  rintro sign hsign rfl
  rw [hsigns c hsign] at hc
  cases hc

/-! ## 1. Literals and what follows them -/

theorem takeWhile_append_of_dropWhile {p : Char → Bool} {s x : Text} (h : s.dropWhile p ≠ []) :
    (s ++ x).takeWhile p = s.takeWhile p ∧ (s ++ x).dropWhile p = s.dropWhile p ++ x := by
  induction s with
  | nil => exact absurd rfl h
  | cons c s ih =>
    rw [List.cons_append, List.takeWhile_cons, List.takeWhile_cons, List.dropWhile_cons, List.dropWhile_cons]
    rw [List.dropWhile_cons] at h
    split
    next hc =>
      rw [if_pos hc] at h
      exact ⟨congrArg (c :: ·) (ih h).1, (ih h).2⟩
    next => exact ⟨rfl, rfl⟩

/-- A lexeme that does not depend on what follows the text it is read in, if that text goes on behind it. -/
def Lexeme.Settled (read : Lexeme) : Prop :=
  ∀ s a r x, read s = some (a, r) → r ≠ [] → read (s ++ x) = some (a, r ++ x)

theorem wordEscape?_settled : Lexeme.Settled wordEscape? := by
  intro s a r x h hr
  unfold wordEscape? at h
  split at h
  next s =>
    split at h
    next d ds rest htake hdrop =>
      cases h
      have hsame := takeWhile_append_of_dropWhile (p := isHex) (s := s) (x := x) (by rw [hdrop]; simp)
      simp [wordEscape?, hsame, htake, hdrop]
    next => cases h
  next s hbrace =>
    split at h
    next hhex =>
      cases h
      have hlength : 4 ≤ s.length := by
        rw [Bool.and_eq_true, decide_eq_true_eq, List.length_take] at hhex
        omega
      have htake : (s ++ x).take 4 = s.take 4 := List.take_append_of_le_length hlength
      have hdrop : (s ++ x).drop 4 = s.drop 4 ++ x := List.drop_append_of_le_length hlength
      -- four digits are there, and no brace, so the escape is not one in braces
      obtain ⟨c, s, rfl⟩ : ∃ c cs, s = c :: cs := List.exists_cons_of_length_pos (by omega)
      have hc : c ≠ '\x7b' := by
        rintro rfl
        exact hbrace s rfl
      show wordEscape? ('\\' :: 'u' :: (c :: s ++ x)) = _
      unfold wordEscape?
      split
      next heq =>
        cases heq
        exact absurd rfl hc
      next heq =>
        cases heq
        rw [htake, hdrop, if_pos hhex]
      next hother => exact absurd rfl (hother (c :: s ++ x))
    next => cases h
  next => cases h

theorem escapeTail?_other {c : Char} (hc : ∀ sign ∈ ['\x00', 'x', 'u', '\r', '?'], c ≠ sign) (s : Text) :
    escapeTail? (c :: s) =
      if '0' ≤ c && c ≤ '7' then
        let more := (s.take 2).takeWhile fun d => '0' ≤ d && d ≤ '7'
        some (c :: more, s.drop more.length)
      else some ([c], s) := by
  simp only [List.forall_mem_cons] at hc
  obtain ⟨hnul, hx, hu, hr, hq, -⟩ := hc
  unfold escapeTail?
  split <;> simp_all

theorem takeWhile_take_append {p : Char → Bool} {n : Nat} {s x : Text}
    (h : s.drop ((s.take n).takeWhile p).length ≠ []) :
    ((s ++ x).take n).takeWhile p = (s.take n).takeWhile p := by
  induction n generalizing s with
  | zero => rfl
  | succ n ih =>
    cases s with
    | nil => exact absurd rfl h
    | cons c s =>
      rw [List.cons_append, List.take_succ_cons, List.take_succ_cons, List.takeWhile_cons, List.takeWhile_cons]
      rw [List.take_succ_cons, List.takeWhile_cons] at h
      split
      next hc =>
        rw [if_pos hc] at h
        exact congrArg (c :: ·) (ih h)
      next => rfl

theorem escapeTail?_settled : Lexeme.Settled escapeTail? := by
  intro s a r x h hr
  unfold escapeTail? at h
  split at h
  next => cases h
  next s =>
    split at h
    next hhex =>
      cases h
      have hlength : 2 ≤ s.length := by
        rw [Bool.and_eq_true, decide_eq_true_eq, List.length_take] at hhex
        omega
      have htake : (s ++ x).take 2 = s.take 2 := List.take_append_of_le_length hlength
      have hdrop : (s ++ x).drop 2 = s.drop 2 ++ x := List.drop_append_of_le_length hlength
      simp only [List.cons_append, escapeTail?]
      rw [htake, hdrop, if_pos hhex]
    next => cases h
  next s =>
    obtain ⟨⟨e, rest⟩, hread, heq⟩ := Option.map_eq_some_iff.1 h
    cases heq
    have hread := wordEscape?_settled _ _ _ x hread hr
    simp only [List.cons_append] at hread
    simp [escapeTail?, hread]
  next c s =>
    simp only [List.cons_append, escapeTail?]
    split at h <;> cases h <;> simp_all
  next c s =>
    simp only [List.cons_append, escapeTail?]
    split at h <;> cases h <;> simp_all
  next c s hx hu hreturn hquestion =>
    split at h
    next => cases h
    next hnul =>
      split at h
      next hoctal =>
        cases h
        -- an octal digit is none of the other signs
        have hother : ∀ sign ∈ ['\x00', 'x', 'u', '\r', '?'], c ≠ sign :=
          @ne_of_forall_mem_eq_false (fun d => '0' ≤ d && d ≤ '7') _ _ hoctal (by decide)
        rw [List.cons_append, escapeTail?_other hother, if_pos hoctal]
        dsimp only at hr ⊢
        rw [takeWhile_take_append hr, List.drop_append_of_le_length]
        exact Nat.le_of_lt (List.length_lt_of_drop_ne_nil hr)
      next hoctal =>
        cases h
        obtain ⟨d, ds, rfl⟩ := List.exists_cons_of_ne_nil hr
        -- a sign that makes the escape longer would have taken the next character with it
        have hother : ∀ sign ∈ ['\x00', 'x', 'u', '\r', '?'], c ≠ sign := by
          simp only [List.forall_mem_cons]
          exact ⟨hnul, hx, hu, fun hc => hreturn d ds hc rfl, fun hc => hquestion d ds hc rfl,
            List.forall_mem_nil _⟩
        rw [List.cons_append, escapeTail?_other hother, if_neg hoctal]

theorem escape?_settled : Lexeme.Settled escape? := by
  intro s a r x h hr
  unfold escape? at h
  split at h
  next s =>
    obtain ⟨⟨e, rest⟩, hread, heq⟩ := Option.map_eq_some_iff.1 h
    cases heq
    have hread := escapeTail?_settled _ _ _ x hread hr
    simp [escape?, hread, before]
  next => cases h

theorem blockCommentTail?_append {s a r : Text} (x : Text) (h : blockCommentTail? s = some (a, r)) :
    blockCommentTail? (s ++ x) = some (a, r ++ x) := by
  induction s generalizing a with
  | nil => cases h
  | cons c s ih =>
    unfold blockCommentTail? at h
    split at h
    next => cases h
    next heq =>
      cases heq
      cases h
      rfl
    next hstop heq =>
      cases heq
      split at h
      next => cases h
      next hnul =>
        obtain ⟨⟨e, rest⟩, hread, heq⟩ := Option.map_eq_some_iff.1 h
        cases heq
        have hmore := ih hread
        rw [List.cons_append]
        unfold blockCommentTail?
        split
        next heq => cases heq
        next heq =>
          -- the comment would have ended before, or the text would end within it
          cases s with
          | nil => cases hread
          | cons d s =>
            cases heq
            exact absurd rfl (hstop s rfl)
        next heq =>
          cases heq
          simp [hnul, hmore, before]

theorem comment?_settled : Lexeme.Settled comment? := by
  intro s a r x h hr
  unfold comment? at h
  split at h
  next s =>
    cases h
    have hsame := takeWhile_append_of_dropWhile (x := x) hr
    simp [comment?, hsame]
  next s =>
    obtain ⟨⟨e, rest⟩, hread, heq⟩ := Option.map_eq_some_iff.1 h
    cases heq
    have hread := blockCommentTail?_append x hread
    simp [comment?, hread, before]
  next => cases h

theorem quotedTailUpTo_nil (quote : Char) (bound : Text) : quotedTailUpTo quote bound [] = none := by
  cases bound <;> rfl

theorem Lexeme.Settled.andThen {read more more' : Lexeme} (hread : read.Settled) (f : Text → Text)
    {s a r x : Text} (hmore : ∀ {s a}, more s = some (a, r) → more' (s ++ x) = some (a, r ++ x))
    (hnil : more [] = none)
    (h : ((read s).bind fun (start, s) => (more s).map (before (f start))) = some (a, r)) :
    ((read (s ++ x)).bind fun (start, s) => (more' s).map (before (f start))) = some (a, r ++ x) := by
  obtain ⟨⟨start, s'⟩, hstart, h⟩ := Option.bind_eq_some_iff.1 h
  obtain ⟨⟨body, rest⟩, hbody, heq⟩ := Option.map_eq_some_iff.1 h
  cases heq
  have hs' : s' ≠ [] := by
    rintro rfl
    rw [hnil] at hbody
    cases hbody
  rw [hread _ _ _ x hstart hs', Option.bind_some]
  simp only [hmore hbody, Option.map_some, before]

theorem quotedTailUpTo_settled {quote : Char} {bound bound' s a r : Text} (x : Text)
    (hbound : bound.length ≤ bound'.length) (h : quotedTailUpTo quote bound s = some (a, r)) :
    quotedTailUpTo quote bound' (s ++ x) = some (a, r ++ x) := by
  induction bound generalizing bound' s a with
  | nil => cases h
  | cons b bound ih =>
    cases bound' with
    | nil => cases hbound
    | cons b' bound' =>
      have hbound := Nat.le_of_succ_le_succ hbound
      cases s with
      | nil => cases h
      | cons c s =>
        rw [List.cons_append]
        unfold quotedTailUpTo at h ⊢
        split at h
        next hquote =>
          cases h
          rw [if_pos hquote]
        next hquote =>
          rw [if_neg hquote]
          split at h
          next hslash =>
            rw [if_pos hslash]
            exact escape?_settled.andThen id (fun hread => ih hbound hread) (quotedTailUpTo_nil _ _) h
          next hslash =>
            rw [if_neg hslash]
            split at h
            next => cases h
            next hnul =>
              rw [if_neg hnul]
              split at h
              next hbreak =>
                rw [if_pos hbreak]
                dsimp only at h ⊢
                cases hdrop : s.dropWhile isSpace with
                | nil => rw [hdrop] at h; cases h
                | cons d rest =>
                  -- behind a line break, blanks are passed over up to the quote or a comment
                  have hsame := takeWhile_append_of_dropWhile (p := isSpace) (s := s) (x := x)
                    (by rw [hdrop]; simp)
                  rw [hdrop] at h hsame
                  rw [hsame.1, hsame.2, List.cons_append]
                  dsimp only at h ⊢
                  split at h
                  next hd =>
                    cases h
                    rw [if_pos hd]
                  next hd =>
                    rw [if_neg hd]
                    exact comment?_settled.andThen _ (fun hread => ih hbound hread)
                      (quotedTailUpTo_nil _ _) h
              next hbreak =>
                rw [if_neg hbreak]
                obtain ⟨⟨body, rest⟩, hread, heq⟩ := Option.map_eq_some_iff.1 h
                cases heq
                have hread := ih hbound hread
                rw [hread]
                rfl

theorem quotedLiteral?_append {q : Text} (h : quotedLiteral? q = some (q, [])) (rest : Text) :
    quotedLiteral? (q ++ rest) = some (q, rest) := by
  unfold quotedLiteral? at h
  split at h
  next c s =>
    split at h
    next hquote =>
      obtain ⟨⟨body, more⟩, hread, heq⟩ := Option.map_eq_some_iff.1 h
      have hbound : s.length ≤ (s ++ rest).length := by simp
      have hread := quotedTailUpTo_settled rest hbound hread
      simp only [before, Prod.mk.injEq] at heq
      obtain ⟨hbody, rfl⟩ := heq
      rw [List.cons_append]
      unfold quotedLiteral?
      dsimp only
      rw [if_pos hquote, hread]
      simp [before, ← hbody]
    next => cases h
  next => cases h

/-! ## 2. The strings of JSON -/

theorem escapeTail?_unit {a b : Nat} (ha : a < 16) (hb : b < 16) (s : Text) :
    escapeTail? ('u' :: '0' :: '0' :: Text.hexDigit a :: Text.hexDigit b :: s) =
      some (['u', '0', '0', Text.hexDigit a, Text.hexDigit b], s) := by
  have hzero : isHex '0' := by decide
  have hhigh : isHex (Text.hexDigit a) := by
    unfold isHex
    rw [Text.hexValue?_hexDigit a ha]
    rfl
  have hlow : isHex (Text.hexDigit b) := by
    unfold isHex
    rw [Text.hexValue?_hexDigit b hb]
    rfl
  simp [escapeTail?, wordEscape?, hzero, hhigh, hlow]

theorem quotedTailUpTo_backslash (b : Char) (bound s : Text) :
    quotedTailUpTo '"' (b :: bound) ('\\' :: s) =
      ((escapeTail? s).map (before ['\\'])).bind fun (escape, s) =>
        (quotedTailUpTo '"' bound s).map (before escape) :=
  rfl

theorem quotedTailUpTo_escapeChar (c b : Char) (bound s : Text) :
    quotedTailUpTo '"' (b :: bound) (Json.escapeChar c ++ s) =
      (quotedTailUpTo '"' bound s).map (before (Json.escapeChar c)) := by
  rcases Json.escapeChar_cases c with ⟨d, hd, hescape⟩ | ⟨hcontrol, hescape⟩ | ⟨hquote, hslash, hle, hescape⟩ <;>
    rw [hescape]
  · simp only [Json.escapeLetters, List.mem_cons, List.not_mem_nil, or_false, Prod.mk.injEq] at hd
    rcases hd with ⟨rfl, -⟩ | ⟨rfl, -⟩ | ⟨rfl, -⟩ | ⟨rfl, -⟩ | ⟨rfl, -⟩ | ⟨rfl, -⟩ | ⟨rfl, -⟩ <;> rfl
  · have hunit := escapeTail?_unit (show c.toNat / 16 < 16 by omega)
      (show c.toNat % 16 < 16 by omega) s
    simp only [List.cons_append, List.nil_append]
    rw [quotedTailUpTo_backslash, hunit]
    rfl
  · have hne : ∀ d : Char, d.toNat < 0x20 → c ≠ d := by
      rintro d hd rfl
      exact absurd hd (Nat.not_lt.2 hle)
    have hnul := hne '\x00' (by decide)
    have hnewline := hne '\n' (by decide)
    have hreturn := hne '\r' (by decide)
    simp [quotedTailUpTo, hquote, hslash, hnul, hnewline, hreturn]

theorem quotedTailUpTo_escape (body rest bound : Text) (h : body.length < bound.length) :
    quotedTailUpTo '"' bound (Json.escape body ++ '"' :: rest) = some (Json.escape body ++ ['"'], rest) := by
  induction body generalizing bound with
  | nil =>
    cases bound with
    | nil => cases h
    | cons b bound => rfl
  | cons c body ih =>
    cases bound with
    | nil => cases h
    | cons b bound =>
      have hbody : ∀ s, Json.escape (c :: body) ++ s = Json.escapeChar c ++ (Json.escape body ++ s) := by
        intro s
        unfold Json.escape
        rw [List.flatMap_cons, List.append_assoc]
      rw [hbody, hbody, quotedTailUpTo_escapeChar, ih bound (Nat.lt_of_succ_lt_succ h)]
      rfl

theorem quotedLiteral?_quote (s : Text) : quotedLiteral? (Json.quote s) = some (Json.quote s, []) := by
  have hlength := Json.length_le_escape s
  have htail := quotedTailUpTo_escape s [] (Json.escape s ++ ['"']) (by
    rw [List.length_append, List.length_cons]
    omega)
  show (quotedTailUpTo '"' (Json.escape s ++ ['"']) (Json.escape s ++ ['"'])).map (before ['"']) = _
  rw [htail]
  rfl

end AssetEmbed.Script
