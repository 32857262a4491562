import AssetEmbed.Script.Grammar.Statement

/-!
# Lexing — what lexemes read

A lexeme of the grammar cuts a text in two, what it reads and the rest, and what it reads is never empty.  A quoted
literal stands in quotes that agree.
-/

namespace AssetEmbed.Script

/-! ## 1. Lexemes -/

/-- A lexeme that leaves out no character: what is read and the rest are the text. -/
class Lexeme.Cutting (read : Lexeme) : Prop where
  eq_append : ∀ {s text rest : Text}, read s = some (text, rest) → s = text ++ rest

/-- A lexeme that leaves out no character and is never empty. -/
class Lexeme.Consuming (read : Lexeme) : Prop extends Cutting read where
  ne_nil : ∀ {s text rest : Text}, read s = some (text, rest) → text ≠ []

namespace Lexeme

theorem before_fst_ne_nil {c : Char} {cs : Text} {read : Text × Text} :
    (before (c :: cs) read).1 ≠ [] := by
  simp [before]

theorem ne_nil_of_map_before {c : Char} {cs text rest : Text} {read : Option (Text × Text)}
    (h : read.map (before (c :: cs)) = some (text, rest)) : text ≠ [] := by
  obtain ⟨r, -, hr⟩ := Option.map_eq_some_iff.1 h
  have := @before_fst_ne_nil c cs r
  rwa [hr] at this

theorem eq_append_of_map_before {start s text rest : Text} {read : Option (Text × Text)}
    (hread : ∀ {text rest}, read = some (text, rest) → s = text ++ rest)
    (h : read.map (before start) = some (text, rest)) : start ++ s = text ++ rest := by
  obtain ⟨⟨tail, r⟩, htail, hr⟩ := Option.map_eq_some_iff.1 h
  cases hr
  rw [hread htail, List.append_assoc]

/-- A lexeme, and after it the rest of what it begins. -/
theorem eq_append_of_bind {read more : Lexeme} [hread : Cutting read] (lead : Text) {s text rest : Text}
    (hmore : ∀ {s text rest}, more s = some (text, rest) → s = text ++ rest)
    (h : ((read s).bind fun (start, s) => (more s).map (before (lead ++ start))) = some (text, rest)) :
    lead ++ s = text ++ rest := by
  obtain ⟨⟨start, s'⟩, hstart, h⟩ := Option.bind_eq_some_iff.1 h
  rw [hread.eq_append hstart, ← List.append_assoc]
  exact eq_append_of_map_before hmore h

theorem eq_append_of_takeWhile {p : Char → Bool} {s cs ds : Text} (htake : s.takeWhile p = cs)
    (hdrop : s.dropWhile p = ds) : s = cs ++ ds := by
  rw [← htake, ← hdrop, List.takeWhile_append_dropWhile]

theorem Consuming.of_append {read : Lexeme}
    (h : ∀ s text rest, read s = some (text, rest) → text ≠ [] ∧ s = text ++ rest) : Consuming read where
  eq_append hread := (h _ _ _ hread).2
  ne_nil hread := (h _ _ _ hread).1

/-! ### Words -/

instance : Consuming wordEscape? :=
  .of_append fun s text rest h => by
    unfold wordEscape? at h
    split at h
    next s =>
      split at h
      next d ds r htake hdrop =>
        cases h
        simp [eq_append_of_takeWhile htake hdrop]
      next => cases h
    next s _ =>
      split at h <;> cases h
      simp
    next => cases h

theorem wordPart?_eq_append {s text rest : Text} (h : wordPart? s = some (text, rest)) : s = text ++ rest := by
  unfold wordPart? at h
  split at h
  next => cases h
  next c s =>
    split at h
    next => cases h; rfl
    next => exact Cutting.eq_append h

theorem wordPartsUpTo_eq_append (bound s : Text) : s = (wordPartsUpTo bound s).1 ++ (wordPartsUpTo bound s).2 := by
  induction bound generalizing s with
  | nil => rfl
  | cons _ bound ih =>
    unfold wordPartsUpTo
    split
    next part rest hpart =>
      rw [before, List.append_assoc, ← ih]
      exact wordPart?_eq_append hpart
    next => rfl

instance : Consuming word? :=
  .of_append fun s text rest h => by
    have hparts := wordPartsUpTo_eq_append s s
    unfold word? at h
    split at h
    · cases h
    · generalize wordPartsUpTo s s = read at h hparts
      obtain ⟨_ | ⟨c, cs⟩, r⟩ := read <;> cases h
      exact ⟨List.cons_ne_nil _ _, hparts⟩

/-- A word that passes a test. -/
theorem Consuming.of_word {f : Text × Text → Option (Text × Text)}
    (hf : ∀ w r, f w = some r → r = w) : Consuming fun s => (word? s).bind f :=
  .of_append fun s text rest h => by
    obtain ⟨w, hw, hr⟩ := Option.bind_eq_some_iff.1 h
    obtain rfl := hf w _ hr
    exact ⟨Consuming.ne_nil hw, Cutting.eq_append hw⟩

instance {text : String} : Consuming (Step.exactWord text) :=
  Consuming.of_word fun w r h => by
    obtain ⟨a, b⟩ := w
    dsimp only at h
    split at h <;> simp_all

instance consuming_excludedWord {excluded : List String} : Consuming fun s =>
    (word? s).bind fun (w, rest) =>
      if excluded.contains (String.ofList w) then none else some (w, rest) :=
  Consuming.of_word fun w r h => by
    obtain ⟨a, b⟩ := w
    dsimp only at h
    split at h <;> simp_all

instance {text : String} : Cutting (Step.exactly text) where
  eq_append h := by
    obtain ⟨rest, hrest, hr⟩ := Option.map_eq_some_iff.1 h
    cases hr
    exact Text.dropStart?_eq_some.1 hrest

/-! ### Numbers -/

theorem moreDigits_eq_append (p : Char → Bool) (s : Text) : s = (moreDigits p s).1 ++ (moreDigits p s).2 := by
  fun_induction moreDigits p s with
  | case1 c s _ ih | case3 c s _ _ ih => rw [before, List.append_assoc, ← ih]; rfl
  | case2 | case4 | case5 => rfl

instance {p : Char → Bool} : Consuming (oneChar p) :=
  .of_append fun s text rest h => by
    unfold oneChar at h
    split at h
    · cases h
    · split at h <;> cases h
      simp

instance {p : Char → Bool} : Consuming (digits? p) :=
  .of_append fun s text rest h => by
    unfold digits? at h
    split at h
    · cases h
    · split at h
      · cases h
        exact ⟨before_fst_ne_nil, congrArg _ (moreDigits_eq_append p _)⟩
      · cases h

instance {first second : Lexeme} [hf : Cutting first] [hs : Cutting second] : Cutting (thenRead first second) where
  eq_append h := by
    obtain ⟨a, ha, h⟩ := Option.bind_eq_some_iff.1 h
    obtain ⟨b, hb, h⟩ := Option.bind_eq_some_iff.1 h
    cases h
    rw [hf.eq_append ha, hs.eq_append hb, List.append_assoc]

instance {first second : Lexeme} [hf : Consuming first] [Cutting second] : Consuming (thenRead first second) where
  ne_nil {s text rest} h := by
    obtain ⟨a, ha, h⟩ := Option.bind_eq_some_iff.1 h
    obtain ⟨b, hb, h⟩ := Option.bind_eq_some_iff.1 h
    cases h
    have := hf.ne_nil ha
    simp [this]

instance {lexeme : Lexeme} [hl : Cutting lexeme] : Cutting (optionally lexeme) where
  eq_append {s text rest} h := by
    unfold optionally at h
    cases hread : lexeme s with
    | none =>
      rw [hread] at h
      cases h
      rfl
    | some read =>
      rw [hread] at h
      cases h
      exact hl.eq_append hread

instance : Consuming wholePart? :=
  .of_append fun s text rest h => by
    unfold wholePart? at h
    split at h
    next hread =>
      cases h
      exact ⟨by simp, Cutting.eq_append hread⟩
    next hread =>
      split at h <;> cases h
      exact ⟨by simp, Cutting.eq_append hread⟩
    next => exact ⟨Consuming.ne_nil h, Cutting.eq_append h⟩

instance : Consuming exponent? := by
  unfold exponent?
  infer_instance

instance {letter p : Char → Bool} : Consuming (basedNumber? letter p) := by
  unfold basedNumber?
  infer_instance

/-- What the longest of some lexemes reads, one of them reads. -/
theorem mem_of_longest {lexemes : List Lexeme} {s : Text} {read : Text × Text}
    (h : longest lexemes s = some read) : ∃ lexeme ∈ lexemes, lexeme s = some read := by
  unfold longest at h
  -- from any lexeme that is the best so far
  suffices hbest : ∀ best, lexemes.foldl _ best = some read →
      best = some read ∨ ∃ lexeme ∈ lexemes, lexeme s = some read by
    exact (hbest none h).resolve_left (by simp)
  clear h
  induction lexemes with
  | nil => intro best h; exact .inl h
  | cons lexeme lexemes ih =>
    intro best h
    rcases ih _ h with hread | ⟨l, hl, hread⟩
    · -- the step either keeps the best one so far or takes the new one
      cases best with
      | none => exact .inr ⟨lexeme, by simp, hread⟩
      | some b =>
        cases hl : lexeme s with
        | none => simp only [hl] at hread; exact .inl hread
        | some l =>
          simp only [hl] at hread
          split at hread
          · exact .inr ⟨lexeme, by simp, hl.trans hread⟩
          · exact .inl hread
    · exact .inr ⟨l, List.mem_cons_of_mem _ hl, hread⟩

theorem Consuming.longest {lexemes : List Lexeme} (h : ∀ lexeme ∈ lexemes, Consuming lexeme) :
    Consuming (longest lexemes) :=
  .of_append fun s text rest hread => by
    obtain ⟨lexeme, hmem, hlexeme⟩ := mem_of_longest hread
    have := h lexeme hmem
    exact ⟨Consuming.ne_nil hlexeme, Cutting.eq_append hlexeme⟩

instance {first second : Lexeme} [hf : Consuming first] [hs : Consuming second] :
    Consuming (longest [first, second]) :=
  Consuming.longest fun lexeme h => by
    simp only [List.mem_cons, List.not_mem_nil, or_false] at h
    rcases h with rfl | rfl
    · exact hf
    · exact hs

instance : Consuming number? :=
  Consuming.longest fun lexeme h => by
    simp only [List.mem_cons, List.not_mem_nil, or_false] at h
    rcases h with rfl | rfl | rfl | rfl | rfl | rfl | rfl <;> infer_instance

/-! ### Comments -/

instance : Cutting blockCommentTail? where
  eq_append {s text rest} h := by
    induction s using blockCommentTail?.induct generalizing text rest with
    | case1 => cases h
    | case2 s =>
      cases h
      rfl
    | case3 s hopen => simp [blockCommentTail?] at h
    | case4 c s hopen hnull ih =>
      rw [blockCommentTail?, if_neg hnull] at h
      · exact eq_append_of_map_before ih h
      · exact hopen

instance : Consuming comment? :=
  .of_append fun s text rest h => by
    unfold comment? at h
    split at h
    · cases h
      simp
    · exact ⟨ne_nil_of_map_before h, eq_append_of_map_before Cutting.eq_append h⟩
    · cases h

instance : Consuming markupComment? :=
  .of_append fun s text rest h => by
    unfold markupComment? at h
    dsimp only at h
    split at h <;> cases h <;> simp

/-! ### Escapes and regular expressions -/

instance : Cutting escapeTail? where
  eq_append {s text rest} h := by
    unfold escapeTail? at h
    split at h
    next => cases h
    next =>
      split at h <;> cases h
      simp
    next s =>
      -- the backslash that an escape of a word begins with is not part of the tail
      obtain ⟨⟨e, r⟩, hread, hr⟩ := Option.map_eq_some_iff.1 h
      cases hr
      have hescape := Cutting.eq_append hread
      cases e with
      | nil => cases Consuming.ne_nil hread rfl
      | cons c e => exact (List.cons.inj hescape).2
    next => split at h <;> cases h <;> rfl
    next => split at h <;> cases h <;> rfl
    next c s _ _ _ _ =>
      split at h
      next => cases h
      next =>
        split at h <;> cases h
        · have hmore := (List.takeWhile_prefix fun d => '0' ≤ d && d ≤ '7').trans (List.take_prefix 2 s)
          exact congrArg _ (List.prefix_iff_eq_append.1 hmore).symm
        · rfl

instance : Consuming escape? :=
  .of_append fun s text rest h => by
    unfold escape? at h
    split at h
    · exact ⟨ne_nil_of_map_before h, eq_append_of_map_before Cutting.eq_append h⟩
    · cases h

instance {escaped : Bool} : Cutting (classTail? escaped) where
  eq_append {s text rest} h := by
    induction s generalizing escaped text rest with
    | nil => cases h
    | cons c s ih =>
      unfold classTail? at h
      split at h
      next => cases h
      split at h
      next =>
        cases h
        rfl
      next => exact eq_append_of_map_before ih h

theorem regexTailUpTo_eq_append {bound s text rest : Text} (h : regexTailUpTo bound s = some (text, rest)) :
    s = text ++ rest := by
  induction bound generalizing s text rest with
  | nil => cases h
  | cons _ bound ih =>
    unfold regexTailUpTo at h
    split at h
    next b bound' c s hbound =>
      cases hbound
      split at h
      next => cases h
      split at h
      next =>
        cases h
        rfl
      split at h
      next =>
        split at h
        next => cases h
        next d s =>
          split at h
          next => cases h
          next => exact eq_append_of_map_before ih h
      split at h
      next =>
        exact eq_append_of_bind [c] ih h
      next => exact eq_append_of_map_before ih h
    next => cases h

instance : Consuming regex? :=
  .of_append fun s text rest h => by
    unfold regex? at h
    split at h
    · split at h
      · cases h
      · obtain ⟨⟨inside, r⟩, hinside, hr⟩ := Option.map_eq_some_iff.1 h
        cases hr
        simp [regexTailUpTo_eq_append hinside]
    · cases h

instance : Consuming Grammar.interpreterLine? :=
  .of_append fun s text rest h => by
    unfold Grammar.interpreterLine? at h
    split at h <;> cases h
    simp

/-! ### Markup -/

instance : Consuming Grammar.markupText? :=
  .of_append fun s text rest h => by
    unfold Grammar.markupText? at h
    dsimp only at h
    split at h
    next hshows =>
      cases h
      refine ⟨fun hnil => ?_, by simp⟩
      simp [hnil, Grammar.showsText] at hshows
    next => cases h

instance : Consuming Grammar.characterReference? :=
  .of_append fun s text rest h => by
    unfold Grammar.characterReference? at h
    split at h
    next c s =>
      -- a number, in either of two notations
      dsimp only at h
      split at h
      next d ds r htake hdrop =>
        simp only [Option.ite_none_right_eq_some, Option.some.injEq, Prod.mk.injEq] at h
        obtain ⟨-, rfl, rfl⟩ := h
        have hdigits := eq_append_of_takeWhile htake hdrop
        split at hdigits <;> simp_all
      next => cases h
    next s _ =>
      split at h
      next htake hdrop =>
        split at h <;> cases h
        simp [eq_append_of_takeWhile htake hdrop]
      next => cases h
    next => cases h

instance : Consuming Grammar.hyphenatedName? :=
  .of_append fun s text rest h => by
    unfold Grammar.hyphenatedName? at h
    dsimp only at h
    split at h
    next htake hdrop =>
      split at h <;> cases h
      simp [eq_append_of_takeWhile htake hdrop]
    next => cases h

end Lexeme

/-! ## 2. Quoted literals -/

def IsQuoted (raw : Text) : Prop := ∃ quote body, (quote = '\'' ∨ quote = '"') ∧ raw = quote :: (body ++ [quote])

/-- A literal has a value if it stands in quotes that agree: that of what is between them. -/
theorem literalValue?_eq_some_iff {raw value : Text} :
    literalValue? raw = some value ↔ ∃ quote body, (quote = '\'' ∨ quote = '"') ∧ raw = quote :: (body ++ [quote]) ∧
      value = unescape body := by
  constructor
  · intro h
    unfold literalValue? at h
    split at h
    next quote rest =>
      split at h
      next hquoted =>
        simp only [Bool.and_eq_true, Bool.or_eq_true, decide_eq_true_eq, beq_iff_eq] at hquoted
        obtain ⟨body, rfl⟩ := List.getLast?_eq_some_iff.1 hquoted.2
        rw [List.dropLast_concat] at h
        exact ⟨quote, body, hquoted.1, rfl, (Option.some.inj h).symm⟩
      next => cases h
    next => cases h
  · rintro ⟨quote, body, hquote, rfl, rfl⟩
    rcases hquote with rfl | rfl <;> simp [literalValue?]

theorem IsQuoted.ne_nil {raw : Text} (h : IsQuoted raw) : raw ≠ [] := by
  obtain ⟨quote, body, -, rfl⟩ := h
  exact List.cons_ne_nil _ _

namespace Lexeme

/-- A lexeme that leaves out no character and stands in quotes. -/
class Quoting (read : Lexeme) : Prop extends Cutting read where
  isQuoted : ∀ {s text rest : Text}, read s = some (text, rest) → IsQuoted text

theorem Quoting.of_append {read : Lexeme}
    (h : ∀ s text rest, read s = some (text, rest) → IsQuoted text ∧ s = text ++ rest) : Quoting read where
  eq_append hread := (h _ _ _ hread).2
  isQuoted hread := (h _ _ _ hread).1

/-- What is read ends with the quote that the literal began with. -/
def IsTail (quote : Char) (s text rest : Text) : Prop := (∃ body, text = body ++ [quote]) ∧ s = text ++ rest

theorem IsTail.of_map_before {quote : Char} {start s text rest : Text} {read : Option (Text × Text)}
    (hread : ∀ {text rest}, read = some (text, rest) → IsTail quote s text rest)
    (h : read.map (before start) = some (text, rest)) : IsTail quote (start ++ s) text rest := by
  refine ⟨?_, eq_append_of_map_before (fun htail => (hread htail).2) h⟩
  obtain ⟨⟨tail, r⟩, htail, hr⟩ := Option.map_eq_some_iff.1 h
  obtain ⟨⟨body, rfl⟩, -⟩ := hread htail
  cases hr
  exact ⟨start ++ body, (List.append_assoc _ _ _).symm⟩

/-- A lexeme, and after it the tail. -/
theorem IsTail.of_bind {quote : Char} {read more : Lexeme} [hread : Cutting read] (lead : Text) {s text rest : Text}
    (hmore : ∀ {s text rest}, more s = some (text, rest) → IsTail quote s text rest)
    (h : ((read s).bind fun (start, s) => (more s).map (before (lead ++ start))) = some (text, rest)) :
    IsTail quote (lead ++ s) text rest := by
  obtain ⟨⟨start, s'⟩, hstart, h⟩ := Option.bind_eq_some_iff.1 h
  rw [hread.eq_append hstart, ← List.append_assoc]
  exact of_map_before hmore h

theorem quotedTailUpTo_isTail {quote : Char} {bound s text rest : Text}
    (h : quotedTailUpTo quote bound s = some (text, rest)) : IsTail quote s text rest := by
  induction bound generalizing s text rest with
  | nil => cases h
  | cons _ bound ih =>
    unfold quotedTailUpTo at h
    split at h
    next hbound => cases hbound
    next => cases h
    next c s hbound =>
      cases hbound
      split at h
      next hquote =>
        cases h
        exact ⟨⟨[], by rw [hquote]; rfl⟩, rfl⟩
      split at h
      next hbackslash =>
        -- an escape, and the rest after it
        rw [hbackslash]
        exact IsTail.of_bind [] ih h
      split at h
      next => cases h
      split at h
      next =>
        -- a line break: only blanks and comments may follow it
        dsimp only at h
        split at h
        next => cases h
        next d r hdrop =>
          have hs : c :: s = c :: s.takeWhile isSpace ++ d :: r :=
            congrArg (c :: ·) (eq_append_of_takeWhile rfl hdrop)
          rw [hs]
          split at h
          next hquote =>
            cases h
            exact ⟨⟨_, by rw [hquote]⟩, by rw [List.append_assoc]; rfl⟩
          next => exact IsTail.of_bind (c :: s.takeWhile isSpace) ih h
      next => exact IsTail.of_map_before ih h

theorem attributeTailUpTo_isTail {quote : Char} {bound s text rest : Text}
    (h : Grammar.attributeTailUpTo quote bound s = some (text, rest)) : IsTail quote s text rest := by
  induction bound generalizing s text rest with
  | nil => cases h
  | cons _ bound ih =>
    unfold Grammar.attributeTailUpTo at h
    split at h
    next hbound => cases hbound
    next => cases h
    next c s hbound =>
      cases hbound
      split at h
      next hquote =>
        cases h
        exact ⟨⟨[], by rw [hquote]; rfl⟩, rfl⟩
      split at h
      next => cases h
      split at h
      next hampersand =>
        -- a reference to a character, or an ampersand that stands for itself
        split at h
        next => cases h
        next =>
          split at h
          next =>
            rw [hampersand]
            exact IsTail.of_bind [] ih h
          next => exact IsTail.of_map_before ih h
      next => exact IsTail.of_map_before ih h

/-- A quote, and the tail that ends with the same one. -/
theorem isQuoted_of_map_before {quote : Char} {s text rest : Text} {read : Option (Text × Text)}
    (hquote : quote = '\'' ∨ quote = '"')
    (hread : ∀ {text rest}, read = some (text, rest) → IsTail quote s text rest)
    (h : read.map (before [quote]) = some (text, rest)) : IsQuoted text ∧ quote :: s = text ++ rest := by
  refine ⟨?_, (IsTail.of_map_before hread h).2⟩
  obtain ⟨⟨tail, r⟩, htail, hr⟩ := Option.map_eq_some_iff.1 h
  obtain ⟨⟨body, rfl⟩, -⟩ := hread htail
  cases hr
  exact ⟨quote, body, hquote, rfl⟩

instance : Quoting quotedLiteral? :=
  .of_append fun s text rest h => by
    unfold quotedLiteral? at h
    split at h
    · split at h
      next hquote => exact isQuoted_of_map_before (by simpa using hquote) quotedTailUpTo_isTail h
      next => cases h
    · cases h

instance : Quoting Grammar.attributeValue? :=
  .of_append fun s text rest h => by
    unfold Grammar.attributeValue? at h
    split at h
    · split at h
      next hquote => exact isQuoted_of_map_before (by simpa using hquote) attributeTailUpTo_isTail h
      next => cases h
    · cases h

end Lexeme

end AssetEmbed.Script
