import AssetEmbed.Proofs.Glob.Expanding

/-!
# Braces — what patterns with braces are expanded to

A pattern with braces spells an expression: texts, alternatives, ranges, and pairs that stand for themselves,
one after the other.  Expanding the pattern lists what the expression denotes, in order.
-/

namespace AssetEmbed.Glob

/-! ## 1. Expressions -/

/-- A brace expression. -/
inductive BraceExpr where
  | literal (s : Text)
  | append (left right : BraceExpr)
  | alternatives (first second : BraceExpr) (others : List BraceExpr)
  | numbers (first last : Decimal)
  | letters (first last : Char)
  | pair (body : BraceExpr)

mutual

def BraceExpr.text : BraceExpr → Text
  | .literal s => s
  | .append left right => left.text ++ right.text
  | .alternatives first second others =>
    '{' :: Text.joinWith ',' (first.text :: second.text :: BraceExpr.texts others) ++ ['}']
  | .numbers first last => '{' :: rangeText first.text last.text ++ ['}']
  | .letters first last => '{' :: rangeText [first] [last] ++ ['}']
  | .pair body => '{' :: body.text ++ ['}']

def BraceExpr.texts : List BraceExpr → List Text
  | [] => []
  | e :: es => e.text :: BraceExpr.texts es

end

mutual

/-- The texts that an expression denotes, in order. -/
def BraceExpr.denote : BraceExpr → List Text
  | .literal s => [s]
  | .append left right => left.denote.flatMap fun x => right.denote.map fun y => x ++ y
  | .alternatives first second others => first.denote ++ second.denote ++ BraceExpr.denoteAll others
  | .numbers first last => (valuesBetween first.value last.value).map Text.ofInt
  | .letters first last => (valuesBetween first.toNat last.toNat).map fun n => [Char.ofNat n.toNat]
  | .pair body => body.denote.map fun x => '{' :: x ++ ['}']

def BraceExpr.denoteAll : List BraceExpr → List Text
  | [] => []
  | e :: es => e.denote ++ BraceExpr.denoteAll es

end

def IsOrdinary (c : Char) : Prop := IsFlat c ∧ c ≠ ',' ∧ c ≠ '\n'

instance : DecidablePred IsOrdinary := fun _ => inferInstanceAs (Decidable (_ ∧ _))

/-- Whether an expression can be read off its text: literal text holds no character with a meaning in braces,
ranges of letters are bounded by letters, and no pair encloses a range. -/
inductive BraceExpr.IsWellFormed : BraceExpr → Prop
  | literal {s : Text} (h : ∀ c ∈ s, IsOrdinary c) : IsWellFormed (.literal s)
  | append {left right : BraceExpr} (hleft : left.IsWellFormed) (hright : right.IsWellFormed) :
    IsWellFormed (.append left right)
  | alternatives {first second : BraceExpr} {others : List BraceExpr}
    (h : ∀ e ∈ first :: second :: others, e.IsWellFormed) : IsWellFormed (.alternatives first second others)
  | numbers (first last : Decimal) : IsWellFormed (.numbers first last)
  | letters {first last : Char} (hfirst : first.isAlpha = true) (hlast : last.isAlpha = true) :
    IsWellFormed (.letters first last)
  | pair {body : BraceExpr} (hbody : body.IsWellFormed) (hrange : ¬ IsRange body.text) :
    IsWellFormed (.pair body)

namespace BraceExpr

theorem texts_eq_map (es : List BraceExpr) : texts es = es.map text := by
  induction es with
  | nil => rfl
  | cons e es ih => rw [texts, ih, List.map_cons]

theorem denoteAll_eq_flatMap (es : List BraceExpr) : denoteAll es = es.flatMap denote := by
  induction es with
  | nil => rfl
  | cons e es ih => rw [denoteAll, ih, List.flatMap_cons]

theorem text_alternatives (first second : BraceExpr) (others : List BraceExpr) :
    (alternatives first second others).text =
      '{' :: Text.joinWith ',' ((first :: second :: others).map text) ++ ['}'] := by
  rw [text, texts_eq_map, List.map_cons, List.map_cons]

theorem denote_alternatives (first second : BraceExpr) (others : List BraceExpr) :
    (alternatives first second others).denote = (first :: second :: others).flatMap denote := by
  rw [denote, denoteAll_eq_flatMap, List.flatMap_cons, List.flatMap_cons, List.append_assoc]

end BraceExpr

/-! ## 2. Parts of a pattern -/

/-- Whether a text can stand within braces: what it opens it closes, no comma in it cuts it, and it has no line
break. -/
structure IsPart (s : Text) : Prop where
  balanced : Balanced '{' '}' s
  whole : ∀ depth, 0 ≤ depth → Whole ',' depth s
  unbroken : '\n' ∉ s

theorem isPart_of_isOrdinary {s : Text} (hs : ∀ c ∈ s, IsOrdinary c) : IsPart s where
  balanced := balanced_of_not_mem (fun h => (hs _ h).1.1 rfl) fun h => (hs _ h).1.2.2.1 rfl
  whole _ _ := whole_of_forall (fun c hc => (hs c hc).1) fun h => absurd rfl (hs _ h).2.1
  unbroken h := (hs _ h).2.2 rfl

theorem IsPart.append {s t : Text} (hs : IsPart s) (ht : IsPart t) : IsPart (s ++ t) where
  balanced := hs.balanced.append ht.balanced
  whole depth hdepth := (hs.whole depth hdepth).append (ht.whole depth hdepth)
  unbroken := by
    rw [List.mem_append, not_or]
    exact ⟨hs.unbroken, ht.unbroken⟩

theorem isPart_inBraces {s : Text} (hs : Balanced '{' '}' s) (hwhole : ∀ depth, 0 < depth → Whole ',' depth s)
    (hbreak : '\n' ∉ s) : IsPart ('{' :: s ++ ['}']) where
  balanced := hs.enclosed (by decide)
  whole depth hdepth := (hwhole (depth + 1) (by omega)).inBraces (by decide)
  unbroken := by
    simpa using hbreak

theorem IsPart.inBraces {s : Text} (hs : IsPart s) : IsPart ('{' :: s ++ ['}']) :=
  isPart_inBraces hs.balanced (fun depth hdepth => hs.whole depth hdepth.le) hs.unbroken

theorem isPart_list {pieces : List Text} (h : ∀ piece ∈ pieces, IsPart piece) :
    IsPart ('{' :: Text.joinWith ',' pieces ++ ['}']) := by
  refine isPart_inBraces ?_ (fun depth hdepth => ?_) ?_
  · exact balanced_joinWith (by decide) (by decide) fun piece hp => (h piece hp).balanced
  · exact whole_joinWith (by decide) (fun _ => hdepth.ne') fun piece hp => (h piece hp).whole depth hdepth.le
  · exact Text.not_mem_joinWith (by decide) fun piece hp => (h piece hp).unbroken

theorem isOrdinary_of_isDigit {c : Char} (h : Text.isDigit c = true) : IsOrdinary c := by
  refine ⟨⟨?_, ?_, ?_, ?_⟩, ?_, ?_⟩ <;>
  · rintro rfl
    exact absurd h (by decide)

theorem isOrdinary_of_isAlpha {c : Char} (h : c.isAlpha = true) : IsOrdinary c := by
  refine ⟨⟨?_, ?_, ?_, ?_⟩, ?_, ?_⟩ <;>
  · rintro rfl
    exact absurd h (by decide)

theorem Decimal.isOrdinary (n : Decimal) : ∀ c ∈ n.text, IsOrdinary c := by
  intro c hc
  unfold Decimal.text at hc
  split at hc
  · rcases List.mem_cons.1 hc with rfl | hc
    · decide
    · exact isOrdinary_of_isDigit (n.isDigit c hc)
  · exact isOrdinary_of_isDigit (n.isDigit c hc)

theorem isPart_rangeText {first last : Text} (hfirst : ∀ c ∈ first, IsOrdinary c)
    (hlast : ∀ c ∈ last, IsOrdinary c) : IsPart (rangeText first last) := by
  refine isPart_of_isOrdinary fun c hc => ?_
  rcases List.mem_append.1 hc with hc | hc
  · exact hfirst c hc
  · rcases List.mem_cons.1 hc with rfl | hc
    · decide
    rcases List.mem_cons.1 hc with rfl | hc
    · decide
    · exact hlast c hc

theorem BraceExpr.IsWellFormed.isPart {e : BraceExpr} (h : e.IsWellFormed) : IsPart e.text := by
  induction h with
  | literal hs => exact isPart_of_isOrdinary hs
  | append _ _ ihleft ihright => exact ihleft.append ihright
  | alternatives _ ih =>
    rw [text_alternatives]
    refine isPart_list fun piece hp => ?_
    obtain ⟨e, he, rfl⟩ := List.mem_map.1 hp
    exact ih e he
  | numbers first last => exact (isPart_rangeText first.isOrdinary last.isOrdinary).inBraces
  | letters hfirst hlast =>
    refine (isPart_rangeText ?_ ?_).inBraces
    · intro c hc
      rw [List.mem_singleton.1 hc]
      exact isOrdinary_of_isAlpha hfirst
    · intro c hc
      rw [List.mem_singleton.1 hc]
      exact isOrdinary_of_isAlpha hlast
  | pair _ _ ihbody => exact ihbody.inBraces

/-! ## 3. Bodies of pairs -/

theorem expandBraces_of_not_mem {s : Text} (hs : '{' ∉ s) : expandBraces s = [s] :=
  expandUpTo_of_not_mem hs s.length

theorem expandBody_list {first second : Text} {others : List Text}
    (h : ∀ piece ∈ first :: second :: others, IsPart piece) :
    expandBody (Text.joinWith ',' (first :: second :: others)) =
      (first :: second :: others).flatMap expandBraces := by
  have hsplit : splitTopLevel ',' 0 (Text.joinWith ',' (first :: second :: others)) =
      first :: second :: others :=
    splitTopLevel_joinWith (by decide) (List.cons_ne_nil _ _) fun piece hp => (h piece hp).whole 0 le_rfl
  unfold expandBody alternatives?
  rw [hsplit]

/-- A body that is not cut stands for the values of a range, if it is one. -/
theorem alternatives?_of_whole {body : Text} (h : Whole ',' 0 body) : alternatives? body = rangeValues? body := by
  have hsplit : splitTopLevel ',' 0 (body ++ []) = [body ++ []] := h []
  rw [List.append_nil] at hsplit
  unfold alternatives?
  rw [hsplit]

theorem expandBody_range {body : Text} {values : List Text} (hbody : IsPart body)
    (hvalues : rangeValues? body = some values) : expandBody body = values := by
  unfold expandBody
  rw [alternatives?_of_whole (hbody.whole 0 le_rfl), hvalues]
  dsimp only
  have hplain : ∀ value ∈ values, expandBraces value = [value] := fun value hvalue =>
    expandBraces_of_not_mem (not_mem_of_mem_rangeValues? hvalues hvalue)
  rw [List.flatMap_congr hplain, List.flatMap_singleton']

theorem expandBody_pair {body : Text} (hbody : IsPart body) (hrange : ¬ IsRange body) :
    expandBody body = (expandBraces body).map fun x => '{' :: x ++ ['}'] := by
  unfold expandBody
  rw [alternatives?_of_whole (hbody.whole 0 le_rfl)]
  cases hvalues : rangeValues? body with
  | none => rfl
  | some values => exact absurd (isRange_of_rangeValues? hvalues hbody.unbroken) hrange

/-! ## 4. What expressions are expanded to -/

/-- An expression is expanded to what it denotes, before whatever follows it. -/
theorem BraceExpr.IsWellFormed.expandBraces_append {e : BraceExpr} (h : e.IsWellFormed) (t : Text) :
    expandBraces (e.text ++ t) = products e.denote (expandBraces t) := by
  -- the induction is on what follows, too: a left factor is expanded before the right one
  have halone : ∀ {d : BraceExpr}, (∀ t, expandBraces (d.text ++ t) = products d.denote (expandBraces t)) →
      expandBraces d.text = d.denote := by
    intro d hd
    have hd := hd []
    rwa [List.append_nil, expandBraces_of_not_mem List.not_mem_nil, products_nil_text] at hd
  induction h generalizing t with
  | literal hs => exact expandBraces_literal_append (fun h => (hs _ h).1.1 rfl) t
  | append _ _ ihleft ihright =>
    rw [text, List.append_assoc, ihleft, ihright, ← products_assoc]
    rfl
  | @alternatives first second others h ih =>
    have hpieces : ∀ piece ∈ (first :: second :: others).map text, IsPart piece := by
      intro piece hp
      obtain ⟨e, he, rfl⟩ := List.mem_map.1 hp
      exact (h e he).isPart
    have hdenote : ((first :: second :: others).map text).flatMap expandBraces =
        (first :: second :: others).flatMap denote := by
      rw [List.flatMap_map]
      exact List.flatMap_congr fun e he => halone (ih e he)
    rw [text_alternatives, expandBraces_pair_append
      (balanced_joinWith (by decide) (by decide) fun piece hp => (hpieces piece hp).balanced),
      denote_alternatives, ← hdenote]
    exact congrArg (products · _) (expandBody_list hpieces)
  | numbers first last =>
    have hbody := isPart_rangeText first.isOrdinary last.isOrdinary
    rw [text, expandBraces_pair_append hbody.balanced, expandBody_range hbody (rangeValues?_numbers first last),
      denote]
  | @letters first last hfirst hlast =>
    have hbody : IsPart (rangeText [first] [last]) := by
      refine isPart_rangeText ?_ ?_ <;>
      · intro c hc
        rw [List.mem_singleton.1 hc]
        exact isOrdinary_of_isAlpha (by assumption)
    rw [text, expandBraces_pair_append hbody.balanced, expandBody_range hbody (rangeValues?_letters hfirst hlast),
      denote]
  | pair hbody hrange ihbody =>
    rw [text, expandBraces_pair_append hbody.isPart.balanced, expandBody_pair hbody.isPart hrange,
      halone ihbody, denote]

/-- The text of an expression is expanded to what the expression denotes, in order: with the left one of two
varying slowest, one alternative after the other, a range from its first bound to its last one, and a pair that
stands for itself around each text of its body. -/
theorem expandBraces_text {e : BraceExpr} (h : e.IsWellFormed) : expandBraces e.text = e.denote := by
  have hend := h.expandBraces_append []
  rwa [List.append_nil, expandBraces_of_not_mem List.not_mem_nil, products_nil_text] at hend

/-- Alternatives in alternatives, ranges in both directions, and a pair that stands for itself. -/
def nestedBraces : BraceExpr :=
  .append (.literal ['x'])
    (.append
      (.alternatives (.literal ['a'])
        (.append (.literal ['b'])
          (.numbers ⟨false, ['1'], by decide, List.all_eq_true.1 (by decide)⟩
            ⟨true, ['0', '1'], by decide, List.all_eq_true.1 (by decide)⟩))
        [.letters 'd' 'c'])
      (.pair (.append (.literal ['s']) (.alternatives (.literal []) (.literal ['t']) []))))

theorem nestedBraces_isWellFormed : nestedBraces.IsWellFormed := by
  have hliteral : ∀ s : Text, (s.all fun c => decide (IsOrdinary c)) = true → (BraceExpr.literal s).IsWellFormed :=
    fun s hs => .literal fun c hc => of_decide_eq_true (List.all_eq_true.1 hs c hc)
  refine .append (hliteral _ (by decide)) (.append (.alternatives ?_) (.pair (.append (hliteral _ (by decide))
    (.alternatives ?_)) (not_isRange (by decide))))
  · simp only [List.forall_mem_cons]
    exact ⟨hliteral _ (by decide), .append (hliteral _ (by decide)) (.numbers _ _),
      .letters (by decide) (by decide), List.forall_mem_nil _⟩
  · simp only [List.forall_mem_cons]
    exact ⟨hliteral _ (by decide), hliteral _ (by decide), List.forall_mem_nil _⟩

/-- The texts of `nestedBraces`, those of the last pair varying fastest. -/
theorem expandBraces_text_nestedBraces :
    nestedBraces.text = "x\x7ba,b\x7b1..-01\x7d,\x7bd..c\x7d\x7d\x7bs\x7b,t\x7d\x7d".toList ∧
      expandBraces nestedBraces.text =
        ["xa\x7bs\x7d", "xa\x7bst\x7d", "xb1\x7bs\x7d", "xb1\x7bst\x7d", "xb0\x7bs\x7d", "xb0\x7bst\x7d",
          "xb-1\x7bs\x7d", "xb-1\x7bst\x7d", "xd\x7bs\x7d", "xd\x7bst\x7d", "xc\x7bs\x7d",
          "xc\x7bst\x7d"].map String.toList :=
  ⟨by decide +kernel, (expandBraces_text nestedBraces_isWellFormed).trans (by decide +kernel)⟩

end AssetEmbed.Glob
