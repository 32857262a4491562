import AssetEmbed.Proofs.FileSystem.Locating
import AssetEmbed.Proofs.Glob.Matching

/-!
# Compiling — what lines of an ignore list become

A line that begins with a slash is compiled segment by segment, from the start of the path.
-/

namespace AssetEmbed.Glob

/-! ## 1. Lines that begin with a slash -/

variable {pattern seg last : Text} {segs : List Text}

theorem collapseStars_cons_of_ne (h : seg ≠ doubleStar) : collapseStars (seg :: segs) = seg :: collapseStars segs := by
  rw [collapseStars, if_neg (by simp [h])]

theorem mem_of_mem_collapseStars (h : seg ∈ collapseStars segs) : seg ∈ segs := by
  induction segs with
  | nil => exact h
  | cons first segs ih =>
    rw [collapseStars] at h
    split at h
    · exact List.mem_cons_of_mem _ (ih h)
    · rcases List.mem_cons.1 h with rfl | h
      · exact List.mem_cons_self
      · exact List.mem_cons_of_mem _ (ih h)

theorem mem_collapseStars_of_ne (h : seg ∈ segs) (hne : seg ≠ doubleStar) : seg ∈ collapseStars segs := by
  induction segs with
  | nil => exact h
  | cons first segs ih =>
    rw [collapseStars]
    split
    · rename_i hstars
      rw [Bool.and_eq_true, decide_eq_true_eq] at hstars
      exact ih ((List.mem_cons.1 h).resolve_left fun heq => hne (heq.trans hstars.1))
    · rcases List.mem_cons.1 h with rfl | h
      · exact List.mem_cons_self
      · exact List.mem_cons_of_mem _ (ih h)

theorem getLast?_collapseStars (segs : List Text) : (collapseStars segs).getLast? = segs.getLast? := by
  induction segs with
  | nil => rfl
  | cons first segs ih =>
    rw [collapseStars]
    split
    · rename_i hstars
      rw [Bool.and_eq_true] at hstars
      cases segs with
      | nil => exact absurd hstars.2 (by decide)
      | cons next segs => exact ih
    · cases segs with
      | nil => rfl
      | cons next segs =>
        rw [List.getLast?_cons_cons, ← ih]
        cases hrest : collapseStars (next :: segs) with
        | nil =>
          rw [hrest] at ih
          cases ih
        | cons _ _ => rfl

theorem collapseStars_ne_nil (h : segs ≠ []) : collapseStars segs ≠ [] := by
  intro hnil
  have hlast := getLast?_collapseStars segs
  rw [hnil, List.getLast?_nil, eq_comm, List.getLast?_eq_none_iff] at hlast
  exact h hlast

theorem stripEnd_eq_self {s : Text} (h : ∀ c ∈ s.getLast?, Text.isBlank c = false) : s.stripEnd = s := by
  unfold Text.stripEnd
  rw [Text.dropWhile_eq_self fun c hc => h c (List.head?_reverse ▸ hc), List.reverse_reverse]

theorem trimLine_eq_self {line : Text} (hfirst : ∀ c ∈ line.head?, Text.isBlank c = false)
    (hlast : ∀ c ∈ line.getLast?, Text.isBlank c = false) : trimLine line = line := by
  have hstart : line.stripStart = line := Text.dropWhile_eq_self hfirst
  unfold trimLine
  rw [Text.strip, hstart, stripEnd_eq_self hlast, ite_self]

theorem isBlank_getLast?_of_strip_eq {s : Text} (h : s.strip = s) : ∀ c ∈ s.getLast?, Text.isBlank c = false := by
  intro c hc
  have hend := List.head?_dropWhile_not Text.isBlank s.stripStart.reverse
  rw [← List.getLast?_reverse] at hend
  have hlast : (s.stripStart.reverse.dropWhile Text.isBlank).reverse.getLast? = some c := by
    show s.strip.getLast? = some c
    rw [h]
    exact hc
  rw [hlast] at hend
  simpa using hend

def IgnorePattern.ofParts? : Option (List Element × Ending) → Except IgnoreError (Option IgnorePattern)
  | none => .error .malformed
  | some (es, ending) => if es.all Element.isOrdered then .ok (some ⟨false, es, ending⟩) else .error .badRange

theorem patternElements_slash (hsegs : ∀ seg ∈ segs ++ [last], '/' ∉ seg) (hne : last ≠ []) :
    patternElements ('/' :: Text.joinWith '/' (segs ++ [last])) =
      anchoredElements (collapseStars (segs ++ [last])) := by
  have hsplit : Text.splitOn '/' ('/' :: Text.joinWith '/' (segs ++ [last])) = [] :: (segs ++ [last]) := by
    rw [Text.splitOn, if_pos rfl, Text.splitOn_joinWith (by simp) hsegs]
  have hlast := getLast?_collapseStars (segs ++ [last])
  rw [List.getLast?_concat] at hlast
  unfold patternElements
  rw [hsplit, collapseStars_cons_of_ne (by decide)]
  generalize collapseStars (segs ++ [last]) = collapsed at hlast
  -- the last segment is not empty, so that nothing is put in its place
  have hnil : collapsed ≠ [[]] := by
    rintro rfl
    exact hne (Option.some.inj hlast).symm
  have hanchor : anchor ([] :: collapsed) = collapsed := by
    unfold anchor
    dsimp only
    rw [hlast, if_neg (by simp [hne])]
  split
  · rename_i heq
    cases heq
    exact absurd rfl hnil
  · rw [hanchor]

theorem IgnorePattern.ofLine?_eq_ofParts? {line rest : Text} (htrim : trimLine line = '/' :: rest) (hne : rest ≠ []) :
    ofLine? line = ofParts? (patternElements ('/' :: rest)) := by
  unfold ofLine?
  rw [htrim]
  dsimp only
  rw [if_neg (by simp [hne])]
  -- the slash is no sign of negation
  show (match patternElements ('/' :: rest) with
    | none => Except.error IgnoreError.malformed
    | some (es, ending) =>
      if es.all Element.isOrdered then Except.ok (some (mk false es ending)) else Except.error IgnoreError.badRange) = _
  cases patternElements ('/' :: rest) <;> rfl

theorem IgnorePattern.ofLine?_slash (hsegs : ∀ seg ∈ segs ++ [last], '/' ∉ seg) (hne : last ≠ [])
    (hlast : ∀ c ∈ last.getLast?, Text.isBlank c = false) :
    ofLine? ('/' :: Text.joinWith '/' (segs ++ [last])) =
      ofParts? (anchoredElements (collapseStars (segs ++ [last]))) := by
  obtain ⟨start, hstart⟩ : ∃ start, '/' :: Text.joinWith '/' (segs ++ [last]) = '/' :: (start ++ last) := by
    by_cases hsegs : segs = []
    · subst hsegs
      exact ⟨[], rfl⟩
    · refine ⟨Text.joinWith '/' segs ++ ['/'], ?_⟩
      rw [Text.joinWith_append_singleton '/' hsegs, List.append_assoc]
      rfl
  have htrim : trimLine ('/' :: (start ++ last)) = '/' :: (start ++ last) := by
    refine trimLine_eq_self ?_ ?_
    · rintro c hc
      cases hc
      rfl
    · rwa [← List.cons_append, List.getLast?_append_of_ne_nil _ hne]
  rw [← patternElements_slash hsegs hne, hstart, ofLine?_eq_ofParts? htrim (by simp [hne])]

theorem dropHere_eq_self (h : ¬ ['.', '/'] <+: pattern) : dropHere pattern = pattern := by
  unfold dropHere
  cases hlength : pattern.length with
  | zero => rfl
  | succ bound =>
    unfold dropHereUpTo
    split
    · rename_i rest _
      exact absurd ⟨rest, rfl⟩ h
    · rfl

theorem not_here_isPrefix_joinWith (h : ∀ seg ∈ segs, '/' ∉ seg) (hhere : segs.head? ≠ some ['.']) :
    ¬ ['.', '/'] <+: Text.joinWith '/' segs := by
  intro hpre
  obtain ⟨rest, heq⟩ := hpre
  apply hhere
  have hne : segs ≠ [] := by
    intro hnil
    rw [hnil] at heq
    cases heq
  rw [← Text.splitOn_joinWith hne h, ← heq]
  rfl

/-- Segments are matched from the directory where they are looked for, unless they begin with the sign of negation. -/
theorem selector?_joinWith (h : ∀ seg ∈ segs ++ [last], '/' ∉ seg)
    (hhere : ¬ ['.', '/'] <+: Text.joinWith '/' (segs ++ [last]))
    (hsign : (Text.joinWith '/' (segs ++ [last])).head? ≠ some '!') (hne : last ≠ [])
    (hblank : ∀ c ∈ last.getLast?, Text.isBlank c = false) :
    selector? (Text.joinWith '/' (segs ++ [last])) =
      IgnorePattern.ofParts? (anchoredElements (collapseStars (segs ++ [last]))) := by
  have hsplit := Text.splitOn_joinWith (by simp) h
  unfold selector?
  rw [dropHere_eq_self hhere, ← IgnorePattern.ofLine?_slash h hne hblank]
  split
  · rename_i hnil
    rw [hnil] at hsplit
    -- the only segment would be empty
    have hlast := congrArg List.getLast? hsplit
    rw [List.getLast?_concat] at hlast
    exact absurd (Option.some.inj hlast).symm hne
  · rename_i heq
    rw [heq] at hsign
    exact absurd rfl hsign
  · rfl

theorem selector?_of_negated (h : pattern.head? = some '!') : selector? pattern = .ok none := by
  obtain ⟨rest, rfl⟩ := List.head?_eq_some_iff.1 h
  rfl

/-! ## 2. Segments -/

/-- Whether a segment holds none of the characters that may make it unreadable. -/
def IsReadable (seg : Text) : Prop := '\\' ∉ seg ∧ '[' ∉ seg

theorem segmentUpTo_cons_of_ne {c : Char} (hc : c ≠ '\\' ∧ c ≠ '*' ∧ c ≠ '?' ∧ c ≠ '[') (bound : Nat) (s : Text) :
    segmentUpTo (bound + 1) (c :: s) = (.literal c :: ·) <$> segmentUpTo bound s := by
  obtain ⟨hescape, hstar, hmark, hbracket⟩ := hc
  rw [segmentUpTo] <;> assumption

/-- Without backslashes and brackets every segment is compiled, to parts that are in order. -/
theorem exists_segmentUpTo {s : Text} (hs : IsReadable s) (bound : Nat) :
    ∃ es, segmentUpTo bound s = some es ∧ es.all Element.isOrdered = true := by
  -- the bound counts the characters that are still read
  induction bound generalizing s with
  | zero => exact ⟨[], rfl, rfl⟩
  | succ bound ih =>
    cases s with
    | nil => exact ⟨[], rfl, rfl⟩
    | cons c s =>
      obtain ⟨hescape, hbracket⟩ := hs
      rw [List.mem_cons, not_or] at hescape hbracket
      obtain ⟨es, hes, hordered⟩ := ih ⟨hescape.2, hbracket.2⟩
      by_cases hstar : c = '*'
      · subst hstar
        exact ⟨.nameChars :: es, by rw [segmentUpTo, hes]; rfl, by simpa [Element.isOrdered] using hordered⟩
      by_cases hmark : c = '?'
      · subst hmark
        exact ⟨.nameChar :: es, by rw [segmentUpTo, hes]; rfl, by simpa [Element.isOrdered] using hordered⟩
      refine ⟨.literal c :: es, ?_, by simpa [Element.isOrdered] using hordered⟩
      rw [segmentUpTo_cons_of_ne ⟨Ne.symm hescape.1, hstar, hmark, Ne.symm hbracket.1⟩, hes]
      rfl

theorem exists_segmentElements (hseg : IsReadable seg) :
    ∃ es, segmentElements seg = some es ∧ es.all Element.isOrdered = true := by
  unfold segmentElements
  split
  · exact ⟨[.name], rfl, rfl⟩
  · exact exists_segmentUpTo hseg _

theorem segmentElements_eq_literals (hseg : IsReadable seg) (hstar : '*' ∉ seg) (hmark : '?' ∉ seg) :
    segmentElements seg = some (seg.map .literal) := by
  have hupTo : ∀ bound (s : Text), s ⊆ seg → s.length ≤ bound → segmentUpTo bound s = some (s.map .literal) := by
    intro bound s hs hbound
    induction s generalizing bound with
    | nil => cases bound <;> rfl
    | cons c s ih =>
      have hpos : 0 < bound := Nat.lt_of_lt_of_le (Nat.succ_pos _) hbound
      obtain ⟨bound, rfl⟩ := Nat.exists_eq_add_one_of_ne_zero (Nat.ne_of_gt hpos)
      obtain ⟨hc, hs⟩ := List.cons_subset.1 hs
      have hne : ∀ d : Char, d ∉ seg → c ≠ d := fun d hd heq => hd (heq ▸ hc)
      rw [segmentUpTo_cons_of_ne ⟨hne _ hseg.1, hne _ hstar, hne _ hmark, hne _ hseg.2⟩,
        ih bound hs (Nat.le_of_succ_le_succ hbound)]
      rfl
  unfold segmentElements
  rw [if_neg, hupTo _ _ (List.Subset.refl seg) le_rfl]
  rintro rfl
  exact hstar List.mem_cons_self

/-! ## 3. A double star at the end -/

theorem exists_laterElements (hsegs : ∀ seg ∈ segs, IsReadable seg) (slash : Bool) :
    ∃ es, laterElements slash segs =
        some (es, if segs.getLast? = some doubleStar then .content else .entry) ∧
      es.all Element.isOrdered = true := by
  -- behind the first segment a slash comes before the next one
  induction segs generalizing slash with
  | nil => exact ⟨[], rfl, rfl⟩
  | cons seg segs ih =>
    obtain ⟨hseg, hsegs⟩ := List.forall_mem_cons.1 hsegs
    obtain ⟨es, hes, hordered⟩ := ih hsegs true
    rw [laterElements]
    by_cases hstars : seg = doubleStar
    · rw [if_pos hstars]
      -- a double star at the end asks for what lies below, any other one for directories within
      by_cases hrest : segs = []
      · subst hrest
        exact ⟨[], by simp [hstars], rfl⟩
      · rw [if_neg hrest, hes, List.getLast?_cons_of_ne_nil hrest]
        exact ⟨.innerDirs :: es, rfl, by simpa [Element.isOrdered] using hordered⟩
    · obtain ⟨first, hfirst, horderedFirst⟩ := exists_segmentElements hseg
      have hlast : (seg :: segs).getLast? = some doubleStar ↔ segs.getLast? = some doubleStar := by
        cases segs with
        | nil => simp [hstars]
        | cons next segs => rw [List.getLast?_cons_cons]
      rw [if_neg hstars, hes, hfirst]
      refine ⟨(if slash then [.literal '/'] else []) ++ first ++ es, ?_, ?_⟩
      · simp only [hlast]
        rfl
      · cases slash <;> simp [hordered, horderedFirst, Element.isOrdered]

theorem exists_laterElements_content (hsegs : ∀ seg ∈ segs, IsReadable seg)
    (hlast : segs.getLast? = some doubleStar) (slash : Bool) :
    ∃ es, laterElements slash segs = some (es, .content) ∧ es.all Element.isOrdered = true := by
  have h := exists_laterElements hsegs slash
  rwa [if_pos hlast] at h

/-- A double star alone asks for names in the directory itself; behind other segments it asks for what lies below. -/
theorem exists_anchoredElements_content (hsegs : ∀ seg ∈ segs, IsReadable seg)
    (hlast : segs.getLast? = some doubleStar) (hne : segs ≠ [doubleStar]) :
    ∃ es, anchoredElements segs = some (es, .content) ∧ es.all Element.isOrdered = true := by
  cases segs with
  | nil => cases hlast
  | cons seg segs =>
    cases segs with
    | nil =>
      cases hlast
      exact absurd rfl hne
    | cons next segs =>
      by_cases hstars : seg = doubleStar
      · obtain ⟨es, hes, hordered⟩ := exists_laterElements_content
          (fun s hs => hsegs s (List.mem_cons_of_mem _ hs)) hlast false
        refine ⟨.leadingDirs :: es, ?_, by simpa [Element.isOrdered] using hordered⟩
        rw [anchoredElements, if_pos hstars, hes]
        · rfl
        · exact nofun
      · obtain ⟨es, hes, hordered⟩ := exists_laterElements_content hsegs hlast false
        refine ⟨es, ?_, hordered⟩
        rw [anchoredElements, if_neg hstars, hes]
        exact nofun

/-! ## 4. Segments in front -/

theorem collapseStars_append (hsegs : doubleStar ∉ segs) (more : List Text) :
    collapseStars (segs ++ more) = segs ++ collapseStars more := by
  induction segs with
  | nil => rfl
  | cons seg segs ih =>
    rw [List.mem_cons, not_or] at hsegs
    rw [List.cons_append, collapseStars_cons_of_ne (Ne.symm hsegs.1), ih hsegs.2, List.cons_append]

theorem head?_of_collapseStars_eq {rest : List Text} (h : collapseStars segs = doubleStar :: rest) :
    rest.head? ≠ some doubleStar := by
  induction segs generalizing rest with
  | nil => cases h
  | cons seg segs ih =>
    rw [collapseStars] at h
    split at h
    · exact ih h
    · rename_i hstars
      cases h
      intro hhead
      cases segs with
      | nil => cases hhead
      | cons next segs =>
        rw [collapseStars] at hhead
        split at hhead
        -- a double star that is left stands before something else, or it would have been dropped
        · rename_i hnext
          exact hstars (by simp_all)
        · cases hhead
          exact hstars (by simp)

/-- Whether a part of a pattern may stand for some of the characters of a name. -/
def Element.IsInName : Element → Prop
  | .literal c => c ≠ '/'
  | .oneOf _ _ | .nameChar | .nameChars | .name => True
  | .anything | .leadingDirs | .innerDirs => False

theorem subset_of_splitClass? {s inside rest : Text} {negated : Bool}
    (h : splitClass? s = some (negated, inside, rest)) : rest ⊆ s := by
  have htail : ∀ {c : Char} {t u : Text}, t = c :: u → u ⊆ t := fun ht => ht ▸ List.subset_cons_self _ _
  unfold splitClass? at h
  split at h
  rename_i negated' afterSign hsign
  -- first the sign of negation is taken off, then a bracket that stands for itself, then the inside
  have hafterSign : afterSign ⊆ s := by
    split at hsign <;> cases hsign
    · exact htail rfl
    · exact htail rfl
    · exact List.Subset.refl _
  split at h
  rename_i first afterFirst hfirst
  have hafterFirst : afterFirst ⊆ afterSign := by
    split at hfirst <;> cases hfirst
    · exact htail rfl
    · exact List.Subset.refl _
  split at h
  · rename_i hdrop
    cases h
    refine List.Subset.trans (htail hdrop) (List.Subset.trans (List.dropWhile_subset _) ?_)
    exact List.Subset.trans hafterFirst hafterSign
  · cases h

theorem forall_isInName_of_map {e : Element} {x : Option (List Element)} {es : List Element}
    (h : (e :: ·) <$> x = some es) (he : e.IsInName) (hx : ∀ {es}, x = some es → ∀ e ∈ es, e.IsInName) :
    ∀ e ∈ es, e.IsInName := by
  obtain ⟨rest, hrest, rfl⟩ := Option.map_eq_some_iff.1 h
  exact List.forall_mem_cons.2 ⟨he, hx hrest⟩

theorem isInName_of_segmentUpTo {bound : Nat} {s : Text} {es : List Element} (hs : '/' ∉ s)
    (h : segmentUpTo bound s = some es) : ∀ e ∈ es, e.IsInName := by
  -- along the cases of the compiler: each part is one for characters, as no slash is left in the segment
  fun_induction segmentUpTo bound s generalizing es with
  | case1 | case2 =>
    cases h
    exact nofun
  | case3 => cases h
  | case4 bound c s ih =>
    simp only [List.mem_cons, not_or] at hs
    exact forall_isInName_of_map h (Ne.symm hs.2.1) (ih hs.2.2)
  | case5 bound s ih | case6 bound s ih =>
    exact forall_isInName_of_map h trivial (ih fun hmem => hs (List.mem_cons_of_mem _ hmem))
  | case7 bound s negated inside rest hclass ih =>
    refine forall_isInName_of_map h trivial (ih fun hmem => hs (List.mem_cons_of_mem _ ?_))
    exact subset_of_splitClass? hclass hmem
  | case8 bound s hclass ih =>
    refine forall_isInName_of_map h ?_ (ih fun hmem => hs (List.mem_cons_of_mem _ hmem))
    show '[' ≠ '/'
    decide
  | case9 bound c s _ _ _ _ ih =>
    rw [List.mem_cons, not_or] at hs
    exact forall_isInName_of_map h (Ne.symm hs.1) (ih hs.2)

theorem isInName_of_segmentElements {es : List Element} (hseg : '/' ∉ seg) (h : segmentElements seg = some es) :
    ∀ e ∈ es, e.IsInName := by
  unfold segmentElements at h
  split at h
  · cases h
    rintro e he
    obtain rfl := List.mem_singleton.1 he
    trivial
  · exact isInName_of_segmentUpTo hseg h

/-- The parts of a pattern behind a slash: directories in front are then directories within. -/
def behindSlash : List Element → List Element
  | .leadingDirs :: es => .innerDirs :: .literal '/' :: es
  | es => .literal '/' :: es

theorem behindSlash_of_isInName {first es : List Element} (hfirst : ∀ e ∈ first, e.IsInName) (hne : first ≠ []) :
    behindSlash (first ++ es) = .literal '/' :: (first ++ es) := by
  obtain ⟨e, first, rfl⟩ := List.exists_cons_of_ne_nil hne
  have he := hfirst e List.mem_cons_self
  cases e with
  | leadingDirs => exact absurd he id
  | _ => rfl

theorem firstHit_behindSlash (ending : Ending) (es : List Element) (s : Text) :
    firstHit ending (behindSlash es) s = afterChar (· = '/') (firstHit ending es) s := by
  unfold behindSlash
  split
  · rename_i es
    cases s with
    | nil => rfl
    | cons c s =>
      by_cases hc : c = '/'
      · subst hc
        rfl
      · simp [firstHit, afterChar, hc]
  · rfl

theorem firstHit_literals_append {ending : Ending} {es : List Element} {pre s : Text} {h : Hit} :
    firstHit ending (pre.map .literal ++ es) s = some h ↔ ∃ t, s = pre ++ t ∧ firstHit ending es t = some h := by
  induction pre generalizing s with
  | nil => simp
  | cons c pre ih =>
    rw [List.map_cons, List.cons_append, firstHit, afterChar_eq_some]
    constructor
    · rintro ⟨d, s, rfl, hd, hs⟩
      obtain ⟨t, rfl, ht⟩ := ih.1 hs
      exact ⟨t, by rw [of_decide_eq_true hd]; rfl, ht⟩
    · rintro ⟨t, rfl, ht⟩
      exact ⟨c, pre ++ t, rfl, decide_eq_true rfl, ih.2 ⟨t, rfl, ht⟩⟩

theorem firstHit_literals_behindSlash {ending : Ending} {es : List Element} {pre s : Text} {h : Hit} :
    firstHit ending (pre.map .literal ++ behindSlash es) s = some h ↔
      ∃ t, s = pre ++ '/' :: t ∧ firstHit ending es t = some h := by
  rw [firstHit_literals_append]
  constructor
  · rintro ⟨t, rfl, ht⟩
    rw [firstHit_behindSlash, afterChar_eq_some] at ht
    obtain ⟨c, t, rfl, hc, ht⟩ := ht
    exact ⟨t, by rw [of_decide_eq_true hc], ht⟩
  · rintro ⟨t, rfl, ht⟩
    refine ⟨'/' :: t, rfl, ?_⟩
    rw [firstHit_behindSlash]
    exact ht

theorem segmentElements_ne_nil {es : List Element} (h : segmentElements seg = some es) (hne : seg ≠ []) : es ≠ [] := by
  -- all cases put a part in front of others
  have hmap : ∀ {e : Element} {x : Option (List Element)} {es}, (e :: ·) <$> x = some es → es ≠ [] := by
    intro e x es h
    obtain ⟨rest, -, rfl⟩ := Option.map_eq_some_iff.1 h
    exact List.cons_ne_nil e rest
  unfold segmentElements at h
  split at h
  · cases h
    exact List.cons_ne_nil _ _
  · obtain ⟨c, s, rfl⟩ := List.exists_cons_of_ne_nil hne
    rw [List.length_cons] at h
    generalize s.length = bound at h
    unfold segmentUpTo at h
    split at h
    · rename_i heq
      cases heq
    · rename_i heq
      cases heq
    · split at h
      · cases h
      · exact hmap h
    · exact hmap h
    · exact hmap h
    · split at h
      · exact hmap h
      · exact hmap h
    · exact hmap h

/-- Whether segments can stand behind others: none is empty, the last one is no double star, and no two double stars
begin them. -/
structure AreSegments (segs : List Text) : Prop where
  isName : ∀ seg ∈ segs, seg ≠ [] ∧ '/' ∉ seg
  stars : ∀ rest, segs = doubleStar :: rest → rest.head? ≠ some doubleStar
  last : segs.getLast? ≠ some doubleStar

theorem AreSegments.collapse (hsegs : ∀ seg ∈ segs, seg ≠ [] ∧ '/' ∉ seg) (hlast : segs.getLast? ≠ some doubleStar) :
    AreSegments (collapseStars segs) where
  isName seg hseg := hsegs seg (mem_of_mem_collapseStars hseg)
  stars _ h := head?_of_collapseStars_eq h
  last := by rwa [getLast?_collapseStars]

theorem laterElements_of_ne (hseg : seg ≠ doubleStar) (slash : Bool) (segs : List Text) :
    laterElements slash (seg :: segs) = (segmentElements seg).bind fun first =>
      (laterElements true segs).map fun x => ((if slash then [.literal '/'] else []) ++ first ++ x.1, x.2) := by
  rw [laterElements, if_neg hseg]
  cases segmentElements seg <;> cases laterElements true segs <;> rfl

theorem laterElements_true_of_ne (hseg : seg ≠ doubleStar) (segs : List Text) :
    laterElements true (seg :: segs) =
      (laterElements false (seg :: segs)).map fun x => (.literal '/' :: x.1, x.2) := by
  rw [laterElements_of_ne hseg, laterElements_of_ne hseg]
  cases segmentElements seg <;> cases laterElements true segs <;> rfl

theorem anchoredElements_of_ne (hseg : seg ≠ doubleStar) (segs : List Text) :
    anchoredElements (seg :: segs) = laterElements false (seg :: segs) := by
  cases segs with
  | nil =>
    rw [anchoredElements, if_neg hseg, laterElements_of_ne hseg]
    cases segmentElements seg with
    | none => rfl
    | some es => simp [laterElements]
  | cons next segs =>
    rw [anchoredElements, if_neg hseg]
    exact nofun

/-- Segments behind a slash are compiled to the parts that they are compiled to by themselves. -/
theorem laterElements_true (h : AreSegments segs) (hne : segs ≠ []) :
    laterElements true segs = (anchoredElements segs).map fun x => (behindSlash x.1, x.2) := by
  obtain ⟨seg, rest, rfl⟩ := List.exists_cons_of_ne_nil hne
  by_cases hstars : seg = doubleStar
  · subst hstars
    cases rest with
    | nil => exact absurd rfl h.last
    | cons next rest =>
      -- directories in front become directories within
      have hnext : next ≠ doubleStar := by
        rintro rfl
        exact h.stars _ rfl rfl
      have hanchored : anchoredElements (doubleStar :: next :: rest) =
          (laterElements false (next :: rest)).map fun x => (.leadingDirs :: x.1, x.2) := by
        rw [anchoredElements, if_pos rfl]
        · rfl
        · exact nofun
      rw [hanchored, laterElements, if_pos rfl, if_neg (List.cons_ne_nil next rest), laterElements_true_of_ne hnext]
      cases laterElements false (next :: rest) <;> rfl
  · have hseg := h.isName seg List.mem_cons_self
    rw [anchoredElements_of_ne hstars, laterElements_true_of_ne hstars, laterElements_of_ne hstars]
    cases hfirst : segmentElements seg with
    | none => rfl
    | some first =>
      cases laterElements true rest with
      | none => rfl
      | some x =>
        have hbehind : behindSlash (first ++ x.1) = .literal '/' :: (first ++ x.1) :=
          behindSlash_of_isInName (isInName_of_segmentElements hseg.2 hfirst) (segmentElements_ne_nil hfirst hseg.1)
        simp only [Option.bind_some, Option.map_some, Bool.false_eq_true, if_false, List.nil_append, hbehind]

/-- Whether a segment has no characters that stand for others. -/
def IsVerbatim (seg : Text) : Prop := IsReadable seg ∧ '*' ∉ seg ∧ '?' ∉ seg

theorem IsVerbatim.ne_doubleStar (h : IsVerbatim seg) : seg ≠ doubleStar := by
  rintro rfl
  exact h.2.1 List.mem_cons_self

theorem laterElements_append {fixed : List Text} (hseg : IsVerbatim seg) (hfixed : ∀ seg ∈ fixed, IsVerbatim seg)
    (slash : Bool) (segs : List Text) :
    laterElements slash (seg :: (fixed ++ segs)) = (laterElements true segs).map fun x =>
      ((if slash then [.literal '/'] else []) ++ (Text.joinWith '/' (seg :: fixed)).map .literal ++ x.1, x.2) := by
  induction fixed generalizing seg slash with
  | nil =>
    rw [List.nil_append, laterElements_of_ne hseg.ne_doubleStar,
      segmentElements_eq_literals hseg.1 hseg.2.1 hseg.2.2]
    rfl
  | cons next fixed ih =>
    obtain ⟨hnext, hfixed⟩ := List.forall_mem_cons.1 hfixed
    rw [List.cons_append, laterElements_of_ne hseg.ne_doubleStar, ih hnext hfixed,
      segmentElements_eq_literals hseg.1 hseg.2.1 hseg.2.2, Text.joinWith_cons_cons]
    cases laterElements true segs with
    | none => rfl
    | some x => simp

theorem anchoredElements_append {fixed : List Text} (hfixed : ∀ seg ∈ fixed, IsVerbatim seg) (hne : fixed ≠ [])
    (h : AreSegments segs) (hsegs : segs ≠ []) :
    anchoredElements (fixed ++ segs) = (anchoredElements segs).map fun x =>
      ((Text.joinWith '/' fixed).map .literal ++ behindSlash x.1, x.2) := by
  obtain ⟨seg, fixed, rfl⟩ := List.exists_cons_of_ne_nil hne
  obtain ⟨hseg, hfixed⟩ := List.forall_mem_cons.1 hfixed
  rw [List.cons_append, anchoredElements_of_ne hseg.ne_doubleStar, laterElements_append hseg hfixed,
    laterElements_true h hsegs]
  cases anchoredElements segs <;> rfl

/-- A pattern behind a directory. -/
def IgnorePattern.behind (directory : Text) (p : IgnorePattern) : IgnorePattern :=
  { p with elements := directory.map .literal ++ behindSlash p.elements }

theorem IgnorePattern.selects_behind {directory s : Text} {p : IgnorePattern} :
    (p.behind directory).selects s = true ↔ ∃ t, s = directory ++ '/' :: t ∧ p.selects t = true := by
  unfold selects hit? behind
  simp only [beq_iff_eq]
  exact firstHit_literals_behindSlash

theorem all_isOrdered_behindSlash (es : List Element) :
    (behindSlash es).all Element.isOrdered = es.all Element.isOrdered := by
  unfold behindSlash
  split <;> simp [Element.isOrdered]

theorem all_isOrdered_behind (directory : Text) (es : List Element) :
    (directory.map Element.literal ++ behindSlash es).all Element.isOrdered = es.all Element.isOrdered := by
  have hliterals : (directory.map Element.literal).all Element.isOrdered = true := by
    simp [List.all_map, Element.isOrdered]
  rw [List.all_append, hliterals, all_isOrdered_behindSlash, Bool.true_and]

/-- Segments behind ordinary ones are compiled to the pattern that they are compiled to by themselves, behind the
directory that those name. -/
theorem IgnorePattern.ofParts?_append {fixed : List Text} (hfixed : ∀ seg ∈ fixed, IsVerbatim seg) (hne : fixed ≠ [])
    (h : AreSegments segs) (hsegs : segs ≠ []) :
    ofParts? (anchoredElements (fixed ++ segs)) =
      (Option.map (behind (Text.joinWith '/' fixed))) <$> ofParts? (anchoredElements segs) := by
  rw [anchoredElements_append hfixed hne h hsegs]
  cases anchoredElements segs with
  | none => rfl
  | some parts =>
    rw [Option.map_some, ofParts?, ofParts?, all_isOrdered_behind]
    split <;> rfl

def IgnorePattern.behindAll (fixed : List Text) (p : IgnorePattern) : IgnorePattern :=
  if fixed = [] then p else p.behind (Text.joinWith '/' fixed)

/-- Behind some segments a pattern selects what it selects by itself, with these segments before it. -/
theorem IgnorePattern.selects_behindAll {fixed way : List Text} {p : IgnorePattern} (hfixed : ∀ seg ∈ fixed, '/' ∉ seg)
    (hway : ∀ n ∈ way, '/' ∉ n) (hne : way ≠ []) :
    (p.behindAll fixed).selects (Text.joinWith '/' way) = true ↔
      ∃ rest, way = fixed ++ rest ∧ rest ≠ [] ∧ p.selects (Text.joinWith '/' rest) = true := by
  unfold behindAll
  split
  · rename_i hnil
    subst hnil
    constructor
    · intro h
      exact ⟨way, rfl, hne, h⟩
    · rintro ⟨rest, rfl, -, h⟩
      exact h
  · rename_i hfixedNil
    rw [selects_behind]
    constructor
    · rintro ⟨t, htext, ht⟩
      refine ⟨Text.splitOn '/' t, ?_, Text.splitOn_ne_nil '/' t, by rwa [Text.joinWith_splitOn]⟩
      rw [← Text.splitOn_joinWith hne hway, htext, Text.splitOn_append, Text.splitOn_joinWith hfixedNil hfixed]
    · rintro ⟨rest, rfl, hrest, h⟩
      exact ⟨_, Text.joinWith_append '/' hfixedNil hrest, h⟩

/-! ## 5. The last part -/

/-- Whether the last of some parts, if there is one, may stand for characters of a name. -/
def EndsInName (es : List Element) : Prop := ∀ e ∈ es.getLast?, e.IsInName

theorem EndsInName.append {es' : List Element} (h : EndsInName es') (hne : es' ≠ []) (es : List Element) :
    EndsInName (es ++ es') := by
  unfold EndsInName
  rwa [List.getLast?_append_of_ne_nil _ hne]

theorem endsInName_of_forall {es : List Element} (h : ∀ e ∈ es, e.IsInName) : EndsInName es :=
  fun e he => h e (List.mem_of_getLast? he)

/-- Segments that name an entry end in a part that may stand for characters of its name. -/
theorem endsInName_laterElements {slash : Bool} {es : List Element} (hsegs : ∀ seg ∈ segs, '/' ∉ seg)
    (hne : segs ≠ []) (hlast : segs.getLast? ≠ some []) (h : laterElements slash segs = some (es, .entry)) :
    es ≠ [] ∧ EndsInName es := by
  -- only the last segment decides, but those before it must leave something behind them
  induction segs generalizing slash es with
  | nil => exact absurd rfl hne
  | cons seg segs ih =>
    obtain ⟨hseg, hsegs⟩ := List.forall_mem_cons.1 hsegs
    by_cases hstars : seg = doubleStar
    · rw [laterElements, if_pos hstars] at h
      split at h
      · cases h
      · rename_i hrest
        rw [List.getLast?_cons_of_ne_nil hrest] at hlast
        obtain ⟨⟨es, ending⟩, hes, heq⟩ := Option.map_eq_some_iff.1 h
        cases heq
        obtain ⟨hesNil, hends⟩ := ih hsegs hrest hlast hes
        exact ⟨List.cons_ne_nil _ _, hends.append hesNil [.innerDirs]⟩
    · rw [laterElements_of_ne hstars] at h
      obtain ⟨first, hfirst, h⟩ := Option.bind_eq_some_iff.1 h
      obtain ⟨⟨later, ending⟩, hlater, heq⟩ := Option.map_eq_some_iff.1 h
      cases heq
      by_cases hrest : segs = []
      · subst hrest
        cases hlater
        have hfirstNil := segmentElements_ne_nil hfirst fun hnil => hlast (hnil ▸ rfl)
        rw [List.append_nil]
        exact ⟨List.append_ne_nil_of_right_ne_nil _ hfirstNil,
          (endsInName_of_forall (isInName_of_segmentElements hseg hfirst)).append hfirstNil _⟩
      · rw [List.getLast?_cons_of_ne_nil hrest] at hlast
        obtain ⟨hlaterNil, hends⟩ := ih hsegs hrest hlast hlater
        exact ⟨List.append_ne_nil_of_right_ne_nil _ hlaterNil, hends.append hlaterNil _⟩

theorem endsInName_anchoredElements {es : List Element} (hsegs : ∀ seg ∈ segs, '/' ∉ seg)
    (hlast : 1 < segs.length → segs.getLast? ≠ some []) (h : anchoredElements segs = some (es, .entry)) :
    EndsInName es := by
  cases segs with
  | nil => cases h
  | cons seg segs =>
    obtain ⟨hseg, hrest⟩ := List.forall_mem_cons.1 hsegs
    cases segs with
    | nil =>
      rw [anchoredElements] at h
      split at h
      · cases h
        -- a double star alone is any name
        exact endsInName_of_forall (List.forall_mem_singleton.2 trivial)
      · obtain ⟨first, hfirst, heq⟩ := Option.map_eq_some_iff.1 h
        cases heq
        exact endsInName_of_forall (isInName_of_segmentElements hseg hfirst)
    | cons next segs =>
      have hlast := hlast (by simp)
      by_cases hstars : seg = doubleStar
      · rw [anchoredElements, if_pos hstars] at h
        · obtain ⟨⟨later, ending⟩, hlater, heq⟩ := Option.map_eq_some_iff.1 h
          cases heq
          obtain ⟨hne, hends⟩ := endsInName_laterElements hrest (List.cons_ne_nil _ _)
            (by rwa [List.getLast?_cons_cons] at hlast) hlater
          exact hends.append hne [.leadingDirs]
        · exact nofun
      · rw [anchoredElements_of_ne hstars] at h
        exact (endsInName_laterElements hsegs (List.cons_ne_nil _ _) hlast h).2

/-- Of several segments from the start of the path the last one is not empty. -/
theorem anchor_spec (hsegs : ∀ seg ∈ segs, '/' ∉ seg) :
    (∀ seg ∈ anchor segs, '/' ∉ seg) ∧ (1 < (anchor segs).length → (anchor segs).getLast? ≠ some []) := by
  have hstars : '/' ∉ doubleStar := by decide
  -- a slash at the end is replaced by a double star, whatever is done at the start
  have hend : ∀ ss : List Text, (∀ seg ∈ ss, '/' ∉ seg) →
      let ss' := if ss.length > 1 && ss.getLast? == some [] then ss.dropLast ++ [doubleStar] else ss
      (∀ seg ∈ ss', '/' ∉ seg) ∧ (1 < ss'.length → ss'.getLast? ≠ some []) := by
    intro ss hss
    dsimp only
    split
    · refine ⟨fun seg hseg => ?_, fun _ => by rw [List.getLast?_concat]; decide⟩
      rcases List.mem_append.1 hseg with hseg | hseg
      · exact hss seg (List.dropLast_subset _ hseg)
      · rwa [List.mem_singleton.1 hseg]
    · rename_i hlong
      refine ⟨hss, fun hlength hlast => hlong ?_⟩
      simp [hlength, hlast]
  unfold anchor
  refine hend _ ?_
  split
  · exact (List.forall_mem_cons.1 hsegs).2
  · split
    · exact hsegs
    · exact List.forall_mem_cons.2 ⟨hstars, hsegs⟩
  · split
    · exact hsegs
    · exact List.forall_mem_cons.2 ⟨hstars, hsegs⟩
  · exact hsegs

/-- A line that names an entry ends in a part that may stand for characters of its name. -/
theorem IgnorePattern.endsInName_of_ofLine? {line : Text} {p : IgnorePattern} (h : ofLine? line = .ok (some p))
    (hentry : p.ending = .entry) : EndsInName p.elements := by
  -- a single segment and several ones are put together in different ways, both from the start of the path
  have hparts : ∀ {pattern es}, patternElements pattern = some (es, .entry) → EndsInName es := by
    intro pattern es hes
    have hsegs : ∀ seg ∈ collapseStars (pattern.splitOn '/'), '/' ∉ seg := fun seg hseg =>
      Text.not_mem_of_mem_splitOn (mem_of_mem_collapseStars hseg)
    unfold patternElements at hes
    split at hes
    · rename_i seg heq
      split at hes
      · cases hes
      · obtain ⟨hslash, hlast⟩ := anchor_spec (heq ▸ hsegs)
        exact endsInName_anchoredElements hslash hlast hes
    · obtain ⟨hslash, hlast⟩ := anchor_spec hsegs
      exact endsInName_anchoredElements hslash hlast hes
  unfold ofLine? at h
  dsimp only at h
  split at h
  · cases h
  split at h
  · cases h
  · rename_i es ending hes
    split at h
    · cases h
      cases hentry
      exact hparts hes
    · cases h

end AssetEmbed.Glob
