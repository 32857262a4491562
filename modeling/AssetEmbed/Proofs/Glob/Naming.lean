import AssetEmbed.Proofs.Glob.Compiling

/-!
# Naming — patterns read segment by segment

A path is matched by one search that goes back and forth, and only the first match that it finds tells whether the
path itself is named or lies below.  Still a pattern selects what its segments say: a double star stands for any number
of names and every other segment for one.  The order of the search does not matter because a double star tries its
longest extent first: if the path itself can be named at all, it is named before anything above it.
-/

namespace AssetEmbed.Glob

/-! ## 1. Segments and names -/

/-- Whether a segment matches a name: a star stands for any characters, a question mark for any one. -/
def MatchesName : (segment name : Text) → Prop
  | [], name => name = []
  | c :: segment, name =>
    if c = '*' then ∃ a b, name = a ++ b ∧ MatchesName segment b
    else ∃ d b, name = d :: b ∧ (c = '?' ∨ c = d) ∧ MatchesName segment b

/-- Whether segments match the names of a path: a double star stands for any names, every other segment for one. -/
def MatchesNames : (segs names : List Text) → Prop
  | [], names => names = []
  | seg :: segs, names =>
    if seg = doubleStar then ∃ a b, names = a ++ b ∧ MatchesNames segs b
    else ∃ n rest, names = n :: rest ∧ MatchesName seg n ∧ MatchesNames segs rest

variable {seg : Text} {segs names : List Text} {es : List Element} {h : Hit}

theorem matchesNames_doubleStar :
    MatchesNames (doubleStar :: segs) names ↔ ∃ a b, names = a ++ b ∧ MatchesNames segs b := by
  rw [MatchesNames, if_pos rfl]

theorem matchesNames_cons (hseg : seg ≠ doubleStar) :
    MatchesNames (seg :: segs) names ↔ ∃ n rest, names = n :: rest ∧ MatchesName seg n ∧ MatchesNames segs rest := by
  rw [MatchesNames, if_neg hseg]

/-- A run of double stars stands for what one of them stands for. -/
theorem matchesNames_collapseStars (segs names : List Text) :
    MatchesNames (collapseStars segs) names ↔ MatchesNames segs names := by
  induction segs generalizing names with
  | nil => exact Iff.rfl
  | cons seg segs ih =>
    rw [collapseStars]
    split
    · rename_i hstars
      rw [Bool.and_eq_true, decide_eq_true_eq, beq_iff_eq] at hstars
      obtain ⟨hseg, hnext⟩ := hstars
      obtain ⟨rest, rfl⟩ := List.head?_eq_some_iff.1 hnext
      subst hseg
      rw [ih]
      -- two double stars in a row take what one of them takes: the one takes nothing, or both parts together
      constructor
      · intro hmatches
        exact matchesNames_doubleStar.2 ⟨[], names, rfl, hmatches⟩
      · intro hmatches
        obtain ⟨a, _, rfl, hrest⟩ := matchesNames_doubleStar.1 hmatches
        obtain ⟨b, c, rfl, hc⟩ := matchesNames_doubleStar.1 hrest
        exact matchesNames_doubleStar.2 ⟨a ++ b, c, (List.append_assoc a b c).symm, hc⟩
    · by_cases hseg : seg = doubleStar
      · subst hseg
        simp only [matchesNames_doubleStar, ih]
      · simp only [matchesNames_cons hseg, ih]

/-- Segments that match some names, and also match more names on both sides of them, match those with the names behind
them only: the last double star takes what stands between. -/
theorem MatchesNames.extend {before names after : List Text} (hnames : MatchesNames segs names)
    (hall : MatchesNames segs (before ++ (names ++ after))) : MatchesNames segs (names ++ after) := by
  induction segs generalizing before names with
  | nil =>
    obtain rfl : names = [] := hnames
    have hnil : before ++ ([] ++ after) = [] := hall
    exact (List.append_eq_nil_iff.1 hnil).2
  | cons seg segs ih =>
    by_cases hseg : seg = doubleStar
    · subst hseg
      rw [matchesNames_doubleStar] at hnames hall ⊢
      obtain ⟨x, rest, rfl, hrest⟩ := hnames
      obtain ⟨y, rest', hsplit, hrest'⟩ := hall
      rcases List.append_eq_append_iff.1 hsplit with ⟨more, -, hmore⟩ | ⟨more, -, hmore⟩
      · exact ⟨more, rest', hmore, hrest'⟩
      · -- the segments behind the double star reach back over its first extent
        rw [hmore, List.append_assoc x, ← List.append_assoc more] at hrest'
        exact ⟨x, rest ++ after, List.append_assoc x rest after, ih hrest hrest'⟩
    · rw [matchesNames_cons hseg] at hnames hall ⊢
      obtain ⟨n, rest, rfl, hn, hrest⟩ := hnames
      obtain ⟨m, rest', hsplit, hm, hrest'⟩ := hall
      refine ⟨n, rest ++ after, rfl, hn, ?_⟩
      -- the first name of the longer list is another one, unless nothing stands before
      cases before with
      | nil =>
        cases hsplit
        exact hrest'
      | cons b before =>
        have htail : rest' = (before ++ [n]) ++ (rest ++ after) := by
          have htail := (List.cons.inj hsplit).2
          simp [← htail]
        rw [htail] at hrest'
        exact ih hrest hrest'

/-! ## 2. One segment -/

theorem matchesName_star {segment name : Text} :
    MatchesName ('*' :: segment) name ↔ ∃ a b, name = a ++ b ∧ MatchesName segment b := by
  rw [MatchesName, if_pos rfl]

theorem matchesName_cons {c : Char} {segment name : Text} (hc : c ≠ '*') :
    MatchesName (c :: segment) name ↔ ∃ d b, name = d :: b ∧ (c = '?' ∨ c = d) ∧ MatchesName segment b := by
  rw [MatchesName, if_neg hc]

theorem takes_cons_nameChars {rest : List Element} {segment : Text}
    (hrest : ∀ a, Takes rest a ↔ MatchesName segment a ∧ '/' ∉ a) (a : Text) :
    Takes (.nameChars :: rest) a ↔ MatchesName ('*' :: segment) a ∧ '/' ∉ a := by
  rw [matchesName_star]
  constructor
  · intro htakes
    obtain ⟨x, y, rfl, hx, hy⟩ := htakes
    obtain ⟨hmatches, hy⟩ := (hrest y).1 hy
    exact ⟨⟨x, y, rfl, hmatches⟩, List.not_mem_append hx hy⟩
  · intro hmatches
    obtain ⟨⟨x, y, rfl, hmatches⟩, hno⟩ := hmatches
    rw [List.mem_append, not_or] at hno
    exact ⟨x, y, rfl, hno.1, (hrest y).2 ⟨hmatches, hno.2⟩⟩

/-- A part for one character takes what the character of the segment stands for, be it itself or any other one. -/
theorem takes_cons_char {e : Element} {rest : List Element} {c : Char} {segment : Text} (hc : c ≠ '*')
    (he : ∀ x, e.Takes x ↔ ∃ d, x = [d] ∧ (c = '?' ∨ c = d) ∧ d ≠ '/')
    (hrest : ∀ a, Takes rest a ↔ MatchesName segment a ∧ '/' ∉ a) (a : Text) :
    Takes (e :: rest) a ↔ MatchesName (c :: segment) a ∧ '/' ∉ a := by
  rw [matchesName_cons hc]
  constructor
  · intro htakes
    obtain ⟨x, y, rfl, hx, hy⟩ := htakes
    obtain ⟨d, rfl, hd, hslash⟩ := (he x).1 hx
    obtain ⟨hmatches, hy⟩ := (hrest y).1 hy
    exact ⟨⟨d, y, rfl, hd, hmatches⟩, List.not_mem_cons_of_ne_of_not_mem (Ne.symm hslash) hy⟩
  · intro hmatches
    obtain ⟨⟨d, y, rfl, hd, hmatches⟩, hno⟩ := hmatches
    rw [List.mem_cons, not_or] at hno
    exact ⟨[d], y, rfl, (he _).2 ⟨d, rfl, hd, Ne.symm hno.1⟩, (hrest y).2 ⟨hmatches, hno.2⟩⟩

theorem takes_segmentUpTo {bound : Nat} {s : Text} (hs : IsReadable s) (hslash : '/' ∉ s) (hbound : s.length ≤ bound)
    (hes : segmentUpTo bound s = some es) (a : Text) : Takes es a ↔ MatchesName s a ∧ '/' ∉ a := by
  induction s generalizing bound es a with
  | nil =>
    obtain rfl : es = [] := by
      cases bound <;> exact (Option.some.inj hes).symm
    constructor
    · intro htakes
      obtain rfl : a = [] := htakes
      exact ⟨rfl, List.not_mem_nil⟩
    · intro hmatches
      exact hmatches.1
  | cons c s ih =>
    obtain ⟨bound, rfl⟩ := Nat.exists_eq_add_one_of_ne_zero (Nat.ne_of_gt (Nat.lt_of_lt_of_le (Nat.succ_pos _) hbound))
    have hbound := Nat.le_of_succ_le_succ hbound
    obtain ⟨hescape, hbracket⟩ := hs
    rw [List.mem_cons, not_or] at hescape hbracket hslash
    have ih : ∀ {es}, segmentUpTo bound s = some es → ∀ a, Takes es a ↔ MatchesName s a ∧ '/' ∉ a :=
      fun hes a => ih ⟨hescape.2, hbracket.2⟩ hslash.2 hbound hes a
    by_cases hstar : c = '*'
    · subst hstar
      rw [segmentUpTo] at hes
      obtain ⟨rest, hrest, rfl⟩ := Option.map_eq_some_iff.1 hes
      exact takes_cons_nameChars (ih hrest) a
    by_cases hmark : c = '?'
    · subst hmark
      rw [segmentUpTo] at hes
      obtain ⟨rest, hrest, rfl⟩ := Option.map_eq_some_iff.1 hes
      exact takes_cons_char hstar (fun x => by simp [Element.Takes]) (ih hrest) a
    · -- without backslashes and brackets, every other character stands for itself
      rw [segmentUpTo_cons_of_ne ⟨Ne.symm hescape.1, hstar, hmark, Ne.symm hbracket.1⟩] at hes
      obtain ⟨rest, hrest, rfl⟩ := Option.map_eq_some_iff.1 hes
      refine takes_cons_char hstar (fun x => ?_) (ih hrest) a
      constructor
      · intro hx
        exact ⟨c, hx, .inr rfl, Ne.symm hslash.1⟩
      · intro hx
        obtain ⟨d, rfl, hd, -⟩ := hx
        exact congrArg (fun d => [d]) (hd.resolve_left hmark).symm

theorem takes_segmentElements (hseg : IsReadable seg) (hslash : '/' ∉ seg) (hes : segmentElements seg = some es)
    {a : Text} (ha : a ≠ []) : Takes es a ↔ MatchesName seg a ∧ '/' ∉ a := by
  unfold segmentElements at hes
  split at hes
  · rename_i hstar
    cases hes
    subst hstar
    rw [takes_singleton]
    constructor
    · intro htakes
      exact ⟨matchesName_star.2 ⟨a, [], (List.append_nil a).symm, rfl⟩, htakes.2⟩
    · intro hmatches
      exact ⟨ha, hmatches.2⟩
  · exact takes_segmentUpTo hseg hslash (Nat.le_refl _) hes a

/-! ## 3. Paths name by name -/

/-- Whether a text can be a name in a path without line breaks. -/
structure IsPathName (n : Text) : Prop where
  ne_nil : n ≠ []
  slash : '/' ∉ n
  lineBreak : '\n' ∉ n

def slashed (names : List Text) : Text := names.flatMap ('/' :: ·)

def AtSlash (s : Text) : Prop := ∀ c ∈ s.head?, c = '/'

@[simp] theorem slashed_nil : slashed [] = [] := rfl

theorem slashed_cons (n : Text) (names : List Text) : slashed (n :: names) = '/' :: (n ++ slashed names) := rfl

theorem slashed_append (a b : List Text) : slashed (a ++ b) = slashed a ++ slashed b := List.flatMap_append

theorem slash_joinWith (hne : names ≠ []) : '/' :: Text.joinWith '/' names = slashed names := by
  induction names with
  | nil => exact absurd rfl hne
  | cons n names ih =>
    cases names with
    | nil => rw [slashed_cons, slashed_nil, List.append_nil, Text.joinWith]
    | cons m names => rw [Text.joinWith_cons_cons, ih (List.cons_ne_nil m names), slashed_cons n]

theorem lineBreak_not_mem_slashed (hnames : ∀ n ∈ names, IsPathName n) : '\n' ∉ slashed names := by
  intro hmem
  obtain ⟨n, hn, hmem⟩ := List.mem_flatMap.1 hmem
  rcases List.mem_cons.1 hmem with heq | hmem
  · exact absurd heq (by decide)
  · exact (hnames n hn).lineBreak hmem

theorem atSlash_slashed (names : List Text) : AtSlash (slashed names) := by
  cases names with
  | nil => exact nofun
  | cons n names =>
    intro c hc
    exact (Option.some.inj hc).symm

theorem eq_nil_of_atSlash_append {a b : Text} (ha : '/' ∉ a) (h : AtSlash (a ++ b)) : a = [] := by
  cases a with
  | nil => rfl
  | cons c a =>
    have hc : c = '/' := h c rfl
    exact absurd (hc ▸ List.mem_cons_self) ha

theorem append_inj_of_atSlash {n t a b : Text} (hn : '/' ∉ n) (ht : AtSlash t) (ha : '/' ∉ a) (hb : AtSlash b)
    (h : n ++ t = a ++ b) : n = a ∧ t = b := by
  rcases List.append_eq_append_iff.1 h with ⟨x, rfl, rfl⟩ | ⟨x, rfl, rfl⟩
  · rw [List.mem_append, not_or] at ha
    obtain rfl := eq_nil_of_atSlash_append ha.2 ht
    exact ⟨(List.append_nil n).symm, rfl⟩
  · rw [List.mem_append, not_or] at hn
    obtain rfl := eq_nil_of_atSlash_append hn.2 hb
    exact ⟨List.append_nil a, rfl⟩

/-! ## 4. Parts behind a name -/

/-- Whether some parts match nothing but what is empty or begins with a slash. -/
def BeginAtSlash (es : List Element) : Prop :=
  ∀ s h, '\n' ∉ s → firstHit .entry es s = some h → AtSlash s

theorem beginAtSlash_nil : BeginAtSlash [] := by
  intro s h hs hhit c hc
  obtain ⟨t, rfl⟩ := List.head?_eq_some_iff.1 hc
  -- an entry ends where the path ends or where a slash follows, and not at any other character
  by_contra hslash
  have hbelow : isBelow (c :: t) = false := by
    unfold isBelow
    split
    · rename_i heq
      exact absurd (List.cons.inj heq).1 hslash
    · rfl
  have hend : Text.isAtEnd (c :: t) = false := by
    unfold Text.isAtEnd
    rw [Bool.or_eq_false_iff, decide_eq_false_iff_not, decide_eq_false_iff_not]
    refine ⟨List.cons_ne_nil c t, fun heq => hs ?_⟩
    rw [heq]
    exact List.mem_cons_self
  have hnone : firstHit .entry [] (c :: t) = none := by
    show Ending.entry.hit? (c :: t) = none
    rw [Ending.hit?, hbelow, hend]
    rfl
  rw [hnone] at hhit
  cases hhit

theorem beginAtSlash_cons_literal (es : List Element) : BeginAtSlash (.literal '/' :: es) := by
  intro s h _ hhit c hc
  obtain ⟨d, t, rfl, hd, -⟩ := afterChar_eq_some.1 hhit
  cases hc
  exact of_decide_eq_true hd

theorem BeginAtSlash.cons_innerDirs (hes : BeginAtSlash es) : BeginAtSlash (.innerDirs :: es) := by
  intro s h hs hhit
  rcases (Option.orElse_eq_some _ _ _).1 hhit with hdirs | ⟨-, hrest⟩
  · obtain ⟨d, t, rfl, hd, -⟩ := afterChar_eq_some.1 hdirs
    intro c hc
    cases hc
    exact of_decide_eq_true hd
  · exact hes s h hs hrest

/-- The parts of a segment take one name, and what stands behind them sees the rest of the path. -/
theorem firstHit_segmentElements_append {first : List Element} {n t : Text} (hseg : IsReadable seg) (hslash : '/' ∉ seg)
    (hfirst : segmentElements seg = some first) (hes : BeginAtSlash es) (hn : IsPathName n) (ht : AtSlash t)
    (hbreak : '\n' ∉ t) :
    firstHit .entry (first ++ es) (n ++ t) = some h ↔ MatchesName seg n ∧ firstHit .entry es t = some h := by
  have htakes : ∀ {a}, a ≠ [] → (Takes first a ↔ MatchesName seg a ∧ '/' ∉ a) :=
    takes_segmentElements hseg hslash hfirst
  -- what the first parts take ends at a slash, and so does the name: they are the same
  have hcut : ∀ {hit}, firstHit .entry (first ++ es) (n ++ t) = some hit →
      MatchesName seg n ∧ firstHit .entry es t = some hit := by
    intro hit hhit
    obtain ⟨a, b, hsplit, ha, hb⟩ := exists_takes_of_firstHit_append hhit
    have hbAt : AtSlash b := by
      apply hes b hit _ hb
      intro hmem
      have hmem : '\n' ∈ n ++ t := hsplit ▸ List.mem_append_right a hmem
      exact (List.mem_append.1 hmem).elim hn.lineBreak hbreak
    have hne : a ≠ [] := by
      rintro rfl
      rw [List.nil_append] at hsplit
      exact hn.ne_nil (eq_nil_of_atSlash_append hn.slash (hsplit ▸ hbAt))
    obtain ⟨hmatches, haSlash⟩ := (htakes hne).1 ha
    obtain ⟨rfl, rfl⟩ := append_inj_of_atSlash hn.slash ht haSlash hbAt hsplit
    exact ⟨hmatches, hb⟩
  constructor
  · exact hcut
  · intro hmatches
    obtain ⟨hmatches, hhit⟩ := hmatches
    -- there is a match, and any match is one of what stands behind
    have hsome : (firstHit .entry (first ++ es) (n ++ t)).isSome = true :=
      isSome_firstHit_append ((htakes hn.ne_nil).2 ⟨hmatches, hn.slash⟩) (Option.isSome_of_eq_some hhit)
    obtain ⟨hit, hfound⟩ := Option.isSome_iff_exists.1 hsome
    rw [hfound, ← hhit, (hcut hfound).2]

/-! ## 5. Double stars -/

theorem afterRun_name_append (hes : BeginAtSlash es) {n t : Text} (hslash : '/' ∉ n) (hn : '\n' ∉ n) (ht : '\n' ∉ t) :
    afterRun (· ≠ '\n') (firstHit .entry es) (n ++ t) = afterRun (· ≠ '\n') (firstHit .entry es) t := by
  induction n with
  | nil => rfl
  | cons c n ih =>
    rw [List.mem_cons, not_or] at hslash hn
    -- within the name the continuation would have to begin with a slash
    have hnone : firstHit .entry es (c :: (n ++ t)) = none := by
      rw [Option.eq_none_iff_forall_ne_some]
      intro hit hhit
      have hbreak : '\n' ∉ c :: (n ++ t) := by simp [hn.1, hn.2, ht]
      exact hslash.1 (hes _ hit hbreak hhit c rfl).symm
    rw [List.cons_append, afterRun, if_pos (decide_eq_true (Ne.symm hn.1)), hnone, ih hslash.2 hn.2]
    cases afterRun (· ≠ '\n') (firstHit .entry es) t <;> rfl

theorem afterRun_slashed_cons (hes : BeginAtSlash es) {n : Text} (hn : IsPathName n)
    (hnames : ∀ n ∈ names, IsPathName n) :
    afterRun (· ≠ '\n') (firstHit .entry es) (slashed (n :: names)) =
      (afterRun (· ≠ '\n') (firstHit .entry es) (slashed names)).orElse
        fun _ => firstHit .entry es (slashed (n :: names)) := by
  rw [slashed_cons, afterRun, if_pos (by decide),
    afterRun_name_append hes hn.slash hn.lineBreak (lineBreak_not_mem_slashed hnames)]

theorem firstHit_innerDirs_slashed (hes : BeginAtSlash es) (hnames : ∀ n ∈ names, IsPathName n) :
    firstHit .entry (.innerDirs :: es) (slashed names) =
      afterRun (· ≠ '\n') (firstHit .entry es) (slashed names) := by
  cases names with
  | nil => rfl
  | cons n names =>
    obtain ⟨hn, hnames⟩ := List.forall_mem_cons.1 hnames
    have hbreak := lineBreak_not_mem_slashed hnames
    rw [afterRun_slashed_cons hes hn hnames, firstHit_cons, Element.after, slashed_cons, afterChar,
      if_pos (decide_eq_true rfl)]
    -- directories take a character at least, and no slash stands within the first name
    obtain ⟨hne, hslash, hline⟩ := hn
    obtain ⟨c, n, rfl⟩ := List.exists_cons_of_ne_nil hne
    rw [List.mem_cons, not_or] at hslash hline
    rw [List.cons_append, afterRunOne, if_pos (decide_eq_true (Ne.symm hline.1)),
      afterRun_name_append hes hslash.2 hline.2 hbreak]

/-- A double star takes as many names as it can. -/
theorem exists_longest_of_innerDirs (hes : BeginAtSlash es) (hnames : ∀ n ∈ names, IsPathName n)
    (hhit : firstHit .entry (.innerDirs :: es) (slashed names) = some h) :
    ∃ a b, names = a ++ b ∧ firstHit .entry es (slashed b) = some h ∧
      ∀ c d, b = c ++ d → c ≠ [] → firstHit .entry es (slashed d) = none := by
  rw [firstHit_innerDirs_slashed hes hnames] at hhit
  -- a longer extent is tried first; a shorter one counts only when all of these have failed
  induction names with
  | nil =>
    refine ⟨[], [], rfl, hhit, ?_⟩
    intro c d hsplit hc
    exact absurd (List.append_eq_nil_iff.1 hsplit.symm).1 hc
  | cons n names ih =>
    obtain ⟨hn, hnames⟩ := List.forall_mem_cons.1 hnames
    rw [afterRun_slashed_cons hes hn hnames] at hhit
    rcases (Option.orElse_eq_some _ _ _).1 hhit with hrest | ⟨hnone, hhere⟩
    · obtain ⟨a, b, rfl, hb, hlongest⟩ := ih hnames hrest
      exact ⟨n :: a, b, rfl, hb, hlongest⟩
    · refine ⟨[], n :: names, rfl, hhere, ?_⟩
      intro c d hsplit hc
      obtain ⟨m, c, rfl⟩ := List.exists_cons_of_ne_nil hc
      obtain ⟨rfl, rfl⟩ := List.cons.inj hsplit
      by_contra hsome
      have hbreak : '\n' ∉ slashed c :=
        lineBreak_not_mem_slashed fun m hm => hnames m (List.mem_append_left d hm)
      have hrun := isSome_afterRun (forall_of_not_mem hbreak) (Option.isSome_iff_ne_none.2 hsome)
      have hslashed : slashed c ++ slashed d = slashed (c.append d) := (slashed_append c d).symm
      rw [hslashed, hnone] at hrun
      cases hrun

theorem isSome_firstHit_innerDirs (hes : BeginAtSlash es) {a b : List Text} (hnames : ∀ n ∈ a ++ b, IsPathName n)
    (hb : (firstHit .entry es (slashed b)).isSome = true) :
    (firstHit .entry (.innerDirs :: es) (slashed (a ++ b))).isSome = true := by
  rw [firstHit_innerDirs_slashed hes hnames, slashed_append]
  apply isSome_afterRun _ hb
  apply forall_of_not_mem
  apply lineBreak_not_mem_slashed
  intro n hn
  exact hnames n (List.mem_append_left b hn)

/-! ## 6. Patterns -/

/-- Whether some parts find what some segments say: the path itself exactly if the segments match all of its names,
and anything at all exactly if they match some of them from the first one on. -/
structure Reads (es : List Element) (segs : List Text) : Prop where
  atSlash : BeginAtSlash es
  direct : ∀ {names}, (∀ n ∈ names, IsPathName n) →
    (firstHit .entry es (slashed names) = some .direct ↔ MatchesNames segs names)
  above : ∀ {names}, (∀ n ∈ names, IsPathName n) →
    ((firstHit .entry es (slashed names)).isSome = true ↔ ∃ a b, names = a ++ b ∧ MatchesNames segs a)

theorem firstHit_nil_slashed (hnames : ∀ n ∈ names, IsPathName n) :
    firstHit .entry [] (slashed names) = some (if names = [] then .direct else .below) := by
  cases names with
  | nil => rfl
  | cons n names =>
    have hbreak := lineBreak_not_mem_slashed hnames
    rw [slashed_cons, List.mem_cons, not_or] at hbreak
    show Ending.entry.hit? (slashed (n :: names)) = some .below
    rw [slashed_cons, Ending.hit?, isBelow_cons hbreak.2]
    rfl

theorem reads_nil : Reads [] [] where
  atSlash := beginAtSlash_nil
  direct := by
    intro names hnames
    rw [firstHit_nil_slashed hnames, MatchesNames]
    by_cases hnil : names = [] <;> simp [hnil]
  above := by
    intro names hnames
    rw [firstHit_nil_slashed hnames]
    exact ⟨fun _ => ⟨[], names, rfl, rfl⟩, fun _ => rfl⟩

theorem Reads.cons_doubleStar (h : Reads es segs) : Reads (.innerDirs :: es) (doubleStar :: segs) := by
  -- whether something is matched at all does not depend on the order in which extents are tried
  have habove : ∀ {names}, (∀ n ∈ names, IsPathName n) →
      ((firstHit .entry (.innerDirs :: es) (slashed names)).isSome = true ↔
        ∃ a b, names = a ++ b ∧ MatchesNames (doubleStar :: segs) a) := by
    intro names hnames
    constructor
    · intro hsome
      obtain ⟨hit, hhit⟩ := Option.isSome_iff_exists.1 hsome
      obtain ⟨a, b, rfl, hb, -⟩ := exists_longest_of_innerDirs h.atSlash hnames hhit
      have hbNames : ∀ n ∈ b, IsPathName n := fun n hn => hnames n (List.mem_append_right a hn)
      obtain ⟨c, d, rfl, hc⟩ := (h.above hbNames).1 (Option.isSome_of_eq_some hb)
      exact ⟨a ++ c, d, (List.append_assoc a c d).symm, matchesNames_doubleStar.2 ⟨a, c, rfl, hc⟩⟩
    · intro hmatches
      obtain ⟨_, b, rfl, hmatches⟩ := hmatches
      obtain ⟨x, y, rfl, hy⟩ := matchesNames_doubleStar.1 hmatches
      rw [List.append_assoc] at hnames ⊢
      have hyNames : ∀ n ∈ y ++ b, IsPathName n := fun n hn => hnames n (List.mem_append_right x hn)
      exact isSome_firstHit_innerDirs h.atSlash hnames ((h.above hyNames).2 ⟨y, b, rfl, hy⟩)
  refine ⟨h.atSlash.cons_innerDirs, ?_, habove⟩
  intro names hnames
  constructor
  · intro hhit
    obtain ⟨a, b, rfl, hb, -⟩ := exists_longest_of_innerDirs h.atSlash hnames hhit
    have hbNames : ∀ n ∈ b, IsPathName n := fun n hn => hnames n (List.mem_append_right a hn)
    exact matchesNames_doubleStar.2 ⟨a, b, rfl, (h.direct hbNames).1 hb⟩
  · intro hmatches
    obtain ⟨hit, hhit⟩ := Option.isSome_iff_exists.1
      ((habove hnames).2 ⟨names, [], (List.append_nil names).symm, hmatches⟩)
    obtain ⟨x, y, hnamesEq, hy⟩ := matchesNames_doubleStar.1 hmatches
    have hyNames : ∀ n ∈ y, IsPathName n := fun n hn => hnames n (hnamesEq ▸ List.mem_append_right x hn)
    obtain ⟨a, b, rfl, hb, hlongest⟩ := exists_longest_of_innerDirs h.atSlash hnames hhit
    have hbNames : ∀ n ∈ b, IsPathName n := fun n hn => hnames n (List.mem_append_right a hn)
    -- the segments match what stands behind the longest extent, as they match what stands behind some extent
    have hbMatches : MatchesNames segs b := by
      rcases List.append_eq_append_iff.1 hnamesEq with ⟨m, -, hm⟩ | ⟨m, -, hm⟩
      · by_cases hnil : m = []
        · subst hnil
          exact hm ▸ hy
        · have hnone := hlongest m y hm hnil
          rw [(h.direct hyNames).2 hy] at hnone
          cases hnone
      · obtain ⟨c, d, rfl, hc⟩ := (h.above hbNames).1 (Option.isSome_of_eq_some hb)
        exact hc.extend (hm ▸ hy)
    rw [hhit, ← hb, (h.direct hbNames).2 hbMatches]

theorem Reads.cons_segment (h : Reads es segs) {first : List Element} (hstars : seg ≠ doubleStar)
    (hseg : IsReadable seg) (hslash : '/' ∉ seg) (hfirst : segmentElements seg = some first) :
    Reads (.literal '/' :: (first ++ es)) (seg :: segs) := by
  -- behind a slash the segment takes exactly the first name, and the other segments see the names behind it
  have hstep : ∀ {n names hit}, (∀ m ∈ n :: names, IsPathName m) →
      (firstHit .entry (.literal '/' :: (first ++ es)) (slashed (n :: names)) = some hit ↔
        MatchesName seg n ∧ firstHit .entry es (slashed names) = some hit) := by
    intro n names hit hnames
    obtain ⟨hn, hnames⟩ := List.forall_mem_cons.1 hnames
    rw [slashed_cons, firstHit_cons, Element.after, afterChar, if_pos (decide_eq_true rfl)]
    exact firstHit_segmentElements_append hseg hslash hfirst h.atSlash hn (atSlash_slashed names)
      (lineBreak_not_mem_slashed hnames)
  refine ⟨beginAtSlash_cons_literal _, ?_, ?_⟩
  · intro names hnames
    rw [matchesNames_cons hstars]
    -- without a name there is no slash to begin with
    cases names with
    | nil =>
      constructor
      · intro hhit
        cases hhit
      · intro hmatches
        obtain ⟨_, _, heq, -⟩ := hmatches
        cases heq
    | cons n names =>
      rw [hstep hnames, h.direct (List.forall_mem_cons.1 hnames).2]
      constructor
      · intro hmatches
        exact ⟨n, names, rfl, hmatches⟩
      · intro hmatches
        obtain ⟨_, _, heq, hmatches⟩ := hmatches
        cases heq
        exact hmatches
  · intro names hnames
    simp only [matchesNames_cons hstars]
    cases names with
    | nil =>
      constructor
      · intro hsome
        cases hsome
      · intro hmatches
        obtain ⟨_, b, heq, n, rest, rfl, -⟩ := hmatches
        cases heq
    | cons n names =>
      have hrest := h.above (List.forall_mem_cons.1 hnames).2
      constructor
      · intro hsome
        obtain ⟨hit, hhit⟩ := Option.isSome_iff_exists.1 hsome
        obtain ⟨hn, hhit⟩ := (hstep hnames).1 hhit
        obtain ⟨a, b, rfl, ha⟩ := hrest.1 (Option.isSome_of_eq_some hhit)
        exact ⟨n :: a, b, rfl, n, a, rfl, hn, ha⟩
      · intro hmatches
        obtain ⟨_, b, heq, m, a, rfl, hm, ha⟩ := hmatches
        obtain ⟨rfl, rfl⟩ := List.cons.inj heq
        obtain ⟨hit, hhit⟩ := Option.isSome_iff_exists.1 (hrest.2 ⟨a, b, rfl, ha⟩)
        exact Option.isSome_of_eq_some ((hstep hnames).2 ⟨hm, hhit⟩)

theorem reads_laterElements (hsegs : ∀ seg ∈ segs, IsReadable seg ∧ '/' ∉ seg)
    (hes : laterElements true segs = some (es, .entry)) : Reads es segs := by
  -- segment by segment, from the end
  induction segs generalizing es with
  | nil =>
    cases hes
    exact reads_nil
  | cons seg segs ih =>
    obtain ⟨⟨hseg, hslash⟩, hrestSegs⟩ := List.forall_mem_cons.1 hsegs
    by_cases hstars : seg = doubleStar
    · subst hstars
      rw [laterElements, if_pos rfl] at hes
      split at hes
      · cases hes
      · obtain ⟨⟨rest, ending⟩, hrest, heq⟩ := Option.map_eq_some_iff.1 hes
        cases heq
        exact (ih hrestSegs hrest).cons_doubleStar
    · rw [laterElements_of_ne hstars] at hes
      obtain ⟨first, hfirst, hes⟩ := Option.bind_eq_some_iff.1 hes
      obtain ⟨⟨rest, ending⟩, hrest, heq⟩ := Option.map_eq_some_iff.1 hes
      cases heq
      exact (ih hrestSegs hrest).cons_segment hstars hseg hslash hfirst

/-- Whether segments make up a pattern without characters of another meaning than the wildcards' whose last segment
is no double star. -/
structure AreWildcardSegments (segs : List Text) : Prop where
  ne_nil : segs ≠ []
  isName : ∀ seg ∈ segs, seg ≠ [] ∧ '/' ∉ seg
  readable : ∀ seg ∈ segs, IsReadable seg
  here : ¬ ['.', '/'] <+: Text.joinWith '/' segs
  sign : (Text.joinWith '/' segs).head? ≠ some '!'
  blank : ∀ last ∈ segs.getLast?, ∀ c ∈ last.getLast?, Text.isBlank c = false
  last : segs.getLast? ≠ some doubleStar

/-- A pattern selects exactly the paths whose names its segments match.  So it selects no path that only lies below
one of these, and no wildcard but a double star stands for a slash. -/
theorem exists_selector_matchesNames (h : AreWildcardSegments segs) :
    ∃ selector, selector? (Text.joinWith '/' segs) = .ok (some selector) ∧
      ∀ names, names ≠ [] → (∀ n ∈ names, IsPathName n) →
        (selector.selects (Text.joinWith '/' names) = true ↔ MatchesNames segs names) := by
  obtain ⟨init, last, hsegs⟩ := (List.eq_nil_or_concat segs).resolve_left h.ne_nil
  rw [List.concat_eq_append] at hsegs
  have hmem : last ∈ segs.getLast? := by rw [hsegs, List.getLast?_concat]; rfl
  have hname := h.isName last (List.mem_of_getLast? hmem)
  have hcompiled : selector? (Text.joinWith '/' segs) =
      IgnorePattern.ofParts? (anchoredElements (collapseStars segs)) := by
    have hblank := h.blank last hmem
    obtain ⟨-, hisName, -, hhere, hsign, -, -⟩ := h
    subst hsegs
    exact selector?_joinWith (fun seg hseg => (hisName seg hseg).2) hhere hsign hname.1 hblank
  have hareSegments := AreSegments.collapse h.isName h.last
  have hreadable : ∀ seg ∈ collapseStars segs, IsReadable seg := fun seg hseg =>
    h.readable seg (mem_of_mem_collapseStars hseg)
  obtain ⟨later, hlater, hordered⟩ := exists_laterElements hreadable true
  rw [if_neg hareSegments.last] at hlater
  have hanchored := laterElements_true hareSegments (collapseStars_ne_nil h.ne_nil)
  rw [hlater] at hanchored
  obtain ⟨⟨es, ending⟩, hes, heq⟩ := Option.map_eq_some_iff.1 hanchored.symm
  cases heq
  rw [all_isOrdered_behindSlash] at hordered
  refine ⟨⟨false, es, .entry⟩, ?_, ?_⟩
  · rw [hcompiled, hes, IgnorePattern.ofParts?, if_pos hordered]
  · intro names hne hnames
    -- seen from a slash, the parts read the segments, in which runs of double stars have become one
    have hreads : Reads (behindSlash es) (collapseStars segs) :=
      reads_laterElements (fun seg hseg => ⟨hreadable seg hseg, (hareSegments.isName seg hseg).2⟩) hlater
    rw [← matchesNames_collapseStars, ← hreads.direct hnames, ← slash_joinWith hne, firstHit_behindSlash, afterChar,
      if_pos (decide_eq_true rfl), IgnorePattern.selects, beq_iff_eq]
    rfl

/-- A pattern in which all kinds of wildcards stand together. -/
def nestedSegments : List Text := ["a*".toList, doubleStar, "b?".toList]

theorem areWildcardSegments_nestedSegments : AreWildcardSegments nestedSegments where
  ne_nil := List.cons_ne_nil _ _
  isName := by decide
  readable := by
    unfold IsReadable
    decide
  here := not_here_isPrefix_joinWith (by decide) (by decide)
  sign := by decide
  blank := by
    intro last hlast c hc
    cases hlast
    cases hc
    rfl
  last := by decide

theorem exists_selector_matchesNames_nestedSegments :
    AreWildcardSegments nestedSegments ∧ ["ax".toList, "y".toList, "bz".toList] ≠ [] ∧
      (∀ n ∈ ["ax".toList, "y".toList, "bz".toList], IsPathName n) ∧
      ∃ selector, selector? "a*/**/b?".toList = .ok (some selector) ∧ selector.selects "ax/y/bz".toList = true := by
  have hnames : ∀ n ∈ ["ax".toList, "y".toList, "bz".toList], IsPathName n := by
    simp only [List.forall_mem_cons, List.not_mem_nil, false_implies, implies_true, and_true]
    exact ⟨⟨by decide, by decide, by decide⟩, ⟨by decide, by decide, by decide⟩, ⟨by decide, by decide, by decide⟩⟩
  have hfirst : MatchesName "a*".toList "ax".toList :=
    (matchesName_cons (by decide)).2 ⟨'a', ['x'], rfl, .inr rfl, matchesName_star.2 ⟨['x'], [], rfl, rfl⟩⟩
  have hlast : MatchesName "b?".toList "bz".toList :=
    (matchesName_cons (by decide)).2 ⟨'b', ['z'], rfl, .inr rfl,
      (matchesName_cons (by decide)).2 ⟨'z', [], rfl, .inl rfl, rfl⟩⟩
  have hmatches : MatchesNames nestedSegments ["ax".toList, "y".toList, "bz".toList] := by
    apply (matchesNames_cons (by decide)).2
    refine ⟨_, _, rfl, hfirst, matchesNames_doubleStar.2 ⟨["y".toList], ["bz".toList], rfl, ?_⟩⟩
    exact (matchesNames_cons (by decide)).2 ⟨_, _, rfl, hlast, rfl⟩
  obtain ⟨selector, hselector, hselects⟩ := exists_selector_matchesNames areWildcardSegments_nestedSegments
  exact ⟨areWildcardSegments_nestedSegments, List.cons_ne_nil _ _, hnames, selector, hselector,
    (hselects _ (List.cons_ne_nil _ _) hnames).2 hmatches⟩

end AssetEmbed.Glob
