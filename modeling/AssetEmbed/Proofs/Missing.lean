import AssetEmbed.Proofs.Diagnosing
import AssetEmbed.Proofs.Selecting
import AssetEmbed.Proofs.Targeting

/-!
# Missing — targets that tell no file

A target without wildcards that tells no file is looked for as a pattern.  Its last segment is then taken for another
name where it ends in white space or holds a backslash, a name with a line break behind it counts as well, and the
segments before it are followed by the normal form of their path.  In all other cases nothing is found.
-/

namespace AssetEmbed

open Glob

/-! ## 1. What a segment is taken for -/

namespace Glob

/-- A segment without the white space at its end; a space that is escaped there stays. -/
def trimEnd (seg : Text) : Text := if Text.startsWith seg.reverse [' ', '\\'] then seg else seg.stripEnd

/-- A text in which a backslash stands for the character behind it; none if nothing is behind it. -/
def unescape? : Text → Option Text
  | [] => some []
  | ['\\'] => none
  | '\\' :: c :: s => (c :: ·) <$> unescape? s
  | c :: s => (c :: ·) <$> unescape? s

/-- The name that a segment without wildcards is taken for. -/
def nameOf? (seg : Text) : Option Text := unescape? (trimEnd seg)

variable {seg s : Text}

theorem unescape?_cons {c : Char} (hc : c ≠ '\\') (s : Text) : unescape? (c :: s) = (c :: ·) <$> unescape? s := by
  rw [unescape?]
  · exact fun h _ => hc h
  · exact fun _ _ h _ => hc h

theorem unescape?_eq_self (h : '\\' ∉ s) : unescape? s = some s := by
  induction s with
  | nil => rfl
  | cons c s ih =>
    rw [List.mem_cons, not_or] at h
    rw [unescape?_cons (Ne.symm h.1), ih h.2]
    rfl

theorem unescape?_subset {u : Text} (h : unescape? s = some u) : u ⊆ s := by
  fun_induction unescape? s generalizing u with
  | case1 =>
    cases h
    exact List.Subset.refl _
  | case2 => cases h
  | case3 c s ih =>
    obtain ⟨v, hv, rfl⟩ := Option.map_eq_some_iff.1 h
    exact List.Subset.trans (List.cons_subset_cons c (ih hv)) (List.subset_cons_self _ _)
  | case4 c s _ _ ih =>
    obtain ⟨v, hv, rfl⟩ := Option.map_eq_some_iff.1 h
    exact List.cons_subset_cons c (ih hv)

theorem unescape?_eq_nil : unescape? s = some [] ↔ s = [] := by
  fun_cases unescape? s <;> simp

theorem stripEnd_cons {c : Char} (hc : Text.isBlank c = false) (s : Text) :
    Text.stripEnd (c :: s) = c :: s.stripEnd := by
  unfold Text.stripEnd
  rw [List.reverse_cons, List.dropWhile_append]
  split
  case isTrue hnil =>
    rw [List.isEmpty_iff.1 hnil, Text.dropWhile_eq_self (by simpa using hc)]
    rfl
  case isFalse => rw [List.reverse_append]; rfl

theorem stripEnd_subset (s : Text) : s.stripEnd ⊆ s := fun _ hc =>
  List.mem_reverse.1 ((List.dropWhile_subset _) (List.mem_reverse.1 hc))

theorem trimEnd_subset (seg : Text) : trimEnd seg ⊆ seg := by
  unfold trimEnd
  split
  · exact List.Subset.refl _
  · exact stripEnd_subset seg

theorem trimEnd_eq_self (h : ∀ c ∈ seg.getLast?, Text.isBlank c = false) : trimEnd seg = seg := by
  rw [trimEnd, stripEnd_eq_self h, ite_self]

/-- A segment is taken for itself if it holds no backslash and does not end in white space. -/
theorem nameOf?_eq_self (hescape : '\\' ∉ seg) (hlast : ∀ c ∈ seg.getLast?, Text.isBlank c = false) :
    nameOf? seg = some seg := by
  rw [nameOf?, trimEnd_eq_self hlast, unescape?_eq_self hescape]

theorem nameOf?_subset {u : Text} (h : nameOf? seg = some u) : u ⊆ seg :=
  List.Subset.trans (unescape?_subset h) (trimEnd_subset seg)

/-! ## 2. What a segment selects -/

theorem trimLine_slash (seg : Text) : trimLine ('/' :: seg) = '/' :: trimEnd seg := by
  have hescaped : Text.startsWith ('/' :: seg).reverse [' ', '\\'] = Text.startsWith seg.reverse [' ', '\\'] := by
    rw [List.reverse_cons]
    match seg.reverse with
    | [] => rfl
    | [c] => simp [Text.startsWith, List.isPrefixOf]
    | c :: d :: s => simp [Text.startsWith, List.isPrefixOf]
  have hstart : Text.stripStart ('/' :: seg) = '/' :: seg := rfl
  unfold trimLine trimEnd
  rw [hescaped, Text.strip, hstart, stripEnd_cons rfl]
  split <;> rfl

theorem isPattern_cons {c : Char} : isPattern (c :: s) = false ↔ isWildcard c = false ∧ isPattern s = false := by
  simp [isPattern]

theorem segmentUpTo_of_plain (h : isPattern s = false) {bound : Nat} (hbound : s.length ≤ bound) :
    segmentUpTo bound s = (unescape? s).map fun u => u.map .literal := by
  -- both sides put a character in front of what they make of the rest
  have hmap : ∀ (c : Char) (x : Option Text), (.literal c :: ·) <$> x.map (fun u => u.map Element.literal) =
      ((c :: ·) <$> x).map fun u => u.map Element.literal := by
    intro c x
    cases x <;> rfl
  fun_induction unescape? s generalizing bound with
  | case1 => cases bound <;> rfl
  | case2 =>
    obtain ⟨bound, rfl⟩ := Nat.exists_eq_add_of_le' hbound
    rfl
  | case3 c s ih =>
    obtain ⟨bound, rfl⟩ := Nat.exists_eq_add_of_le' (Nat.le_trans (Nat.le_add_left 1 _) hbound)
    have hs := (isPattern_cons.1 (isPattern_cons.1 h).2).2
    rw [segmentUpTo, ih hs (by simp only [List.length_cons] at hbound; omega), hmap]
  | case4 c s hlone hescape ih =>
    obtain ⟨bound, rfl⟩ := Nat.exists_eq_add_of_le' (Nat.le_trans (Nat.le_add_left 1 _) hbound)
    obtain ⟨hc, hs⟩ := isPattern_cons.1 h
    -- the character is none that the compiler looks for
    have hbackslash : c ≠ '\\' := by
      rintro rfl
      cases s with
      | nil => exact hlone rfl rfl
      | cons d s => exact hescape d s rfl rfl
    have hne : ∀ {d : Char}, isWildcard d = true → c ≠ d := by
      rintro d hd rfl
      rw [hc] at hd
      cases hd
    rw [segmentUpTo_cons_of_ne ⟨hbackslash, hne rfl, hne rfl, hne rfl⟩,
      ih hs (by simp only [List.length_cons] at hbound; omega), hmap]

theorem anchoredElements_of_plain (h : isPattern s = false) :
    anchoredElements (collapseStars [s]) = (unescape? s).map fun u => (u.map .literal, .entry) := by
  have hstar : s ≠ ['*'] ∧ s ≠ doubleStar := by
    constructor <;> rintro rfl <;> cases h
  have hcollapse : collapseStars [s] = [s] := collapseStars_cons_of_ne hstar.2
  rw [hcollapse, anchoredElements, if_neg hstar.2, segmentElements, if_neg hstar.1, segmentUpTo_of_plain h le_rfl]
  cases unescape? s <;> rfl

/-- What is made of a segment without wildcards: nothing, if a lone backslash ends it, or if it is blank, and otherwise
a pattern for the name that it is taken for. -/
theorem selector?_of_plain (hplain : isPattern seg = false) (hslash : '/' ∉ seg) :
    selector? seg = match nameOf? seg with
      | none => .error .malformed
      | some [] => .ok none
      | some u => .ok (some ⟨false, u.map .literal, .entry⟩) := by
  -- the line is the segment behind a slash, as it begins with no sign of negation
  have hline : selector? seg = IgnorePattern.ofLine? ('/' :: seg) := by
    unfold selector?
    rw [dropHere_eq_self fun hpre => hslash (hpre.subset (by simp))]
    split
    · rfl
    · exact absurd hplain (by simp [isPattern, isWildcard])
    · rfl
  rw [hline]
  by_cases hnil : trimEnd seg = []
  · -- nothing is left of the line but the slash in front
    have hname : nameOf? seg = some [] := by rw [nameOf?, hnil]; rfl
    rw [IgnorePattern.ofLine?, trimLine_slash, hnil, hname]
    rfl
  · have hsegs : ∀ s ∈ [] ++ [trimEnd seg], '/' ∉ s :=
      List.forall_mem_singleton.2 fun hmem => hslash (trimEnd_subset seg hmem)
    have hparts : patternElements ('/' :: trimEnd seg) = anchoredElements (collapseStars [trimEnd seg]) :=
      patternElements_slash hsegs hnil
    rw [IgnorePattern.ofLine?_eq_ofParts? (trimLine_slash seg) hnil, hparts,
      anchoredElements_of_plain (isPattern_of_subset hplain (trimEnd_subset seg)), nameOf?]
    cases hname : unescape? (trimEnd seg) with
    | none => rfl
    | some u =>
      cases u with
      | nil => exact absurd (unescape?_eq_nil.1 hname) hnil
      | cons c u =>
        have hordered : ((c :: u).map Element.literal).all Element.isOrdered = true := by simp [Element.isOrdered]
        exact if_pos hordered

theorem selects_literals {u : Text} :
    (IgnorePattern.mk false (u.map .literal) .entry).selects s = true ↔ s = u ∨ s = u ++ ['\n'] := by
  have hhit : firstHit .entry (u.map .literal ++ []) s = some .direct ↔
      ∃ t, s = u ++ t ∧ firstHit .entry [] t = some .direct := firstHit_literals_append
  rw [List.append_nil] at hhit
  -- the end of a path is also there before a last line break
  have hend : ∀ t, firstHit .entry [] t = some .direct ↔ t = [] ∨ t = ['\n'] := by
    intro t
    rw [firstHit, Ending.hit?_eq_direct, Text.isAtEnd, Bool.or_eq_true, decide_eq_true_eq, decide_eq_true_eq]
    constructor
    · exact fun h => h.2.2
    · rintro (rfl | rfl)
      · exact ⟨rfl, rfl, .inl rfl⟩
      · exact ⟨rfl, rfl, .inr rfl⟩
  unfold IgnorePattern.selects IgnorePattern.hit?
  rw [beq_iff_eq, hhit]
  simp only [hend]
  constructor
  · rintro ⟨t, rfl, rfl | rfl⟩
    · exact .inl (List.append_nil u)
    · exact .inr rfl
  · rintro (rfl | rfl)
    · exact ⟨[], (List.append_nil s).symm, .inl rfl⟩
    · exact ⟨['\n'], rfl, .inr rfl⟩

end Glob

/-! ## 3. What is found -/

namespace FileSystem

variable {fs : FileSystem} {root pattern top seg u : Text} {way : List Text}

/-- Whether a file of a name stands where the segments of a path before the last one lead in normal form, and the last
segment is taken for the name, or for what stands before a line break at its end. -/
structure IsTaken (fs : FileSystem) (root pattern name : Text) : Prop where
  spelled : ∃ u, nameOf? (splitDirectory pattern).2 = some u ∧ u ≠ [] ∧ (name = u ∨ name = u ++ ['\n'])
  isProper : Path.IsProper name
  shown : ¬ PassesOver (splitDirectory pattern).2 name
  isFile : fs.isFile (Path.join (Path.normalize (Path.join root (splitDirectory pattern).1)) name) = true

/-- A pattern for a name selects the files of this name, and of the name with a line break behind it, in the directory
itself. -/
theorem mem_selected_literals (hfs : fs.WellFormed) (htop : top ≠ []) (hslash : '/' ∉ u) :
    way ∈ fs.selected top seg ⟨false, u.map .literal, .entry⟩ ↔ ∃ name, way = [name] ∧
      (name = u ∨ name = u ++ ['\n']) ∧ Path.IsProper name ∧ ¬ PassesOver seg name ∧
        fs.isFile (Path.join top name) = true := by
  rw [mem_selected_iff hfs htop, selects_literals]
  constructor
  · rintro ⟨⟨hway, hne, hfile, -⟩, hover, hname⟩
    obtain ⟨name, rest, rfl⟩ := List.exists_cons_of_ne_nil hne
    have hrest : rest = [] := by
      cases rest with
      | nil => rfl
      | cons next rest =>
        have hmem : '/' ∈ Text.joinWith '/' (name :: next :: rest) := by
          rw [Text.joinWith_cons_cons]
          exact List.mem_append_right _ List.mem_cons_self
        rcases hname with hname | hname <;> rw [hname] at hmem
        · exact absurd hmem hslash
        · exact absurd hmem (by simp [hslash])
    subst hrest
    exact ⟨name, rfl, hname, hway name List.mem_cons_self, hover name List.mem_cons_self, hfile⟩
  · rintro ⟨name, rfl, hname, hproper, hover, hfile⟩
    refine ⟨⟨List.forall_mem_singleton.2 hproper, List.cons_ne_nil _ _, hfile, ?_⟩,
      List.forall_mem_singleton.2 hover, hname⟩
    -- on the way to a name in the directory nothing is entered
    intro q hq hne hother
    rcases List.prefix_cons_iff.1 hq with rfl | ⟨rest, rfl, hrest⟩
    · exact absurd rfl hne
    · rw [List.prefix_nil.1 hrest] at hother
      exact absurd rfl hother

/-- Without wildcards a path is expanded to nothing exactly if its last segment is taken for some name, or is blank, and
no file is taken for the one it names. -/
theorem expand_eq_nil_iff (hfs : fs.WellFormed) (hplain : isPattern pattern = false) (root : Text) :
    fs.expand root pattern = .ok [] ↔
      (nameOf? (splitDirectory pattern).2).isSome = true ∧ ∀ name, ¬ fs.IsTaken root pattern name := by
  have hslash := SearchPlan.splitDirectory_snd hplain
  have hlast : isPattern (splitDirectory pattern).2 = false :=
    isPattern_of_subset hplain fun c hc => Text.mem_of_mem_splitOn (SearchPlan.splitDirectory_snd_mem hplain) hc
  have hgroup := not_mem_of_plain hplain (c := '(') rfl
  have hbrace := not_mem_of_plain hplain (c := '{') rfl
  have hselector := selector?_of_plain hlast hslash
  cases hname : nameOf? (splitDirectory pattern).2 with
  | none =>
    -- a backslash with nothing behind it is an error
    rw [hname] at hselector
    rw [expand_of_selector_error hgroup hbrace hselector]
    simp
  | some u =>
    rw [hname] at hselector
    cases u with
    | nil =>
      -- a blank segment selects nothing, and no name is empty
      rw [expand_of_selector_none hgroup hbrace hselector]
      refine iff_of_true rfl ⟨rfl, fun name htaken => ?_⟩
      obtain ⟨u, hu, hne, -⟩ := htaken.spelled
      rw [hname] at hu
      exact hne (Option.some.inj hu).symm
    | cons c u =>
      have hu : '/' ∉ c :: u := fun hmem => hslash (nameOf?_subset hname hmem)
      rw [expand_of_plain hgroup hbrace]
      unfold expandAlternative
      dsimp only
      rw [hselector]
      simp only [map_eq_ok, Except.ok.injEq, exists_eq_left', Text.sortUnique_eq_nil, List.map_eq_nil_iff]
      rw [List.eq_nil_iff_forall_not_mem]
      simp only [mem_selected_literals hfs (Path.normalize_ne_nil _) hu]
      constructor
      · refine fun hnone => ⟨rfl, fun name htaken => ?_⟩
        obtain ⟨v, hv, -, hspelled⟩ := htaken.spelled
        obtain rfl : c :: u = v := Option.some.inj (hname.symm.trans hv)
        exact hnone [name] ⟨name, rfl, hspelled, htaken.isProper, htaken.shown, htaken.isFile⟩
      · rintro ⟨-, hnone⟩ way ⟨name, rfl, hspelled, hproper, hshown, hfile⟩
        exact hnone name ⟨⟨c :: u, hname, List.cons_ne_nil c u, hspelled⟩, hproper, hshown, hfile⟩

end FileSystem

/-! ## 4. Where a path leads -/

namespace Path

theorem endsInName_concat {segs : List Text} {n : Text} (hn : IsName n) : EndsInName (segs ++ [n]) := by
  intro m hm
  rw [List.getLast?_concat] at hm
  obtain rfl := Option.some.inj hm
  exact not_or.2 ⟨hn.1, hn.2.1⟩

theorem endsInName_join {path : Text} (h : EndsInName (Text.splitOn '/' path)) (base : Text) :
    EndsInName (Text.splitOn '/' (join base path)) := by
  by_cases habsolute : isAbsolute path = true
  · rwa [join_of_isAbsolute habsolute]
  · obtain ⟨lead, -, hjoin⟩ := FileSystem.exists_lead_splitOn_join base
    rw [hjoin path (by simpa using habsolute)]
    intro n hn
    rw [List.getLast?_append_of_ne_nil _ (Text.splitOn_ne_nil '/' path)] at hn
    exact h n hn

theorem join_append_right {path : Text} (hne : path ≠ []) (base more : Text) :
    join base (path ++ more) = join base path ++ more := by
  have habsolute : isAbsolute (path ++ more) = isAbsolute path := by
    unfold isAbsolute
    rw [List.head?_append_of_ne_nil _ hne]
  unfold join
  rw [habsolute]
  split
  · rfl
  split
  · rw [List.append_assoc]
  · rw [List.append_assoc, List.cons_append]

end Path

namespace Glob

theorem splitDirectory_of_not_mem {pattern : Text} (h : '/' ∉ pattern) : splitDirectory pattern = ([], pattern) := by
  have hslash : ∀ seg ∈ [] ++ [pattern], '/' ∉ seg := List.forall_mem_singleton.2 h
  exact splitDirectory_joinWith hslash

theorem splitDirectory_append_slash {directory last : Text} (hplain : isPattern directory = false)
    (hlast : '/' ∉ last) :
    splitDirectory (directory ++ '/' :: last) = (if directory = [] then ['/'] else directory, last) := by
  have hfixed : ∀ seg ∈ Text.splitOn '/' directory, (!isPattern seg) = true := by
    intro seg hseg
    rw [isPattern_of_subset hplain fun c hc => Text.mem_of_mem_splitOn hseg hc]
    rfl
  have hslash : ∀ seg ∈ Text.splitOn '/' directory ++ [last], '/' ∉ seg := by
    intro seg hseg
    rcases List.mem_append.1 hseg with hseg | hseg
    · exact Text.not_mem_of_mem_splitOn hseg
    · rwa [List.mem_singleton.1 hseg]
  have hsplit := splitDirectory_joinWith hslash
  rw [Text.joinWith_append_singleton '/' (Text.splitOn_ne_nil '/' directory), Text.joinWith_splitOn,
    List.takeWhile_eq_self_iff.2 hfixed, List.dropWhile_eq_nil_iff.2 hfixed] at hsplit
  rw [hsplit]
  simp [Text.splitOn_ne_nil, Text.joinWith_splitOn, Text.joinWith]

/-- What stands before the last segment of a path: with any name behind it, it leads to this name in the directory of
the path. -/
structure IsLead (lead pattern : Text) : Prop where
  spelled : pattern = lead ++ (splitDirectory pattern).2
  subset : ∀ root, Path.names (Path.join root (splitDirectory pattern).1) ⊆ Path.names (Path.join root pattern)
  endsInName : ∀ {n}, Path.IsName n → Path.EndsInName (Text.splitOn '/' (lead ++ n))
  names : ∀ {n}, Path.IsName n → ∀ root,
    Path.names (Path.join root (lead ++ n)) = Path.names (Path.join root (splitDirectory pattern).1) ++ [n]

theorem isLead_nil {pattern : Text} (h : '/' ∉ pattern) : IsLead [] pattern := by
  have hdirectory : ∀ root, Path.names (Path.join root []) = Path.names root := fun root =>
    (Path.names_join rfl root).trans (List.append_nil _)
  have hsplit := splitDirectory_of_not_mem h
  constructor
  case spelled => rw [hsplit, List.nil_append]
  case subset =>
    intro root
    rw [hsplit, hdirectory, Path.names_join (Path.isAbsolute_of_not_mem h)]
    exact List.subset_append_left _ _
  case endsInName =>
    intro n hn
    rw [List.nil_append, Text.splitOn_eq_singleton hn.2.2]
    have hend : Path.EndsInName ([] ++ [n]) := Path.endsInName_concat hn
    exact hend
  case names =>
    intro n hn root
    rw [hsplit, hdirectory, List.nil_append, Path.names_join (Path.isAbsolute_of_not_mem hn.2.2),
      Path.names_of_isName hn]

theorem isLead_append_slash {directory last : Text} (hplain : isPattern directory = false) (hlast : '/' ∉ last) :
    IsLead (directory ++ ['/']) (directory ++ '/' :: last) := by
  have hlead : ∀ n, directory ++ ['/'] ++ n = directory ++ '/' :: n := fun n => (List.append_cons _ '/' n).symm
  have hsplit := splitDirectory_append_slash hplain hlast
  constructor
  case spelled => rw [hsplit, hlead]
  case subset =>
    intro root
    rw [hsplit, Path.names_join_append_slash]
    exact List.subset_append_left _ _
  case endsInName =>
    intro n hn
    rw [hlead, Text.splitOn_append, Text.splitOn_eq_singleton hn.2.2]
    exact Path.endsInName_concat hn
  case names =>
    intro n hn root
    rw [hsplit, hlead, Path.names_join_append_slash, Path.names_of_isName hn]

theorem exists_isLead {pattern : Text} (hplain : isPattern pattern = false) : ∃ lead, IsLead lead pattern := by
  obtain ⟨init, last, -, hlast, ⟨-, rfl⟩ | ⟨-, rfl⟩⟩ := Text.exists_splitOn_eq_concat '/' pattern
  · exact ⟨[], isLead_nil hlast⟩
  · exact ⟨_, isLead_append_slash (isPattern_of_subset hplain (List.subset_append_left _ _)) hlast⟩

theorem nameOf?_last {pattern : Text} (hplain : isPattern pattern = false)
    (hescape : '\\' ∉ (splitDirectory pattern).2) (hblank : ∀ c ∈ pattern.getLast?, Text.isBlank c = false) :
    nameOf? (splitDirectory pattern).2 = some (splitDirectory pattern).2 := by
  obtain ⟨lead, hlead⟩ := exists_isLead hplain
  refine nameOf?_eq_self hescape fun c hc => hblank c ?_
  have hne : (splitDirectory pattern).2 ≠ [] := by
    intro hnil
    rw [hnil] at hc
    cases hc
  rwa [hlead.spelled, List.getLast?_append_of_ne_nil _ hne]

end Glob

namespace FileSystem

variable {fs : FileSystem} {root pattern name : Text}

theorem isFile_of_isFile_normalize (hroot : Path.isAbsolute root = true)
    (hup : Path.parentName ∉ Path.names (Path.join root (splitDirectory pattern).1)) (hname : Path.IsName name)
    {lead : Text} (hlead : IsLead lead pattern)
    (hlength : byteLength (Path.join root (lead ++ name)) ≤ maxPathBytes)
    (hfile : fs.isFile (Path.join (Path.normalize (Path.join root (splitDirectory pattern).1)) name) = true) :
    fs.isFile (Path.join root (lead ++ name)) = true := by
  have hdirectory := Path.isAbsolute_join hroot (splitDirectory pattern).1
  refine isFile_of_names_eq (Path.isAbsolute_join (Path.isAbsolute_normalize hdirectory) name)
    (Path.isAbsolute_join hroot _) ?_ (Path.endsInName_join (hlead.endsInName hname) root) hlength hfile
  rw [Path.names_join (Path.isAbsolute_of_not_mem hname.2.2), Path.names_of_isName hname, hlead.names hname,
    Path.names_normalize_of_not_mem hdirectory hup]

end FileSystem

/-! ## 5. What is loaded -/

namespace SearchPlan

variable {fs : FileSystem} {plan : SearchPlan} {moduleId basePath target encoding : Text} {location : Location}

/-- A call is replaced by the empty array, and nothing is told, exactly if its pattern is expanded to nothing: every
path gives a record or a warning. -/
theorem load_eq_nothing_iff [Charsets] (hmany : plan.single = false) :
    (load fs plan encoding location).map (fun r => (r.1, Event.diagnostics r.2)) = .ok (some (.many []), []) ↔
      fs.expand plan.root plan.pattern = .ok [] := by
  unfold load loadMany
  rw [if_neg (by rw [hmany]; exact Bool.false_ne_true)]
  dsimp only
  cases hexpand : fs.expand plan.root plan.pattern with
  | error e => cases e <;> simp [Except.map]
  | ok names =>
    cases names with
    | nil => exact iff_of_true rfl rfl
    | cons name names =>
      refine iff_of_false (fun h => ?_) (by simp)
      cases heach : loadEach fs plan.root encoding (name :: names) with
      | error a => simp [heach, bind, Except.bind, Except.map] at h
      | ok found =>
        obtain ⟨hrecords, hevents⟩ := FileSystem.loadEach_eq heach
        simp only [heach, bind, Except.bind, pure, Except.pure, Except.map, Except.ok.injEq, Prod.mk.injEq,
          Option.some.injEq, Embedding.many.injEq] at h
        obtain ⟨hnone, hquiet⟩ := h
        have hquiet : Event.diagnostics found.2 = [] := hquiet
        rw [hrecords] at hnone
        rw [hevents, Event.diagnostics_map_diagnostic] at hquiet
        rw [List.filterMap_eq_nil_iff] at hnone hquiet
        have hrecord := hnone name List.mem_cons_self
        have hwarning := hquiet name List.mem_cons_self
        -- a first path would give a record or a warning
        rcases FileSystem.recordAt?_or_warningAt? fs plan.root encoding name with ⟨r, hr, -⟩ | ⟨w, hw, -⟩
        · rw [hrecord] at hr
          cases hr
        · rw [hwarning] at hw
          cases hw

theorem normalize_root (hcwd : Path.isAbsolute fs.cwd = true) (hplan : ofTarget fs moduleId basePath target = plan) :
    Path.normalize plan.root = plan.root := by
  have hsound : plan.IsSound fs := hplan ▸ isSound_ofTarget (Path.isAbsolute_join hcwd moduleId) basePath target
  subst hplan
  refine Path.normalize_normalize ?_
  rw [← Path.isAbsolute_normalize_eq]
  exact hsound.isAbsolute

theorem isFile_of_isFile_directory (hcwd : Path.isAbsolute fs.cwd = true)
    (hplan : ofTarget fs moduleId basePath target = plan) (hplain : isPattern target = false)
    (hpath : basePath = [] ∨ Path.parentName ∉ Path.names target ∧
      FileSystem.byteLength (Path.join plan.root plan.pattern) < FileSystem.maxPathBytes)
    (hlast : (splitDirectory plan.pattern).2 ≠ []) {more : Text} (hmore : FileSystem.byteLength more ≤ 1)
    (hname : Path.IsName ((splitDirectory plan.pattern).2 ++ more))
    (hfile : fs.isFile (Path.join (Path.normalize (Path.join plan.root (splitDirectory plan.pattern).1))
      ((splitDirectory plan.pattern).2 ++ more)) = true) :
    fs.isFile (Path.join plan.root (plan.pattern ++ more)) = true := by
  have hsound : plan.IsSound fs := hplan ▸ isSound_ofTarget (Path.isAbsolute_join hcwd moduleId) basePath target
  by_cases hbase : basePath = []
  · -- the pattern is one segment, and the directory is the root
    subst hbase
    have hslash : '/' ∉ plan.pattern := hplan ▸ not_mem_pattern hplain _
    rwa [splitDirectory_of_not_mem hslash, Path.normalize_join_nil, normalize_root hcwd hplan] at hfile
  · -- the pattern is the target, and without `..` the normal form of its directory leads to the same place
    obtain ⟨hup, hlength⟩ := hpath.resolve_left hbase
    have htarget : plan.pattern = target := hplan ▸ congrArg Prod.snd (if_pos hbase)
    have hpattern : isPattern plan.pattern = false := htarget ▸ hplain
    obtain ⟨lead, hlead⟩ := exists_isLead hpattern
    have hdirectory := fun hmem => hsound.not_mem_names_join (htarget ▸ hup) (hlead.subset plan.root hmem)
    have hne : plan.pattern ≠ [] := by
      rw [hlead.spelled]
      exact List.append_ne_nil_of_right_ne_nil _ hlast
    have hshort : FileSystem.byteLength (Path.join plan.root (plan.pattern ++ more)) ≤ FileSystem.maxPathBytes := by
      rw [Path.join_append_right hne, FileSystem.byteLength_append]
      omega
    have hsplit : plan.pattern ++ more = lead ++ ((splitDirectory plan.pattern).2 ++ more) := by
      rw [← List.append_assoc, ← hlead.spelled]
    rw [hsplit] at hshort ⊢
    exact FileSystem.isFile_of_isFile_normalize hsound.isAbsolute hdirectory hname hlead hshort hfile

/-- A file that is taken for what a target names is the one that the target tells, or has a line break behind its name,
if the last segment of the target is taken for itself. -/
theorem isFile_of_isTaken (hcwd : Path.isAbsolute fs.cwd = true)
    (hplan : ofTarget fs moduleId basePath target = plan) (hplain : isPattern target = false)
    (hpath : basePath = [] ∨ Path.parentName ∉ Path.names target ∧
      FileSystem.byteLength (Path.join plan.root plan.pattern) < FileSystem.maxPathBytes)
    (hlast : nameOf? (splitDirectory plan.pattern).2 = some (splitDirectory plan.pattern).2)
    {name : Text} (h : fs.IsTaken plan.root plan.pattern name) :
    fs.isFile (Path.join plan.root plan.pattern) = true ∨
      fs.isFile (Path.join plan.root (plan.pattern ++ ['\n'])) = true := by
  obtain ⟨⟨u, hu, hne, hspelled⟩, hproper, -, hfile⟩ := h
  obtain rfl := Option.some.inj (hlast.symm.trans hu)
  rcases hspelled with rfl | rfl
  · left
    have hempty : FileSystem.byteLength ([] : Text) ≤ 1 := Nat.zero_le 1
    have hthere := isFile_of_isFile_directory hcwd hplan hplain hpath hne hempty
    rw [List.append_nil, List.append_nil] at hthere
    exact hthere hproper.1 hfile
  · exact .inr (isFile_of_isFile_directory hcwd hplan hplain hpath hne le_rfl hproper.1 hfile)

/-- A target without wildcards that tells no file is replaced by the empty array, without a word, exactly if its last
segment is taken for some name or is blank, and no file is taken for the one that the target names.  So it is if the
last segment holds no backslash, no white space ends it, no file has a line break behind the name, and the target is not
seen from a base path, or never goes up and is not too long. -/
theorem missing_target_finds_nothing [Charsets] (hfs : fs.WellFormed) (hcwd : Path.isAbsolute fs.cwd = true)
    (hplan : ofTarget fs moduleId basePath target = plan) (hplain : isPattern target = false)
    (hmissing : fs.isFile (Path.join plan.root plan.pattern) = false) :
    (∀ encoding location,
        (load fs plan encoding location).map (fun r => (r.1, Event.diagnostics r.2)) = .ok (some (.many []), []) ↔
          (nameOf? (splitDirectory plan.pattern).2).isSome = true ∧
            ∀ name, ¬ fs.IsTaken plan.root plan.pattern name) ∧
      ('\\' ∉ (splitDirectory plan.pattern).2 → (∀ c ∈ plan.pattern.getLast?, Text.isBlank c = false) →
        (basePath = [] ∨ Path.parentName ∉ Path.names target ∧
          FileSystem.byteLength (Path.join plan.root plan.pattern) < FileSystem.maxPathBytes) →
        fs.isFile (Path.join plan.root (plan.pattern ++ ['\n'])) = false →
        ∀ encoding location,
          (load fs plan encoding location).map (fun r => (r.1, Event.diagnostics r.2)) =
            .ok (some (.many []), [])) := by
  have hpattern : isPattern plan.pattern = false := hplan ▸ isPattern_split _ hplain
  have hmany : plan.single = false := by
    have hsound : plan.IsSound fs := hplan ▸ isSound_ofTarget (Path.isAbsolute_join hcwd moduleId) basePath target
    rw [← Bool.not_eq_true]
    intro hsingle
    rw [(hsound.single hsingle).2] at hmissing
    cases hmissing
  have hload : ∀ encoding location,
      (load fs plan encoding location).map (fun r => (r.1, Event.diagnostics r.2)) = .ok (some (.many []), []) ↔
        (nameOf? (splitDirectory plan.pattern).2).isSome = true ∧
          ∀ name, ¬ fs.IsTaken plan.root plan.pattern name :=
    fun _ _ => (load_eq_nothing_iff hmany).trans (FileSystem.expand_eq_nil_iff hfs hpattern plan.root)
  refine ⟨hload, fun hescape hblank hpath hbreak encoding location => ?_⟩
  have hlast := nameOf?_last hpattern hescape hblank
  refine (hload encoding location).2 ⟨?_, fun name htaken => ?_⟩
  · rw [hlast]
    rfl
  -- a file that is taken for the target would be told by it, with a line break or without one
  · rcases isFile_of_isTaken hcwd hplan hplain hpath hlast htaken with hfile | hfile
    · rw [hmissing] at hfile
      cases hfile
    · rw [hbreak] at hfile
      cases hfile

end SearchPlan

/-- A file in a directory within another one. -/
def nestedTree : FileSystem where
  entries := [("d".toList, .directory [("e".toList, .directory [("a".toList, .file [120])])])]
  cwd := ['/']

theorem nestedTree_wellFormed : nestedTree.WellFormed := by
  simp only [FileSystem.WellFormed, nestedTree, Listing.IsSound, Entry.IsSound, Listing.get?]
  decide +kernel

/-- Seen from the directory `d`, the file `e/a` is there and `e/b` is not, so nothing is found for it. -/
theorem missing_target_finds_nothing_nestedTree :
    ∃ plan, SearchPlan.ofTarget nestedTree "/m.js".toList "d".toList "e/b".toList = plan ∧
      plan.root = "/d".toList ∧ plan.pattern = "e/b".toList ∧
      nestedTree.isFile (Path.join plan.root "e/a".toList) = true ∧
      nestedTree.isFile (Path.join plan.root plan.pattern) = false ∧
      (load nestedTree plan "utf8".toList ⟨"/m.js".toList, 1, 0⟩).map (fun r => (r.1, Event.diagnostics r.2)) =
        .ok (some (.many []), []) := by
  have hplan : SearchPlan.ofTarget nestedTree "/m.js".toList "d".toList "e/b".toList =
      ⟨"/d".toList, "e/b".toList, false⟩ := by decide +kernel
  have hmissing : nestedTree.isFile (Path.join "/d".toList "e/b".toList) = false := by decide +kernel
  have hblank : ∀ c ∈ ("e/b".toList : Text).getLast?, Text.isBlank c = false := by
    rintro _ ⟨⟩
    rfl
  refine ⟨_, hplan, rfl, rfl, by decide +kernel, hmissing, ?_⟩
  exact (SearchPlan.missing_target_finds_nothing nestedTree_wellFormed rfl hplan (by decide) hmissing).2
    (by decide +kernel) hblank (.inr ⟨by decide, by decide +kernel⟩) (by decide +kernel) _ _

def plainTree : FileSystem where
  entries := [("a".toList, .file [120])]
  cwd := ['/']

/-- The plan of a target in a module beside the file, seen from a base path. -/
def plainPlan (basePath target : Text) : SearchPlan :=
  SearchPlan.ofTarget plainTree "/m.js".toList basePath target

/-- What a call in the module for such a target is replaced by, and what is told about it. -/
def plainLoad (basePath target : Text) : Except Abort (Option Embedding × List Diagnostic) :=
  (load plainTree (plainPlan basePath target) "utf8".toList ⟨"/m.js".toList, 1, 0⟩).map
    fun r => (r.1, Event.diagnostics r.2)

/-- Whether such a target tells a file. -/
def plainTells (basePath target : Text) : Bool :=
  plainTree.isFile (Path.join (plainPlan basePath target).root (plainPlan basePath target).pattern)

/-- The file is embedded for targets that tell none: with a space at the end, and with a directory that is not there
before a `..`.  A backslash at the end ends the run. -/
theorem missing_target_finds_other_file :
    (plainTells [] "a ".toList = false ∧
        plainLoad [] "a ".toList = .ok (some (.many [⟨['x'], "/a".toList, "a".toList⟩]), [])) ∧
      (plainTells ".".toList "d/../a".toList = false ∧
        plainLoad ".".toList "d/../a".toList = .ok (some (.many [⟨['x'], "/a".toList, "a".toList⟩]), [])) ∧
      plainTells [] "a\\".toList = false ∧ plainLoad [] "a\\".toList = .error (.ignore .malformed) := by
  refine ⟨⟨?_, ?_⟩, ⟨?_, ?_⟩, ?_, ?_⟩ <;> decide +kernel

end AssetEmbed
