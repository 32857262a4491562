import AssetEmbed.Proofs.Glob.Compiling
import AssetEmbed.Proofs.Glob.Groups
import AssetEmbed.Proofs.Searching

/-!
# Selecting — the files that a pattern without braces and groups names

The leading segments of a pattern that hold no wildcards are a directory, and the rest of the pattern is matched from
there.
-/

namespace AssetEmbed

open Glob

/-! ## 1. One alternative -/

namespace Glob

variable {pattern : Text} {init : List Text} {last : Text}

theorem alternatives_of_plain (hgroup : '(' ∉ pattern) (hbrace : '{' ∉ pattern) :
    alternatives pattern = .ok [pattern] := by
  have hsigns := GroupPattern.unsupportedGroup?_literal_append (t := []) hgroup nofun
  have hgroups := groups_literal_append (t := []) hgroup nofun groups_nil
  rw [List.append_nil] at hsigns hgroups
  unfold groups at hgroups
  unfold alternatives groupsToBraces
  rw [hsigns, unsupportedGroup?]
  dsimp only
  rw [hgroups]
  show Except.ok (expandBraces pattern).eraseDups = _
  rw [expandBraces, expandUpTo_of_not_mem hbrace]
  rfl

theorem not_passesOver_joinWith {segs : List Text} (hne : segs ≠ []) (h : ∀ seg ∈ segs, '/' ∉ seg)
    (hdot : ∀ seg ∈ segs, isDotName seg = false) (n : Text) :
    ¬ PassesOver (Text.joinWith '/' segs) n ↔ isDotName n = false := by
  have hnames : namesDotEntry (Text.joinWith '/' segs) = false := by
    unfold namesDotEntry
    rw [Text.splitOn_joinWith hne h, List.any_eq_false]
    intro seg hseg
    simp [hdot seg hseg]
  rw [not_passesOver_iff, hnames, Bool.false_or, Bool.not_eq_true']

end Glob

namespace FileSystem

variable {fs : FileSystem} {root pattern : Text}

theorem expand_of_plain (hgroup : '(' ∉ pattern) (hbrace : '{' ∉ pattern) (fs : FileSystem) (root : Text) :
    fs.expand root pattern = Text.sortUnique <$> fs.expandAlternative root pattern := by
  unfold expand
  rw [alternatives_of_plain hgroup hbrace]
  dsimp only
  rw [List.mapM_cons, List.mapM_nil]
  cases fs.expandAlternative root pattern with
  | error e => rfl
  | ok names => simp [bind, Except.bind, pure, Except.pure]

theorem expand_of_selector_error (hgroup : '(' ∉ pattern) (hbrace : '{' ∉ pattern) {e : IgnoreError}
    (hselector : selector? (splitDirectory pattern).2 = .error e) : fs.expand root pattern = .error (.ignore e) := by
  rw [expand_of_plain hgroup hbrace]
  unfold expandAlternative
  dsimp only
  rw [hselector]
  rfl

theorem expand_of_selector_none (hgroup : '(' ∉ pattern) (hbrace : '{' ∉ pattern)
    (hselector : selector? (splitDirectory pattern).2 = .ok none) : fs.expand root pattern = .ok [] := by
  rw [expand_of_plain hgroup hbrace]
  unfold expandAlternative
  dsimp only
  rw [hselector]
  simp [Text.sortUnique, Text.sort]

/-- What a pattern without groups and braces is expanded to. -/
theorem exists_mem_expand (hfs : fs.WellFormed) (hfree : fs.LinkFree) (hgroup : '(' ∉ pattern) (hbrace : '{' ∉ pattern)
    {selector : IgnorePattern} (hselector : selector? (splitDirectory pattern).2 = .ok (some selector)) (root : Text) :
    let top := Path.normalize (Path.join root (splitDirectory pattern).1)
    ∃ names, fs.expand root pattern = .ok names ∧ ∀ name, name ∈ names ↔
      ∃ way, Place.IsProper way ∧ way ≠ [] ∧ (∀ n ∈ way, ¬ PassesOver (splitDirectory pattern).2 n) ∧
        selector.selects (Text.joinWith '/' way) = true ∧ fs.isFile (below top way) = true ∧
        Path.relative fs.cwd (below top way) root = name := by
  intro top
  rw [expand_of_plain hgroup hbrace]
  unfold expandAlternative
  dsimp only
  rw [hselector]
  refine ⟨_, rfl, fun name => ?_⟩
  rw [Text.mem_sortUnique, List.mem_map]
  refine exists_congr fun way => ?_
  rw [mem_selected hfs hfree (Path.normalize_ne_nil _)]
  simp only [and_assoc, top]

end FileSystem

/-! ## 2. A double star at the end -/

namespace Glob

/-- Whether a segment is made of stars, question marks and characters without a meaning of their own. -/
def IsStarSegment (seg : Text) : Prop :=
  ∀ c ∈ seg, c ≠ '/' ∧ c ≠ '\\' ∧ (isWildcard c = true → c = '*' ∨ c = '?')

instance : DecidablePred IsStarSegment := fun seg => List.decidableBAll _ seg

variable {segs : List Text}

theorem not_mem_of_isWildcard {seg : Text} (hseg : IsStarSegment seg) {c : Char} (hc : isWildcard c = true)
    (hother : ¬ (c = '*' ∨ c = '?')) : c ∉ seg :=
  fun hmem => hother ((hseg c hmem).2.2 hc)

theorem isStarSegment_doubleStar : IsStarSegment doubleStar := by
  intro c hc
  simp only [doubleStar, List.mem_cons, List.not_mem_nil, or_false, or_self] at hc
  subst hc
  exact ⟨by decide, by decide, fun _ => .inl rfl⟩

theorem IsStarSegment.isReadable {seg : Text} (hseg : IsStarSegment seg) : IsReadable seg :=
  ⟨fun hmem => (hseg _ hmem).2.1 rfl, not_mem_of_isWildcard hseg (by decide) (by decide)⟩

theorem IsStarSegment.slash_not_mem {seg : Text} (hseg : IsStarSegment seg) : '/' ∉ seg :=
  fun hmem => (hseg _ hmem).1 rfl

theorem forall_append_doubleStar {P : Text → Prop} (hsegs : ∀ seg ∈ segs, P seg) (hstars : P doubleStar) :
    ∀ seg ∈ segs ++ [doubleStar], P seg := by
  intro seg hseg
  rcases List.mem_append.1 hseg with hseg | hseg
  · exact hsegs seg hseg
  · rwa [List.mem_singleton.1 hseg]

theorem collapseStars_of_forall (h : ∀ seg ∈ segs, seg = doubleStar) :
    collapseStars (segs ++ [doubleStar]) = [doubleStar] := by
  induction segs with
  | nil => rfl
  | cons seg segs ih =>
    obtain ⟨rfl, hsegs⟩ := List.forall_mem_cons.1 h
    have hnext : (segs ++ [doubleStar]).head? = some doubleStar := by
      cases segs with
      | nil => rfl
      | cons next segs => rw [hsegs next List.mem_cons_self]; rfl
    rw [List.cons_append, collapseStars, if_pos (by simp [hnext]), ih hsegs]

/-- What a pattern that ends in a double star selects: the names in the directory itself if there is nothing else
but double stars, and nothing otherwise. -/
theorem exists_selector_doubleStar (hsegs : ∀ seg ∈ segs, IsStarSegment seg) (hhead : segs.head? ≠ some ['.']) :
    ∃ selector, selector? (Text.joinWith '/' (segs ++ [doubleStar])) = .ok (some selector) ∧
      ∀ s, selector.selects s = true ↔ (∀ seg ∈ segs, seg = doubleStar) ∧ s ≠ [] ∧ '/' ∉ s := by
  have hall := forall_append_doubleStar hsegs isStarSegment_doubleStar
  have hslash := fun seg hseg => (hall seg hseg).slash_not_mem
  have hsign : '!' ∉ Text.joinWith '/' (segs ++ [doubleStar]) :=
    Text.not_mem_joinWith (by decide) fun seg hseg => not_mem_of_isWildcard (hall seg hseg) (by decide) (by decide)
  have hhere : (segs ++ [doubleStar]).head? ≠ some ['.'] := by
    cases segs with
    | nil => decide
    | cons seg segs => exact hhead
  have hblank : ∀ c ∈ doubleStar.getLast?, Text.isBlank c = false := by
    rintro c hc
    cases hc
    rfl
  rw [selector?_joinWith hslash (not_here_isPrefix_joinWith hslash hhere) (fun hfirst => hsign (List.mem_of_mem_head? hfirst)) (by decide) hblank]
  -- double stars alone are one double star in the end, which is compiled apart
  by_cases hstars : ∀ seg ∈ segs, seg = doubleStar
  · refine ⟨⟨false, [.name], .entry⟩, ?_, fun s => ?_⟩
    · rw [collapseStars_of_forall hstars]
      rfl
    · rw [IgnorePattern.selects_name]
      exact ⟨fun h => ⟨hstars, h⟩, fun h => h.2⟩
  · have hreadable : ∀ seg ∈ collapseStars (segs ++ [doubleStar]), IsReadable seg := fun seg hseg =>
      (hall seg (mem_of_mem_collapseStars hseg)).isReadable
    have hlast : (collapseStars (segs ++ [doubleStar])).getLast? = some doubleStar := by
      rw [getLast?_collapseStars, List.getLast?_concat]
    have hmore : collapseStars (segs ++ [doubleStar]) ≠ [doubleStar] := by
      refine fun heq => hstars fun seg hseg => ?_
      by_contra hne
      have hmem := mem_collapseStars_of_ne (List.mem_append_left [doubleStar] hseg) hne
      rw [heq] at hmem
      exact hne (List.mem_singleton.1 hmem)
    obtain ⟨es, hes, hordered⟩ := exists_anchoredElements_content hreadable hlast hmore
    refine ⟨⟨false, es, .content⟩, ?_, fun s => ?_⟩
    · rw [hes, IgnorePattern.ofParts?, if_pos hordered]
    · rw [IgnorePattern.selects_content]
      exact ⟨fun h => absurd h Bool.false_ne_true, fun h => absurd h.1 hstars⟩

theorem not_passesOver_doubleStar (hsegs : ∀ seg ∈ segs, seg = doubleStar) (n : Text) :
    ¬ PassesOver (Text.joinWith '/' (segs ++ [doubleStar])) n ↔ isDotName n = false := by
  have hall := forall_append_doubleStar hsegs rfl
  refine not_passesOver_joinWith (by simp) (fun seg hseg => ?_) (fun seg hseg => ?_) n
  · rw [hall seg hseg]
    decide
  · rw [hall seg hseg]
    rfl

end Glob

namespace FileSystem

variable {fs : FileSystem} {segs : List Text}

/-- A pattern that ends in a double star is expanded to the files in the directory that its leading segments without
wildcards name, and to none of those further below.  If anything but double stars stands between those segments and
the last one, it is expanded to nothing. -/
theorem expand_trailing_doubleStar (hfs : fs.WellFormed) (hfree : fs.LinkFree)
    (hsegs : ∀ seg ∈ segs, IsStarSegment seg) (root : Text) :
    let pattern := Text.joinWith '/' (segs ++ [doubleStar])
    let top := Path.normalize (Path.join root (splitDirectory pattern).1)
    ∃ names, fs.expand root pattern = .ok names ∧ ∀ name, name ∈ names ↔
      (∀ seg ∈ segs.dropWhile (fun seg => !isPattern seg), seg = doubleStar) ∧
        ∃ n, Path.IsProper n ∧ isDotName n = false ∧ fs.isFile (Path.join top n) = true ∧
          Path.relative fs.cwd (Path.join top n) root = name := by
  intro pattern top
  have hall := forall_append_doubleStar hsegs isStarSegment_doubleStar
  have habsent : ∀ c, isWildcard c = true → ¬ (c = '*' ∨ c = '?') → c ≠ '/' → c ∉ pattern := fun c hc hother hsep =>
    Text.not_mem_joinWith hsep fun seg hseg => not_mem_of_isWildcard (hall seg hseg) hc hother
  have hsplit : (splitDirectory pattern).2 =
      Text.joinWith '/' (segs.dropWhile (fun seg => !isPattern seg) ++ [doubleStar]) :=
    congrArg Prod.snd (splitDirectory_joinWith fun seg hseg => (hall seg hseg).slash_not_mem)
  generalize hrest : segs.dropWhile (fun seg => !isPattern seg) = rest at hsplit ⊢
  have hrestSegs : ∀ seg ∈ rest, IsStarSegment seg := fun seg hseg =>
    hsegs seg (List.dropWhile_subset _ (hrest ▸ hseg))
  have hhead : rest.head? ≠ some ['.'] := by
    intro hhead
    have hfirst := List.head?_dropWhile_not (fun seg => !isPattern seg) segs
    rw [hrest, hhead] at hfirst
    exact absurd hfirst (by decide)
  obtain ⟨selector, hselector, hselects⟩ := exists_selector_doubleStar hrestSegs hhead
  obtain ⟨names, hnames, hmem⟩ := exists_mem_expand hfs hfree (habsent '(' (by decide) (by decide) (by decide))
    (habsent '{' (by decide) (by decide) (by decide)) (hsplit ▸ hselector) root
  rw [hsplit] at hmem
  refine ⟨names, hnames, fun name => (hmem name).trans ?_⟩
  constructor
  · rintro ⟨way, hway, hne, hover, hselect, hfile, hname⟩
    obtain ⟨hstars, -, hslash⟩ := (hselects _).1 hselect
    refine ⟨hstars, ?_⟩
    obtain ⟨n, rest, rfl⟩ := List.exists_cons_of_ne_nil hne
    cases rest with
    | nil =>
      have hn := List.mem_singleton_self n
      exact ⟨n, hway n hn, (not_passesOver_doubleStar hstars n).1 (hover n hn), hfile, hname⟩
    | cons m rest =>
      -- a second name would stand behind a slash
      rw [Text.joinWith_cons_cons] at hslash
      exact absurd (List.mem_append_right n List.mem_cons_self) hslash
  · rintro ⟨hstars, n, hn, hdot, hfile, hname⟩
    refine ⟨[n], ?_, List.cons_ne_nil n [], ?_, (hselects n).2 ⟨hstars, hn.1.1, hn.1.2.2⟩, hfile, hname⟩
    · exact List.forall_mem_singleton.2 hn
    · exact List.forall_mem_singleton.2 ((not_passesOver_doubleStar hstars n).2 hdot)

def nestedTree : FileSystem where
  entries := [("b".toList, .directory [("c".toList, .file [])])]
  cwd := ['/']

theorem nestedTree_wellFormed : nestedTree.WellFormed := by
  simp only [WellFormed, nestedTree, Listing.IsSound, Entry.IsSound, Listing.get?]
  decide +kernel

theorem expand_trailing_doubleStar_nestedTree :
    nestedTree.WellFormed ∧ nestedTree.LinkFree ∧ (∀ seg ∈ ["b".toList, doubleStar], IsStarSegment seg) ∧
      ∃ names, nestedTree.expand ['/'] "b/**/**".toList = .ok names ∧ "b/c".toList ∈ names := by
  have hfree : nestedTree.LinkFree := linkFree_of_linkCount (by decide)
  have hsegs : ∀ seg ∈ ["b".toList, doubleStar], IsStarSegment seg := by decide
  obtain ⟨names, hnames, hmem⟩ := expand_trailing_doubleStar nestedTree_wellFormed hfree hsegs ['/']
  refine ⟨nestedTree_wellFormed, hfree, hsegs, names, hnames, (hmem _).2 ⟨?_, "c".toList, ?_⟩⟩
  · decide
  · exact ⟨⟨⟨by decide, by decide, by decide⟩, by decide⟩, by decide, by decide +kernel, by decide +kernel⟩

/-- A file further below is not found, though it lies below the root and below a directory that `*` matches. -/
theorem expand_trailing_doubleStar_misses :
    (nestedTree.expand ['/'] "**".toList).toOption = some [] ∧
      (nestedTree.expand ['/'] "*/**".toList).toOption = some [] ∧
      nestedTree.isFile "/b/c".toList = true := by
  exact ⟨by decide +kernel, by decide +kernel, by decide +kernel⟩

end FileSystem

/-! ## 3. Segments in front -/

namespace Glob

/-- Whether a pattern without groups and braces is made of segments that are neither empty nor named like hidden
entries, hold no backslash and no white space at their ends, and of which the last one is no double star. -/
structure IsTidy (alternative : Text) : Prop where
  group : '(' ∉ alternative
  brace : '{' ∉ alternative
  isName : ∀ seg ∈ alternative.splitOn '/', seg ≠ [] ∧ isDotName seg = false
  escape : ∀ seg ∈ alternative.splitOn '/', '\\' ∉ seg
  strip : ∀ seg ∈ alternative.splitOn '/', seg.strip = seg
  last : (alternative.splitOn '/').getLast? ≠ some doubleStar

variable {alternative : Text} {init : List Text} {last : Text}

theorem isProper_of_isDotName {seg : Text} (hne : seg ≠ []) (hdot : isDotName seg = false) (hslash : '/' ∉ seg) :
    Path.IsProper seg := by
  refine ⟨⟨hne, ?_, hslash⟩, ?_⟩
  · rintro rfl
    cases hdot
  · rintro rfl
    cases hdot

theorem isVerbatim_of_isPattern {seg : Text} (h : isPattern seg = false) (hescape : '\\' ∉ seg) : IsVerbatim seg :=
  ⟨⟨hescape, not_mem_of_plain h (by decide)⟩, not_mem_of_plain h (by decide), not_mem_of_plain h (by decide)⟩

namespace IsTidy

theorem slash_not_mem {seg : Text} (hseg : seg ∈ alternative.splitOn '/') : '/' ∉ seg :=
  Text.not_mem_of_mem_splitOn hseg

theorem isProper (h : IsTidy alternative) {seg : Text} (hseg : seg ∈ alternative.splitOn '/') : Path.IsProper seg :=
  isProper_of_isDotName (h.isName seg hseg).1 (h.isName seg hseg).2 (slash_not_mem hseg)

theorem exists_splitDirectory_eq (h : IsTidy alternative) :
    ∃ fixed init last, alternative.splitOn '/' = fixed ++ (init ++ [last]) ∧
      (∀ seg ∈ fixed, isPattern seg = false) ∧
      splitDirectory alternative = (Text.joinWith '/' fixed, Text.joinWith '/' (init ++ [last])) := by
  obtain ⟨fixed, init, last, hsegs, hfixed, -, hsplit⟩ := exists_segments alternative
  refine ⟨fixed, init, last, hsegs, hfixed, ?_⟩
  rw [hsplit, if_neg]
  rw [Bool.and_eq_true, decide_eq_true_eq, decide_eq_true_eq]
  rintro ⟨hne, hnil⟩
  refine Path.joinWith_ne_nil hne (fun n hn => (h.isProper ?_).1) hnil
  rw [hsegs]
  exact List.mem_append_left _ hn

theorem selector?_eq (h : IsTidy alternative) {init : List Text} {last : Text}
    (hsub : init ++ [last] ⊆ alternative.splitOn '/') (hsign : (Text.joinWith '/' (init ++ [last])).head? ≠ some '!') :
    selector? (Text.joinWith '/' (init ++ [last])) =
      IgnorePattern.ofParts? (anchoredElements (collapseStars (init ++ [last]))) := by
  have hlast := hsub (List.mem_append_right _ (List.mem_singleton_self last))
  have hslash : ∀ seg ∈ init ++ [last], '/' ∉ seg := fun seg hseg => slash_not_mem (hsub hseg)
  refine selector?_joinWith hslash (not_here_isPrefix_joinWith hslash fun hhead => ?_) hsign (h.isName last hlast).1
    (isBlank_getLast?_of_strip_eq (h.strip last hlast))
  cases (h.isName _ (hsub (List.mem_of_mem_head? hhead))).2

theorem areSegments (h : IsTidy alternative) {fixed rest : List Text} (hne : rest ≠ [])
    (hsegs : alternative.splitOn '/' = fixed ++ rest) : AreSegments (collapseStars rest) := by
  refine AreSegments.collapse (fun seg hseg => ?_) ?_
  · have hmem : seg ∈ alternative.splitOn '/' := hsegs ▸ List.mem_append_right _ hseg
    exact ⟨(h.isName seg hmem).1, slash_not_mem hmem⟩
  · have hlast := h.last
    rwa [hsegs, List.getLast?_append_of_ne_nil _ hne] at hlast

theorem not_passesOver (h : IsTidy alternative) {fixed rest : List Text} (hne : rest ≠ [])
    (hsegs : alternative.splitOn '/' = fixed ++ rest) (n : Text) :
    ¬ PassesOver (Text.joinWith '/' rest) n ↔ isDotName n = false := by
  have hsub : ∀ seg ∈ rest, seg ∈ alternative.splitOn '/' := fun seg hseg => hsegs ▸ List.mem_append_right _ hseg
  exact not_passesOver_joinWith hne (fun seg hseg => slash_not_mem (hsub seg hseg))
    (fun seg hseg => (h.isName seg (hsub seg hseg)).2) n

theorem head?_joinWith_ne (h : IsTidy alternative) {seg : Text} {segs : List Text}
    (hsegs : alternative.splitOn '/' = seg :: segs) (hseg : isPattern seg = false) :
    alternative.head? ≠ some '!' := by
  obtain ⟨c, seg, rfl⟩ := List.exists_cons_of_ne_nil (h.isName seg (hsegs ▸ List.mem_cons_self)).1
  have hc : c ≠ '!' := by
    rintro rfl
    exact absurd hseg (by simp [isPattern, isWildcard])
  intro hhead
  rw [← Text.joinWith_splitOn '/' alternative, hsegs] at hhead
  cases segs with
  | nil => exact hc (Option.some.inj hhead)
  | cons next segs => exact hc (Option.some.inj hhead)

/-- The whole pattern is compiled to what its rest is compiled to, behind the leading segments. -/
theorem selector?_append (h : IsTidy alternative) {fixed init : List Text} {last : Text}
    (hsegs : alternative.splitOn '/' = fixed ++ (init ++ [last])) (hfixed : ∀ seg ∈ fixed, isPattern seg = false)
    (hsign : fixed = [] ∨ (Text.joinWith '/' (init ++ [last])).head? ≠ some '!') :
    selector? alternative =
      (Option.map (IgnorePattern.behindAll fixed)) <$> selector? (Text.joinWith '/' (init ++ [last])) := by
  have halternative : alternative = Text.joinWith '/' (fixed ++ (init ++ [last])) := by
    rw [← hsegs, Text.joinWith_splitOn]
  by_cases hnil : fixed = []
  · subst hnil
    rw [List.nil_append] at halternative
    rw [← halternative]
    have hid : IgnorePattern.behindAll [] = id := rfl
    rw [hid]
    cases selector? alternative with
    | error e => rfl
    | ok selector => cases selector <;> rfl
  -- the segments in front are taken verbatim, so they go before what the others are compiled to
  have hverbatim : ∀ seg ∈ fixed, IsVerbatim seg := fun seg hseg =>
    isVerbatim_of_isPattern (hfixed seg hseg) (h.escape seg (hsegs ▸ List.mem_append_left _ hseg))
  have hfirst : (Text.joinWith '/' (fixed ++ init ++ [last])).head? ≠ some '!' := by
    obtain ⟨seg, fixed, rfl⟩ := List.exists_cons_of_ne_nil hnil
    rw [List.append_assoc, ← halternative]
    exact h.head?_joinWith_ne hsegs (hfixed seg List.mem_cons_self)
  have hcollapse : collapseStars (fixed ++ (init ++ [last])) = fixed ++ collapseStars (init ++ [last]) :=
    collapseStars_append (fun hstars => (hverbatim _ hstars).ne_doubleStar rfl) _
  have hrest : init ++ [last] ≠ [] := List.append_ne_nil_of_right_ne_nil _ (List.cons_ne_nil _ _)
  rw [halternative, h.selector?_eq (hsegs ▸ List.subset_append_right _ _) (hsign.resolve_left hnil),
    ← List.append_assoc, h.selector?_eq _ hfirst, List.append_assoc, hcollapse,
    IgnorePattern.ofParts?_append hverbatim hnil (h.areSegments hrest hsegs) (collapseStars_ne_nil hrest)]
  · have hall : IgnorePattern.behindAll fixed = IgnorePattern.behind (Text.joinWith '/' fixed) := by
      funext p
      exact if_neg hnil
    rw [hall]
  · rw [hsegs, List.append_assoc]
    exact List.Subset.refl _

end IsTidy

end Glob

namespace FileSystem

variable {fs : FileSystem} {alternative root : Text}

/-- Whether a name leads from a root to a file, by names of which none is that of a hidden entry, and a pattern
selects it as a whole. -/
def Finds (fs : FileSystem) (root : Text) (selector : IgnorePattern) (name : Text) : Prop :=
  ∃ way, Place.IsProper way ∧ way ≠ [] ∧ (∀ n ∈ way, isDotName n = false) ∧ name = Text.joinWith '/' way ∧
    selector.selects name = true ∧ fs.isFile (Path.normalize (Path.join root name)) = true

/-- What is found below a directory by some pattern is found from the root by the pattern behind the directory. -/
theorem finds_behindAll (hfree : fs.LinkFree) {fixed : List Text} (hfixed : Place.IsProper fixed)
    (hdot : ∀ seg ∈ fixed, isDotName seg = false) (selector : IgnorePattern) (root name : Text) :
    (∃ way, Place.IsProper way ∧ way ≠ [] ∧ (∀ n ∈ way, isDotName n = false) ∧
        selector.selects (Text.joinWith '/' way) = true ∧
        fs.isFile (below (Path.normalize (Path.join root (Text.joinWith '/' fixed))) way) = true ∧
        Path.relative fs.cwd (below (Path.normalize (Path.join root (Text.joinWith '/' fixed))) way) root = name) ↔
      fs.Finds root (selector.behindAll fixed) name ∧
        (Path.normalize root = ['.'] → fixed = [] → byteLength name + 2 ≤ maxPathBytes) := by
  have hslash : ∀ {ns : List Text}, Place.IsProper ns → ∀ n ∈ ns, '/' ∉ n := fun hns n hn => (hns n hn).1.2.2
  constructor
  · rintro ⟨way, hway, hne, hvisible, hselects, hfile, rfl⟩
    rw [relative_below_normalize fs.cwd root hfixed hway hne]
    obtain ⟨hfile, hshort⟩ := (isFile_below_normalize hfree hfixed hway hne root).1 hfile
    have hne' : fixed ++ way ≠ [] := List.append_ne_nil_of_right_ne_nil fixed hne
    refine ⟨⟨fixed ++ way, hfixed.append hway, hne', fun n hn => ?_, rfl, ?_, hfile⟩, fun hroot hnil => ?_⟩
    · rcases List.mem_append.1 hn with hn | hn
      · exact hdot n hn
      · exact hvisible n hn
    · exact (IgnorePattern.selects_behindAll (hslash hfixed) (hslash (hfixed.append hway)) hne').2
        ⟨way, rfl, hne, hselects⟩
    · have hlength := hshort hroot hnil
      subst hnil
      exact hlength
  · rintro ⟨⟨way, hway, hne, hvisible, rfl, hselects, hfile⟩, hshort⟩
    -- what the pattern selects lies below the directory, as the segments in front tell
    obtain ⟨rest, rfl, hrest, hselects⟩ :=
      (IgnorePattern.selects_behindAll (hslash hfixed) (hslash hway) hne).1 hselects
    have hrestProper : Place.IsProper rest := fun n hn => hway n (List.mem_append_right _ hn)
    refine ⟨rest, hrestProper, hrest, fun n hn => hvisible n (List.mem_append_right _ hn), hselects, ?_,
      relative_below_normalize fs.cwd root hfixed hrestProper hrest⟩
    refine (isFile_below_normalize hfree hfixed hrestProper hrest root).2 ⟨hfile, fun hroot hnil => ?_⟩
    have hlength := hshort hroot hnil
    subst hnil
    exact hlength

/-- A tidy pattern is expanded to the names from the root that the whole pattern selects and that lead to files.  But
if the segment at which the search starts begins with an exclamation mark, and it is not the first one, nothing is
found; and from a root that is told as `.`, the path of a file is longer by two bytes than its name, unless the
pattern names a directory. -/
theorem expand_eq_whole_pattern (hfs : fs.WellFormed) (hfree : fs.LinkFree) (h : IsTidy alternative) (root : Text) :
    if (splitDirectory alternative).1 ≠ [] ∧ (splitDirectory alternative).2.head? = some '!' then
      fs.expand root alternative = .ok []
    else match selector? alternative with
      | .error e => fs.expand root alternative = .error (.ignore e)
      | .ok none => fs.expand root alternative = .ok []
      | .ok (some selector) => ∃ names, fs.expand root alternative = .ok names ∧ ∀ name, name ∈ names ↔
          fs.Finds root selector name ∧ (Path.normalize root = ['.'] → (splitDirectory alternative).1 = [] →
            byteLength name + 2 ≤ maxPathBytes) := by
  obtain ⟨fixed, init, last, hsegs, hfixed, hsplit⟩ := h.exists_splitDirectory_eq
  have hmem : ∀ seg ∈ fixed, seg ∈ alternative.splitOn '/' := fun seg hseg => hsegs ▸ List.mem_append_left _ hseg
  have hfixedProper : Place.IsProper fixed := fun seg hseg => h.isProper (hmem seg hseg)
  have hdirectory : Text.joinWith '/' fixed = [] ↔ fixed = [] := by
    refine ⟨fun hnil => by_contra fun hne => ?_, fun hnil => hnil ▸ rfl⟩
    exact Path.joinWith_ne_nil hne (fun seg hseg => (hfixedProper seg hseg).1) hnil
  have hrestNil : init ++ [last] ≠ [] := List.append_ne_nil_of_right_ne_nil _ (List.cons_ne_nil _ _)
  have hsnd : (splitDirectory alternative).2 = Text.joinWith '/' (init ++ [last]) := congrArg Prod.snd hsplit
  by_cases hsign : fixed = [] ∨ (Text.joinWith '/' (init ++ [last])).head? ≠ some '!'
  · have hselector := h.selector?_append hsegs hfixed hsign
    rw [if_neg (by rw [hsplit]; simp only [ne_eq, hdirectory]; tauto), hselector]
    cases hrest : selector? (Text.joinWith '/' (init ++ [last])) with
    | error e => exact expand_of_selector_error h.group h.brace (hsnd.symm ▸ hrest)
    | ok selector =>
      cases selector with
      | none => exact expand_of_selector_none h.group h.brace (hsnd.symm ▸ hrest)
      | some p =>
        obtain ⟨names, hnames, hmemNames⟩ := exists_mem_expand hfs hfree h.group h.brace (hsnd.symm ▸ hrest) root
        refine ⟨names, hnames, fun name => (hmemNames name).trans ?_⟩
        rw [hsplit]
        simp only [h.not_passesOver hrestNil hsegs, hdirectory]
        exact finds_behindAll hfree hfixedProper (fun seg hseg => (h.isName seg (hmem seg hseg)).2) p root name
  -- at the start of the rest the sign negates, and so the rest selects nothing
  · rw [not_or, not_not] at hsign
    rw [if_pos (by rw [hsplit]; exact ⟨fun hnil => hsign.1 (hdirectory.1 hnil), hsign.2⟩)]
    exact expand_of_selector_none h.group h.brace (hsnd.symm ▸ selector?_of_negated hsign.2)

theorem isTidy_nestedPattern : IsTidy "b/*".toList where
  group := by decide
  brace := by decide
  isName := by decide
  escape := by decide
  strip := by decide
  last := by decide

theorem expand_eq_whole_pattern_nestedTree :
    nestedTree.WellFormed ∧ nestedTree.LinkFree ∧ IsTidy "b/*".toList ∧
      ∃ names, nestedTree.expand ['/'] "b/*".toList = .ok names ∧ "b/c".toList ∈ names := by
  have hfree : nestedTree.LinkFree := linkFree_of_linkCount (by decide)
  have hexpand := expand_eq_whole_pattern nestedTree_wellFormed hfree isTidy_nestedPattern ['/']
  rw [if_neg (by decide)] at hexpand
  have hselector : selector? "b/*".toList =
      .ok (some ⟨false, [.literal 'b', .literal '/', .name], .entry⟩) := by decide +kernel
  rw [hselector] at hexpand
  obtain ⟨names, hnames, hmem⟩ := hexpand
  refine ⟨nestedTree_wellFormed, hfree, isTidy_nestedPattern, names, hnames, (hmem _).2 ⟨?_, by decide⟩⟩
  refine ⟨["b".toList, "c".toList], ?_, by decide, by decide, by decide, by decide +kernel, by decide +kernel⟩
  unfold Place.IsProper
  decide

def markedTree : FileSystem where
  entries := [("a".toList, .directory [("!b".toList, .file [])])]
  cwd := ['/']

/-- A segment behind others that begins with an exclamation mark is taken for the sign of negation, though the whole
pattern selects the file of this name. -/
theorem expand_takes_segment_for_negation :
    (markedTree.expand ['/'] "a/!b".toList).toOption = some [] ∧
      ∃ selector, selector? "a/!b".toList = .ok (some selector) ∧ markedTree.Finds ['/'] selector "a/!b".toList := by
  refine ⟨by decide +kernel, ⟨false, "a/!b".toList.map .literal, .entry⟩, by decide +kernel, ?_⟩
  refine ⟨["a".toList, "!b".toList], ?_, by decide, by decide, by decide, by decide +kernel, by decide +kernel⟩
  unfold Place.IsProper
  decide

end FileSystem

end AssetEmbed
