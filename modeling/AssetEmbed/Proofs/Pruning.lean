import AssetEmbed.Modules
import AssetEmbed.Proofs.FileSystem.Reading
import AssetEmbed.Proofs.Glob.Compiling
import AssetEmbed.Proofs.Loading

/-!
# Pruning — directories in which no modules are looked for

A directory is pruned if its path with a slash behind it is excluded, and a module below it is judged by its own path.
A line that matches the directory matches everything below it too, but a later line may take a path below it out of
the list again.
-/

namespace AssetEmbed

namespace Glob

/-! ## 1. Lines that match a directory -/

def IgnorePattern.Matches (p : IgnorePattern) (path : Text) : Prop := (p.hit? (relativePath path)).isSome = true

instance (p : IgnorePattern) (path : Text) : Decidable (p.Matches path) := inferInstanceAs (Decidable (_ = true))

/-- Whether a line names an entry by a bracket expression at its end that holds the slash. -/
def IgnorePattern.TakesLastSlash (p : IgnorePattern) : Prop :=
  p.ending = .entry ∧ ∃ negated ranges, p.elements.getLast? = some (.oneOf negated ranges) ∧
    (inRanges ranges '/' != negated) = true

theorem isBelow_append {s rest : Text} (h : isBelow s = true) (hs : '\n' ∉ s) (hrest : '\n' ∉ rest) :
    isBelow (s ++ rest) = true := by
  cases s with
  | nil => cases h
  | cons c s =>
    obtain rfl : c = '/' := by
      by_contra hc
      simp [isBelow, hc] at h
    refine isBelow_cons fun hmem => ?_
    rcases List.mem_append.1 hmem with hmem | hmem
    · exact hs (List.mem_cons_of_mem _ hmem)
    · exact hrest hmem

theorem Ending.isSome_hit?_of_isBelow {s : Text} (ending : Ending) (h : isBelow s = true) :
    (ending.hit? s).isSome = true := by
  cases ending <;> simp [hit?, h]

theorem Ending.isSome_hit?_cases {ending : Ending} {s : Text} (h : (ending.hit? s).isSome = true) :
    isBelow s = true ∨ ending = .entry ∧ (s = [] ∨ s = ['\n']) := by
  cases hbelow : isBelow s with
  | true => exact .inl rfl
  | false =>
    cases ending with
    | content => simp [hit?, hbelow] at h
    | entry =>
      cases hend : s.isAtEnd with
      | false => simp [hit?, hbelow, hend] at h
      | true =>
        unfold Text.isAtEnd at hend
        rw [Bool.or_eq_true, decide_eq_true_eq, decide_eq_true_eq] at hend
        exact .inr ⟨rfl, hend⟩

theorem Ending.isSome_hit?_dropWhile {s : Text} (hs : '\n' ∉ s) :
    (Ending.entry.hit? (s.dropWhile (· ≠ '/'))).isSome = true := by
  have hfirst := List.head?_dropWhile_not (fun c => decide (c ≠ '/')) s
  cases hdrop : s.dropWhile (· ≠ '/') with
  | nil => rfl
  | cons c more =>
    rw [hdrop] at hfirst
    obtain rfl : c = '/' := by simpa using hfirst
    have hmore : more ⊆ s := fun d hd => List.dropWhile_subset _ (hdrop ▸ List.mem_cons_of_mem _ hd)
    exact isSome_hit?_of_isBelow _ (isBelow_cons fun hmem => hs (hmore hmem))

theorem Element.IsInName.takes_concat {e : Element} (he : e.IsInName) {s : Text} (h : e.Takes (s ++ ['/'])) :
    ∃ negated ranges, e = .oneOf negated ranges ∧ (inRanges ranges '/' != negated) = true := by
  have hmem : '/' ∈ s ++ ['/'] := List.mem_append_right _ (List.mem_singleton_self _)
  cases e with
  | literal c =>
    obtain rfl : '/' = c := List.mem_singleton.1 (h ▸ hmem)
    exact absurd rfl he
  | oneOf negated ranges =>
    obtain ⟨c, hc, hin⟩ := h
    obtain rfl : '/' = c := List.mem_singleton.1 (hc ▸ hmem)
    exact ⟨negated, ranges, rfl, hin⟩
  | nameChar =>
    obtain ⟨c, hc, hne⟩ := h
    exact absurd (List.mem_singleton.1 (hc ▸ hmem)).symm hne
  | nameChars => exact absurd hmem h
  | name => exact absurd hmem h.2
  | anything => exact absurd he id
  | leadingDirs => exact absurd he id
  | innerDirs => exact absurd he id

theorem Element.IsInName.takes_nil {e : Element} (he : e.IsInName) (h : e.Takes []) : e = .nameChars := by
  cases e with
  | nameChars => rfl
  | literal c => cases h
  | oneOf negated ranges =>
    obtain ⟨c, hc, -⟩ := h
    cases hc
  | nameChar =>
    obtain ⟨c, hc, -⟩ := h
    cases hc
  | name => exact absurd rfl h.1
  | anything => exact absurd he id
  | leadingDirs => exact absurd he id
  | innerDirs => exact absurd he id

/-- A line that matches a directory matches everything below it. -/
theorem IgnorePattern.isSome_hit?_below {p : IgnorePattern} (hlast : p.ending = .entry → EndsInName p.elements)
    (hslash : ¬ p.TakesLastSlash) {directory rest : Text} (hdirectory : '\n' ∉ directory) (hrest : '\n' ∉ rest)
    (h : (p.hit? (directory ++ ['/'])).isSome = true) : (p.hit? (directory ++ '/' :: rest)).isSome = true := by
  have hassoc : directory ++ '/' :: rest = directory ++ ['/'] ++ rest := by simp
  have hbreak : '\n' ∉ directory ++ ['/'] := by simp [hdirectory]
  obtain ⟨taken, left, htext, htakes, hhit⟩ := isSome_firstHit.1 h
  refine isSome_firstHit.2 ?_
  rw [hassoc, htext]
  rcases Ending.isSome_hit?_cases hhit with hbelow | ⟨hentry, hleft⟩
  · -- the slash belongs to what lies below
    have hleft : '\n' ∉ left := fun hmem => hbreak (htext ▸ List.mem_append_right _ hmem)
    exact ⟨taken, left ++ rest, List.append_assoc _ _ _, htakes,
      Ending.isSome_hit?_of_isBelow _ (isBelow_append hbelow hleft hrest)⟩
  · have hnil : left = [] := by
      refine hleft.resolve_right fun hleft => hbreak ?_
      rw [htext, hleft]
      exact List.mem_append_right _ (List.mem_singleton_self _)
    subst hnil
    rw [List.append_nil] at htext ⊢
    -- the parts take the slash too: the last one is a star that takes nothing yet
    obtain ⟨es, e, hes⟩ : ∃ es e, p.elements = es ++ [e] := by
      rcases List.eq_nil_or_concat' p.elements with hnone | ⟨es, e, hes⟩
      · rw [hnone] at htakes
        obtain rfl := htakes
        simp at htext
      · exact ⟨es, e, hes⟩
    have hname : e.IsInName := hlast hentry e (by rw [hes, List.getLast?_concat]; rfl)
    rw [hes] at htakes ⊢
    obtain ⟨before, last, rfl, hbefore, hlastTakes⟩ := takes_append.1 htakes
    have hlastTakes := takes_singleton.1 hlastTakes
    rcases List.eq_nil_or_concat' last with rfl | ⟨last, c, rfl⟩
    · obtain rfl := hname.takes_nil hlastTakes
      have hsplit := List.takeWhile_append_dropWhile (p := fun c => decide (c ≠ '/')) (l := rest)
      refine ⟨before ++ rest.takeWhile (· ≠ '/'), rest.dropWhile (· ≠ '/'), ?_, ?_, ?_⟩
      · rw [List.append_nil, List.append_assoc, hsplit]
      · refine takes_append.2 ⟨_, _, rfl, hbefore, takes_singleton.2 ?_⟩
        exact not_mem_of_forall fun c hc => by simpa using List.mem_takeWhile_imp hc
      · rw [hentry]
        exact Ending.isSome_hit?_dropWhile hrest
    · rw [← List.append_assoc] at htext
      obtain ⟨-, rfl⟩ : directory = before ++ last ∧ '/' = c := by simpa using List.append_inj' htext rfl
      obtain ⟨negated, ranges, rfl, hin⟩ := hname.takes_concat hlastTakes
      exact absurd ⟨hentry, negated, ranges, by rw [hes, List.getLast?_concat], hin⟩ hslash

/-! ## 2. The line that decides -/

namespace IgnoreList

variable {list : IgnoreList} {path : Text}

theorem names_eq_true_iff :
    list.names path = true ↔ ∃ before p after, list = before ++ p :: after ∧ p.Matches path ∧ p.negated = false ∧
      ∀ q ∈ after, ¬ q.Matches path := by
  unfold names
  constructor
  · intro h
    split at h
    · rename_i p hfind
      -- the search goes through the lines backwards, so that what was passed over came later
      obtain ⟨hp, after, before, hlist, hafter⟩ := List.find?_eq_some_iff_append.1 hfind
      refine ⟨before.reverse, p, after.reverse, ?_, hp, by simpa using h, fun q hq => ?_⟩
      · rw [← List.reverse_reverse list, hlist]
        simp
      · simpa [IgnorePattern.Matches] using hafter q (List.mem_reverse.1 hq)
    · cases h
  · rintro ⟨before, p, after, rfl, hp, hnegated, hafter⟩
    have hfind : (before ++ p :: after).reverse.find? (fun p => (p.hit? (relativePath path)).isSome) = some p := by
      refine List.find?_eq_some_iff_append.2 ⟨hp, after.reverse, before.reverse, by simp, fun q hq => ?_⟩
      simpa [IgnorePattern.Matches] using hafter q (List.mem_reverse.1 hq)
    rw [hfind]
    dsimp only
    rw [hnegated]
    rfl

/-- A line that matches a path decides unless a later one does that is negated. -/
theorem names_of_matches {before after : List IgnorePattern} {p : IgnorePattern} (hp : p.Matches path)
    (hnegated : p.negated = false) (hafter : ∀ q ∈ after, q.Matches path → q.negated = false) :
    names (before ++ p :: after) path = true := by
  have hreverse : (before ++ p :: after).reverse = after.reverse ++ (p :: before.reverse) := by simp
  have hfirst : (p :: before.reverse).find? (fun p => (p.hit? (relativePath path)).isSome) = some p :=
    List.find?_cons_of_pos hp
  unfold names
  rw [hreverse, List.find?_append, hfirst]
  cases hfind : after.reverse.find? fun p => (p.hit? (relativePath path)).isSome with
  | none =>
    show (!p.negated) = true
    rw [hnegated]
    rfl
  | some q =>
    have hmatches : q.Matches path := (List.find?_eq_some_iff_append.1 hfind).1
    have hq := hafter q (List.mem_reverse.1 (List.mem_of_find?_eq_some hfind)) hmatches
    show (!q.negated) = true
    rw [hq]
    rfl

end IgnoreList

end Glob

/-! ## 3. Paths as ignore lists see them -/

theorem Glob.relativePath_joinWith {names : List Text} (hnames : Place.IsProper names) (hne : names ≠ []) (s : Text) :
    Glob.relativePath (Text.joinWith '/' names ++ '/' :: s) = Text.joinWith '/' names ++ '/' :: s := by
  have hsplit : Text.splitOn '/' (Text.joinWith '/' names ++ '/' :: s) = names ++ Text.splitOn '/' s := by
    rw [Text.splitOn_append, Text.splitOn_joinWith hne fun n hn => (hnames n hn).1.2.2]
  obtain ⟨name, names, rfl⟩ := List.exists_cons_of_ne_nil hne
  have hname := (hnames name List.mem_cons_self).1
  unfold relativePath
  split
  · rename_i path heq
    rw [heq, Text.splitOn, if_pos rfl, List.cons_append, List.cons.injEq] at hsplit
    exact absurd hsplit.1.symm hname.1
  · rename_i path heq
    rw [heq, Path.splitOn_here, List.cons_append, List.cons.injEq] at hsplit
    exact absurd hsplit.1.symm hname.2.1
  · rfl

theorem relativeTo?_path {top below : Place} (hproper : Place.IsProper (top ++ below)) (hne : below ≠ []) :
    relativeTo? (Place.path top) (Place.path (top ++ below)) = some (Text.joinWith '/' below) := by
  have htop : Place.IsProper top := fun n hn => hproper n (List.mem_append_left _ hn)
  have hnames : Path.ofNames [] below = Text.joinWith '/' below :=
    Path.ofNames_eq_append (Path.joinWith_ne_nil hne fun n hn => (hproper n (List.mem_append_right _ hn)).1)
  unfold relativeTo?
  rw [htop.names_path, hproper.names_path, Path.dropCommon_append, ← hnames]

/-! ## 4. Filters -/

namespace ModuleFilter

open Glob

variable {fs : FileSystem} {f : ModuleFilter} {top directory way : Place} {rootPath : Text}
  {includedLines excludedLines : List Text}

theorem fields_of_ofLines? (hf : ofLines? rootPath includedLines excludedLines = .ok f) :
    f.root = rootPath ∧ compile? excludedLines = .ok f.excluded := by
  obtain ⟨included, -, hf⟩ := bind_eq_ok.1 hf
  obtain ⟨excluded, hexcluded, hf⟩ := bind_eq_ok.1 hf
  cases hf
  exact ⟨rfl, hexcluded⟩

theorem exists_line_of_mem {lines : List Text} {list : IgnoreList} (h : compile? lines = .ok (some list))
    {p : IgnorePattern} (hp : p ∈ list) : ∃ line, IgnorePattern.ofLine? line = .ok (some p) := by
  unfold compile? at h
  split at h
  · cases h
  obtain ⟨list', hlines, hlist⟩ := map_eq_ok.1 h
  cases hlist
  obtain ⟨ps, hps, rfl⟩ := map_eq_ok.1 hlines
  obtain ⟨p', hp', rfl⟩ := List.mem_filterMap.1 hp
  obtain ⟨line, -, hline⟩ := (mem_iff_of_mapM_eq_ok hps).1 hp'
  exact ⟨line, hline⟩

/-- Whether the line that excludes a directory does not decide about a path below it: it does not match the path, for it
takes the slash behind the name of the directory for a part of the name, or a later line that is negated matches. -/
def Reopens (f : ModuleFilter) (directory path : Text) : Prop :=
  ∃ before p after, f.excluded = some (before ++ p :: after) ∧ p.Matches (directory ++ ['/']) ∧ p.negated = false ∧
    (∀ q ∈ after, ¬ q.Matches (directory ++ ['/'])) ∧
    (p.TakesLastSlash ∧ ¬ p.Matches path ∨ ∃ q ∈ after, q.negated = true ∧ q.Matches path)

/-- A path below a directory that is pruned is excluded, unless the line that excludes the directory does not decide. -/
theorem excludes_of_prunes (hf : ofLines? rootPath includedLines excludedLines = .ok f)
    (hproper : Place.IsProper (directory ++ way)) (hdirectory : directory ≠ []) (hway : way ≠ [])
    (hbreak : ∀ n ∈ directory ++ way, '\n' ∉ n) (hprunes : f.prunes (Text.joinWith '/' directory) = true) :
    f.excluded.any (·.names (Text.joinWith '/' (directory ++ way))) = true ∨
      f.Reopens (Text.joinWith '/' directory) (Text.joinWith '/' (directory ++ way)) := by
  have hdirectoryProper : Place.IsProper directory := fun n hn => hproper n (List.mem_append_left _ hn)
  obtain ⟨list, hlist, hnames⟩ : ∃ list, f.excluded = some list ∧
      list.names (Text.joinWith '/' directory ++ ['/']) = true := by
    unfold prunes at hprunes
    simpa [Option.any_eq_true] using hprunes
  obtain ⟨before, p, after, rfl, hp, hnegated, hafter⟩ := IgnoreList.names_eq_true_iff.1 hnames
  by_cases hlater : ∃ q ∈ after, q.negated = true ∧ q.Matches (Text.joinWith '/' (directory ++ way))
  · exact .inr ⟨before, p, after, hlist, hp, hnegated, hafter, .inr hlater⟩
  by_cases hmatches : p.Matches (Text.joinWith '/' (directory ++ way))
  · left
    rw [hlist]
    refine IgnoreList.names_of_matches hmatches hnegated fun q hq hqMatches => ?_
    by_contra hqNegated
    exact hlater ⟨q, hq, by simpa using hqNegated, hqMatches⟩
  · -- a line that leaves the slash alone would match the path as it matches the directory
    refine .inr ⟨before, p, after, hlist, hp, hnegated, hafter, .inl ⟨?_, hmatches⟩⟩
    by_contra hslash
    have hp' : p ∈ before ++ p :: after := List.mem_append_right _ List.mem_cons_self
    obtain ⟨line, hline⟩ := exists_line_of_mem ((fields_of_ofLines? hf).2.trans (congrArg _ hlist)) hp'
    unfold IgnorePattern.Matches at hp hmatches
    rw [relativePath_joinWith hdirectoryProper hdirectory] at hp
    rw [Text.joinWith_append '/' hdirectory hway, relativePath_joinWith hdirectoryProper hdirectory] at hmatches
    refine hmatches (IgnorePattern.isSome_hit?_below (IgnorePattern.endsInName_of_ofLine? hline) hslash ?_ ?_ hp)
    · exact Text.not_mem_joinWith (by decide) fun n hn => hbreak n (List.mem_append_left _ hn)
    · exact Text.not_mem_joinWith (by decide) fun n hn => hbreak n (List.mem_append_right _ hn)

/-- A module below a directory that is pruned is rejected, unless the line that excludes the directory does not decide
about it. -/
theorem accepts_eq_false_of_prunes (hfree : fs.LinkFree)
    (hf : ofLines? (Place.path top) includedLines excludedLines = .ok f)
    {moduleId : Text} (hnul : '\x00' ∉ Path.join fs.cwd moduleId)
    (hmodule : Path.resolveNames true [] (Path.names (Path.join fs.cwd moduleId)) = top ++ (directory ++ way))
    (hdirectory : directory ≠ []) (hway : way ≠ []) (hbreak : ∀ n ∈ directory ++ way, '\n' ∉ n)
    (hprunes : f.prunes (Text.joinWith '/' directory) = true) :
    f.accepts fs moduleId = .ok false ∨
      f.Reopens (Text.joinWith '/' directory) (Text.joinWith '/' (directory ++ way)) := by
  have hproper : Place.IsProper (top ++ (directory ++ way)) :=
    hmodule ▸ Path.isProper_of_mem_resolveNames_names _
  refine (excludes_of_prunes hf (fun n hn => hproper n (List.mem_append_right _ hn)) hdirectory hway hbreak
    hprunes).imp_left fun hexcluded => ?_
  have hrelative : f.relative? fs moduleId = .ok (some (Text.joinWith '/' (directory ++ way))) := by
    unfold relative?
    rw [FileSystem.realPath_of_linkFree hfree hnul, hmodule]
    dsimp only
    rw [(fields_of_ofLines? hf).1, relativeTo?_path hproper (by simp [hdirectory])]
  rw [accepts, hrelative]
  show Except.ok (f.acceptsPath (some _)) = _
  rw [acceptsPath, hexcluded]
  rfl

/-- A directory with a module. -/
def vendorTree : FileSystem where
  entries := [("vendor".toList, .directory [("keep.js".toList, .file [])])]
  cwd := ['/']

/-- The filter whose only line excludes a directory. -/
def vendorFilter : ModuleFilter where
  root := ['/']
  included := none
  excluded := some [⟨false, .leadingDirs :: "vendor".toList.map .literal, .content⟩]

theorem accepts_eq_false_of_prunes_vendorTree :
    vendorTree.LinkFree ∧ ofLines? ['/'] [] ["vendor/".toList] = .ok vendorFilter ∧
      vendorFilter.prunes "vendor".toList = true ∧
      vendorFilter.accepts vendorTree "vendor/keep.js".toList = .ok false := by
  have hfree : vendorTree.LinkFree := FileSystem.linkFree_of_linkCount (by decide)
  have hf : ofLines? (Place.path []) [] ["vendor/".toList] = .ok vendorFilter := by rfl
  have hprunes : vendorFilter.prunes "vendor".toList = true := by decide +kernel
  have hmodule : Path.resolveNames true [] (Path.names (Path.join ['/'] "vendor/keep.js".toList)) =
      [] ++ (["vendor".toList] ++ ["keep.js".toList]) := by decide +kernel
  have haccepts := accepts_eq_false_of_prunes hfree hf (by decide) hmodule (by decide) (by decide) (by decide) hprunes
  refine ⟨hfree, hf, hprunes, haccepts.resolve_right ?_⟩
  -- no later line takes the module out of the list
  rintro ⟨before, p, after, hlist, -, -, -, hreopens⟩
  obtain ⟨rfl, hp, rfl⟩ : before = [] ∧ _ = p ∧ after = [] := by
    cases before with
    | nil => simpa [vendorFilter] using hlist
    | cons q before => simp [vendorFilter] at hlist
  subst hp
  rcases hreopens with ⟨⟨hentry, -⟩, -⟩ | ⟨q, hq, -⟩
  · cases hentry
  · cases hq

/-- A module below a directory that is pruned is accepted if a later line takes it out of the list, or if the line takes
the slash for a part of the name. -/
theorem accepts_below_pruned_directory :
    ((ofLines? ['/'] [] ["vendor/".toList, "!vendor/keep.js".toList]).toOption.map fun f =>
        (f.prunes "vendor".toList, (f.accepts vendorTree "/vendor/keep.js".toList).toOption)) = some (true, some true) ∧
      ((ofLines? ['/'] [] ["vendor[!a]".toList]).toOption.map fun f =>
        (f.prunes "vendor".toList, (f.accepts vendorTree "/vendor/keep.js".toList).toOption)) =
          some (true, some true) := by
  exact ⟨by decide +kernel, by decide +kernel⟩

end ModuleFilter

end AssetEmbed
