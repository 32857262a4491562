import AssetEmbed.Proofs.Answering
import AssetEmbed.Proofs.Searching
import Mathlib.Data.List.Infix

/-!
# Finding — the files that a pattern names

A pattern is expanded by walks from the directories that its alternatives name by their leading segments.  A walk
enters no link to another directory, and passes over hidden entries on the way unless the pattern names one.  What it
finds is the complete listing of the files below the directory, filtered by what the rest of the alternative matches.
-/

namespace AssetEmbed.FileSystem

variable {fs : FileSystem} {pattern : Text} {alternatives : List Text}

/-- Whether a name, as told from a root, is that of a file which an alternative names: the file is listed below the
directory of the leading segments, the rest of the alternative selects the names that lead to it from there, and none
of these is hidden unless the rest names a hidden entry. -/
def IsNamedBy (fs : FileSystem) (root alternative name : Text) : Prop :=
  let top := Path.normalize (Path.join root (Glob.splitDirectory alternative).1)
  let rest := (Glob.splitDirectory alternative).2
  ∃ selector way, Glob.selector? rest = .ok (some selector) ∧ fs.IsListed top way ∧
    selector.selects (Text.joinWith '/' way) = true ∧
    (Glob.namesDotEntry rest = true ∨ ∀ n ∈ way, Glob.isDotName n = false) ∧
    name = Path.relative fs.cwd (below top way) root

theorem forall_not_passesOver_iff {rest : Text} {way : List Text} :
    (∀ n ∈ way, ¬ Glob.PassesOver rest n) ↔
      Glob.namesDotEntry rest = true ∨ ∀ n ∈ way, Glob.isDotName n = false := by
  unfold Glob.PassesOver
  cases Glob.namesDotEntry rest <;> simp

/-- A pattern whose alternatives can all be compiled is expanded to the increasing list of the files that the
alternatives name. -/
theorem expand_lists_named_files (hfs : fs.WellFormed) (halternatives : Glob.alternatives pattern = .ok alternatives)
    (hcompiles : ∀ alternative ∈ alternatives, Glob.Compiles alternative) (root : Text) :
    ∃ names, fs.expand root pattern = .ok names ∧ names.Pairwise (· < ·) ∧
      ∀ name, name ∈ names ↔ ∃ alternative ∈ alternatives, fs.IsNamedBy root alternative name := by
  -- every alternative gives some files, so that sorting and merging them is all that is left
  obtain ⟨found, hfound⟩ : ∃ found, alternatives.mapM (fs.expandAlternative root) = .ok found := by
    apply mapM_isOk.2
    intro alternative hmem
    exact (expandAlternative_isOk fs root alternative).2 (hcompiles alternative hmem)
  have hexpand : fs.expand root pattern = .ok (Text.sortUnique found.flatten) := by
    unfold expand
    rw [halternatives]
    dsimp only
    rw [hfound]
    rfl
  refine ⟨_, hexpand, expand_pairwise hexpand, ?_⟩
  intro name
  rw [mem_of_expand hexpand]
  constructor
  · intro hname
    obtain ⟨alternatives', heq, alternative, hmem, selector, way, hselector, hway, hname⟩ := hname
    rw [halternatives] at heq
    cases heq
    obtain ⟨hlisted, hover, hselects⟩ := (mem_selected_iff hfs (Path.normalize_ne_nil _)).1 hway
    exact ⟨alternative, hmem, selector, way, hselector, hlisted, hselects, forall_not_passesOver_iff.1 hover, hname⟩
  · intro hname
    obtain ⟨alternative, hmem, selector, way, hselector, hlisted, hselects, hover, hname⟩ := hname
    have hway := (mem_selected_iff hfs (Path.normalize_ne_nil _)).2
      ⟨hlisted, forall_not_passesOver_iff.2 hover, hselects⟩
    exact ⟨alternatives, halternatives, alternative, hmem, selector, way, hselector, hway, hname⟩

/-- Two directories, of which one holds a link to the other one, and a link to a file further below. -/
def linkedTree : FileSystem where
  entries := [("a".toList, .directory [
      ("b".toList, .directory [("f".toList, .link "../g".toList)]),
      ("g".toList, .file []),
      ("s".toList, .link "../t".toList)]),
    ("t".toList, .directory [("f".toList, .file [])])]
  cwd := ['/']

theorem linkedTree_wellFormed : linkedTree.WellFormed := by
  simp only [WellFormed, linkedTree, Listing.IsSound, Entry.IsSound, Listing.get?]
  decide +kernel

/-- The link to a file is found, and the file behind the link to a directory is not. -/
theorem expand_lists_named_files_linkedTree :
    linkedTree.WellFormed ∧ Glob.alternatives "a/**/f".toList = .ok ["a/**/f".toList] ∧
      (∀ alternative ∈ ["a/**/f".toList], Glob.Compiles alternative) ∧
      ∃ names, linkedTree.expand ['/'] "a/**/f".toList = .ok names ∧ names.Pairwise (· < ·) ∧
        "a/b/f".toList ∈ names ∧ "a/s/f".toList ∉ names := by
  have halternatives : Glob.alternatives "a/**/f".toList = .ok ["a/**/f".toList] := by decide +kernel
  have hselector : Glob.selector? "**/f".toList =
      .ok (some ⟨false, [.leadingDirs, .literal 'f'], .entry⟩) := by decide +kernel
  have hcompiles : ∀ alternative ∈ ["a/**/f".toList], Glob.Compiles alternative := by
    intro alternative hmem
    obtain rfl := List.mem_singleton.1 hmem
    exact ⟨_, hselector⟩
  have hlisted : linkedTree.IsListed "/a".toList ["b".toList, "f".toList] := by
    refine ⟨?_, by decide, by decide +kernel, ?_⟩
    · unfold Place.IsProper
      decide
    · have hinits : ∀ q ∈ ["b".toList, "f".toList].inits, q ≠ [] → q ≠ ["b".toList, "f".toList] →
          linkedTree.linkTarget? (below "/a".toList q) = none := by decide +kernel
      intro q hq
      exact hinits q ((List.mem_inits q _).2 hq)
  obtain ⟨names, hnames, hincreasing, hmem⟩ :=
    expand_lists_named_files linkedTree_wellFormed halternatives hcompiles ['/']
  refine ⟨linkedTree_wellFormed, halternatives, hcompiles, names, hnames, hincreasing, (hmem _).2 ?_, ?_⟩
  · refine ⟨_, List.mem_singleton_self _, _, ["b".toList, "f".toList], hselector, hlisted, ?_, ?_, ?_⟩
    · decide +kernel
    · decide +kernel
    · decide +kernel
  · intro hname
    obtain ⟨alternative, halternative, selector, way, -, hway, -, -, hrelative⟩ := (hmem _).1 hname
    obtain rfl := List.mem_singleton.1 halternative
    have hdirectory : (Glob.splitDirectory "a/**/f".toList).1 = Text.joinWith '/' ["a".toList] := by decide +kernel
    have ha : Place.IsProper ["a".toList] := by
      unfold Place.IsProper
      decide
    rw [hdirectory, relative_below_normalize _ _ ha hway.isProper hway.ne_nil] at hrelative
    have hsplit := congrArg (Text.splitOn '/') hrelative
    rw [Text.splitOn_joinWith (by simp) fun n hn => ((ha.append hway.isProper) n hn).1.2.2] at hsplit
    obtain rfl : way = ["s".toList, "f".toList] := (List.cons.inj hsplit).2.symm
    have hnone := hway.noLink ["s".toList] (by decide) (by decide) (by decide)
    rw [hdirectory] at hnone
    have hlink : linkedTree.linkTarget? (below (Path.normalize (Path.join ['/'] (Text.joinWith '/' ["a".toList])))
        ["s".toList]) = some "../t".toList := by decide +kernel
    rw [hlink] at hnone
    cases hnone

end AssetEmbed.FileSystem
