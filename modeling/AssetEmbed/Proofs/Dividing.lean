import AssetEmbed.Proofs.FileSystem.Normalizing
import AssetEmbed.Proofs.Selecting

/-!
# Dividing — from where a target is looked for

A target is divided between two of its segments.  Those in front, of which none holds a wildcard, lead to the root of
the search from the directory of the module; what is behind them, one segment or several of which the first holds a
wildcard, is looked for from there.  Root and rest together lead to where the target leads from the directory.
-/

namespace AssetEmbed

open Glob

/-! ## 1. Ways through directories -/

namespace Path

variable {segs : List Text}

/-- The way through directories: a slash stands behind the name of each. -/
def through (segs : List Text) : Text := segs.flatMap fun seg => seg ++ ['/']

theorem through_cons (seg : Text) (segs : List Text) : through (seg :: segs) = seg ++ '/' :: through segs := by
  simp [through]

theorem joinWith_append_eq_through {rest : List Text} (hne : rest ≠ []) (segs : List Text) :
    Text.joinWith '/' (segs ++ rest) = through segs ++ Text.joinWith '/' rest := by
  induction segs with
  | nil => rfl
  | cons seg segs ih =>
    obtain ⟨next, more, hmore⟩ := List.exists_cons_of_ne_nil (List.append_ne_nil_of_right_ne_nil segs hne)
    rw [List.cons_append, hmore, Text.joinWith_cons_cons, ← hmore, ih, through_cons, List.append_assoc,
      List.cons_append]

theorem through_eq (hne : segs ≠ []) : through segs = Text.joinWith '/' segs ++ ['/'] := by
  have hempty := joinWith_append_eq_through (List.cons_ne_nil [] []) segs
  rw [Text.joinWith_append_singleton '/' hne] at hempty
  exact (hempty.trans (List.append_nil _)).symm

/-- What is not absolute stands behind the way to it. -/
theorem join_through {path : Text} (hpath : isAbsolute path = false) (segs : List Text) :
    join (through segs) path = through segs ++ path := by
  by_cases hnil : segs = []
  · subst hnil
    exact join_nil path
  · rw [through_eq hnil, join_of_ne_nil (by simp) hpath, if_pos List.getLast?_concat]

end Path

/-! ## 2. Targets and their roots -/

namespace SearchPlan

open AssetEmbed.Path

/-- Whether a plan divides a target that is seen from a directory: leading segments without wildcards lead to the root,
and the pattern is the rest, one segment or several of which the first holds a wildcard. -/
structure Divides (plan : SearchPlan) (directory target : Text) (lead : List Text) : Prop where
  segments : target.splitOn '/' = lead ++ plan.pattern.splitOn '/'
  plain : ∀ seg ∈ lead, isPattern seg = false
  root : plan.root = normalize (join directory (through lead))
  pattern : ∃ first rest, plan.pattern.splitOn '/' = first :: rest ∧ (rest = [] ∨ isPattern first = true)

variable {fs : FileSystem} {plan : SearchPlan} {moduleId basePath target directory : Text} {lead : List Text}

theorem Divides.text_eq (h : plan.Divides directory target lead) : target = through lead ++ plan.pattern := by
  have hjoin := joinWith_append_eq_through (Text.splitOn_ne_nil '/' plan.pattern) lead
  rwa [← h.segments, Text.joinWith_splitOn, Text.joinWith_splitOn] at hjoin

theorem Divides.isAbsolute_pattern (h : plan.Divides directory target lead) : isAbsolute plan.pattern = false := by
  obtain ⟨first, rest, hsegs, hfirst⟩ := h.pattern
  cases hpattern : plan.pattern with
  | nil => rfl
  | cons c path =>
    rw [← Bool.not_eq_true]
    intro habsolute
    obtain rfl : c = '/' := by simpa [isAbsolute] using habsolute
    rw [hpattern] at hsegs
    obtain ⟨rfl, rfl⟩ := List.cons.inj hsegs
    rcases hfirst with hnone | hwild
    · exact Text.splitOn_ne_nil '/' path hnone
    · cases hwild

theorem Divides.normalize_eq (h : plan.Divides directory target lead) (hdirectory : isAbsolute directory = true) :
    normalize (join plan.root plan.pattern) = normalize (join directory target) := by
  rw [h.root, normalize_join_normalize (isAbsolute_join hdirectory _), join_assoc, join_through h.isAbsolute_pattern,
    ← h.text_eq]

/-- An absolute path without wildcards is divided before its last segment. -/
theorem divides_absolute (habsolute : isAbsolute target = true) (hplain : isPattern target = false)
    (htarget : ¬ ['/', '/'] <+: target) (hroot : plan.root = normalize (directoryName target))
    (hpattern : plan.pattern = baseName target) (directory : Text) : ∃ lead, plan.Divides directory target lead := by
  have hrooted := isRooted_iff.2 ⟨habsolute, htarget⟩
  obtain ⟨lead, last, hsegs, hlast, ⟨-, rfl⟩ | ⟨hlead, htext⟩⟩ := Text.exists_splitOn_eq_concat '/' target
  · rw [isAbsolute_of_not_mem hlast] at habsolute
    cases habsolute
  have hbase : plan.pattern = last := by rw [hpattern, htext, baseName_append_slash hlast]
  -- the way to the last segment is a beginning of the target, so it has a root as well
  have hway : IsRooted (through lead) := by
    refine hrooted.ofBeginning ⟨last, ?_⟩ ?_
    · rw [through_eq hlead, ← List.append_cons, ← htext]
    · rw [through_eq hlead]
      exact List.append_ne_nil_of_right_ne_nil _ (List.cons_ne_nil _ _)
  -- the directory of the target leaves out slashes at its end, which are no names
  have hnames : names (directoryName target) = names (through lead) := by
    rw [htext, names_directoryName_append_slash hlast, through_eq hlead, names_append_slashes (by simp)]
  refine ⟨lead, ?_, ?_, ?_, ?_⟩
  · rw [hbase, Text.splitOn_eq_singleton hlast, hsegs]
  · intro seg hseg
    have hmem : seg ∈ target.splitOn '/' := hsegs ▸ List.mem_append_left _ hseg
    exact isPattern_of_subset hplain fun c hc => Text.mem_of_mem_splitOn hmem hc
  · rw [hroot, join_of_isAbsolute hway.isAbsolute]
    exact hrooted.directoryName.normalize_congr hway hnames
  · exact ⟨last, [], by rw [hbase, Text.splitOn_eq_singleton hlast], .inl rfl⟩

/-- Any other target is divided behind its leading segments without wildcards. -/
theorem divides_splitDirectory (hdirectory : IsRooted directory) (htarget : ¬ ['/', '/'] <+: target)
    (hroot : plan.root = normalize (join directory (splitDirectory target).1))
    (hpattern : plan.pattern = (splitDirectory target).2) : ∃ lead, plan.Divides directory target lead := by
  obtain ⟨lead, init, last, hsegs, hplain, hinit, hsplit⟩ := exists_segments target
  have hslash : ∀ seg ∈ init ++ [last], '/' ∉ seg := fun seg hseg =>
    Text.not_mem_of_mem_splitOn (hsegs ▸ List.mem_append_right lead hseg)
  have hrest : plan.pattern.splitOn '/' = init ++ [last] := by
    rw [hpattern, hsplit]
    exact Text.splitOn_joinWith (by simp) hslash
  -- two slashes at the start of the way would be those of the target
  have hbeginning : through lead <+: target := by
    refine ⟨Text.joinWith '/' (init ++ [last]), ?_⟩
    rw [← joinWith_append_eq_through (by simp), ← hsegs, Text.joinWith_splitOn]
  have hnames : names (join directory (splitDirectory target).1) = names (join directory (through lead)) := by
    by_cases hnil : lead = []
    · rw [hsplit, hnil]
      rfl
    · -- an empty directory in front of the slash is the root of the file system
      have hdir : (splitDirectory target).1 =
          if Text.joinWith '/' lead = [] then ['/'] else Text.joinWith '/' lead := by
        rw [hsplit]
        simp [hnil]
      rw [hdir, through_eq hnil, names_join_append_slash]
      exact (List.append_nil _).symm
  refine ⟨lead, by rw [hrest, hsegs], hplain, ?_, ?_⟩
  · rw [hroot]
    refine (hdirectory.join (splitDirectory_fst htarget)).normalize_congr (hdirectory.join ?_) hnames
    exact fun hdouble => htarget (hdouble.trans hbeginning)
  · cases init with
    | nil => exact ⟨last, [], hrest, .inl rfl⟩
    | cons first init => exact ⟨first, init ++ [last], hrest, .inr (hinit first rfl)⟩

/-- A target that is not seen from a base path is divided. -/
theorem exists_divides (hdirectory : IsRooted directory) (htarget : ¬ ['/', '/'] <+: target)
    (hroot : plan.root = normalize (SearchPlan.split directory [] target).1)
    (hpattern : plan.pattern = (SearchPlan.split directory [] target).2) :
    ∃ lead, plan.Divides directory target lead := by
  unfold SearchPlan.split at hroot hpattern
  rw [if_neg (not_not_intro rfl)] at hroot hpattern
  by_cases hfile : (isAbsolute target && !isPattern target) = true
  · rw [if_pos hfile] at hroot hpattern
    rw [Bool.and_eq_true, Bool.not_eq_true'] at hfile
    exact divides_absolute hfile.1 hfile.2 htarget hroot hpattern directory
  · rw [if_neg hfile] at hroot hpattern
    exact divides_splitDirectory hdirectory htarget hroot hpattern

/-- The root of a search is an absolute path in normal form, and with the pattern behind it leads to where the target
leads from the directory of the module, or from the base path.  Without a base path the target is divided, so that no
segment with a wildcard goes into the root. -/
theorem ofTarget_divides_target (hmodule : isAbsolute moduleId = true) (hmoduleRoot : ¬ ['/', '/'] <+: moduleId)
    (hbase : ¬ ['/', '/'] <+: basePath) (htarget : ¬ ['/', '/'] <+: target)
    (hplan : ofTarget fs moduleId basePath target = plan) :
    let directory := directoryName (absolute fs.cwd moduleId)
    IsNormal plan.root ∧
      normalize (join plan.root plan.pattern) =
        normalize (join (if basePath = [] then directory else join directory basePath) target) ∧
      (basePath = [] → ∃ lead, plan.Divides directory target lead) := by
  intro directory
  have hdirectory : IsRooted directory := by
    have hrooted := isRooted_iff.2 ⟨hmodule, hmoduleRoot⟩
    show IsRooted (directoryName (normalize (join fs.cwd moduleId)))
    rw [join_of_isAbsolute hmodule]
    exact hrooted.normalize.isRooted.directoryName
  have hroot : plan.root = normalize (SearchPlan.split directory basePath target).1 := hplan ▸ rfl
  have hpattern : plan.pattern = (SearchPlan.split directory basePath target).2 := hplan ▸ rfl
  -- the root is the normal form of a rooted path, so that it is normal in every case
  have hnormal : IsNormal plan.root := hroot ▸ (isRooted_split hdirectory hbase htarget).normalize
  by_cases hnone : basePath = []
  · subst hnone
    obtain ⟨lead, hlead⟩ := exists_divides hdirectory htarget hroot hpattern
    rw [if_pos rfl]
    exact ⟨hnormal, hlead.normalize_eq hdirectory.isAbsolute, fun _ => ⟨lead, hlead⟩⟩
  · -- below a base path the target is looked for as it is
    unfold SearchPlan.split at hroot hpattern
    rw [if_pos hnone] at hroot hpattern
    rw [if_neg hnone, hroot, hpattern, normalize_join_normalize (isAbsolute_join hdirectory.isAbsolute _)]
    exact ⟨hroot ▸ hnormal, rfl, fun h => absurd h hnone⟩

end SearchPlan

def bareTree : FileSystem where
  entries := []
  cwd := ['/']

/-- A target that goes up, with an empty segment and a dot before the segment that holds a wildcard. -/
def climbingTarget : Text := "../s//t/./*.x/y".toList

theorem ofTarget_divides_target_climbingTarget :
    Path.isAbsolute "/m/n/i.js".toList = true ∧ ¬ ['/', '/'] <+: "/m/n/i.js".toList ∧ ¬ ['/', '/'] <+: climbingTarget ∧
      SearchPlan.ofTarget bareTree "/m/n/i.js".toList [] climbingTarget =
        ⟨"/m/s/t".toList, "*.x/y".toList, false⟩ ∧
      Path.IsNormal "/m/s/t".toList ∧
      Path.normalize (Path.join "/m/s/t".toList "*.x/y".toList) =
        Path.normalize (Path.join "/m/n".toList climbingTarget) ∧
      ∃ lead, SearchPlan.Divides ⟨"/m/s/t".toList, "*.x/y".toList, false⟩ "/m/n".toList climbingTarget lead := by
  have hplan : SearchPlan.ofTarget bareTree "/m/n/i.js".toList [] climbingTarget =
      ⟨"/m/s/t".toList, "*.x/y".toList, false⟩ := by
    decide +kernel
  have hmodule : ¬ ['/', '/'] <+: "/m/n/i.js".toList := by decide
  have htarget : ¬ ['/', '/'] <+: climbingTarget := by decide
  have hdirectory : Path.directoryName (Path.absolute bareTree.cwd "/m/n/i.js".toList) = "/m/n".toList := by
    decide +kernel
  obtain ⟨hnormal, hsame, hdivides⟩ := SearchPlan.ofTarget_divides_target rfl hmodule (by decide) htarget hplan
  rw [hdirectory] at hsame hdivides
  exact ⟨rfl, hmodule, htarget, hplan, hnormal, hsame, hdivides rfl⟩

end AssetEmbed
