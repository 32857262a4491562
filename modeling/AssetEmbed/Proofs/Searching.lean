import AssetEmbed.Proofs.FileSystem.Following
import AssetEmbed.Proofs.FileSystem.Visiting
import AssetEmbed.Proofs.Loading

/-!
# Searching — what a search depends on

A search depends on the files that it could find: the one that its target tells, and those that its pattern
selects.  So files that are written elsewhere, and directories that are made for them, do not change what is found,
nor what becomes of a module whose searches reach none of those files.
-/

namespace AssetEmbed

/-! ## 1. File systems that grow -/

/-- Whether files are written at some places only, and elsewhere nothing is changed but that directories are made;
before and after, there are no links. -/
structure FileSystem.Grown (written : Place → Prop) (before after : FileSystem) : Prop where
  wellFormed : before.WellFormed
  wellFormed' : after.WellFormed
  linkFree : before.LinkFree
  linkFree' : after.LinkFree
  cwd : after.cwd = before.cwd
  directory : ∀ p, before.node? p = some .directory → after.node? p = some .directory
  node? : ∀ p, ¬ written p →
    after.node? p = before.node? p ∨ before.node? p = none ∧ after.node? p = some .directory

namespace FileSystem.Grown

variable {written : Place → Prop} {fs fs' : FileSystem}

theorem file_iff (h : fs.Grown written fs') {p : Place} (hp : ¬ written p) {bytes : Bytes} :
    fs'.node? p = some (.file bytes) ↔ fs.node? p = some (.file bytes) := by
  rcases h.node? p hp with heq | ⟨hnone, hmade⟩
  · rw [heq]
  · rw [hnone, hmade]
    exact ⟨nofun, nofun⟩

theorem isFile_eq (h : fs.Grown written fs') {path : Text} (habsolute : Path.isAbsolute path = true)
    (hup : Path.parentName ∉ Path.names path) (hpath : ¬ written (Path.names path)) :
    fs'.isFile path = fs.isFile path := by
  have hnames := Path.names_normalize_of_not_mem habsolute hup
  rw [Bool.eq_iff_iff]
  constructor
  · intro hfile
    obtain ⟨bytes, -, hnode, hshort, hend⟩ := exists_file_of_isFile h.linkFree' habsolute hfile
    rw [hnames, h.file_iff hpath] at hnode
    exact isFile_of_node? h.linkFree habsolute hup hshort hend hnode
  · intro hfile
    obtain ⟨bytes, -, hnode, hshort, hend⟩ := exists_file_of_isFile h.linkFree habsolute hfile
    rw [hnames, ← h.file_iff hpath] at hnode
    exact isFile_of_node? h.linkFree' habsolute hup hshort hend hnode

theorem isFile_of_isFile (h : fs.Grown written fs') {path : Text} (habsolute : Path.isAbsolute path = true)
    (hpath : ¬ written (Path.names (Path.normalize path))) (hfile : fs.isFile path = true) :
    fs'.isFile path = true := by
  obtain ⟨bytes, hspot, hnode, -, -⟩ := exists_file_of_isFile h.linkFree habsolute hfile
  have hnode' := (h.file_iff hpath).2 hnode
  rw [locate_of_isAbsolute habsolute] at hspot
  have hspot' : fs'.locate true path = .ok (.taken (Path.names (Path.normalize path))) := by
    rw [locate_of_isAbsolute habsolute]
    split
    · rename_i hshort
      rw [if_pos hshort] at hspot
      exact descend_of_taken_file h.linkFree h.directory hspot hnode hnode'
    · rename_i hlong
      rw [if_neg hlong] at hspot
      cases hspot
  unfold isFile entry?
  rw [hspot']
  simp only [bind, Except.bind, node?_eq_file_iff.1 hnode']

theorem read_eq (h : fs.Grown written fs') {path : Text} (habsolute : Path.isAbsolute path = true)
    (hup : Path.parentName ∉ Path.names path) (hend : Path.EndsInName (Text.splitOn '/' path))
    (hpath : ¬ written (Path.names path)) {bytes : Bytes} (hfile : fs.node? (Path.names path) = some (.file bytes)) :
    fs'.read path = fs.read path := by
  rw [read_of_file h.linkFree habsolute hup hend hfile,
    read_of_file h.linkFree' habsolute hup hend ((h.file_iff hpath).2 hfile)]

theorem read_normalize_eq (h : fs.Grown written fs') {path : Text} (habsolute : Path.isAbsolute path = true)
    (hpath : ¬ written (Path.names (Path.normalize path))) {bytes : Bytes}
    (hfile : fs.node? (Path.names (Path.normalize path)) = some (.file bytes)) :
    fs'.read (Path.normalize path) = fs.read (Path.normalize path) := by
  refine h.read_eq (Path.isAbsolute_normalize habsolute) (Path.not_mem_names_normalize habsolute)
    (endsInName_normalize habsolute fun hroot => ?_) hpath hfile
  -- the root is a directory
  rw [hroot] at hfile
  cases hfile

end FileSystem.Grown

/-! ## 2. What a pattern selects -/

theorem WalkRule.entersAlong_getLast? {linksToDirectory : List Text → Bool} {admits : Text → Bool} {way : List Text} :
    (⟨linksToDirectory, fun names => names.getLast?.all admits⟩ : WalkRule).EntersAlong [] way ↔
      ∀ n ∈ way, admits n = true := by
  constructor
  · intro h n hn
    obtain ⟨above, below, rfl⟩ := List.append_of_mem hn
    have henters := h (above ++ [n]) ⟨below, by simp⟩ (by simp)
    simpa using henters
  · intro h q hq hne
    obtain ⟨above, n, rfl⟩ := (List.eq_nil_or_concat' q).resolve_left hne
    have hn := h n (hq.subset (List.mem_append_right _ (List.mem_singleton_self _)))
    simpa using hn

/-- Whether a plain pattern passes an entry over by its name alone. -/
def Glob.PassesOver (pattern name : Text) : Prop := namesDotEntry pattern = false ∧ isDotName name = true

theorem Glob.not_passesOver_iff {pattern name : Text} :
    ¬ PassesOver pattern name ↔ (namesDotEntry pattern || !isDotName name) = true := by
  unfold PassesOver
  cases namesDotEntry pattern <;> cases isDotName name <;> simp

namespace FileSystem

variable {fs : FileSystem} {top pattern : Text} {selector : Glob.IgnorePattern} {way : List Text}

theorem exists_listing_of_isFile_below (htop : top ≠ []) {above : Place} {name : Text}
    (hway : Place.IsProper (above ++ [name])) (hfile : fs.isFile (below top (above ++ [name])) = true)
    (henters : fs.EntersNoLink top (above ++ [name])) :
    ∃ e place l e', fs.entry? top = .ok e ∧ fs.entries.at? place = some e ∧
      e.at? above = some (.directory l) ∧ Listing.get? name l = some e' ∧ e'.node ≠ .directory := by
  obtain ⟨hlength, there, bytes, hleads, -⟩ := (isFile_iff (below_ne_nil htop hway)).1 hfile
  obtain ⟨place, hplace, hdirectory⟩ := exists_leadsTo_of_below hway (by simp) hleads
  have habove := (entersNoLink_iff htop hplace hway hfile).1 henters
  obtain ⟨node, hnode, hother⟩ := exists_node?_of_isFile htop hplace hway hfile habove
  obtain ⟨listing, hlisting⟩ := node?_eq_directory_iff.1 hdirectory
  obtain ⟨l, hl⟩ := node?_eq_directory_iff.1 habove
  obtain ⟨e', he', rfl⟩ := Option.map_eq_some_iff.1 hnode
  have hshort : byteLength top ≤ maxPathBytes :=
    (byteLength_below_le hway List.nil_prefix).trans hlength
  refine ⟨.directory listing, place, l, e', ?_, hlisting, ?_, ?_, hother⟩
  · exact (entry?_eq_ok_iff htop).2 ⟨hshort, place, hplace, hlisting⟩
  · rwa [← Entry.at?_directory, Entry.at?_append, Entry.at?_directory, hlisting] at hl
  · rwa [Listing.at?_append_singleton hl] at he'

theorem isDirectory_of_isFile {path : Text} (h : fs.isFile path = true) : fs.isDirectory path = false := by
  unfold isFile at h
  unfold isDirectory
  split at h
  · rename_i hentry
    rw [hentry]
  · cases h

/-- Whether names lead from a directory to a file, and through no link to another directory. -/
structure IsListed (fs : FileSystem) (top : Text) (way : List Text) : Prop where
  isProper : Place.IsProper way
  ne_nil : way ≠ []
  isFile : fs.isFile (below top way) = true
  noLink : fs.EntersNoLink top way

/-- What a plain pattern makes of a walk below a directory. -/
def selectionRule (fs : FileSystem) (top pattern : Text) : WalkRule where
  linksToDirectory names := fs.isDirectory (below top names)
  enters names := names.getLast?.all fun n => Glob.namesDotEntry pattern || !Glob.isDotName n

theorem entersAlong_selectionRule {above : List Text} :
    (fs.selectionRule top pattern).EntersAlong [] above ↔ ∀ n ∈ above, ¬ Glob.PassesOver pattern n := by
  simp only [Glob.not_passesOver_iff]
  exact WalkRule.entersAlong_getLast?

theorem isFile_selectionRule {names : List Text} {e : Entry} (hfile : fs.isFile (below top names) = true)
    (hother : e.node ≠ .directory) : (fs.selectionRule top pattern).isFile names e = true := by
  cases e with
  | file bytes => rfl
  | link target => exact congrArg not (isDirectory_of_isFile hfile)
  | directory listing => exact absurd rfl hother

theorem mem_selected_iff_mem_ways : way ∈ fs.selected top pattern selector ↔
    (∃ e, fs.entry? top = .ok e ∧ way ∈ (e.visits (fs.selectionRule top pattern) []).flatMap
      (Visit.ways fun n => Glob.namesDotEntry pattern || !Glob.isDotName n)) ∧
      fs.isFile (below top way) = true ∧ selector.selects (Text.joinWith '/' way) = true := by
  unfold selected walk
  rw [List.mem_filter, Bool.and_eq_true]
  refine and_congr_left fun _ => ?_
  cases fs.entry? top with
  | ok e => exact ⟨fun h => ⟨e, rfl, h⟩, fun ⟨_, rfl, h⟩ => h⟩
  | error fault => exact ⟨nofun, nofun⟩

/-- The files that a plain pattern selects below a directory are those of the complete listing that it matches, unless
it passes over a name on the way. -/
theorem mem_selected_iff (hfs : fs.WellFormed) (htop : top ≠ []) :
    way ∈ fs.selected top pattern selector ↔ fs.IsListed top way ∧ (∀ n ∈ way, ¬ Glob.PassesOver pattern n) ∧
      selector.selects (Text.joinWith '/' way) = true := by
  rw [mem_selected_iff_mem_ways]
  constructor
  · rintro ⟨⟨e, hentry, hways⟩, hfile, hselects⟩
    obtain ⟨-, place, hleads, hplace⟩ := (entry?_eq_ok_iff htop).1 hentry
    have he := Listing.IsSound.at? hfs hplace
    obtain ⟨above, name, l, rfl, habove, halong, hname, hadmits⟩ := (Entry.mem_flatMap_ways he).1 hways
    rw [List.nil_append] at hfile hselects ⊢
    obtain ⟨e', hget, -⟩ := (WalkRule.mem_files (Listing.nodup_of_at? he habove)).1 hname
    have hat : e.at? (above ++ [name]) = some e' := by
      rw [Entry.at?_append, habove]
      exact (Entry.at?_directory l [name]).trans hget
    have hway := he.isProper_of_at? hat
    -- the directory that lists the file is there as a directory, and not as a link to one
    have habove' : fs.entries.at? (place ++ above) = some (.directory l) := by
      rwa [← Entry.at?_directory, Entry.at?_append, Entry.at?_directory, hplace]
    have henters := (entersNoLink_iff htop hleads hway hfile).2 (node?_eq_directory_iff.2 ⟨l, habove'⟩)
    refine ⟨⟨hway, by simp, hfile, henters⟩, fun m hm => ?_, hselects⟩
    rcases List.mem_append.1 hm with hm | hm
    · exact entersAlong_selectionRule.1 halong m hm
    · rwa [Glob.not_passesOver_iff, List.mem_singleton.1 hm]
  · rintro ⟨⟨hway, hne, hfile, henters⟩, hover, hselects⟩
    obtain ⟨above, n, rfl⟩ := (List.eq_nil_or_concat' way).resolve_left hne
    obtain ⟨e, place, l, e', hentry, hplace, habove, hget, hother⟩ :=
      exists_listing_of_isFile_below htop hway hfile henters
    have he := Listing.IsSound.at? hfs hplace
    refine ⟨⟨e, hentry, (Entry.mem_flatMap_ways he).2 ⟨above, n, l, rfl, habove, ?_, ?_, ?_⟩⟩, hfile, hselects⟩
    · exact entersAlong_selectionRule.2 fun m hm => hover m (List.mem_append_left _ hm)
    · exact (WalkRule.mem_files (Listing.nodup_of_at? he habove)).2 ⟨e', hget, isFile_selectionRule hfile hother⟩
    · exact Glob.not_passesOver_iff.1 (hover n (List.mem_append_right _ (List.mem_singleton_self _)))

theorem LinkFree.entersNoLink (hfree : fs.LinkFree) (top : Text) (way : List Text) : fs.EntersNoLink top way := by
  intro q _ _ _
  unfold linkTarget?
  split
  · rename_i place _
    split
    · rename_i target hlink
      refine absurd ?_ (hfree place target)
      rw [node?, Listing.node?, hlink]
      rfl
    · rfl
  · rfl

theorem mem_selected (hfs : fs.WellFormed) (hfree : fs.LinkFree) (htop : top ≠ []) :
    way ∈ fs.selected top pattern selector ↔ Place.IsProper way ∧ way ≠ [] ∧
      (∀ n ∈ way, ¬ Glob.PassesOver pattern n) ∧ selector.selects (Text.joinWith '/' way) = true ∧
        fs.isFile (below top way) = true := by
  rw [mem_selected_iff hfs htop]
  constructor
  · rintro ⟨hlisted, hover, hselects⟩
    exact ⟨hlisted.isProper, hlisted.ne_nil, hover, hselects, hlisted.isFile⟩
  · rintro ⟨hway, hne, hover, hselects, hfile⟩
    exact ⟨⟨hway, hne, hfile, hfree.entersNoLink top way⟩, hover, hselects⟩

end FileSystem

/-! ## 3. What a search reaches -/

/-- The place of a file that a search could find: the one that its target tells, or one that its pattern selects. -/
inductive SearchPlan.Reaches (search : SearchPlan) : Place → Prop
  | file (hplain : Glob.isPattern search.pattern = false) :
      Reaches search (Path.names (Path.normalize (Path.join search.root search.pattern)))
  | selected {alternatives : List Text} {alternative : Text} {selector : Glob.IgnorePattern} {way : List Text}
      (hmany : search.single = false) (halternatives : Glob.alternatives search.pattern = .ok alternatives)
      (hmem : alternative ∈ alternatives)
      (hselector : Glob.selector? (Glob.splitDirectory alternative).2 = .ok (some selector))
      (hover : ∀ n ∈ way, ¬ Glob.PassesOver (Glob.splitDirectory alternative).2 n)
      (hselects : selector.selects (Text.joinWith '/' way) = true) :
      Reaches search
        (Path.names (Path.normalize (Path.join search.root (Glob.splitDirectory alternative).1)) ++ way)

/-- Whether a target that leads to no file cannot lead to one as soon as a directory is made that it goes up
from. -/
def SearchPlan.IsSteady (search : SearchPlan) : Prop :=
  search.single = true ∨ Glob.isPattern search.pattern = true ∨ Path.parentName ∉ Path.names search.pattern

/-- Whether none of the files that a search could find is at one of the places. -/
def SearchPlan.Avoids (search : SearchPlan) (written : Place → Prop) : Prop :=
  search.IsSteady ∧ ∀ p, search.Reaches p → ¬ written p

namespace SearchPlan

variable {fs fs' : FileSystem} {written : Place → Prop} {search : SearchPlan} {moduleId basePath target : Text}

theorem isPattern_split (directory : Text) (h : Glob.isPattern target = false) :
    Glob.isPattern (SearchPlan.split directory basePath target).2 = false := by
  unfold SearchPlan.split
  split
  · exact h
  split
  · refine Glob.isPattern_of_subset h fun c hc => ?_
    exact List.mem_reverse.1 ((List.takeWhile_subset _) (List.mem_reverse.1 hc))
  · exact Glob.isPattern_of_subset h fun c hc =>
      Text.mem_of_mem_splitOn (SearchPlan.splitDirectory_snd_mem h) hc

/-- What a search in a file system starts from: a root that is told without names that lead up, and a file if the
target tells one. -/
structure IsSound (search : SearchPlan) (fs : FileSystem) : Prop where
  isAbsolute : Path.isAbsolute search.root = true
  isProper : Place.IsProper (Path.names search.root)
  single : search.single = true →
    Glob.isPattern search.pattern = false ∧ fs.isFile (Path.join search.root search.pattern) = true

theorem isSound_ofTarget (hmodule : Path.isAbsolute (Path.join fs.cwd moduleId) = true) (basePath target : Text) :
    (ofTarget fs moduleId basePath target).IsSound fs := by
  have hdirectory := Path.isAbsolute_directoryName (Path.isAbsolute_normalize hmodule)
  have hsplit : Path.isAbsolute (SearchPlan.split (Path.directoryName (Path.absolute fs.cwd moduleId))
      basePath target).1 = true := by
    unfold SearchPlan.split
    split
    · exact Path.isAbsolute_join hdirectory _
    split
    · rename_i habsolute
      rw [Bool.and_eq_true] at habsolute
      exact Path.isAbsolute_directoryName habsolute.1
    · exact Path.isAbsolute_join hdirectory _
  have hroot : (ofTarget fs moduleId basePath target).root = Path.normalize (SearchPlan.split
      (Path.directoryName (Path.absolute fs.cwd moduleId)) basePath target).1 := rfl
  refine ⟨?_, ?_, fun hsingle => ?_⟩
  · rw [hroot]
    exact Path.isAbsolute_normalize hsplit
  · rw [hroot]
    exact Path.isProper_of_mem_names_normalize hsplit
  · unfold ofTarget at hsingle
    simp only [Bool.and_eq_true, Bool.not_eq_true'] at hsingle
    exact ⟨isPattern_split _ hsingle.1.1, hsingle.2⟩

theorem IsSound.not_mem_names_join (h : search.IsSound fs) {path : Text} (hpath : Path.parentName ∉ Path.names path) :
    Path.parentName ∉ Path.names (Path.join search.root path) := by
  by_cases habsolute : Path.isAbsolute path = true
  · rwa [Path.join_of_isAbsolute habsolute]
  · rw [Path.names_join (by simpa using habsolute), List.mem_append,
      not_or]
    exact ⟨h.isProper.not_mem, hpath⟩

end SearchPlan

/-! ## 4. Searches in a file system that grows -/

namespace FileSystem.Grown

variable {written : Place → Prop} {fs fs' : FileSystem} {search : SearchPlan}

/-- A target leads to a file before if it does so after. -/
theorem ofTarget_eq (h : fs.Grown written fs') {moduleId : Text}
    (hmodule : Path.isAbsolute (Path.join fs.cwd moduleId) = true) {basePath target : Text}
    (havoids : (SearchPlan.ofTarget fs moduleId basePath target).Avoids written) :
    SearchPlan.ofTarget fs' moduleId basePath target = SearchPlan.ofTarget fs moduleId basePath target := by
  have hsound := SearchPlan.isSound_ofTarget hmodule basePath target
  have hpattern : Glob.isPattern target = false →
      Glob.isPattern (SearchPlan.ofTarget fs moduleId basePath target).pattern = false :=
    SearchPlan.isPattern_split _
  have hparts : ∀ g : FileSystem, g.cwd = fs.cwd → SearchPlan.ofTarget g moduleId basePath target =
      { SearchPlan.ofTarget fs moduleId basePath target with
        single := !Glob.isPattern target && (SearchPlan.ofTarget fs moduleId basePath target).pattern ≠ [] &&
          g.isFile (Path.join (SearchPlan.ofTarget fs moduleId basePath target).root
            (SearchPlan.ofTarget fs moduleId basePath target).pattern) } := by
    intro g hg
    unfold SearchPlan.ofTarget
    rw [hg]
  -- of a search only the file test looks into the file system
  rw [hparts fs' h.cwd]
  conv_rhs => rw [hparts fs rfl]
  generalize SearchPlan.ofTarget fs moduleId basePath target = search at *
  cases hplain : Glob.isPattern target with
  | true => rfl
  | false =>
    have hplace := havoids.2 _ (.file (hpattern hplain))
    have habsolute := Path.isAbsolute_join hsound.isAbsolute search.pattern
    have hfile : fs'.isFile (Path.join search.root search.pattern) =
        fs.isFile (Path.join search.root search.pattern) := by
      rcases havoids.1 with hsingle | hother | hup
      -- a file that was found is found again; where none was found none appears, for the target does not go up
      · have hfile := (hsound.single hsingle).2
        rw [hfile, h.isFile_of_isFile habsolute hplace hfile]
      · rw [hpattern hplain] at hother
        cases hother
      · have hup := hsound.not_mem_names_join hup
        rw [Path.names_normalize_of_not_mem habsolute hup] at hplace
        exact h.isFile_eq habsolute hup hplace
    rw [hfile]

theorem mem_selected_iff (h : fs.Grown written fs') {top pattern : Text} {selector : Glob.IgnorePattern}
    (htop : Path.isAbsolute top = true) (hproper : Place.IsProper (Path.names top))
    (havoids : ∀ way, (∀ n ∈ way, ¬ Glob.PassesOver pattern n) → selector.selects (Text.joinWith '/' way) = true →
      ¬ written (Path.names top ++ way)) (way : List Text) :
    way ∈ fs'.selected top pattern selector ↔ way ∈ fs.selected top pattern selector := by
  have hne := ne_nil_of_isAbsolute htop
  rw [mem_selected h.wellFormed' h.linkFree' hne, mem_selected h.wellFormed h.linkFree hne]
  refine and_congr_right fun hway => and_congr_right fun _ => and_congr_right fun hover => and_congr_right
    fun hselects => ?_
  have hnames := names_below top hway
  rw [h.isFile_eq (isAbsolute_below htop way)]
  · rw [hnames]
    exact (hproper.append hway).not_mem
  · rw [hnames]
    exact havoids way hover hselects

theorem expand_eq (h : fs.Grown written fs') (hsearch : search.IsSound fs) (hmany : search.single = false)
    (havoids : ∀ p, search.Reaches p → ¬ written p) :
    fs'.expand search.root search.pattern = fs.expand search.root search.pattern := by
  unfold expand
  cases halternatives : Glob.alternatives search.pattern with
  | error e => rfl
  | ok alternatives =>
    have hagree : ∀ alternative ∈ alternatives, Agree (· = ·) (fun names names' => ∀ t, t ∈ names ↔ t ∈ names')
        (fs'.expandAlternative search.root alternative) (fs.expandAlternative search.root alternative) := by
      intro alternative hmem
      have htop := Path.isAbsolute_join hsearch.isAbsolute (Glob.splitDirectory alternative).1
      unfold expandAlternative
      dsimp only
      cases hselector : Glob.selector? (Glob.splitDirectory alternative).2 with
      | error e => exact .error rfl
      | ok selector? =>
        cases selector? with
        | none => exact .ok fun t => Iff.rfl
        | some selector =>
          refine .ok fun t => ?_
          simp only [List.mem_map, h.cwd]
          refine exists_congr fun way => and_congr_left fun _ => ?_
          refine h.mem_selected_iff (Path.isAbsolute_normalize htop)
            (Path.isProper_of_mem_names_normalize htop) ?_ way
          exact fun way hover hselects => havoids _ (.selected hmany halternatives hmem hselector hover hselects)
    -- both runs fail at the same alternative, or give paths that sorting makes equal
    have hall := agree_mapM hagree
    dsimp only
    generalize alternatives.mapM (fs'.expandAlternative search.root) = found',
      alternatives.mapM (fs.expandAlternative search.root) = found at hall
    cases hall with
    | error heq => rw [heq]
    | @ok found' found hsame =>
      refine congrArg Except.ok (Text.sortUnique_eq_of_mem_iff fun t => ?_)
      induction hsame with
      | nil => exact Iff.rfl
      | cons hnames _ ih => rw [List.flatten_cons, List.flatten_cons, List.mem_append, List.mem_append, hnames, ih]

/-- What is read at the paths to which a pattern is expanded is the same. -/
theorem read_eq_of_mem_expand (h : fs.Grown written fs') (hsearch : search.IsSound fs)
    (hmany : search.single = false) (havoids : ∀ p, search.Reaches p → ¬ written p) {names : List Text}
    (hnames : fs.expand search.root search.pattern = .ok names) {name : Text} (hname : name ∈ names) :
    fs'.read (Path.normalize (Path.join search.root name)) =
      fs.read (Path.normalize (Path.join search.root name)) := by
  obtain ⟨alternatives, halternatives, alternative, hmem, selector, way, hselector, hway, rfl⟩ :=
    (mem_of_expand hnames).1 hname
  have hjoin := Path.isAbsolute_join hsearch.isAbsolute (Glob.splitDirectory alternative).1
  have htop := Path.isAbsolute_normalize hjoin
  have hproper : Place.IsProper (Path.names _) := Path.isProper_of_mem_names_normalize hjoin
  obtain ⟨hwayProper, hne, hover, hselects, hfile⟩ :=
    (mem_selected h.wellFormed h.linkFree (ne_nil_of_isAbsolute htop)).1 hway
  have hplace := havoids _ (.selected hmany halternatives hmem hselector hover hselects)
  generalize Path.normalize (Path.join search.root (Glob.splitDirectory alternative).1) = top at *
  -- the way from the root to the file leads to the place of the file
  have hbelow := isAbsolute_below htop way
  have hnames : Path.names (Path.normalize (below top way)) = Path.names top ++ way := by
    rw [Path.names_normalize_of_not_mem hbelow, names_below top hwayProper]
    rw [names_below top hwayProper]
    exact (hproper.append hwayProper).not_mem
  have hjoin := Path.isAbsolute_join hsearch.isAbsolute (Path.relative fs.cwd (below top way) search.root)
  have hplaced : Path.names (Path.normalize (Path.join search.root
      (Path.relative fs.cwd (below top way) search.root))) = Path.names top ++ way := by
    have hroot : Path.names (Path.absolute fs.cwd search.root) = Path.names search.root := by
      rw [Path.absolute, Path.join_of_isAbsolute hsearch.isAbsolute,
        Path.names_normalize_of_not_mem hsearch.isAbsolute]
      exact hsearch.isProper.not_mem
    have hpath : Path.isAbsolute (Path.join fs.cwd (below top way)) = true := by
      rwa [Path.join_of_isAbsolute hbelow]
    rw [Path.names_normalize hjoin, (Path.resolveNames_join_relative
      hsearch.isProper hroot hpath).2, Path.absolute, Path.join_of_isAbsolute hbelow, hnames]
  obtain ⟨bytes, -, hnode, -, -⟩ := exists_file_of_isFile h.linkFree hbelow hfile
  rw [hnames, ← hplaced] at hnode
  exact h.read_normalize_eq hjoin (hplaced ▸ hplace) hnode

theorem read_eq_of_single (h : fs.Grown written fs') (hsearch : search.IsSound fs)
    (havoids : ∀ p, search.Reaches p → ¬ written p) (hsingle : search.single = true) :
    fs'.read (Path.normalize (Path.join search.root search.pattern)) =
      fs.read (Path.normalize (Path.join search.root search.pattern)) := by
  obtain ⟨hplain, hfile⟩ := hsearch.single hsingle
  have hjoin := Path.isAbsolute_join hsearch.isAbsolute search.pattern
  obtain ⟨bytes, -, hnode, -, -⟩ := exists_file_of_isFile h.linkFree hjoin hfile
  exact h.read_normalize_eq hjoin (havoids _ (.file hplain)) hnode

theorem load_eq [Charsets] (h : fs.Grown written fs') (hsearch : search.IsSound fs)
    (havoids : ∀ p, search.Reaches p → ¬ written p) (encoding : Text) (location : Location) :
    load fs' search encoding location = load fs search encoding location := by
  have hcontent : ∀ path, fs'.read path = fs.read path →
      fs'.readContent path encoding = fs.readContent path encoding := by
    intro path hread
    rw [readContent, readContent, hread]
  have hrecord : FileRecord.ofContent fs' = FileRecord.ofContent fs := by
    funext root path content
    rw [FileRecord.ofContent, FileRecord.ofContent, h.cwd]
  unfold load
  split
  · rename_i hsingle
    rw [loadOne, loadOne, hcontent _ (h.read_eq_of_single hsearch havoids hsingle), hrecord]
  · rename_i hmany
    rw [Bool.not_eq_true] at hmany
    rw [loadMany, loadMany, h.expand_eq hsearch hmany havoids]
    cases hnames : fs.expand search.root search.pattern with
    | error e => cases e <;> rfl
    | ok names =>
      have hread := fun name (hname : name ∈ names) => h.read_eq_of_mem_expand hsearch hmany havoids hnames hname
      have heach : loadEach fs' search.root encoding names = loadEach fs search.root encoding names := by
        clear hnames
        induction names with
        | nil => rfl
        | cons name names ih =>
          rw [loadEach, loadEach, hcontent _ (hread name List.mem_cons_self), hrecord,
            ih fun name hname => hread name (List.mem_cons_of_mem _ hname)]
      dsimp only
      rw [heach]

end FileSystem.Grown

/-! ## 5. The searches of a module -/

def MarkerCall.search? (call : MarkerCall) (fs : FileSystem) (options : TransformOptions) (bindings : Bindings) :
    Option SearchPlan :=
  (call.resolve options.marker options.encoding bindings).1.map fun resolved =>
    SearchPlan.ofTarget fs call.location.moduleId resolved.options.basePath resolved.target

/-- What the calls of a module look for. -/
def searches (fs : FileSystem) (options : TransformOptions) (moduleId code : Text) : List SearchPlan :=
  match Script.Tree.ofScript (Script.Dialect.ofModuleId moduleId) code with
  | .ok tree =>
    let source : Script.Source := ⟨moduleId, code, options.marker⟩
    (source.markerCalls tree).1.filterMap (·.search? fs options (Script.bindings tree))
  | .error _ => []

namespace FileSystem.Grown

variable {written : Place → Prop} {fs fs' : FileSystem} {options : TransformOptions} {moduleId code : Text}

theorem embed_eq [Charsets] (h : fs.Grown written fs') {call : MarkerCall} {bindings : Bindings}
    (hmodule : Path.isAbsolute (Path.join fs.cwd call.location.moduleId) = true)
    (havoids : ∀ search ∈ call.search? fs options bindings, search.Avoids written) :
    call.embed fs' options bindings = call.embed fs options bindings := by
  unfold MarkerCall.search? at havoids
  unfold MarkerCall.embed
  cases hresolve : call.resolve options.marker options.encoding bindings with
  | mk resolved? warnings =>
    cases resolved? with
    | none => rfl
    | some resolved =>
      rw [hresolve] at havoids
      have havoids := havoids _ rfl
      have hsound := SearchPlan.isSound_ofTarget hmodule resolved.options.basePath resolved.target
      dsimp only
      rw [h.ofTarget_eq hmodule havoids, h.load_eq hsound havoids.2]

theorem collect_eq [Charsets] (h : fs.Grown written fs') {bindings : Bindings} {calls : List MarkerCall}
    (hcalls : ∀ call ∈ calls, Path.isAbsolute (Path.join fs.cwd call.location.moduleId) = true ∧
      ∀ search ∈ call.search? fs options bindings, search.Avoids written) (r : Replacements) :
    Replacements.collect fs' options bindings r calls = Replacements.collect fs options bindings r calls := by
  induction calls generalizing r with
  | nil => rfl
  | cons call calls ih =>
    obtain ⟨⟨hmodule, havoids⟩, hcalls⟩ := List.forall_mem_cons.1 hcalls
    rw [Replacements.collect, Replacements.collect, h.embed_eq hmodule havoids]
    simp only [ih hcalls]

/-- A module is transformed the same if none of its searches reaches what is written. -/
theorem transformMention_eq [Charsets] (h : fs.Grown written fs')
    (hmodule : Path.isAbsolute (Path.join fs.cwd moduleId) = true)
    (havoids : ∀ search ∈ searches fs options moduleId code, search.Avoids written) :
    transformMention fs' options moduleId code = transformMention fs options moduleId code := by
  unfold transformMention transformText
  unfold searches at havoids
  split
  · cases htree : Script.Tree.ofScript (Script.Dialect.ofModuleId moduleId) code with
    | error mistake => rfl
    | ok tree =>
      rw [htree] at havoids
      dsimp only at havoids ⊢
      unfold transformTree
      dsimp only
      rw [h.collect_eq fun call hcall => ⟨?_, fun search hsearch => ?_⟩]
      · obtain ⟨p, -, -, hok⟩ := Script.Source.exists_placed_of_mem hcall
        rw [Script.Source.markerCall_location hok]
        exact hmodule
      · exact havoids search (List.mem_filterMap.2 ⟨call, hcall, hsearch⟩)
  · rfl

theorem accepts_eq (h : fs.Grown written fs') (filter : ModuleFilter) : filter.accepts fs' = filter.accepts fs := by
  funext moduleId
  rw [ModuleFilter.accepts, ModuleFilter.accepts, ModuleFilter.relative?, ModuleFilter.relative?,
    realPath_eq_of_linkFree h.linkFree' h.linkFree h.cwd]

end FileSystem.Grown

end AssetEmbed
