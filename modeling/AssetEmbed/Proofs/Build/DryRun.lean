import AssetEmbed.Proofs.Build.Effects
import AssetEmbed.Proofs.Searching

/-!
# Dry runs — what a build would report

A build reads modules, and the files that they embed, while it writes.  What it meets that was not there at the start
is what it has written itself: files below the output directory, which are not built again, and directories that
lead to them.  So if no search of a module reaches a file that the build writes, every module is transformed as it
would be at the start, and a dry run reports the same.
-/

namespace AssetEmbed

/-! ## 1. What writing keeps -/

structure FileSystem.Keeps (before after : FileSystem) : Prop where
  cwd : after.cwd = before.cwd
  directory : ∀ p, before.node? p = some .directory → after.node? p = some .directory

section Keeping

variable {fs mid fs' : FileSystem} {path target : Text}

namespace FileSystem

theorem Keeps.refl (fs : FileSystem) : fs.Keeps fs := ⟨rfl, fun _ h => h⟩

theorem Keeps.trans (h : fs.Keeps mid) (h' : mid.Keeps fs') : fs.Keeps fs' :=
  ⟨h'.cwd.trans h.cwd, fun p hp => h'.directory p (h.directory p hp)⟩

theorem keeps_write {bytes : Bytes} (h : fs.write path bytes = .ok fs') : fs.Keeps fs' where
  cwd := by
    unfold write at h
    split at h
    · cases h
    · split at h <;> cases h
      rfl
    · split at h <;> cases h
      rfl
  directory p hp := by
    obtain ⟨spot, -, hdirectory, hnode⟩ := node?_of_write h
    rw [hnode, if_neg, hp]
    rintro rfl
    exact hdirectory hp

theorem keeps_makeDirectory (h : fs.makeDirectory path = .ok fs') : fs.Keeps fs' where
  cwd := by
    unfold makeDirectory at h
    split at h <;> cases h
    rfl
  directory p hp := by
    obtain ⟨spot, -, -, hnode⟩ := node?_of_makeDirectory h
    rw [hnode]
    split
    · rfl
    · exact hp

theorem keeps_ensureDirectory (h : fs.ensureDirectory path = .ok fs') : fs.Keeps fs' :=
  ensureDirectoryUpTo_induction (P := fun fs _ fs' => fs.Keeps fs') (fun fs _ => .refl fs)
    (fun _ _ _ hmade => keeps_makeDirectory hmade) (fun _ _ _ _ hmid h => hmid.trans h) h

end FileSystem

theorem keeps_writeResult {r : Transformed} (h : writeResult fs target r = .ok fs') : fs.Keeps fs' := by
  rcases writeResult_eq_ok h with ⟨-, h⟩ | ⟨map, mid, -, hmid, h⟩
  · exact FileSystem.keeps_write h
  · exact (FileSystem.keeps_write hmid).trans (FileSystem.keeps_write h)

theorem BuildPlan.keeps_produce {plan : BuildPlan} {names : List Text} {product : Product}
    (h : plan.produce fs names product = .ok fs') : fs.Keeps fs' := by
  rcases produce_eq_ok h with ⟨-, rfl⟩ | ⟨out, mid, -, -, hmid, ⟨r, -, h⟩ | ⟨-, h⟩⟩
  · exact .refl _
  · exact (FileSystem.keeps_ensureDirectory hmid).trans (keeps_writeResult h)
  · obtain ⟨bytes, -, h⟩ := FileSystem.copy_eq_ok h
    exact (FileSystem.keeps_ensureDirectory hmid).trans (FileSystem.keeps_write h)

end Keeping

/-! ## 2. What a plan writes -/

variable {plan : BuildPlan} {fs fs' : FileSystem} {names : List Text}

/-- Whether the two directories of a plan are told by absolute paths in normal form. -/
structure BuildPlan.IsNormal (plan : BuildPlan) : Prop where
  source : Path.IsNormal plan.source
  out : ∀ real ∈ plan.out, Path.IsNormal real

/-- The places at which a build could write: those of its modules below the output directory, and of their maps. -/
def BuildPlan.Writes (plan : BuildPlan) (fs : FileSystem) (p : Place) : Prop :=
  ∃ real ∈ plan.out, ∃ names bytes, plan.IsModuleBelow [] names ∧ plan.isOutput (plan.modulePath names) = false ∧
    fs.node? (Path.names plan.source ++ names) = some (.file bytes) ∧
    (p = Path.names real ++ names ∨ p = Path.names real ++ mapNames names)

theorem BuildPlan.IsModuleBelow.isProper (h : plan.IsModuleBelow [] names) : Place.IsProper names ∧ names ≠ [] := by
  obtain ⟨above, name, rfl, hproper, -⟩ := h
  exact ⟨hproper, by simp⟩

theorem BuildPlan.Writes.below {p : Place} (h : plan.Writes fs p) :
    ∃ real ∈ plan.out, Path.names real <+: p ∧ Path.names real ≠ p := by
  obtain ⟨real, hreal, names, -, hnames, -, -, hp⟩ := h
  have hne := hnames.isProper.2
  refine ⟨real, hreal, ?_⟩
  rcases hp with rfl | rfl
  · exact ⟨List.prefix_append _ _, by simpa using hne⟩
  · exact ⟨List.prefix_append _ _, by simp [mapNames]⟩

theorem BuildPlan.names_modulePath (hnames : Place.IsProper names) :
    Path.names (plan.modulePath names) = Path.names plan.source ++ names :=
  FileSystem.names_below _ hnames

namespace BuildPlan.IsNormal

variable (hplan : plan.IsNormal)

include hplan

theorem isAbsolute_modulePath (names : List Text) : Path.isAbsolute (plan.modulePath names) = true :=
  FileSystem.isAbsolute_below hplan.source.isRooted.isAbsolute names

theorem isProper_source : Place.IsProper (Path.names plan.source) := by
  obtain ⟨place, hplace, hsource⟩ := hplan.source
  rwa [hsource, Path.names_normal hplace]

theorem not_mem_names_modulePath (hnames : Place.IsProper names) :
    Path.parentName ∉ Path.names (plan.modulePath names) := by
  rw [names_modulePath hnames]
  exact (hplan.isProper_source.append hnames).not_mem

/-- A module is left alone if it lies below the output directory. -/
theorem isOutput_iff (hproper : Place.IsProper names) (hne : names ≠ []) :
    plan.isOutput (plan.modulePath names) = true ↔
      ∃ real ∈ plan.out, Path.names real <+: Path.names plan.source ++ names ∧
        Path.names real ≠ Path.names plan.source ++ names := by
  obtain ⟨source, hsource, hplanSource⟩ := hplan.source
  cases hout : plan.out with
  | none => simp [isOutput, hout]
  | some real =>
    obtain ⟨out, hplaceOut, rfl⟩ := hplan.out real hout
    have hboth := isOutput_modulePath hsource hplaceOut hproper hne hplanSource hout
    simp only [Option.mem_def, Option.some.injEq, exists_eq_left']
    rw [hplanSource, Path.names_normal hplaceOut, Path.names_normal hsource]
    exact hboth

theorem not_writes_module (hnames : plan.IsModuleBelow [] names)
    (hother : plan.isOutput (plan.modulePath names) = false) :
    ¬ plan.Writes fs (Path.names plan.source ++ names) := by
  intro hwrites
  rw [(hplan.isOutput_iff hnames.isProper.1 hnames.isProper.2).2 hwrites.below] at hother
  cases hother

end BuildPlan.IsNormal

/-! ## 3. Ahead of a dry run -/

/-- Whether a build has come from one file system to another one by writing for modules: files are written where the
plan writes, and directories are made above and below the output directory. -/
structure BuildPlan.Ahead (plan : BuildPlan) (before after : FileSystem) : Prop
    extends before.Grown (plan.Writes before) after where
  made : ∀ p, before.node? p = none → after.node? p = some .directory →
    ∃ real ∈ plan.out, Path.names real <+: p ∨ p <+: Path.names real

theorem BuildPlan.Ahead.refl (hfs : fs.WellFormed) (hfree : fs.LinkFree) : plan.Ahead fs fs where
  wellFormed := hfs
  wellFormed' := hfs
  linkFree := hfree
  linkFree' := hfree
  cwd := rfl
  directory _ h := h
  node? _ _ := .inl rfl
  made p hnone hmade := by
    rw [hnone] at hmade
    cases hmade

theorem BuildPlan.exists_file_of_readText (hplan : plan.IsNormal) (hfree : fs.LinkFree)
    (hnames : Place.IsProper names) {code : Text} (h : fs.readText (plan.modulePath names) = .ok code) :
    ∃ bytes, fs.node? (Path.names plan.source ++ names) = some (.file bytes) := by
  obtain ⟨source, hsource, hplanSource⟩ := hplan.source
  obtain ⟨bytes, text, hread, -, -⟩ := FileSystem.readText_eq_ok h
  rw [modulePath_eq hsource hplanSource hnames] at hread
  rw [hplanSource, Path.names_normal hsource]
  exact ⟨bytes, FileSystem.read_path hfree (Place.IsProper.append hsource hnames) hread⟩

theorem BuildPlan.exists_file_of_examine [Charsets] (hplan : plan.IsNormal) (hfree : fs.LinkFree)
    (hnames : Place.IsProper names) {found : Examined} (h : plan.examine fs names = .ok found)
    (hproduct : found.product ≠ .nothing) :
    ∃ bytes, fs.node? (Path.names plan.source ++ names) = some (.file bytes) := by
  rcases examine_cases h with ⟨e, -, rfl⟩ | ⟨code, hcode, -⟩
  · exact absurd rfl hproduct
  · exact exists_file_of_readText hplan hfree hnames hcode

theorem BuildPlan.Ahead.produce [Charsets] {mid : FileSystem} (h : plan.Ahead fs mid) (hplan : plan.IsNormal)
    (hnames : plan.IsModuleBelow [] names) (hother : plan.isOutput (plan.modulePath names) = false)
    {found : Examined} (hfound : plan.examine mid names = .ok found)
    (hmade : plan.produce mid names found.product = .ok fs') : plan.Ahead fs fs' := by
  rcases produce_eq_ok hmade with ⟨-, rfl⟩ | ⟨real, made, hreal, hwrites, -, hkind⟩
  · exact h
  have hproduct : found.product ≠ .nothing := by
    rcases hkind with ⟨r, hproduct, -⟩ | ⟨hproduct, -⟩ <;> rw [hproduct] <;> exact nofun
  obtain ⟨source, hsource, hplanSource⟩ := hplan.source
  obtain ⟨out, hout, rfl⟩ := hplan.out real hreal
  -- the module was there from the start, so what is written for it is foreseen
  obtain ⟨bytes, hfile⟩ := exists_file_of_examine hplan h.linkFree' hnames.isProper.1 hfound hproduct
  rw [h.file_iff (hplan.not_writes_module hnames hother)] at hfile
  obtain ⟨htouches, hfree, -⟩ := touches_produce (w := ⟨names, mid, found⟩)
    ⟨hsource, hout, hplanSource, hreal, hwrites⟩ h.linkFree' hnames hmade
  have htargets : ∀ p, ¬ plan.Writes fs p → p ∉ (⟨names, mid, found⟩ : Work).targets plan out := by
    intro p hp hmem
    obtain ⟨f, hf, rfl⟩ := List.mem_map.1 hmem
    refine hp ⟨_, hreal, names, bytes, hnames, hother, hfile, ?_⟩
    rw [Path.names_normal hout]
    exact (Work.fst_of_mem_files hf).imp (congrArg _) (congrArg _)
  have hkeeps := keeps_produce hmade
  refine ⟨⟨h.wellFormed, wellFormed_produce h.wellFormed' hmade, h.linkFree, hfree, hkeeps.cwd.trans h.cwd,
    fun p hp => hkeeps.directory p (h.directory p hp), fun p hp => ?node⟩, fun p hnone hdirectory => ?made⟩
  case node =>
    rcases htouches p (htargets p hp) with heq | ⟨hnone, hmade, -⟩
    · rw [heq]
      exact h.node? p hp
    · rcases h.node? p hp with heq | ⟨-, hdirectory⟩
      · exact .inr ⟨heq ▸ hnone, hmade⟩
      · rw [hnone] at hdirectory
        cases hdirectory
  case made =>
    by_cases hp : plan.Writes fs p
    · obtain ⟨real, hreal, hpre, -⟩ := hp.below
      exact ⟨real, hreal, .inl hpre⟩
    rcases h.node? p hp with heq | ⟨-, hmid⟩
    · rcases htouches p (htargets p hp) with hsame | ⟨-, -, d, hd, hpre⟩
      · rw [hsame, heq, hnone] at hdirectory
        cases hdirectory
      · -- two places above the same file
        obtain rfl := List.mem_singleton.1 hd
        refine ⟨_, hreal, ?_⟩
        rw [Path.names_normal hout]
        exact List.prefix_or_prefix_of_prefix (List.prefix_append out names) hpre
    · exact h.made p hnone hmid

/-! ## 4. A module -/

/-- What the calls of the module at the end of some names look for, if it is worked on. -/
def BuildPlan.searches (plan : BuildPlan) (fs : FileSystem) (names : List Text) : List SearchPlan :=
  match fs.readText (plan.modulePath names), plan.filter.accepts fs (plan.modulePath names) with
  | .ok code, .ok true => AssetEmbed.searches fs plan.options (plan.modulePath names) code
  | _, _ => []

/-- Whether no search of a module that is worked on reaches a place at which the build writes. -/
def BuildPlan.SearchesApart (plan : BuildPlan) (fs : FileSystem) : Prop :=
  ∀ names, plan.IsModuleBelow [] names → plan.isOutput (plan.modulePath names) = false →
    ∀ search ∈ plan.searches fs names, search.Avoids (plan.Writes fs)

/-- What is found out about a module is what would be found out about it at the start. -/
theorem BuildPlan.Ahead.examine_eq [Charsets] (h : plan.Ahead fs fs') (hplan : plan.IsNormal)
    (hapart : plan.SearchesApart fs) (hnames : plan.IsModuleBelow [] names)
    (hother : plan.isOutput (plan.modulePath names) = false) {bytes : Bytes}
    (hfile : fs.node? (Path.names plan.source ++ names) = some (.file bytes)) :
    plan.examine fs' names = plan.examine fs names := by
  obtain ⟨hproper, hne⟩ := hnames.isProper
  have habsolute := hplan.isAbsolute_modulePath names
  have hplace : Path.names (plan.modulePath names) = Path.names plan.source ++ names := names_modulePath hproper
  -- the module itself is not written over, and so its searches are those at the start
  have hread : fs'.readText (plan.modulePath names) = fs.readText (plan.modulePath names) := by
    rw [← hplace] at hfile
    rw [FileSystem.readText, FileSystem.readText, h.read_eq habsolute (hplan.not_mem_names_modulePath hproper)
      (FileSystem.endsInName_below hproper hne) ?_ hfile]
    rw [hplace]
    exact hplan.not_writes_module hnames hother
  have havoids := hapart names hnames hother
  unfold searches at havoids
  unfold examine
  dsimp only
  rw [hread, h.accepts_eq]
  split
  · rfl
  · rename_i code hcode
    split
    · rfl
    · rfl
    · rename_i haccepts
      rw [hcode, haccepts] at havoids
      have hmodule : Path.isAbsolute (Path.join fs.cwd (plan.modulePath names)) = true := by
        rwa [Path.join_of_isAbsolute habsolute]
      rw [h.transformMention_eq hmodule havoids]

/-! ## 5. Listings -/

theorem BuildPlan.entry?_modulePath (hplan : plan.IsNormal) (hfree : fs.LinkFree) (hnames : Place.IsProper names)
    {l : Listing} :
    fs.entry? (plan.modulePath names) = .ok (.directory l) ↔ FileSystem.IsShort (plan.modulePath names) ∧
      fs.entries.at? (Path.names plan.source ++ names) = some (.directory l) := by
  have habsolute := hplan.isAbsolute_modulePath names
  have hup := hplan.not_mem_names_modulePath hnames
  rw [← names_modulePath hnames]
  constructor
  · intro h
    obtain ⟨-, hplace, hshort, -⟩ := FileSystem.entry?_eq_ok hfree habsolute h
    rw [Path.names_normalize_of_not_mem habsolute hup] at hplace
    exact ⟨hshort, hplace⟩
  · rintro ⟨hshort, hplace⟩
    rw [FileSystem.entry?_of_at? hfree habsolute hup hplace (.inl rfl), if_pos hshort]

theorem BuildPlan.listing_pairwise (plan : BuildPlan) (hfs : fs.WellFormed) (names : List Text) :
    (plan.listing fs names).1.Pairwise (· < ·) ∧ (plan.listing fs names).2.Pairwise (· < ·) := by
  obtain ⟨⟨hmodules, -⟩, hdirectories, -⟩ := plan.listing_sound hfs (rfl : plan.listing fs names = (_, _))
  have hsorted : (plan.listing fs names).1.Pairwise (· ≤ ·) ∧ (plan.listing fs names).2.Pairwise (· ≤ ·) := by
    unfold listing
    dsimp only
    split
    · exact ⟨(Text.sort_pairwise _).filter _, (Text.sort_pairwise _).filter _⟩
    · exact ⟨.nil, .nil⟩
  exact ⟨(hsorted.1.and hmodules).imp fun h => lt_of_le_of_ne h.1 h.2,
    (hsorted.2.and hdirectories).imp fun h => lt_of_le_of_ne h.1 h.2⟩

theorem BuildPlan.mem_listing (hplan : plan.IsNormal) (hfs : fs.WellFormed) (hfree : fs.LinkFree)
    (hnames : Place.IsProper names) (name : Text) :
    (name ∈ (plan.listing fs names).1 ↔ FileSystem.IsShort (plan.modulePath names) ∧
      (∃ bytes, fs.node? (Path.names plan.source ++ names ++ [name]) = some (.file bytes)) ∧
        plan.extensions.contains (Path.suffix name).lower = true) ∧
    (name ∈ (plan.listing fs names).2 ↔ FileSystem.IsShort (plan.modulePath names) ∧
      fs.node? (Path.names plan.source ++ names ++ [name]) = some .directory ∧
        (name ≠ versionControlName && !plan.filter.prunes (Text.joinWith '/' (names ++ [name]))) = true) := by
  unfold listing
  dsimp only
  split
  · rename_i l hl
    obtain ⟨hshort, hplace⟩ := (entry?_modulePath hplan hfree hnames).1 hl
    have hnodup := (Listing.IsSound.directory hfs hplace).nodup
    have hnode : fs.node? (Path.names plan.source ++ names ++ [name]) = (Listing.get? name l).map Entry.node := by
      rw [FileSystem.node?, Listing.node?, Listing.at?_append_singleton hplace]
    -- without links an entry is a file or a directory
    have hkind : ∀ (rule : WalkRule) ns,
        ((∃ e, Listing.get? name l = some e ∧ rule.isFile ns e = true) ↔
          ∃ bytes, fs.node? (Path.names plan.source ++ names ++ [name]) = some (.file bytes)) ∧
        ((∃ e, Listing.get? name l = some e ∧ (!rule.isFile ns e) = true) ↔
          fs.node? (Path.names plan.source ++ names ++ [name]) = some .directory) := by
      intro rule ns
      rw [hnode]
      cases hget : Listing.get? name l with
      | none => simp
      | some e =>
        cases e with
        | file bytes => simp [WalkRule.isFile, Entry.node]
        | directory below => simp [WalkRule.isFile, Entry.node]
        | link target =>
          rw [hget] at hnode
          exact absurd hnode (hfree _ target)
    rw [List.mem_filter, List.mem_filter, WalkRule.files, Text.mem_sort, Text.mem_sort,
      Listing.mem_names_filter hnodup, Listing.mem_names_filter hnodup]
    dsimp only
    rw [(hkind _ _).1, (hkind _ _).2]
    simp only [hshort, true_and, and_self]
  · rename_i hother
    have hnone : ∀ node, ¬ (FileSystem.IsShort (plan.modulePath names) ∧
        fs.node? (Path.names plan.source ++ names ++ [name]) = some node) := by
      rintro node ⟨hshort, hnode⟩
      obtain ⟨l, hplace⟩ := FileSystem.node?_eq_directory_iff.1 (FileSystem.node?_eq_directory_of_append hnode)
      exact hother l ((entry?_modulePath hplan hfree hnames).2 ⟨hshort, hplace⟩)
    refine ⟨⟨fun h => absurd h List.not_mem_nil, ?_⟩, ⟨fun h => absurd h List.not_mem_nil, ?_⟩⟩
    · rintro ⟨hshort, ⟨bytes, hnode⟩, -⟩
      exact absurd ⟨hshort, hnode⟩ (hnone _)
    · rintro ⟨hshort, hnode, -⟩
      exact absurd ⟨hshort, hnode⟩ (hnone _)

def BuildPlan.IsBelowOutput (plan : BuildPlan) (p : Place) : Prop := ∃ real ∈ plan.out, Path.names real <+: p

theorem BuildPlan.not_writes_concat {p : Place} (h : ¬ plan.IsBelowOutput p) (name : Text) :
    ¬ plan.Writes fs (p ++ [name]) := by
  intro hwrites
  obtain ⟨real, hreal, hpre, hne⟩ := hwrites.below
  exact h ⟨real, hreal, (List.prefix_concat_iff.1 hpre).resolve_left hne⟩

/-- A directory that does not lie below the output directory lists the same modules as at the start, and the same
directories but for some that have been made. -/
theorem BuildPlan.Ahead.listing_eq (h : plan.Ahead fs fs') (hplan : plan.IsNormal) (hnames : Place.IsProper names)
    (hother : ¬ plan.IsBelowOutput (Path.names plan.source ++ names)) :
    (plan.listing fs names).1 = (plan.listing fs' names).1 ∧
      (plan.listing fs names).2 = (plan.listing fs' names).2.filter fun name =>
        decide (fs.node? (Path.names plan.source ++ names ++ [name]) = some .directory) := by
  have hlisting := plan.mem_listing hplan h.wellFormed h.linkFree hnames
  have hlisting' := plan.mem_listing hplan h.wellFormed' h.linkFree' hnames
  obtain ⟨hmodules, hdirectories⟩ := plan.listing_pairwise h.wellFormed names
  obtain ⟨hmodules', hdirectories'⟩ := plan.listing_pairwise h.wellFormed' names
  constructor
  · refine hmodules.eq_of_mem_iff hmodules' fun name => ?_
    rw [(hlisting name).1, (hlisting' name).1]
    simp only [h.file_iff (not_writes_concat hother name)]
  · refine hdirectories.eq_of_mem_iff (hdirectories'.filter _) fun name => ?_
    rw [List.mem_filter, (hlisting name).2, (hlisting' name).2, decide_eq_true_eq]
    constructor
    -- no directory is lost, and one that has been made fails the test
    · rintro ⟨hshort, hnode, henters⟩
      exact ⟨⟨hshort, h.directory _ hnode, henters⟩, hnode⟩
    · rintro ⟨⟨hshort, -, henters⟩, hnode⟩
      exact ⟨hshort, hnode, henters⟩

/-! ## 6. What a build passes -/

theorem FileSystem.linkTarget?_eq_none (hfree : fs.LinkFree) (path : Text) : fs.linkTarget? path = none := by
  unfold linkTarget?
  split
  · split
    · rename_i target hplace
      have hlink : fs.node? _ = some (.link target) := Option.map_eq_some_iff.2 ⟨_, hplace, rfl⟩
      exact absurd hlink (hfree _ target)
    · rfl
  · rfl

/-- Without links a build goes over the modules that a directory lists, and then enters the directories. -/
theorem BuildPlan.buildBelow_succ [Charsets] (plan : BuildPlan) (depth : Nat) (s : BuildState)
    (names : List Text) : plan.buildBelow (depth + 1) s names =
      (plan.listing s.fs names).1.foldlM (fun s name => plan.buildModule s (names ++ [name])) s >>= fun t =>
        (plan.listing s.fs names).2.foldlM (fun t name =>
          if (t.fs.linkTarget? (plan.modulePath (names ++ [name]))).isSome then .ok t
          else plan.buildBelow depth t (names ++ [name])) t := by
  rw [buildBelow]

/-- Whether every file below a directory lies below the output directory. -/
def BuildPlan.IsQuiet (plan : BuildPlan) (fs : FileSystem) (names : List Text) : Prop :=
  ∀ below bytes, Place.IsProper below → below ≠ [] →
    fs.node? (Path.names plan.source ++ (names ++ below)) = some (.file bytes) →
      plan.isOutput (plan.modulePath (names ++ below)) = true

namespace BuildPlan

theorem IsQuiet.concat (h : plan.IsQuiet fs names) {name : Text} (hname : Path.IsProper name) :
    plan.IsQuiet fs (names ++ [name]) := by
  intro below bytes hbelow hne hfile
  rw [List.append_assoc] at hfile ⊢
  refine h ([name] ++ below) bytes ?_ (List.append_ne_nil_of_left_ne_nil (List.cons_ne_nil _ _) _) hfile
  exact Place.IsProper.append (List.forall_mem_singleton.2 hname) hbelow

theorem isQuiet_of_isBelowOutput (hplan : plan.IsNormal) (hnames : Place.IsProper names)
    (h : plan.IsBelowOutput (Path.names plan.source ++ names)) : plan.IsQuiet fs names := by
  intro below bytes hbelow hne _
  obtain ⟨real, hreal, hpre⟩ := h
  refine (hplan.isOutput_iff (Place.IsProper.append hnames hbelow) (List.append_ne_nil_of_right_ne_nil _ hne)).2
    ⟨real, hreal, ?_⟩
  rw [← List.append_assoc]
  refine ⟨hpre.trans (List.prefix_append _ _), fun heq => hne ?_⟩
  have hlength := hpre.length_le
  rw [heq, List.length_append, List.length_append] at hlength
  exact List.length_eq_zero_iff.1 (by omega)

theorem IsQuiet.buildBelow_eq [Charsets] (hplan : plan.IsNormal) {s : BuildState} (hfs : s.fs.WellFormed)
    (hfree : s.fs.LinkFree) (hnames : Place.IsProper names) (h : plan.IsQuiet s.fs names) (depth : Nat) :
    plan.buildBelow depth s names = .ok s := by
  induction depth generalizing names with
  | zero => rfl
  | succ depth ih =>
    have hlisting := plan.mem_listing hplan hfs hfree hnames
    obtain ⟨⟨-, hmodules⟩, -, hdirectories⟩ := plan.listing_sound hfs (rfl : plan.listing s.fs names = (_, _))
    rw [buildBelow_succ, foldlM_eq_ok_self fun name hname => ?modules]
    · refine foldlM_eq_ok_self fun name hname => ?_
      rw [FileSystem.linkTarget?_eq_none hfree]
      exact ih (hnames.concat (hdirectories name hname)) (h.concat (hdirectories name hname))
    case modules =>
      obtain ⟨-, ⟨bytes, hfile⟩, -⟩ := (hlisting name).1.1 hname
      rw [List.append_assoc] at hfile
      unfold buildModule
      rw [if_pos (h [name] bytes (List.forall_mem_singleton.2 (hmodules name hname).1) (List.cons_ne_nil _ _) hfile)]

/-- A build passes a directory that has been made: what is written below it lies below the output directory. -/
theorem Ahead.buildBelow_eq_of_none [Charsets] {s : BuildState} (h : plan.Ahead fs s.fs) (hplan : plan.IsNormal)
    (hnames : Place.IsProper names) (hnone : fs.node? (Path.names plan.source ++ names) = none) (depth : Nat) :
    plan.buildBelow depth s names = .ok s := by
  refine IsQuiet.buildBelow_eq hplan h.wellFormed' h.linkFree' hnames (fun below bytes hbelow hne hfile => ?_) depth
  refine (hplan.isOutput_iff (Place.IsProper.append hnames hbelow) (List.append_ne_nil_of_right_ne_nil _ hne)).2 ?_
  -- elsewhere no file is written, and one that was there would stand below a directory
  by_contra hother
  rw [h.file_iff fun hwrites => hother hwrites.below] at hfile
  obtain ⟨name, rest, rfl⟩ := List.exists_cons_of_ne_nil hne
  rw [← List.append_assoc] at hfile
  rw [FileSystem.node?_eq_directory_of_append hfile] at hnone
  cases hnone

end BuildPlan

/-! ## 7. Two builds abreast -/

def BuildPlan.dry (plan : BuildPlan) : BuildPlan := { plan with dryRun := true }

theorem BuildPlan.Works.concat [Charsets] {works : List Work} {before after : FileSystem}
    (h : plan.Works works before fs) {found : Examined} (hother : plan.isOutput (plan.modulePath names) = false)
    (hfound : plan.examine fs names = .ok found) (hmade : plan.produce fs names found.product = .ok after) :
    plan.Works (works ++ [⟨names, fs, found⟩]) before after := by
  induction h with
  | nil fs => exact .cons (w := ⟨names, fs, found⟩) hother hfound hmade (.nil after)
  | cons hother' hfound' hmade' _ ih => exact .cons hother' hfound' hmade' (ih hfound hmade)

/-- Whether a dry run and a build that began in the same file system have come equally far: what has been found out
about each module is what is found out about it in that file system. -/
structure BuildPlan.Abreast [Charsets] (plan : BuildPlan) (fs : FileSystem) (s s' : BuildState) : Prop where
  dry : s.fs = fs
  ahead : plan.Ahead fs s'.fs
  modules : s.modules = s'.modules
  works : ∃ works, plan.Works works fs s'.fs ∧ s'.modules = works.map (·.found.report) ∧
    ∀ w ∈ works, plan.examine fs w.names = .ok w.found

namespace BuildPlan.Abreast

variable {s s' t' : BuildState}

theorem exists_buildModule [Charsets] (h : plan.Abreast fs s s') (hplan : plan.IsNormal)
    (hapart : plan.SearchesApart fs) (hnames : plan.IsModuleBelow [] names) {bytes : Bytes}
    (hfile : fs.node? (Path.names plan.source ++ names) = some (.file bytes))
    (hbuild : plan.buildModule s' names = .ok t') :
    ∃ t, plan.dry.buildModule s names = .ok t ∧ plan.Abreast fs t t' := by
  obtain ⟨hdry, hahead, hmodules, works, hworks, hreports, hexamined⟩ := h
  rcases buildModule_eq_ok hbuild with ⟨houtput, rfl⟩ | ⟨hother, found, hfound, hmade, hnew⟩
  · refine ⟨s, ?_, hdry, hahead, hmodules, works, hworks, hreports, hexamined⟩
    unfold buildModule
    exact if_pos houtput
  · have hsame : plan.examine fs names = .ok found := by
      rw [← hahead.examine_eq hplan hapart hnames hother hfile, hfound]
    refine ⟨⟨fs, s.modules ++ [found.report], s.events ++ found.events ++ [found.report.remark]⟩, ?_, rfl,
      hahead.produce hplan hnames hother hfound hmade, by rw [hnew, hmodules], _,
      hworks.concat hother hfound hmade, by rw [hnew, hreports, List.map_append]; rfl, ?_⟩
    · have hexamine : plan.dry.examine s.fs names = .ok found := by
        rw [hdry]
        exact hsame
      have hother : plan.dry.isOutput (plan.dry.modulePath names) = false := hother
      unfold buildModule
      rw [hother, hexamine]
      dsimp only
      rw [plan.dry.produce_eq_self (.inl rfl), hdry]
      rfl
    -- only the last work is new
    · intro w hw
      rcases List.mem_append.1 hw with hw | hw
      · exact hexamined w hw
      · rw [List.mem_singleton.1 hw]
        exact hsame

theorem exists_buildBelow_of_isBelowOutput [Charsets] (h : plan.Abreast fs s s') (hplan : plan.IsNormal)
    (hnames : Place.IsProper names) (hbelow : plan.IsBelowOutput (Path.names plan.source ++ names)) {depth : Nat}
    (hbuild : plan.buildBelow depth s' names = .ok t') :
    ∃ t, plan.dry.buildBelow depth s names = .ok t ∧ plan.Abreast fs t t' := by
  have hdryPlan : plan.dry.IsNormal := ⟨hplan.source, hplan.out⟩
  -- both runs pass all of it
  have hquiet : ∀ fs, plan.IsQuiet fs names := fun _ => isQuiet_of_isBelowOutput hplan hnames hbelow
  have hdry : plan.dry.IsQuiet s.fs names := hquiet s.fs
  rw [IsQuiet.buildBelow_eq hplan h.ahead.wellFormed' h.ahead.linkFree' hnames (hquiet _)] at hbuild
  cases hbuild
  refine ⟨s, hdry.buildBelow_eq hdryPlan ?_ ?_ hnames _, h⟩ <;> rw [h.dry]
  · exact h.ahead.wellFormed
  · exact h.ahead.linkFree

theorem of_buildBelow_made [Charsets] (h : plan.Abreast fs s s') (hplan : plan.IsNormal)
    (hnames : Place.IsProper names) {name : Text} (hname : Path.IsProper name)
    (hother : ¬ plan.IsBelowOutput (Path.names plan.source ++ names)) {before : FileSystem}
    (hbefore : plan.Ahead fs before)
    (hthere : before.node? (Path.names plan.source ++ names ++ [name]) = some .directory)
    (hmade : fs.node? (Path.names plan.source ++ names ++ [name]) ≠ some .directory) {depth : Nat}
    (hbuild : plan.buildBelow depth s' (names ++ [name]) = .ok t') : plan.Abreast fs s t' := by
  have hnone : fs.node? (Path.names plan.source ++ (names ++ [name])) = none := by
    rw [← List.append_assoc]
    rcases hbefore.node? _ (not_writes_concat hother name) with heq | ⟨hnone, -⟩
    · exact absurd (heq ▸ hthere) hmade
    · exact hnone
  rw [h.ahead.buildBelow_eq_of_none hplan (hnames.concat hname) hnone] at hbuild
  cases hbuild
  exact h

/-- A build that comes to the end of a directory has a dry run beside it that does, too. -/
theorem exists_buildBelow [Charsets] (h : plan.Abreast fs s s') (hplan : plan.IsNormal)
    (hapart : plan.SearchesApart fs) (hnames : Place.IsProper names) {depth : Nat}
    (hbuild : plan.buildBelow depth s' names = .ok t') :
    ∃ t, plan.dry.buildBelow depth s names = .ok t ∧ plan.Abreast fs t t' := by
  induction depth generalizing s s' t' names with
  | zero =>
    cases hbuild
    exact ⟨s, rfl, h⟩
  | succ depth ih =>
    have hahead := h.ahead
    by_cases hbelow : plan.IsBelowOutput (Path.names plan.source ++ names)
    · exact h.exists_buildBelow_of_isBelowOutput hplan hnames hbelow hbuild
    obtain ⟨hmodules, hdirectories⟩ := hahead.listing_eq hplan hnames hbelow
    have hlisting := plan.mem_listing hplan hahead.wellFormed' hahead.linkFree' hnames
    obtain ⟨⟨-, hmodulesSound⟩, -, hdirectoriesSound⟩ := plan.listing_sound hahead.wellFormed'
      (rfl : plan.listing s'.fs names = (_, _))
    rw [buildBelow_succ] at hbuild ⊢
    obtain ⟨mid', hmid', hbuild⟩ := bind_eq_ok.1 hbuild
    -- a module in the directory itself was there from the start
    obtain ⟨mid, hmid, hmidAbreast⟩ : ∃ mid, (plan.listing fs names).1.foldlM
        (fun t name => plan.dry.buildModule t (names ++ [name])) s = .ok mid ∧ plan.Abreast fs mid mid' := by
      rw [hmodules, ← List.filter_true (plan.listing s'.fs names).1]
      refine exists_foldlM_filter (fun name hname _ t t' u' h hbuild => ?_) (fun _ _ hfalse => by cases hfalse) h hmid'
      obtain ⟨hproper, hextension⟩ := hmodulesSound name hname
      obtain ⟨-, ⟨bytes, hfile⟩, -⟩ := (hlisting name).1.1 hname
      rw [hahead.file_iff (not_writes_concat hbelow name), List.append_assoc] at hfile
      exact h.exists_buildModule hplan hapart ⟨names, name, rfl, hnames.concat hproper, hextension⟩ hfile hbuild
    -- a directory in it was there, too, or it has been made and is passed
    obtain ⟨t, ht, htAbreast⟩ : ∃ t, (plan.listing fs names).2.foldlM (fun t name =>
        if (t.fs.linkTarget? (plan.modulePath (names ++ [name]))).isSome then .ok t
        else plan.dry.buildBelow depth t (names ++ [name])) mid = .ok t ∧ plan.Abreast fs t t' := by
      rw [hdirectories]
      refine exists_foldlM_filter (fun name hname _ t t' u' h hbuild => ?there)
        (fun name hname hmade t t' u' h hbuild => ?made) hmidAbreast hbuild
      all_goals rw [FileSystem.linkTarget?_eq_none h.ahead.linkFree'] at hbuild
      case there =>
        rw [FileSystem.linkTarget?_eq_none (h.dry ▸ h.ahead.linkFree)]
        exact ih h (hnames.concat (hdirectoriesSound name hname)) hbuild
      case made =>
        obtain ⟨-, hthere, -⟩ := (hlisting name).2.1 hname
        exact h.of_buildBelow_made hplan hnames (hdirectoriesSound name hname) hbelow hahead hthere
          (of_decide_eq_false hmade) hbuild
    have hlistingEq : plan.dry.listing s.fs names = plan.listing fs names := by
      rw [h.dry]
      rfl
    rw [hlistingEq]
    exact ⟨t, bind_eq_ok.2 ⟨mid, hmid, ht⟩, htAbreast⟩

end BuildPlan.Abreast

/-! ## 8. Dry runs -/

theorem BuildPlan.ofConfig_dry {source : Text} {out : Option Text} {config : Config}
    (h : ofConfig fs source out config false = .ok plan) : ofConfig fs source out config true = .ok plan.dry := by
  unfold ofConfig at h ⊢
  obtain ⟨realSource, hsource, h⟩ := bind_eq_ok.1 h
  obtain ⟨realOut, hout, h⟩ := bind_eq_ok.1 h
  obtain ⟨filter, hfilter, h⟩ := bind_eq_ok.1 h
  cases h
  exact bind_eq_ok.2 ⟨_, hsource, bind_eq_ok.2 ⟨_, hout, bind_eq_ok.2 ⟨_, hfilter, rfl⟩⟩⟩

theorem BuildPlan.isNormal_ofConfig {source : Text} {out : Option Text} {config : Config} {dryRun : Bool}
    (h : ofConfig fs source out config dryRun = .ok plan) : plan.IsNormal := by
  obtain ⟨⟨source, hsource, hplanSource⟩, hout, -⟩ := ofConfig_eq_ok h
  refine ⟨hplanSource ▸ hsource.isNormal, fun real hreal => ?_⟩
  obtain ⟨out, hout, rfl⟩ := hout real hreal
  exact hout.isNormal

/-- If no search of a module reaches a file that the build writes, what has been written for one module does not
matter to another one: the entry of each module is what is found out about it in the file system in which the build
began.  A dry run then comes to its end if the build does, with the same entries and totals. -/
theorem dry_run_reports_build [Charsets] (hfs : fs.WellFormed) (hlinks : Listing.linkCount fs.entries = 0)
    {source : Text} {out : Option Text} {config : Config}
    (hplan : BuildPlan.ofConfig fs source out config false = .ok plan) (hapart : plan.SearchesApart fs)
    {report : BuildReport} {state : BuildState} (h : build fs source out config false = .ok (report, state)) :
    (∃ dryReport dryState, build fs source out config true = .ok (dryReport, dryState) ∧
        dryReport.modules = report.modules ∧ dryReport.totals = report.totals) ∧
      ∃ works, plan.Works works fs state.fs ∧ report.modules = works.map (·.found.report) ∧
        ∀ w ∈ works, plan.examine fs w.names = .ok w.found := by
  have hnormal := BuildPlan.isNormal_ofConfig hplan
  have hfree := FileSystem.linkFree_of_linkCount hlinks
  have hstart : plan.Abreast fs ⟨fs, [], []⟩ ⟨fs, [], []⟩ :=
    ⟨rfl, .refl hfs hfree, rfl, [], .nil fs, rfl, nofun⟩
  obtain ⟨plan', hplan', hrun, rfl⟩ := build_eq_ok.1 h
  obtain rfl : plan = plan' := Except.ok.inj (hplan.symm.trans hplan')
  obtain ⟨t, hdryRun, habreast⟩ :=
    hstart.exists_buildBelow hnormal hapart (fun n hn => absurd hn List.not_mem_nil) hrun
  refine ⟨⟨plan.dry.report t, t, ?_, habreast.modules, ?_⟩, habreast.works⟩
  · exact build_eq_ok.2 ⟨plan.dry, BuildPlan.ofConfig_dry hplan, hdryRun, rfl⟩
  · exact congrArg Totals.ofModules habreast.modules

/-- Two modules that embed the same file, one by a pattern and the other one by its path. -/
def apartModules : Listing := [
  ("a.js".toList, .file (Utf8.encode "m('/t/*')".toList)),
  ("d".toList, .directory [("b.js".toList, .file (Utf8.encode "m('/t/x')".toList))])]

/-- A source directory with these modules, and the file. -/
def apartTree : FileSystem where
  entries := [("t".toList, .directory [("x".toList, .file [120])]), ("src".toList, .directory apartModules)]
  cwd := ['/']

theorem apartTree_wellFormed : apartTree.WellFormed := by
  simp only [FileSystem.WellFormed, apartTree, apartModules, Listing.IsSound, Entry.IsSound, Listing.get?]
  decide +kernel

theorem apartTree_modules {bytes : Bytes} (h : apartTree.node? ("src".toList :: names) = some (.file bytes)) :
    names = ["a.js".toList] ∨ names = ["d".toList, "b.js".toList] := by
  rw [FileSystem.node?_eq_file_iff, Entry.at?_cons] at h
  obtain ⟨name, below, e, rfl, hmem, h⟩ := Entry.exists_of_file_at? (l := apartModules) h
  rcases List.mem_cons.1 hmem with heq | hmem
  · cases heq
    rw [Entry.eq_nil_of_file_at? h]
    exact .inl rfl
  · cases List.mem_singleton.1 hmem
    obtain ⟨name, below, e, rfl, hmem, h⟩ := Entry.exists_of_file_at? h
    cases List.mem_singleton.1 hmem
    rw [Entry.eq_nil_of_file_at? h]
    exact .inr rfl

theorem apartTree_searchesApart
    (hplan : BuildPlan.ofConfig apartTree "/src".toList (some "/out".toList) mappedConfig false = .ok plan) :
    plan.SearchesApart apartTree := by
  have hparts : (BuildPlan.ofConfig apartTree "/src".toList (some "/out".toList) mappedConfig false).toOption.map
      (fun plan => (plan.source, plan.out, plan.searches apartTree ["a.js".toList],
        plan.searches apartTree ["d".toList, "b.js".toList])) =
      some ("/src".toList, some "/out".toList, [⟨"/t".toList, "*".toList, false⟩],
        [⟨"/t".toList, "x".toList, true⟩]) := by
    decide +kernel
  rw [hplan] at hparts
  simp only [Except.toOption, Option.map_some, Option.some.injEq, Prod.mk.injEq] at hparts
  obtain ⟨hsource, hout, hpattern, hpath⟩ := hparts
  have hnormal := BuildPlan.isNormal_ofConfig hplan
  have hfree : apartTree.LinkFree := FileSystem.linkFree_of_linkCount (by decide)
  intro names hnames _ search hsearch
  -- whatever is reached stands in another directory than whatever is written
  suffices hreach : search.IsSteady ∧ ∀ p, search.Reaches p → "t".toList ∈ p.head? by
    refine ⟨hreach.1, fun p hp hwrites => ?_⟩
    obtain ⟨real, hreal, ⟨rest, rfl⟩, -⟩ := hwrites.below
    rw [hout] at hreal
    obtain rfl := Option.some.inj hreal
    exact absurd (Option.some.inj (hreach.2 _ hp)) (by decide)
  obtain ⟨code, hcode⟩ : ∃ code, apartTree.readText (plan.modulePath names) = .ok code := by
    unfold BuildPlan.searches at hsearch
    split at hsearch
    · exact ⟨_, by assumption⟩
    · cases hsearch
  obtain ⟨bytes, hfile⟩ := BuildPlan.exists_file_of_readText hnormal hfree hnames.isProper.1 hcode
  rw [hsource] at hfile
  rcases apartTree_modules hfile with rfl | rfl
  · rw [hpattern] at hsearch
    obtain rfl := List.mem_singleton.1 hsearch
    refine ⟨.inr (.inl (by decide)), fun p hp => ?_⟩
    cases hp with
    | file hplain => cases hplain
    | @selected alternatives alternative selector way _ halternatives hmem =>
      have heval : Glob.alternatives "*".toList = .ok ["*".toList] := by decide +kernel
      rw [heval] at halternatives
      cases halternatives
      obtain rfl := List.mem_singleton.1 hmem
      exact rfl
  · rw [hpath] at hsearch
    obtain rfl := List.mem_singleton.1 hsearch
    refine ⟨.inl rfl, fun p hp => ?_⟩
    cases hp with
    | file => decide
    | selected hmany => cases hmany

theorem dry_run_reports_build_apartTree :
    ∃ plan report state works,
      BuildPlan.ofConfig apartTree "/src".toList (some "/out".toList) mappedConfig false = .ok plan ∧
        plan.SearchesApart apartTree ∧
        build apartTree "/src".toList (some "/out".toList) mappedConfig false = .ok (report, state) ∧
        report.modules.map (fun m => (m.path, m.status, m.embeddedFiles)) =
          [("a.js".toList, .rewritten, 1), ("d/b.js".toList, .rewritten, 1)] ∧
        (build apartTree "/src".toList (some "/out".toList) mappedConfig true).toOption.map (·.1.modules) =
          some report.modules ∧
        plan.Works works apartTree state.fs ∧ ∀ w ∈ works, plan.examine apartTree w.names = .ok w.found := by
  have hresult : (build apartTree "/src".toList (some "/out".toList) mappedConfig false).toOption.map
      (fun r => r.1.modules.map fun m => (m.path, m.status, m.embeddedFiles)) =
        some [("a.js".toList, .rewritten, 1), ("d/b.js".toList, .rewritten, 1)] := by
    decide +kernel
  cases h : build apartTree "/src".toList (some "/out".toList) mappedConfig false with
  | error e =>
    rw [h] at hresult
    cases hresult
  | ok result =>
    obtain ⟨report, state⟩ := result
    rw [h] at hresult
    obtain ⟨plan, -, hplan, -⟩ := exists_noted_of_build h
    have hapart := apartTree_searchesApart hplan
    obtain ⟨⟨dryReport, dryState, hdry, hmodules, -⟩, works, hworks, -, hexamined⟩ :=
      dry_run_reports_build apartTree_wellFormed (by decide) hplan hapart h
    refine ⟨plan, report, state, works, hplan, hapart, rfl, Option.some.inj hresult, ?_, hworks, hexamined⟩
    rw [hdry, ← hmodules]
    rfl

/-- A module, and another one that embeds whatever is in the output directory. -/
def writtenTree : FileSystem where
  entries := [("src".toList, .directory [
    ("a.js".toList, .file (Utf8.encode "x".toList)),
    ("d".toList, .directory [("b.js".toList, .file (Utf8.encode "m('/out/*')".toList))])])]
  cwd := ['/']

/-- A build embeds what it has written for the module before, of which a dry run knows nothing. -/
theorem dry_run_misses_written_module :
    (build writtenTree "/src".toList (some "/out".toList) mappedConfig true).toOption.map
        (fun r => r.1.modules.map fun m => (m.path, m.embeddedFiles)) =
      some [("a.js".toList, 0), ("d/b.js".toList, 0)] ∧
    (build writtenTree "/src".toList (some "/out".toList) mappedConfig false).toOption.map
        (fun r => r.1.modules.map fun m => (m.path, m.embeddedFiles)) =
      some [("a.js".toList, 0), ("d/b.js".toList, 1)] := by
  exact ⟨by decide +kernel, by decide +kernel⟩

end AssetEmbed
