import AssetEmbed.Proofs.Build.Effects
import AssetEmbed.Proofs.FileSystem.Reordering

/-!
# Listing order — what a run does not see

Searches, walks over modules, transforms and builds give the same for two file systems that differ only in the
order in which their directories list their entries: whatever is found in a listing is put in order before it
shows.
-/

namespace AssetEmbed

variable {fs fs' : FileSystem}

theorem agree_ofStep {step step' : Except FileError FileSystem}
    (hstep : Agree (· = ·) FileSystem.Reordered step step') :
    Agree (fun e e' => e.1 = e'.1) FileSystem.Reordered (Writing.ofStep fs step) (Writing.ofStep fs' step') := by
  cases hstep with
  | ok h => exact .ok h
  | error heq => exact .error (by rw [heq])

namespace FileSystem.Reordered

variable (h : fs.Reordered fs')

include h

/-! ## 1. Searches and modules -/

theorem selected_eq : fs.selected = fs'.selected := by
  funext top pattern selector
  unfold selected
  rw [h.walk_eq, h.isFile_eq]

theorem expand_eq : fs.expand = fs'.expand := by
  funext root pattern
  have halternative : fs.expandAlternative root = fs'.expandAlternative root := by
    funext alternative
    unfold expandAlternative
    rw [h.selected_eq, h.cwd]
  rw [expand, expand, halternative]

theorem modules_eq : fs.modules = fs'.modules := by
  funext root extensions prunes
  have hnames : ∀ root, fs.moduleNames root extensions prunes = fs'.moduleNames root extensions prunes := by
    intro root
    unfold moduleNames
    rw [h.walk_eq]
  unfold modules
  simp only [h.realPath_eq, hnames]

/-! ## 2. Transforming a module -/

theorem ofTarget_eq : SearchPlan.ofTarget fs = SearchPlan.ofTarget fs' := by
  funext moduleId basePath target
  unfold SearchPlan.ofTarget
  rw [h.isFile_eq, h.cwd]

theorem readContent_eq [Charsets] : fs.readContent = fs'.readContent := by
  funext path encoding
  rw [readContent, readContent, h.read_eq]

theorem ofContent_eq : FileRecord.ofContent fs = FileRecord.ofContent fs' := by
  funext root path content
  rw [FileRecord.ofContent, FileRecord.ofContent, h.cwd]

theorem loadEach_eq [Charsets] (root encoding : Text) (names : List Text) :
    loadEach fs root encoding names = loadEach fs' root encoding names := by
  induction names with
  | nil => rfl
  | cons name names ih => rw [loadEach, loadEach, h.readContent_eq, h.ofContent_eq, ih]

theorem load_eq [Charsets] : load fs = load fs' := by
  funext plan encoding location
  have hone : loadOne fs plan encoding location = loadOne fs' plan encoding location := by
    rw [loadOne, loadOne, h.readContent_eq, h.ofContent_eq]
  have hmany : loadMany fs plan encoding location = loadMany fs' plan encoding location := by
    rw [loadMany, loadMany, h.expand_eq]
    simp only [h.loadEach_eq]
  rw [load, load, hone, hmany]

theorem embed_eq [Charsets] (call : MarkerCall) : call.embed fs = call.embed fs' := by
  funext options bindings
  rw [MarkerCall.embed, MarkerCall.embed, h.ofTarget_eq, h.load_eq]

theorem collect_eq [Charsets] (options : TransformOptions) (bindings : Bindings) (r : Replacements)
    (calls : List MarkerCall) :
    Replacements.collect fs options bindings r calls = Replacements.collect fs' options bindings r calls := by
  induction calls generalizing r with
  | nil => rfl
  | cons call calls ih =>
    rw [Replacements.collect, Replacements.collect, h.embed_eq]
    simp only [ih]

theorem transformMention_eq [Charsets] : transformMention fs = transformMention fs' := by
  funext options moduleId code
  have htree : transformTree fs options moduleId code = transformTree fs' options moduleId code := by
    funext tree
    unfold transformTree
    simp only [h.collect_eq]
  rw [transformMention, transformMention, transformText, transformText, htree]

theorem accepts_eq (filter : ModuleFilter) : filter.accepts fs = filter.accepts fs' := by
  funext moduleId
  rw [ModuleFilter.accepts, ModuleFilter.accepts, ModuleFilter.relative?, ModuleFilter.relative?, h.realPath_eq]

theorem transform_eq [Charsets] : transform fs = transform fs' := by
  funext filter options moduleId code
  cases filter with
  | none => rw [transform, transform, h.transformMention_eq]
  | some filter => rw [transform, transform, h.transformMention_eq, h.accepts_eq]

/-! ## 3. Writing for a module -/

theorem agree_writeResult (target : Text) (r : Transformed) :
    Agree (fun e e' => e.1 = e'.1) Reordered (writeResult fs target r) (writeResult fs' target r) := by
  unfold writeResult
  split
  · exact agree_ofStep (h.agree_write _ _)
  · exact (agree_ofStep (h.agree_write _ _)).bind fun mid mid' hmid => agree_ofStep (hmid.agree_write _ _)

theorem agree_copy (path target : Text) :
    Agree (fun e e' => e.1 = e'.1) Reordered (fs.copy path target) (fs'.copy path target) := by
  have hsame : fs.sameFile path target = fs'.sameFile path target := by rw [sameFile, sameFile, h.locate_eq]
  unfold copy
  rw [hsame, h.read_eq]
  split
  · exact .error rfl
  · split
    · exact .error rfl
    · exact agree_ofStep (h.agree_write _ _)

theorem agree_produce (plan : BuildPlan) (names : List Text) (product : Product) :
    Agree (fun e e' => e.1 = e'.1) Reordered (plan.produce fs names product) (plan.produce fs' names product) := by
  unfold BuildPlan.produce
  split
  · exact .ok h
  · exact .ok h
  · split
    · exact .ok h
    · refine (agree_ofStep (h.agree_ensureDirectory _)).bind fun mid mid' hmid => ?_
      split
      · exact hmid.agree_writeResult _ _
      · exact hmid.agree_copy _ _

/-! ## 4. Building -/

theorem examine_eq [Charsets] (plan : BuildPlan) : plan.examine fs = plan.examine fs' := by
  funext names
  rw [BuildPlan.examine, BuildPlan.examine, h.readText_eq, h.accepts_eq, h.transformMention_eq]

theorem listing_eq (plan : BuildPlan) : plan.listing fs = plan.listing fs' := by
  funext names
  unfold BuildPlan.listing
  dsimp only
  rw [h.isDirectory_eq]
  generalize fs.entry? (plan.modulePath names) = found, fs'.entry? (plan.modulePath names) = found',
    h.agree_entry? (plan.modulePath names) = hfound
  cases hfound with
  | error _ => rfl
  | @ok e e' hok =>
    obtain ⟨halike, he, he'⟩ := hok
    cases e with
    | file bytes => rw [halike.exists_file]
    | link target => rw [halike.exists_link]
    | directory l =>
      obtain ⟨l', rfl⟩ := halike.exists_directory
      rw [Entry.IsSound] at he he'
      -- names that are sorted do not show the order of the listing, if the test sees no more than the node
      have hsort : ∀ p : Text × Entry → Bool, (∀ name e e', e.node = e'.node → p (name, e) = p (name, e')) →
          Text.sort ((l.filter p).map (·.1)) = Text.sort ((List.filter p l').map (·.1)) :=
        fun p hp => Text.sort_eq_of_perm (halike.names_perm he.nodup he'.nodup hp)
      dsimp only [WalkRule.files]
      rw [hsort, hsort]
      · intro name e e' hnode
        rw [WalkRule.isFile_eq_of_node _ _ hnode]
      · exact fun name e e' hnode => WalkRule.isFile_eq_of_node _ _ hnode

end FileSystem.Reordered

/-- Whether two builds have come equally far, in file systems that differ only in the order of listings. -/
structure BuildState.Reordered (s s' : BuildState) : Prop where
  fs : s.fs.Reordered s'.fs
  modules : s.modules = s'.modules
  events : s.events = s'.events

variable {s s' : BuildState}

theorem BuildState.Reordered.agree_buildModule [Charsets] (h : s.Reordered s') (plan : BuildPlan)
    (names : List Text) :
    Agree (fun e e' => e.reason = e'.reason) Reordered (plan.buildModule s names) (plan.buildModule s' names) := by
  unfold BuildPlan.buildModule
  rw [h.fs.examine_eq]
  split
  · exact .ok h
  split
  · exact .error rfl
  · rename_i found _
    dsimp only
    generalize plan.produce s.fs names found.product = made, plan.produce s'.fs names found.product = made',
      h.fs.agree_produce plan names found.product = hmade
    cases hmade with
    | ok hmade => exact .ok ⟨hmade, by rw [h.modules], by rw [h.events]⟩
    | error heq => exact .error heq

theorem BuildState.Reordered.agree_buildBelow [Charsets] (h : s.Reordered s') (plan : BuildPlan) (depth : Nat)
    (names : List Text) :
    Agree (fun e e' => e.reason = e'.reason) Reordered (plan.buildBelow depth s names)
      (plan.buildBelow depth s' names) := by
  induction depth generalizing s s' names with
  | zero => exact .ok h
  | succ depth ih =>
    rw [BuildPlan.buildBelow, BuildPlan.buildBelow, h.fs.listing_eq]
    refine (agree_foldlM (fun s s' name h => h.agree_buildModule plan _) h _).bind fun mid mid' hmid => ?_
    refine agree_foldlM (fun s s' name h => ?_) hmid _
    rw [h.fs.linkTarget?_eq]
    split
    · exact .ok h
    · exact ih h _

/-- What a build comes to: its report, or why it has stopped. -/
def reportOf (result : Except Stopped (BuildReport × BuildState)) : Except BuildStop BuildReport :=
  (result.map (·.1)).mapError (·.reason)

theorem FileSystem.Reordered.reportOf_build_eq [Charsets] (h : fs.Reordered fs') (source : Text)
    (out : Option Text) (config : Config) (dryRun : Bool) :
    reportOf (build fs source out config dryRun) = reportOf (build fs' source out config dryRun) := by
  have hplan : BuildPlan.ofConfig fs source out config dryRun = BuildPlan.ofConfig fs' source out config dryRun := by
    rw [BuildPlan.ofConfig, BuildPlan.ofConfig, h.realPath_eq]
  unfold build
  rw [hplan]
  split
  · rfl
  · rename_i plan _
    have hstart : (⟨fs, [], []⟩ : BuildState).Reordered ⟨fs', [], []⟩ := ⟨h, rfl, rfl⟩
    have hrun := hstart.agree_buildBelow plan maxDepth []
    unfold BuildPlan.run
    generalize plan.buildBelow maxDepth ⟨fs, [], []⟩ [] = run,
      plan.buildBelow maxDepth ⟨fs', [], []⟩ [] = run' at hrun
    cases hrun with
    | error heq => exact congrArg Except.error heq
    | ok h =>
      simp only [reportOf, bind, Except.bind, pure, Except.pure, Except.map, Except.mapError, BuildPlan.report,
        h.modules]

/-- File systems that differ only in the order in which their directories list their entries are searched with the
same results, have the same modules in the same order, and give the same for a transform of any module and for any
build. -/
theorem same_results_of_reordered [Charsets] (h : fs.Reordered fs') :
    (∀ root pattern, fs.expand root pattern = fs'.expand root pattern) ∧
      (∀ root extensions prunes, fs.modules root extensions prunes = fs'.modules root extensions prunes) ∧
      (∀ filter options moduleId code,
        transform fs filter options moduleId code = transform fs' filter options moduleId code) ∧
      ∀ source out config dryRun,
        reportOf (build fs source out config dryRun) = reportOf (build fs' source out config dryRun) := by
  refine ⟨fun root pattern => ?_, fun root extensions prunes => ?_, fun filter options moduleId code => ?_, ?_⟩
  · rw [h.expand_eq]
  · rw [h.modules_eq]
  · rw [h.transform_eq]
  · exact h.reportOf_build_eq

/-- A module that embeds a file, next to a directory, and two files that a pattern selects. -/
def listedTree : FileSystem where
  entries := [
    ("src".toList, .directory [
      ("d".toList, .directory [("a.js".toList, .file [])]),
      ("b.js".toList, .file (Utf8.encode "m('/t/x')".toList))]),
    ("t".toList, .directory [("y".toList, .file [121]), ("x".toList, .file [120])])]
  cwd := ['/']

/-- The tree with each of its directories that has two entries listed the other way round. -/
def relistedTree : FileSystem where
  entries := [
    ("t".toList, .directory [("x".toList, .file [120]), ("y".toList, .file [121])]),
    ("src".toList, .directory [
      ("b.js".toList, .file (Utf8.encode "m('/t/x')".toList)),
      ("d".toList, .directory [("a.js".toList, .file [])])])]
  cwd := ['/']

/-- Both files lie in one directory, which is put in order when it is visited. -/
theorem walk_relistedTree {enters : List Text → Bool} (hx : enters ["x".toList] = true)
    (hy : enters ["y".toList] = true) :
    relistedTree.walk enters "/t".toList = [⟨[], ["x".toList, "y".toList]⟩] := by
  have hentry : relistedTree.entry? "/t".toList =
      .ok (.directory [("x".toList, .file [120]), ("y".toList, .file [121])]) := rfl
  have hfiles : Text.sort ["x".toList, "y".toList] = ["x".toList, "y".toList] :=
    List.mergeSort_of_pairwise (by decide)
  simp only [FileSystem.walk, hentry, Entry.visits, Listing.branches, List.nil_append, hx, hy, if_true]
  rw [List.mergeSort_of_pairwise (by decide)]
  exact congrArg (fun files => [Visit.mk [] files]) hfiles

theorem expand_relistedTree :
    relistedTree.expand "/t".toList "*".toList = .ok ["x".toList, "y".toList] := by
  have halternatives : Glob.alternatives "*".toList = .ok ["*".toList] := by decide +kernel
  have hselector : Glob.selector? "*".toList = .ok (some ⟨false, [.name], .entry⟩) := by decide +kernel
  have hselected : relistedTree.selected "/t".toList "*".toList ⟨false, [.name], .entry⟩ =
      [["x".toList], ["y".toList]] := by
    rw [FileSystem.selected, walk_relistedTree (by decide) (by decide)]
    decide +kernel
  have hfound : relistedTree.expandAlternative "/t".toList "*".toList = .ok ["x".toList, "y".toList] := by
    have hsplit : Glob.splitDirectory "*".toList = ([], "*".toList) := by decide +kernel
    have htop : Path.normalize (Path.join "/t".toList []) = "/t".toList := by decide +kernel
    simp only [FileSystem.expandAlternative, hsplit, htop, hselector, hselected]
    decide +kernel
  simp only [FileSystem.expand, halternatives, List.mapM_cons, List.mapM_nil, hfound]
  exact congrArg Except.ok (List.mergeSort_of_pairwise (by decide))
theorem listedTree_reordered : listedTree.Reordered relistedTree := by
  refine FileSystem.reordered_of_alike ?_ ?_ rfl ?_
  · simp only [FileSystem.WellFormed, listedTree, Listing.IsSound, Entry.IsSound, Listing.get?]
    decide +kernel
  · simp only [FileSystem.WellFormed, relistedTree, Listing.IsSound, Entry.IsSound, Listing.get?]
    decide +kernel
  -- first within the two directories, and then the directories themselves
  have hwithin : (Entry.directory listedTree.entries).Alike (.directory relistedTree.entries.reverse) := by
    refine Entry.alike_of_forall₂ (.cons ⟨rfl, ?_⟩ (.cons ⟨rfl, ?_⟩ .nil))
    · exact Entry.alike_of_perm (by decide) (List.reverse_perm _).symm
    · exact Entry.alike_of_perm (by decide) (List.reverse_perm _).symm
  exact hwithin.trans (Entry.alike_of_perm (by decide) (List.reverse_perm _))

theorem same_results_of_reordered_listedTree :
    listedTree.Reordered relistedTree ∧
      listedTree.expand "/t".toList "*".toList = .ok ["x".toList, "y".toList] ∧
      relistedTree.expand "/t".toList "*".toList = .ok ["x".toList, "y".toList] ∧
      reportOf (build relistedTree "/src".toList (some "/out".toList) mappedConfig false) =
        reportOf (build listedTree "/src".toList (some "/out".toList) mappedConfig false) ∧
      (reportOf (build relistedTree "/src".toList (some "/out".toList) mappedConfig false)).toOption.map
        (fun r => r.modules.map fun m => (m.path, m.embeddedFiles)) =
          some [("b.js".toList, 1), ("d/a.js".toList, 0)] := by
  obtain ⟨hexpand, -, -, hbuild⟩ := same_results_of_reordered listedTree_reordered
  refine ⟨listedTree_reordered, ?_, expand_relistedTree, (hbuild _ _ _ _).symm, ?_⟩
  · rw [hexpand]
    exact expand_relistedTree
  · rw [← hbuild]
    decide +kernel

end AssetEmbed
