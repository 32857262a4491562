import AssetEmbed.Proofs.Build.Walking

/-!
# Effects — what a build leaves in the file system

A build without links works on modules one after the other, and the files it writes for one are no files of
another one, nor modules that are still to be read.  So at its end each module has what was written for it, and
nothing else is changed but that directories are made on the way.
-/

namespace AssetEmbed

/-! ## 1. Dry runs -/

/-- The file system that a build leaves, also if it stops. -/
def fileSystemAfter : Except Stopped (BuildReport × BuildState) → FileSystem
  | .ok (_, state) => state.fs
  | .error stopped => stopped.state.fs

theorem BuildPlan.produce_eq_self {plan : BuildPlan} (hplan : plan.dryRun = true ∨ plan.out = none)
    (fs : FileSystem) (names : List Text) (product : Product) : plan.produce fs names product = .ok fs := by
  unfold produce
  rcases hplan with hdry | hout
  · split
    · rfl
    · rfl
    · rw [if_pos hdry]
  · rw [hout]

theorem BuildPlan.ends_buildModule [Charsets] {plan : BuildPlan} (hplan : plan.dryRun = true ∨ plan.out = none)
    {fs : FileSystem} (s : BuildState) (names : List Text) (hs : s.fs = fs) :
    Ends (fun t : BuildState => t.fs = fs) (fun e : Stopped => e.state.fs = fs) (plan.buildModule s names) := by
  unfold buildModule
  split
  · exact hs
  split
  · exact hs
  · dsimp only
    rw [plan.produce_eq_self hplan]
    exact hs

/-- A dry run leaves the file system as it is, also if it stops; and so does a build without an output
directory. -/
theorem fileSystemAfter_build [Charsets] {fs : FileSystem} {source : Text} {out : Option Text} {config : Config}
    {dryRun : Bool} (h : dryRun = true ∨ out = none) :
    fileSystemAfter (build fs source out config dryRun) = fs := by
  unfold build
  split
  · rfl
  rename_i plan hplan
  obtain ⟨-, -, hout, -, hdry⟩ := BuildPlan.ofConfig_eq_ok hplan
  have hkept : plan.dryRun = true ∨ plan.out = none := h.imp hdry.trans hout
  -- the walk keeps the file system it begins with
  have hends := plan.ends_walkBelow (·.fs) (plan.ends_buildModule hkept) maxDepth
    (rfl : (⟨fs, [], []⟩ : BuildState).fs = fs) []
  rw [← BuildPlan.buildBelow_eq_walkBelow, ← BuildPlan.run] at hends
  cases hrun : plan.run fs with
  | error stopped =>
    rw [hrun] at hends
    exact hends
  | ok s =>
    rw [hrun] at hends
    exact hends

/-! ## 2. Works -/

structure Work where
  names : List Text
  during : FileSystem
  found : Examined

/-- Whether works, one after the other, turn a file system into another one. -/
inductive BuildPlan.Works [Charsets] (plan : BuildPlan) : List Work → FileSystem → FileSystem → Prop
  | nil (fs : FileSystem) : Works plan [] fs fs
  | cons {w : Work} {works : List Work} {mid after : FileSystem}
      (hother : plan.isOutput (plan.modulePath w.names) = false)
      (hfound : plan.examine w.during w.names = .ok w.found)
      (hmade : plan.produce w.during w.names w.found.product = .ok mid)
      (hrest : Works plan works mid after) : Works plan (w :: works) w.during after

/-- A build goes by works, and reports what was found out about each of them. -/
theorem BuildPlan.exists_works [Charsets] {plan : BuildPlan} {seen : List (List Text)} {s t : BuildState}
    (h : seen.foldlM plan.buildModule s = .ok t) :
    ∃ works, plan.Works works s.fs t.fs ∧ t.modules = s.modules ++ works.map (·.found.report) ∧
      (works.map (·.names)).Sublist seen := by
  induction seen generalizing s with
  | nil =>
    cases h
    exact ⟨[], .nil _, (List.append_nil _).symm, .slnil⟩
  | cons names seen ih =>
    rw [List.foldlM_cons] at h
    obtain ⟨mid, hmid, h⟩ := bind_eq_ok.1 h
    obtain ⟨works, hworks, hmodules, hsublist⟩ := ih h
    rcases buildModule_eq_ok hmid with ⟨-, rfl⟩ | ⟨hother, found, hfound, hmade, hmid⟩
    · exact ⟨works, hworks, hmodules, hsublist.cons _⟩
    · refine ⟨⟨names, s.fs, found⟩ :: works, .cons hother hfound hmade hworks, ?_, hsublist.cons_cons _⟩
      rw [hmodules, hmid, List.append_assoc]
      rfl

def mapNames (names : List Text) : List Text :=
  names.dropLast ++ [mapName (names.getLast?.getD [])]

/-- The files that are written for a result, by their names below the output directory: the text, or the map and
the text with a line that names the map. -/
def Transformed.files (r : Transformed) (names : List Text) : List (List Text × Bytes) :=
  match r.map with
  | none => [(names, Utf8.encode r.code)]
  | some map =>
    let lineBreak : Text := if r.code.getLast? = some '\n' then [] else ['\n']
    let line := "//# sourceMappingURL=".toList ++ names.getLast?.getD [] ++ ".map\n".toList
    [(mapNames names, Utf8.encode map.toJson.render), (names, Utf8.encode (r.code ++ lineBreak ++ line))]

/-- The files that are written for a module, by their names below the output directory. -/
def Work.files (plan : BuildPlan) (w : Work) : List (List Text × Bytes) :=
  match w.found.product with
  | .nothing => []
  | .copy =>
    match w.during.node? (Path.names plan.source ++ w.names) with
    | some (.file bytes) => [(w.names, bytes)]
    | _ => []
  | .result r => r.files w.names

def Work.targets (plan : BuildPlan) (out : Place) (w : Work) : List Place :=
  (w.files plan).map fun f => out ++ f.1

theorem withMapLine_eq (code : Text) (name : Text) :
    withMapLine code (mapName name) =
      code ++ (if code.getLast? = some '\n' then [] else ['\n']) ++
        ("//# sourceMappingURL=".toList ++ name ++ ".map\n".toList) := by
  unfold withMapLine mapName
  split <;> simp

/-! ## 3. Names of maps -/

theorem mapNames_concat (above : List Text) (name : Text) :
    mapNames (above ++ [name]) = above ++ [mapName name] := by
  rw [mapNames, List.dropLast_concat, List.getLast?_concat]
  rfl

theorem length_mapName (name : Text) : (mapName name).length = name.length + 4 := List.length_append

theorem Path.IsProper.mapName {name : Text} (h : Path.IsProper name) : Path.IsProper (mapName name) := by
  obtain ⟨⟨hne, -, hslash⟩, -⟩ := h
  have hpos := List.length_pos_of_ne_nil hne
  -- a name of so many characters is none of the names that do not lead down
  have hother : ∀ other : Text, other.length < 4 → AssetEmbed.mapName name ≠ other := by
    rintro other hlength rfl
    rw [length_mapName] at hlength
    omega
  refine ⟨⟨hother [] (by decide), hother ['.'] (by decide), ?_⟩, hother Path.parentName (by decide)⟩
  rw [AssetEmbed.mapName, List.mem_append, not_or]
  refine ⟨hslash, ?_⟩
  show '/' ∉ ['.', 'm', 'a', 'p']
  simp

theorem Path.suffix_mapName {name : Text} (h : Path.IsProper name) :
    Path.suffix (mapName name) = ".map".toList := by
  have hreverse : (mapName name).reverse = "pam".toList ++ '.' :: name.reverse := by
    rw [mapName, List.reverse_append]
    rfl
  have htail : ((mapName name).reverse.takeWhile (· ≠ '.')).reverse = "map".toList := by
    rw [hreverse]
    rfl
  have hpos := List.length_pos_of_ne_nil h.1.1
  rw [Path.suffix, Path.fileName, Path.names_of_isName h.mapName.1]
  simp only [List.getLast?_singleton, Option.getD_some, htail]
  rw [if_neg]
  · rfl
  · rw [Bool.or_eq_true, decide_eq_true_eq, decide_eq_true_eq, not_or, length_mapName]
    exact ⟨by decide, by show ¬ 3 + 1 ≥ _; omega⟩

variable {plan : BuildPlan}

theorem mapNames_ne {names names' : List Text} (hmaps : ".map".toList ∉ plan.extensions)
    (h : plan.IsModuleBelow [] names) (h' : plan.IsModuleBelow [] names') : mapNames names ≠ names' := by
  obtain ⟨above, name, rfl, hproper, -⟩ := h
  obtain ⟨above', name', rfl, -, hextension⟩ := h'
  rw [List.nil_append, List.nil_append, mapNames_concat]
  intro heq
  obtain rfl : mapName name = name' := (List.append_inj' heq rfl).2 |> List.head_eq_of_cons_eq
  rw [Path.suffix_mapName (hproper name (List.mem_append_right _ (List.mem_singleton_self _)))] at hextension
  exact hmaps hextension

theorem mapNames_inj {names names' : List Text} (h : plan.IsModuleBelow [] names)
    (h' : plan.IsModuleBelow [] names') (heq : mapNames names = mapNames names') : names = names' := by
  obtain ⟨above, name, rfl, -, -⟩ := h
  obtain ⟨above', name', rfl, -, -⟩ := h'
  rw [List.nil_append, List.nil_append] at heq ⊢
  rw [mapNames_concat, mapNames_concat] at heq
  obtain ⟨habove, hname⟩ := List.append_inj' heq rfl
  rw [habove, List.append_cancel_right (List.head_eq_of_cons_eq hname)]

theorem isProper_mapNames {names : List Text} (h : plan.IsModuleBelow [] names) :
    Place.IsProper (mapNames names) := by
  obtain ⟨above, name, rfl, hproper, -⟩ := h
  rw [List.nil_append, mapNames_concat]
  refine Place.IsProper.concat (fun n hn => hproper n (List.mem_append_left _ hn)) ?_
  exact (hproper name (List.mem_append_right _ (List.mem_singleton_self _))).mapName

/-! ## 4. One work -/

theorem FileSystem.Touches.node?_eq_file_iff {files directories : List Place} {before after : FileSystem}
    (h : Touches files directories before after) {p : Place} (hp : p ∉ files) {bytes : Bytes} :
    after.node? p = some (.file bytes) ↔ before.node? p = some (.file bytes) := by
  rcases h p hp with heq | ⟨hnone, hmade, -⟩
  · rw [heq]
  · rw [hnone, hmade]
    exact ⟨nofun, nofun⟩

/-- Writing the result of a module writes its files, and touches nothing else. -/
theorem touches_writeResult {fs fs' : FileSystem} {place : Place} {names : List Text} {r : Transformed}
    (hfree : fs.LinkFree) (hplace : Place.IsProper place) (hnames : plan.IsModuleBelow [] names)
    (h : writeResult fs (Place.path (place ++ names)) r = .ok fs') :
    FileSystem.Touches ((r.files names).map fun f => place ++ f.1) [] fs fs' ∧ fs'.LinkFree ∧
      ∀ f ∈ r.files names, fs'.node? (place ++ f.1) = some (.file f.2) := by
  have hmap := hplace.append (isProper_mapNames hnames)
  obtain ⟨above, name, rfl, hproper, -⟩ := hnames
  rw [List.nil_append] at *
  have htarget := hplace.append hproper
  rw [mapNames_concat] at hmap
  have hmapPath : mapName (Place.path (place ++ (above ++ [name]))) =
      Place.path (place ++ (above ++ [mapName name])) := by
    rw [← List.append_assoc, ← List.append_assoc]
    exact Place.path_append_last _ _ _
  have hfile : Path.fileName (Place.path (place ++ (above ++ [name]))) = name := by
    rw [← List.append_assoc] at htarget ⊢
    exact htarget.fileName_path
  -- a map has a longer name than its module, so neither is written over the other
  have hne : place ++ (above ++ [mapName name]) ≠ place ++ (above ++ [name]) := by
    intro heq
    have hlength := congrArg List.length (List.singleton_inj.1
      (List.append_cancel_left (List.append_cancel_left heq)))
    rw [length_mapName] at hlength
    omega
  unfold Transformed.files
  -- without a map one file is written, with a map two, the map first
  rcases writeResult_eq_ok h with ⟨hnone, h⟩ | ⟨map, mid, hsome, hmid, h⟩
  · rw [hnone]
    refine ⟨FileSystem.touches_write hfree htarget h, hfree.write htarget h, fun f hf => ?_⟩
    rw [List.mem_singleton.1 hf]
    simp [FileSystem.node?_write hfree htarget h]
  · rw [hsome]
    rw [hmapPath] at hmid
    rw [hfile, withMapLine_eq] at h
    have hmidFree := hfree.write hmap hmid
    dsimp only
    rw [mapNames_concat, List.getLast?_concat]
    refine ⟨(FileSystem.touches_write hfree hmap hmid).trans (FileSystem.touches_write hmidFree htarget h),
      hmidFree.write htarget h, fun f hf => ?_⟩
    rcases List.mem_cons.1 hf with rfl | hf
    · rw [FileSystem.node?_write hmidFree htarget h, if_neg hne, FileSystem.node?_write hfree hmap hmid,
        if_pos rfl]
    · rw [List.mem_singleton.1 hf, FileSystem.node?_write hmidFree htarget h, if_pos rfl]
      rfl

/-- Where a plan reads and writes: the places of its two directories. -/
structure BuildPlan.IsAt (plan : BuildPlan) (source out : Place) : Prop where
  source_isProper : Place.IsProper source
  out_isProper : Place.IsProper out
  source_eq : plan.source = Place.path source
  out_eq : plan.out = some (Place.path out)
  writes : plan.dryRun = false

/-- Working on a module writes its files, and touches nothing else but directories on the way to them. -/
theorem touches_produce {source out : Place} {w : Work} {mid : FileSystem} (hplan : plan.IsAt source out)
    (hfree : w.during.LinkFree) (hnames : plan.IsModuleBelow [] w.names)
    (h : plan.produce w.during w.names w.found.product = .ok mid) :
    FileSystem.Touches (w.targets plan out) [out ++ w.names] w.during mid ∧ mid.LinkFree ∧
      ∀ f ∈ w.files plan, mid.node? (out ++ f.1) = some (.file f.2) := by
  obtain ⟨hsource, hout, hplanSource, hplanOut, hwrites⟩ := hplan
  have hproper : Place.IsProper w.names := by
    obtain ⟨above, name, heq, hproper, -⟩ := hnames
    rwa [heq]
  have htarget : FileSystem.below (Place.path out) w.names = Place.path (out ++ w.names) :=
    hout.below_path hproper
  rcases BuildPlan.produce_eq_ok h with ⟨hnothing, rfl⟩ | ⟨out', made, hout', -, hmade, h⟩
  · have hproduct : w.found.product = .nothing := by
      rcases hnothing with hnone | hdry | hproduct
      · rw [hplanOut] at hnone
        cases hnone
      · rw [hwrites] at hdry
        cases hdry
      · exact hproduct
    have hfiles : w.files plan = [] := by rw [Work.files, hproduct]
    rw [Work.targets, hfiles]
    exact ⟨(FileSystem.Touches.refl _).mono (fun _ hp => hp) nofun, hfree, nofun⟩
  rw [hplanOut, Option.some.injEq] at hout'
  subst hout'
  rw [htarget, (hout.append hproper).parent_path] at hmade
  rw [htarget] at h
  obtain ⟨hmadeTouches, hmadeFree⟩ :=
    FileSystem.touches_ensureDirectory hfree (hout.append hproper).dropLast hmade
  -- the directories that are made lie on the way to the target
  have hway : ∀ d ∈ [(out ++ w.names).dropLast] ++ [], ∃ d' ∈ [out ++ w.names], d <+: d' := by
    intro d hd
    rw [List.append_nil, List.mem_singleton] at hd
    exact ⟨_, List.mem_singleton_self _, hd ▸ List.dropLast_prefix _⟩
  rw [Work.targets]
  rcases h with ⟨r, hproduct, h⟩ | ⟨hproduct, h⟩
  · have hfiles : w.files plan = r.files w.names := by rw [Work.files, hproduct]
    rw [hfiles]
    obtain ⟨htouches, hmidFree, hwritten⟩ := touches_writeResult hmadeFree hout hnames h
    exact ⟨(hmadeTouches.trans htouches).mono (fun _ hp => hp) hway, hmidFree, hwritten⟩
  · obtain ⟨bytes, hread, h⟩ := FileSystem.copy_eq_ok h
    rw [BuildPlan.modulePath_eq hsource hplanSource hproper] at hread
    have hbytes := (hmadeTouches.node?_eq_file_iff List.not_mem_nil).1
      (FileSystem.read_path hmadeFree (hsource.append hproper) hread)
    have hfiles : w.files plan = [(w.names, bytes)] := by
      rw [Work.files, hproduct, hplanSource, hsource.names_path]
      dsimp only
      rw [hbytes]
    rw [hfiles]
    refine ⟨(hmadeTouches.trans (FileSystem.touches_write hmadeFree (hout.append hproper) h)).mono
      (fun _ hp => hp) hway, hmadeFree.write (hout.append hproper) h, fun f hf => ?_⟩
    rw [List.mem_singleton.1 hf, FileSystem.node?_write hmadeFree (hout.append hproper) h, if_pos rfl]

/-! ## 5. All works -/

theorem Work.fst_of_mem_files {w : Work} {f : List Text × Bytes} (h : f ∈ w.files plan) :
    f.1 = w.names ∨ f.1 = mapNames w.names := by
  unfold Work.files at h
  split at h
  · cases h
  · split at h
    · rw [List.mem_singleton.1 h]
      exact .inl rfl
    · cases h
  · unfold Transformed.files at h
    split at h
    · rw [List.mem_singleton.1 h]
      exact .inl rfl
    · rcases List.mem_cons.1 h with rfl | h
      · exact .inr rfl
      · rw [List.mem_singleton.1 h]
        exact .inl rfl

theorem Work.fst_ne_fst {w w' : Work} (hmaps : ".map".toList ∉ plan.extensions)
    (hnames : plan.IsModuleBelow [] w.names) (hnames' : plan.IsModuleBelow [] w'.names)
    (hne : w.names ≠ w'.names) {f f' : List Text × Bytes} (hf : f ∈ w.files plan)
    (hf' : f' ∈ w'.files plan) : f.1 ≠ f'.1 := by
  rcases w.fst_of_mem_files hf with h | h <;> rcases w'.fst_of_mem_files hf' with h' | h' <;> rw [h, h']
  · exact hne
  · exact (mapNames_ne hmaps hnames' hnames).symm
  · exact mapNames_ne hmaps hnames hnames'
  · exact fun heq => hne (mapNames_inj hnames hnames' heq)

/-- After all works each module has its files, and nothing else is touched but directories on the way to them. -/
theorem BuildPlan.Works.touches [Charsets] {source out : Place} {works : List Work} {before after : FileSystem}
    (hworks : plan.Works works before after) (hplan : plan.IsAt source out) (hfree : before.LinkFree)
    (hmaps : ".map".toList ∉ plan.extensions) (hnames : ∀ w ∈ works, plan.IsModuleBelow [] w.names)
    (hnodup : (works.map (·.names)).Nodup) :
    FileSystem.Touches (works.flatMap (·.targets plan out)) (works.map fun w => out ++ w.names) before after ∧
      ∀ w ∈ works, ∀ f ∈ w.files plan, after.node? (out ++ f.1) = some (.file f.2) := by
  -- from work to work: what is written for one is in the way of none behind it
  induction hworks with
  | nil fs => exact ⟨.refl fs, nofun⟩
  | @cons w works mid after hother hfound hmade hrest ih =>
    rw [List.map_cons, List.nodup_cons] at hnodup
    have hwnames := hnames w List.mem_cons_self
    have hrestNames : ∀ w ∈ works, plan.IsModuleBelow [] w.names :=
      fun w hw => hnames w (List.mem_cons_of_mem _ hw)
    obtain ⟨htouches, hmidFree, hwritten⟩ := touches_produce hplan hfree hwnames hmade
    obtain ⟨hrestTouches, hrestWritten⟩ := ih hmidFree hrestNames hnodup.2
    refine ⟨htouches.trans hrestTouches, fun v hv f hf => ?_⟩
    rcases List.mem_cons.1 hv with rfl | hv
    · -- what is written for the first module is not written over
      refine (hrestTouches.node?_eq_file_iff ?_).2 (hwritten f hf)
      rw [List.mem_flatMap]
      rintro ⟨w', hw', htarget⟩
      obtain ⟨f', hf', heq⟩ := List.mem_map.1 htarget
      have hne : v.names ≠ w'.names := fun h => hnodup.1 (h ▸ List.mem_map_of_mem hw')
      exact Work.fst_ne_fst hmaps hwnames (hrestNames w' hw') hne hf hf' (List.append_cancel_left heq).symm
    · exact hrestWritten v hv f hf

theorem BuildPlan.Works.of_mem [Charsets] {works : List Work} {before after : FileSystem}
    (hworks : plan.Works works before after) {w : Work} (hw : w ∈ works) :
    plan.isOutput (plan.modulePath w.names) = false ∧ plan.examine w.during w.names = .ok w.found := by
  induction hworks with
  | nil fs => cases hw
  | cons hother hfound hmade hrest ih =>
    rcases List.mem_cons.1 hw with rfl | hw
    · exact ⟨hother, hfound⟩
    · exact ih hw

theorem BuildPlan.Works.eq_of_out [Charsets] {works : List Work} {before after : FileSystem}
    (hworks : plan.Works works before after) (hout : plan.out = none) : after = before := by
  induction hworks with
  | nil fs => rfl
  | cons hother hfound hmade hrest ih =>
    rcases BuildPlan.produce_eq_ok hmade with ⟨-, rfl⟩ | ⟨out, made, hsome, -⟩
    · exact ih
    · rw [hout] at hsome
      cases hsome

/-- When a module is worked on, nothing is touched yet but files of works. -/
theorem BuildPlan.Works.touches_during [Charsets] {source out : Place} {works : List Work}
    {before after : FileSystem} (hworks : plan.Works works before after) (hplan : plan.IsAt source out)
    (hfree : before.LinkFree) (hnames : ∀ w ∈ works, plan.IsModuleBelow [] w.names) {w : Work} (hw : w ∈ works) :
    w.during.LinkFree ∧
      ∃ directories, FileSystem.Touches (works.flatMap (·.targets plan out)) directories before w.during := by
  induction hworks with
  | nil fs => cases hw
  | @cons v works mid after hother hfound hmade hrest ih =>
    rcases List.mem_cons.1 hw with rfl | hw
    · exact ⟨hfree, [], (FileSystem.Touches.refl _).mono nofun nofun⟩
    · obtain ⟨htouches, hmidFree, -⟩ := touches_produce hplan hfree (hnames v List.mem_cons_self) hmade
      obtain ⟨hduringFree, directories, hduring⟩ :=
        ih hmidFree (fun w hw => hnames w (List.mem_cons_of_mem _ hw)) hw
      exact ⟨hduringFree, _, htouches.trans hduring⟩

/-- A module that does not lie below the output directory is no file of a work. -/
theorem source_not_mem_targets {source out : Place} {names : List Text} {works : List Work}
    (hplan : plan.IsAt source out) (hnames : plan.IsModuleBelow [] names)
    (hother : plan.isOutput (plan.modulePath names) = false)
    (hworks : ∀ w ∈ works, plan.IsModuleBelow [] w.names) :
    source ++ names ∉ works.flatMap (·.targets plan out) := by
  rw [List.mem_flatMap]
  rintro ⟨w, hw, htarget⟩
  obtain ⟨f, hf, heq⟩ := List.mem_map.1 htarget
  -- a file of a module is not the output directory itself, so it lies below it
  have hfile : f.1 ≠ [] := by
    obtain ⟨above, name, hwnames, -, -⟩ := hworks w hw
    rcases w.fst_of_mem_files hf with h | h <;> rw [h]
    · simp [hwnames]
    · simp [mapNames]
  obtain ⟨above, name, rfl, hproper, -⟩ := hnames
  rw [List.nil_append] at *
  have houtput := (BuildPlan.isOutput_modulePath hplan.source_isProper hplan.out_isProper hproper
    (by simp) hplan.source_eq hplan.out_eq).2
  rw [houtput ⟨⟨f.1, heq⟩, ?_⟩] at hother
  · cases hother
  · intro hself
    rw [← hself] at heq
    exact hfile (by simpa using heq)

/-! ## 6. What the files of a module are -/

/-- What the files of a module are, by its status: the bytes that the module has, the result of transforming its
text at that time, or none. -/
def Work.FilesByStatus [Charsets] (plan : BuildPlan) (before : FileSystem) (w : Work) : Prop :=
  match w.found.report.status with
  | .unchanged | .skipped =>
    ∃ bytes, before.node? (Path.names plan.source ++ w.names) = some (.file bytes) ∧
      w.files plan = [(w.names, bytes)]
  | .rewritten =>
    ∃ bytes text r events, before.node? (Path.names plan.source ++ w.names) = some (.file bytes) ∧
      Utf8.decode? bytes = .ok text ∧
      transform w.during (some plan.filter) plan.options (plan.modulePath w.names) (Text.unifyBreaks text) =
        .ok (.transformed r, events) ∧
      r.map.isSome = plan.options.sourceMap ∧ w.files plan = r.files w.names
  | .failed => w.files plan = []

theorem FileSystem.readText_eq_ok {fs : FileSystem} {path code : Text} (h : fs.readText path = .ok code) :
    ∃ bytes text, fs.read path = .ok bytes ∧ Utf8.decode? bytes = .ok text ∧ code = Text.unifyBreaks text := by
  unfold readText at h
  split at h
  · cases h
  · rename_i bytes hread
    obtain ⟨text, htext, rfl⟩ := map_eq_ok.1 h
    exact ⟨bytes, text, hread, mapError_eq_ok.1 htext, rfl⟩

/-- What is found out about a module decides what its files are. -/
theorem filesByStatus_of_examine [Charsets] {source out : Place} {w : Work} (hplan : plan.IsAt source out)
    (hfree : w.during.LinkFree) (hproper : Place.IsProper w.names)
    (h : plan.examine w.during w.names = .ok w.found) : w.FilesByStatus plan w.during := by
  obtain ⟨names, fs, found⟩ := w
  dsimp only at *
  unfold BuildPlan.examine at h
  simp only at h
  split at h
  · cases h
    rfl
  rename_i code hcode
  obtain ⟨bytes, text, hread, htext, rfl⟩ := FileSystem.readText_eq_ok hcode
  rw [BuildPlan.modulePath_eq hplan.source_isProper hplan.source_eq hproper] at hread
  have hbytes : fs.node? (Path.names plan.source ++ names) = some (.file bytes) := by
    rw [hplan.source_eq, hplan.source_isProper.names_path]
    exact FileSystem.read_path hfree (hplan.source_isProper.append hproper) hread
  -- a copy of the module has its bytes
  have hcopy : ∀ found : Examined, found.product = .copy →
      (⟨names, fs, found⟩ : Work).files plan = [(names, bytes)] := by
    intro found hproduct
    simp only [Work.files, hproduct, hbytes]
  split at h
  · cases h
  · cases h
    exact ⟨bytes, hbytes, hcopy _ rfl⟩
  · rename_i haccepts
    obtain ⟨⟨outcome, events⟩, houtcome, h⟩ := bind_eq_ok.1 h
    cases h
    cases outcome with
    | untouched => exact ⟨bytes, hbytes, hcopy _ rfl⟩
    | malformed location => rfl
    | transformed r =>
      have hmap : r.map.isSome = plan.options.sourceMap := by
        obtain h | ⟨location, h, -⟩ | ⟨r, h, hmap, -⟩ := transformMention_cases houtcome <;> cases h
        exact hmap
      refine ⟨bytes, text, r, events, hbytes, htext, ?_, hmap, rfl⟩
      unfold transform
      dsimp only
      rw [haccepts]
      exact houtcome

/-- A module that has the same bytes in another file system has the same files by its status. -/
theorem Work.FilesByStatus.of_source [Charsets] {before before' : FileSystem} {w : Work}
    (h : w.FilesByStatus plan before)
    (hsource : ∀ bytes, before.node? (Path.names plan.source ++ w.names) = some (.file bytes) →
      before'.node? (Path.names plan.source ++ w.names) = some (.file bytes)) :
    w.FilesByStatus plan before' := by
  unfold FilesByStatus at *
  split
  all_goals
    rename_i hstatus
    rw [hstatus] at h
  · obtain ⟨bytes, hbytes, hfiles⟩ := h
    exact ⟨bytes, hsource bytes hbytes, hfiles⟩
  · obtain ⟨bytes, hbytes, hfiles⟩ := h
    exact ⟨bytes, hsource bytes hbytes, hfiles⟩
  · obtain ⟨bytes, text, r, events, hbytes, hrest⟩ := h
    exact ⟨bytes, text, r, events, hsource bytes hbytes, hrest⟩
  · exact h

/-! ## 7. Builds -/

/-- What a build that writes below a place has done by some works: each module has its files, and apart from
them nothing is changed but that directories are made; those outside the output directory lead to it. -/
structure BuildPlan.Effects [Charsets] (plan : BuildPlan) (out : Place) (works : List Work)
    (before after : FileSystem) : Prop where
  byStatus : ∀ w ∈ works, w.FilesByStatus plan before
  written : ∀ w ∈ works, ∀ f ∈ w.files plan, after.node? (out ++ f.1) = some (.file f.2)
  untouched : ∀ p, (∀ w ∈ works, ∀ f ∈ w.files plan, p ≠ out ++ f.1) →
    after.node? p = before.node? p ∨ before.node? p = none ∧ after.node? p = some .directory
  outside : ∀ p, ¬ out <+: p → after.node? p = before.node? p ∨
    p <+: out ∧ before.node? p = none ∧ after.node? p = some .directory

theorem BuildPlan.Works.effects [Charsets] {source out : Place} {works : List Work} {before after : FileSystem}
    (hworks : plan.Works works before after) (hplan : plan.IsAt source out) (hfree : before.LinkFree)
    (hmaps : ".map".toList ∉ plan.extensions) (hnames : ∀ w ∈ works, plan.IsModuleBelow [] w.names)
    (hnodup : (works.map (·.names)).Nodup) : plan.Effects out works before after := by
  obtain ⟨htouches, hwritten⟩ := hworks.touches hplan hfree hmaps hnames hnodup
  refine ⟨fun w hw => ?byStatus, hwritten, fun p hp => ?untouched, fun p hp => ?outside⟩
  case byStatus =>
    obtain ⟨hother, hfound⟩ := hworks.of_mem hw
    obtain ⟨hduringFree, directories, hduring⟩ := hworks.touches_during hplan hfree hnames hw
    have hproper : Place.IsProper w.names := by
      obtain ⟨above, name, heq, hproper, -⟩ := hnames w hw
      rwa [heq]
    -- what was read for the module is what stood there from the start, since no work writes over a module
    refine (filesByStatus_of_examine hplan hduringFree hproper hfound).of_source fun bytes hbytes => ?_
    refine (hduring.node?_eq_file_iff ?_).1 hbytes
    rw [hplan.source_eq, hplan.source_isProper.names_path]
    exact source_not_mem_targets hplan (hnames w hw) hother hnames
  case untouched =>
    refine (htouches p ?_).imp_right fun h => ⟨h.1, h.2.1⟩
    rw [List.mem_flatMap]
    rintro ⟨w, hw, htarget⟩
    obtain ⟨f, hf, heq⟩ := List.mem_map.1 htarget
    exact hp w hw f hf heq.symm
  case outside =>
    refine (htouches p ?_).imp_right ?_
    · rw [List.mem_flatMap]
      rintro ⟨w, hw, htarget⟩
      obtain ⟨f, hf, rfl⟩ := List.mem_map.1 htarget
      exact hp (List.prefix_append _ _)
    · rintro ⟨hnone, hmade, d, hd, hpre⟩
      obtain ⟨w, -, rfl⟩ := List.mem_map.1 hd
      refine ⟨?_, hnone, hmade⟩
      -- of two places above one file, one lies above the other
      exact (List.prefix_or_prefix_of_prefix hpre (List.prefix_append out w.names)).resolve_right hp

/-- A dry run leaves the file system as it is.  A build that comes to its end works on the modules that it
reports; below the output directory each of them has the files that go with its status, and nothing else is
changed but that directories are made. -/
theorem build_effects [Charsets] {fs : FileSystem} (hfs : fs.WellFormed)
    (hlinks : Listing.linkCount fs.entries = 0) {config : Config} (hmaps : ".map".toList ∉ config.extensions)
    (source : Text) (out : Option Text) :
    fileSystemAfter (build fs source out config true) = fs ∧
      ∀ report state, build fs source out config false = .ok (report, state) →
        ∃ plan works, BuildPlan.ofConfig fs source out config false = .ok plan ∧
          plan.Works works fs state.fs ∧ report.modules = works.map (·.found.report) ∧
          (∀ w ∈ works, w.found.report.path = Text.joinWith '/' w.names) ∧
          match plan.out with
          | none => state.fs = fs
          | some real => plan.Effects (Path.names real) works fs state.fs := by
  refine ⟨fileSystemAfter_build (.inl rfl), fun report state h => ?_⟩
  obtain ⟨plan, seen, hplan, hnoted, hmodules⟩ := exists_noted_of_build h
  have hvisits := BuildPlan.visits_of_noted hfs hnoted
  -- the modules that the walk comes to, less those that are left alone, in order and each once
  obtain ⟨works, hworks, hreports, hsublist⟩ := BuildPlan.exists_works hvisits.run
  rw [List.nil_append, ← hmodules] at hreports
  refine ⟨plan, works, hplan, hworks, hreports,
    fun w hw => BuildPlan.path_of_examine (hworks.of_mem hw).2, ?_⟩
  obtain ⟨⟨place, hplace, hsource⟩, hout, hnone, hextensions, hwrites⟩ := BuildPlan.ofConfig_eq_ok hplan
  split
  · rename_i hplanOut
    exact hworks.eq_of_out hplanOut
  · rename_i real hplanOut
    obtain ⟨outPlace, houtPlace, rfl⟩ := hout real hplanOut
    rw [houtPlace.names_path]
    refine hworks.effects ⟨hplace, houtPlace, hsource, hplanOut, hwrites⟩ (FileSystem.linkFree_of_linkCount hlinks)
      (hextensions ▸ hmaps) (fun w hw => ?_) (hvisits.nodup.sublist hsublist)
    exact hvisits.all _ (hsublist.subset (List.mem_map_of_mem hw))

/-- A source directory with a module that embeds a file, one with nothing to embed, and one with a syntax
mistake. -/
def sourceTree : FileSystem where
  entries := [("t".toList, .file [120]), ("src".toList, .directory [
    ("a.js".toList, .file (Utf8.encode "m('/t')".toList)),
    ("d".toList, .directory [
      ("b.js".toList, .file (Utf8.encode "b".toList)),
      ("e".toList, .directory [("c.js".toList, .file (Utf8.encode "m(".toList))])])])]
  cwd := ['/']

/-- Settings with a short marker, and with source maps. -/
def mappedConfig : Config := { plainConfig with marker := "m".toList, sourceMap := true }

/-- The first module of `sourceTree` is written with its map, the second one is copied, and the third one is
not written. -/
theorem build_effects_sourceTree :
    fileSystemAfter (build sourceTree "/src".toList (some "/out".toList) mappedConfig true) = sourceTree ∧
      ∃ report state works, ∃ plan : BuildPlan,
        build sourceTree "/src".toList (some "/out".toList) mappedConfig false = .ok (report, state) ∧
          report.modules.map (fun m => (m.path, m.status)) = [("a.js".toList, .rewritten),
            ("d/b.js".toList, .unchanged), ("d/e/c.js".toList, .failed)] ∧
          plan.Works works sourceTree state.fs ∧ plan.Effects ["out".toList] works sourceTree state.fs ∧
          state.fs.node? ["out".toList, "d".toList, "b.js".toList] = some (.file (Utf8.encode "b".toList)) ∧
          (state.fs.node? ["out".toList, "a.js.map".toList]).isSome = true := by
  have hresult : (build sourceTree "/src".toList (some "/out".toList) mappedConfig false).toOption.any
      (fun r => r.1.modules.map (fun m => (m.path, m.status)) = [("a.js".toList, .rewritten),
          ("d/b.js".toList, .unchanged), ("d/e/c.js".toList, .failed)] ∧
        r.2.fs.node? ["out".toList, "d".toList, "b.js".toList] = some (.file (Utf8.encode "b".toList)) ∧
        (r.2.fs.node? ["out".toList, "a.js.map".toList]).isSome = true) = true := by
    decide +kernel
  have hwellFormed : sourceTree.WellFormed := by
    simp only [FileSystem.WellFormed, sourceTree, Listing.IsSound, Entry.IsSound, Listing.get?]
    decide +kernel
  have hplanOut : (BuildPlan.ofConfig sourceTree "/src".toList (some "/out".toList) mappedConfig
      false).toOption.map (·.out) = some (some "/out".toList) := by
    decide +kernel
  have hmaps : ".map".toList ∉ mappedConfig.extensions := by decide
  -- the run itself is evaluated; that nothing else is touched follows from the general theorem
  obtain ⟨hdry, heffects⟩ :=
    build_effects hwellFormed (by decide) hmaps "/src".toList (some "/out".toList)
  refine ⟨hdry, ?_⟩
  cases h : build sourceTree "/src".toList (some "/out".toList) mappedConfig false with
  | error e =>
    rw [h] at hresult
    cases hresult
  | ok result =>
    obtain ⟨report, state⟩ := result
    rw [h] at hresult
    obtain ⟨hreports, hcopied, hmap⟩ := of_decide_eq_true hresult
    obtain ⟨plan, works, hplan, hworks, -, -, hall⟩ := heffects report state h
    rw [hplan] at hplanOut
    have hplanOut : plan.out = some "/out".toList := Option.some.inj hplanOut
    rw [hplanOut] at hall
    exact ⟨report, state, works, plan, rfl, hreports, hworks, hall, hcopied, hmap⟩

end AssetEmbed