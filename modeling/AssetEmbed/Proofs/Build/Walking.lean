import AssetEmbed.Proofs.Build.Stepping
import AssetEmbed.Proofs.Sorting
import Mathlib.Data.List.Nodup

/-!
# Walking — the modules that a build comes to

A build goes over the modules below the source directory while it writes.  The walk by itself visits each
module as soon as it is found, whatever a visit does; a build is the walk that builds what it visits.  As long as
the visits keep the file system well formed, no module is visited twice, and the report of a build has an entry
for each module that the walk has come to, in the same order, except for those below the output directory.
-/

namespace AssetEmbed

/-! ## 1. Visits -/

section Visits

variable {σ ε β γ : Type} {visit : σ → β → Except ε σ} {P Q : β → Prop} {s t u : σ}

/-- Whether visits, one after the other, lead from a state to another one, where no place is visited twice and
each of them is of some kind. -/
structure Visits (visit : σ → β → Except ε σ) (P : β → Prop) (s t : σ) (seen : List β) : Prop where
  run : seen.foldlM visit s = .ok t
  nodup : seen.Nodup
  all : ∀ b ∈ seen, P b

theorem Visits.nil (visit : σ → β → Except ε σ) (P : β → Prop) (s : σ) : Visits visit P s s [] :=
  ⟨rfl, List.nodup_nil, nofun⟩

theorem Visits.single {b : β} (h : visit s b = .ok t) (hb : P b) : Visits visit P s t [b] where
  run := by
    rw [List.foldlM_cons, h]
    rfl
  nodup := List.nodup_cons.2 ⟨List.not_mem_nil, List.nodup_nil⟩
  all c hc := by rwa [List.mem_singleton.1 hc]

theorem Visits.append {R : β → Prop} {seen seen' : List β} (h : Visits visit P s t seen)
    (h' : Visits visit Q t u seen') (hdisjoint : ∀ b, P b → ¬ Q b) (hP : ∀ b, P b → R b)
    (hQ : ∀ b, Q b → R b) : Visits visit R s u (seen ++ seen') where
  run := by
    rw [List.foldlM_append, h.run]
    exact h'.run
  nodup := by
    refine List.nodup_append.2 ⟨h.nodup, h'.nodup, ?_⟩
    intro b hb c hc heq
    subst heq
    exact hdisjoint b (h.all b hb) (h'.all b hc)
  all b hb := by
    rcases List.mem_append.1 hb with hb | hb
    · exact hP b (h.all b hb)
    · exact hQ b (h'.all b hb)

theorem exists_visits_foldlM {step : σ → γ → Except ε σ} {own : γ → β → Prop} {I : σ → Prop}
    (hown : ∀ c d b, own c b → own d b → c = d) {cs : List γ} (hcs : cs.Nodup)
    (hstep : ∀ c ∈ cs, ∀ s t, I s → step s c = .ok t → I t ∧ ∃ seen, Visits visit (own c) s t seen)
    (hs : I s) (h : cs.foldlM step s = .ok t) :
    I t ∧ ∃ seen, Visits visit (fun b => ∃ c ∈ cs, own c b) s t seen := by
  induction cs generalizing s with
  | nil =>
    cases h
    exact ⟨hs, [], .nil _ _ _⟩
  | cons c cs ih =>
    rw [List.foldlM_cons] at h
    obtain ⟨mid, hmid, h⟩ := bind_eq_ok.1 h
    rw [List.nodup_cons] at hcs
    obtain ⟨hI, seen, hseen⟩ := hstep c List.mem_cons_self s mid hs hmid
    obtain ⟨hI', seen', hseen'⟩ :=
      ih hcs.2 (fun d hd => hstep d (List.mem_cons_of_mem c hd)) hI h
    -- what this step visits is of its kind, and what the later ones visit is of theirs
    refine ⟨hI', seen ++ seen', hseen.append hseen' ?_ ?_ ?_⟩
    · rintro b hb ⟨d, hd, hb'⟩
      exact hcs.1 (hown c d b hb hb' ▸ hd)
    · exact fun b hb => ⟨c, List.mem_cons_self, hb⟩
    · rintro b ⟨d, hd, hb⟩
      exact ⟨d, List.mem_cons_of_mem c hd, hb⟩

end Visits

/-! ## 2. The walk -/

/-- Goes over the modules below the directory at the end of some names, through directories nested to at most a
depth: each of them is visited when the walk comes to it.  `view` is the file system in the course of the
walk. -/
def BuildPlan.walkBelow {σ ε : Type} (plan : BuildPlan) (view : σ → FileSystem)
    (visit : σ → List Text → Except ε σ) : (depth : Nat) → σ → List Text → Except ε σ
  | 0, s, _ => .ok s
  | depth + 1, s, names => do
    let (modules, directories) := plan.listing (view s) names
    let s ← modules.foldlM (fun s name => visit s (names ++ [name])) s
    directories.foldlM (fun s name =>
      if ((view s).linkTarget? (plan.modulePath (names ++ [name]))).isSome then .ok s
      else walkBelow plan view visit depth s (names ++ [name])) s

/-- A build is the walk that builds what it visits. -/
theorem BuildPlan.buildBelow_eq_walkBelow [Charsets] (plan : BuildPlan) (depth : Nat) (s : BuildState)
    (names : List Text) :
    plan.buildBelow depth s names = plan.walkBelow (·.fs) plan.buildModule depth s names := by
  induction depth generalizing s names with
  | zero => rfl
  | succ depth ih =>
    rw [buildBelow, walkBelow]
    simp only [ih]

def BuildPlan.IsModuleBelow (plan : BuildPlan) (above names : List Text) : Prop :=
  ∃ between name, names = above ++ (between ++ [name]) ∧ Place.IsProper (between ++ [name]) ∧
    (Path.suffix name).lower ∈ plan.extensions

/-- What a directory of a well-formed file system lists has names that can be names, each once. -/
theorem BuildPlan.listing_sound (plan : BuildPlan) {fs : FileSystem} (hfs : fs.WellFormed)
    {names modules directories : List Text} (h : plan.listing fs names = (modules, directories)) :
    (modules.Nodup ∧ ∀ m ∈ modules, Path.IsProper m ∧ (Path.suffix m).lower ∈ plan.extensions) ∧
      directories.Nodup ∧ ∀ d ∈ directories, Path.IsProper d := by
  unfold listing at h
  simp only at h
  split at h
  · rename_i entries hentry
    obtain ⟨spot, hspot, hplace⟩ := bind_eq_ok.1 hentry
    have hsound : Listing.IsSound entries := by
      split at hplace
      · split at hplace
        · rename_i e he
          cases hplace
          exact Listing.IsSound.directory hfs he
        · cases hplace
      · cases hplace
    -- filtering and sorting keep the names of the entries, which are sound and distinct
    have hnodup : ∀ p, ((List.filter p entries).map (·.1)).Nodup := fun p =>
      hsound.nodup.sublist (List.filter_sublist.map _)
    have hproper : ∀ p, ∀ n ∈ (List.filter p entries).map (·.1), Path.IsProper n := by
      intro p n hn
      obtain ⟨⟨n, e⟩, hmem, rfl⟩ := List.mem_map.1 hn
      exact (hsound.of_mem (List.mem_of_mem_filter hmem)).1
    cases h
    refine ⟨⟨(Text.nodup_sort (hnodup _)).filter _, ?_⟩, (Text.nodup_sort (hnodup _)).filter _, ?_⟩
    · intro m hm
      obtain ⟨hm, hextension⟩ := List.mem_filter.1 hm
      exact ⟨hproper _ m (Text.mem_sort.1 hm), by simpa using hextension⟩
    · intro d hd
      exact hproper _ d (Text.mem_sort.1 (List.mem_of_mem_filter hd))
  · cases h
    exact ⟨⟨List.nodup_nil, nofun⟩, List.nodup_nil, nofun⟩

/-- A walk whose visits keep the file system well formed visits modules, none of them twice. -/
theorem BuildPlan.exists_visits_walkBelow {σ ε : Type} (plan : BuildPlan) {view : σ → FileSystem}
    {visit : σ → List Text → Except ε σ}
    (hvisit : ∀ s names t, (view s).WellFormed → visit s names = .ok t → (view t).WellFormed)
    {depth : Nat} {s t : σ} {names : List Text} (hs : (view s).WellFormed)
    (h : plan.walkBelow view visit depth s names = .ok t) :
    (view t).WellFormed ∧ ∃ seen, Visits visit (plan.IsModuleBelow names) s t seen := by
  induction depth generalizing s t names with
  | zero =>
    cases h
    exact ⟨hs, [], .nil _ _ _⟩
  | succ depth ih =>
    rw [walkBelow] at h
    cases hlisting : plan.listing (view s) names with
    | mk modules directories =>
      rw [hlisting] at h
      obtain ⟨⟨hmodulesNodup, hmodules⟩, hdirectoriesNodup, hdirectories⟩ := plan.listing_sound hs hlisting
      obtain ⟨mid, hmid, h⟩ := bind_eq_ok.1 h
      -- the modules in the directory itself
      have howner : ∀ (c d : Text) (b : List Text), b = names ++ [c] → b = names ++ [d] → c = d := by
        rintro c d b rfl hd
        simpa using hd
      obtain ⟨hmidFs, seen, hseen⟩ := exists_visits_foldlM (I := fun s => (view s).WellFormed) howner
        hmodulesNodup (fun name _ s t hs h => ⟨hvisit s _ t hs h, _, .single h rfl⟩) hs hmid
      -- the modules below the directories in it
      have howner' : ∀ c d b, plan.IsModuleBelow (names ++ [c]) b →
          plan.IsModuleBelow (names ++ [d]) b → c = d := by
        rintro c d b ⟨between, name, rfl, -, -⟩ ⟨between', name', hd, -, -⟩
        rw [List.append_assoc, List.append_assoc, List.append_cancel_left_eq] at hd
        exact List.head_eq_of_cons_eq hd
      obtain ⟨htFs, seen', hseen'⟩ := exists_visits_foldlM (I := fun s => (view s).WellFormed) howner'
        hdirectoriesNodup (fun name _ s t hs h => by
          split at h
          · cases h
            exact ⟨hs, [], .nil visit _ _⟩
          · exact ih hs h) hmidFs h
      refine ⟨htFs, seen ++ seen', hseen.append hseen' ?disjoint ?here ?further⟩
      case disjoint =>
        rintro b ⟨name, -, rfl⟩ ⟨d, -, between, name', heq, -, -⟩
        rw [List.append_assoc, List.append_cancel_left_eq] at heq
        simp at heq
      case here =>
        rintro b ⟨name, hname, rfl⟩
        obtain ⟨hproper, hextension⟩ := hmodules name hname
        exact ⟨[], name, rfl, fun n hn => by rwa [List.mem_singleton.1 hn], hextension⟩
      case further =>
        rintro b ⟨d, hd, between, name, rfl, hproper, hextension⟩
        refine ⟨d :: between, name, by simp, ?_, hextension⟩
        intro n hn
        rcases List.mem_cons.1 hn with rfl | hn
        · exact hdirectories n hd
        · exact hproper n hn

theorem BuildPlan.ends_walkBelow {σ ε : Type} (plan : BuildPlan) {P : σ → Prop} {R : ε → Prop}
    (view : σ → FileSystem) {visit : σ → List Text → Except ε σ}
    (hvisit : ∀ s names, P s → Ends P R (visit s names)) (depth : Nat) {s : σ} (hs : P s)
    (names : List Text) : Ends P R (plan.walkBelow view visit depth s names) := by
  induction depth generalizing s names with
  | zero => exact hs
  | succ depth ih =>
    rw [walkBelow]
    refine (ends_foldlM (fun s name hs => hvisit s (names ++ [name]) hs) hs _).bind fun s hs => ?_
    refine ends_foldlM (fun s name hs => ?_) hs _
    split
    · exact hs
    · exact ih hs (names ++ [name])

/-! ## 3. What a build comes to -/

theorem BuildPlan.walkBelow_map_state {σ τ ε : Type} (plan : BuildPlan) (part : τ → σ)
    {view : σ → FileSystem} {visit : σ → List Text → Except ε σ} {visit' : τ → List Text → Except ε τ}
    (hvisit : ∀ t names, visit (part t) names = part <$> visit' t names) (depth : Nat) (t : τ)
    (names : List Text) :
    plan.walkBelow view visit depth (part t) names =
      part <$> plan.walkBelow (fun t => view (part t)) visit' depth t names := by
  induction depth generalizing t names with
  | zero => rfl
  | succ depth ih =>
    rw [walkBelow, walkBelow]
    cases plan.listing (view (part t)) names with
    | mk modules directories =>
      dsimp only
      -- first the modules of the directory, then the directories in it from the state that the modules leave
      rw [foldlM_map_state part (fun t name => visit' t (names ++ [name]))
        (fun t name => hvisit t (names ++ [name])) modules t]
      cases modules.foldlM (fun t name => visit' t (names ++ [name])) t with
      | error e => rfl
      | ok t =>
        refine foldlM_map_state part _ (fun t name => ?_) directories t
        split
        · rfl
        · exact ih t (names ++ [name])

/-- Builds a module, and notes that the walk has come to it. -/
def BuildPlan.noteModule [Charsets] (plan : BuildPlan) (s : BuildState × List (List Text)) (names : List Text) :
    Except Stopped (BuildState × List (List Text)) := do
  let state ← plan.buildModule s.1 names
  return (state, s.2 ++ [names])

/-- A build, with the modules that the walk comes to in the course of it, in order. -/
def BuildPlan.noted [Charsets] (plan : BuildPlan) (fs : FileSystem) :
    Except Stopped (BuildState × List (List Text)) :=
  plan.walkBelow (·.1.fs) plan.noteModule maxDepth (⟨fs, [], []⟩, []) []

theorem BuildPlan.run_eq_noted [Charsets] (plan : BuildPlan) (fs : FileSystem) :
    plan.run fs = (·.1) <$> plan.noted fs := by
  rw [run, buildBelow_eq_walkBelow, noted]
  have hvisit : ∀ (s : BuildState × List (List Text)) (names : List Text),
      plan.buildModule s.1 names = (·.1) <$> plan.noteModule s names := by
    intro s names
    rw [noteModule]
    cases plan.buildModule s.1 names <;> rfl
  exact plan.walkBelow_map_state _ hvisit maxDepth (⟨fs, [], []⟩, []) []

theorem BuildPlan.foldlM_noteModule [Charsets] {plan : BuildPlan} {seen seen' before : List (List Text)}
    {s t : BuildState} (h : seen.foldlM plan.noteModule (s, before) = .ok (t, seen')) :
    seen' = before ++ seen ∧ seen.foldlM plan.buildModule s = .ok t := by
  induction seen generalizing s before with
  | nil =>
    cases h
    exact ⟨(List.append_nil _).symm, rfl⟩
  | cons names seen ih =>
    rw [List.foldlM_cons] at h
    obtain ⟨mid, hmid, h⟩ := bind_eq_ok.1 h
    obtain ⟨state, hstate, hmid⟩ := bind_eq_ok.1 hmid
    cases hmid
    obtain ⟨rfl, hrun⟩ := ih h
    refine ⟨by simp, ?_⟩
    rw [List.foldlM_cons, hstate]
    exact hrun

/-- What a walk notes: modules, each once, and building them one after the other is the build. -/
theorem BuildPlan.visits_of_noted [Charsets] {plan : BuildPlan} {fs : FileSystem} {t : BuildState}
    {seen : List (List Text)} (hfs : fs.WellFormed) (h : plan.noted fs = .ok (t, seen)) :
    Visits plan.buildModule (plan.IsModuleBelow []) ⟨fs, [], []⟩ t seen := by
  have hnote : ∀ (s : BuildState × List (List Text)) (names : List Text)
      (t : BuildState × List (List Text)), s.1.fs.WellFormed → plan.noteModule s names = .ok t →
      t.1.fs.WellFormed := by
    intro s names t hs h
    obtain ⟨state, hstate, h⟩ := bind_eq_ok.1 h
    cases h
    exact wellFormed_buildModule hs hstate
  obtain ⟨-, seen', hseen'⟩ := plan.exists_visits_walkBelow hnote hfs h
  obtain ⟨rfl, hrun⟩ := foldlM_noteModule hseen'.run
  exact ⟨hrun, hseen'.nodup, hseen'.all⟩

/-! ## 4. What a build reports -/

/-- The entries of a build are those of the modules that do not lie below the output directory. -/
theorem BuildPlan.paths_foldlM_buildModule [Charsets] {plan : BuildPlan} {seen : List (List Text)}
    {s t : BuildState} (h : seen.foldlM plan.buildModule s = .ok t) :
    t.modules.map (·.path) = s.modules.map (·.path) ++
      (seen.filter fun names => !plan.isOutput (plan.modulePath names)).map (Text.joinWith '/') := by
  induction seen generalizing s with
  | nil =>
    cases h
    simp
  | cons names seen ih =>
    rw [List.foldlM_cons] at h
    obtain ⟨mid, hmid, h⟩ := bind_eq_ok.1 h
    rw [ih h]
    rcases buildModule_eq_ok hmid with ⟨houtput, rfl⟩ | ⟨houtput, found, hfound, -, hmodules⟩
    · simp [houtput]
    · simp [houtput, hmodules, path_of_examine hfound]

def Path.isBelow (directory path : Text) : Bool :=
  (Path.names directory).isPrefixOf (Path.names path) && Path.names directory != Path.names path

def BuildPlan.sourceBelowOutput (plan : BuildPlan) : Bool :=
  plan.out.any fun out => Path.isBelow out plan.source

/-- Whether a module lies below the output directory, and that is the source directory or lies below it. -/
def BuildPlan.isOwnOutput (plan : BuildPlan) (names : List Text) : Bool :=
  plan.out.any fun out =>
    (out == plan.source || Path.isBelow plan.source out) && Path.isBelow out (plan.modulePath names)

theorem Path.isBelow_path {place other : Place} (hplace : Place.IsProper place)
    (hother : Place.IsProper other) :
    Path.isBelow (Place.path place) (Place.path other) = true ↔ place <+: other ∧ place ≠ other := by
  rw [Path.isBelow, hplace.names_path, hother.names_path, Bool.and_eq_true, List.isPrefixOf_iff_prefix,
    bne_iff_ne]

theorem BuildPlan.isOutput_modulePath {plan : BuildPlan} {source out : Place} {names : List Text}
    (hsource : Place.IsProper source) (hout : Place.IsProper out) (hnames : Place.IsProper names)
    (hne : names ≠ []) (hplanSource : plan.source = Place.path source)
    (hplanOut : plan.out = some (Place.path out)) :
    plan.isOutput (plan.modulePath names) = true ↔ out <+: source ++ names ∧ out ≠ source ++ names := by
  rw [isOutput, hplanOut, Option.any_some, modulePath_eq hsource hplanSource hnames, hout.names_path,
    (hsource.append hnames).names_path, List.isPrefixOf_iff_prefix]
  obtain ⟨path, name, hpath⟩ : ∃ path name, source ++ names = path ++ [name] :=
    (List.eq_nil_or_concat' _).resolve_left (by simp [hne])
  rw [hpath, List.dropLast_concat, List.prefix_concat_iff]
  constructor
  · intro hpre
    refine ⟨.inr hpre, ?_⟩
    rintro rfl
    exact absurd hpre.length_le (by simp)
  · rintro ⟨heq | hpre, hne⟩
    · exact absurd heq hne
    · exact hpre

/-- If the source directory does not lie below the output directory, the modules that are left alone are those
below an output directory that is the source directory or lies below it. -/
theorem BuildPlan.isOutput_eq_isOwnOutput {plan : BuildPlan} {source : Place} {names : List Text}
    (hsource : Place.IsProper source) (hplanSource : plan.source = Place.path source)
    (hout : ∀ real ∈ plan.out, ∃ place, Place.IsProper place ∧ real = Place.path place)
    (hnames : Place.IsProper names) (hne : names ≠ []) (hbelow : plan.sourceBelowOutput = false) :
    plan.isOutput (plan.modulePath names) = plan.isOwnOutput names := by
  cases hplanOut : plan.out with
  | none => rw [isOutput, isOwnOutput, hplanOut, Option.any_none, Option.any_none]
  | some real =>
    obtain ⟨out, hout, rfl⟩ := hout real hplanOut
    -- both tests, as statements about the places
    have hown : plan.isOwnOutput names = true ↔ source <+: out ∧ out <+: source ++ names ∧ out ≠ source ++ names := by
      rw [isOwnOutput, hplanOut, Option.any_some, modulePath_eq hsource hplanSource hnames, hplanSource,
        Bool.and_eq_true, Bool.or_eq_true, Path.isBelow_path hout (hsource.append hnames),
        Path.isBelow_path hsource hout, beq_iff_eq]
      refine and_congr_left fun _ => ⟨?_, fun hpre => ?_⟩
      · rintro (heq | ⟨hpre, -⟩)
        · obtain rfl : source = out := by rw [← hout.names_path, heq, hsource.names_path]
          exact List.prefix_rfl
        · exact hpre
      · by_cases heq : source = out
        · exact .inl (by rw [heq])
        · exact .inr ⟨hpre, heq⟩
    rw [sourceBelowOutput, hplanOut, Option.any_some, hplanSource, ← Bool.not_eq_true,
      Path.isBelow_path hout hsource] at hbelow
    rw [Bool.eq_iff_iff, isOutput_modulePath hsource hout hnames hne hplanSource hplanOut, hown]
    refine ⟨fun h => ⟨?_, h⟩, fun h => h.2⟩
    -- both directories lie above the module, so one of them lies above the other
    rcases List.prefix_or_prefix_of_prefix h.1 (List.prefix_append source names) with hpre | hpre
    · by_cases heq : out = source
      · subst heq
        exact List.prefix_rfl
      · exact absurd ⟨hpre, heq⟩ hbelow
    · exact hpre

/-- If the source directory lies below the output directory, every module is left alone. -/
theorem BuildPlan.isOutput_of_sourceBelowOutput {plan : BuildPlan} {source : Place} {names : List Text}
    (hsource : Place.IsProper source) (hplanSource : plan.source = Place.path source)
    (hout : ∀ real ∈ plan.out, ∃ place, Place.IsProper place ∧ real = Place.path place)
    (hnames : Place.IsProper names) (hne : names ≠ []) (hbelow : plan.sourceBelowOutput = true) :
    plan.isOutput (plan.modulePath names) = true := by
  cases hplanOut : plan.out with
  | none =>
    rw [sourceBelowOutput, hplanOut, Option.any_none] at hbelow
    cases hbelow
  | some real =>
    obtain ⟨out, hout, rfl⟩ := hout real hplanOut
    rw [sourceBelowOutput, hplanOut, Option.any_some, hplanSource, Path.isBelow_path hout hsource] at hbelow
    rw [isOutput_modulePath hsource hout hnames hne hplanSource hplanOut]
    refine ⟨hbelow.1.trans (List.prefix_append _ _), ?_⟩
    rintro rfl
    have hle := hbelow.1.length_le
    rw [List.length_append] at hle
    exact hne (List.length_eq_zero_iff.1 (by omega))

theorem exists_noted_of_build [Charsets] {fs : FileSystem} {source : Text} {out : Option Text} {config : Config}
    {dryRun : Bool} {report : BuildReport} {state : BuildState}
    (h : build fs source out config dryRun = .ok (report, state)) :
    ∃ plan seen, BuildPlan.ofConfig fs source out config dryRun = .ok plan ∧
      plan.noted fs = .ok (state, seen) ∧ report.modules = state.modules := by
  obtain ⟨plan, hplan, hrun, rfl⟩ := build_eq_ok.1 h
  rw [BuildPlan.run_eq_noted] at hrun
  obtain ⟨⟨state, seen⟩, hnoted, rfl⟩ := map_eq_ok.1 hrun
  exact ⟨plan, seen, hplan, hnoted, rfl⟩

theorem BuildPlan.nodup_paths_of_noted [Charsets] {plan : BuildPlan} {fs : FileSystem} {t : BuildState}
    {seen : List (List Text)} (hfs : fs.WellFormed) (h : plan.noted fs = .ok (t, seen)) :
    (t.modules.map (·.path)).Nodup := by
  have hvisits := visits_of_noted hfs h
  have hproper : ∀ names ∈ seen, Place.IsProper names := by
    intro names hnames
    obtain ⟨between, name, rfl, hproper, -⟩ := hvisits.all names hnames
    exact hproper
  rw [paths_foldlM_buildModule hvisits.run, List.map_nil, List.nil_append]
  -- no name has a slash in it, so a path gives its names back
  refine List.Nodup.map_on (fun names hnames names' hnames' heq => ?_) (hvisits.nodup.filter _)
  have hname := hproper names (List.mem_of_mem_filter hnames)
  have hname' := hproper names' (List.mem_of_mem_filter hnames')
  rw [← Path.names_joinWith fun n hn => (hname n hn).1, heq,
    Path.names_joinWith fun n hn => (hname' n hn).1]

/-- A build reports the modules that the walk comes to, each once and in the order of the walk, except for those
below an output directory that is the source directory or lies below it.  The one case apart is an output
directory above the source directory: then nothing is reported. -/
theorem build_reports_walk [Charsets] {fs : FileSystem} {source : Text} {out : Option Text} {config : Config}
    {dryRun : Bool} {report : BuildReport} {state : BuildState} (hfs : fs.WellFormed)
    (h : build fs source out config dryRun = .ok (report, state)) :
    ∃ plan seen, BuildPlan.ofConfig fs source out config dryRun = .ok plan ∧
      plan.noted fs = .ok (state, seen) ∧ (report.modules.map (·.path)).Nodup ∧
      report.modules.map (·.path) =
        if plan.sourceBelowOutput then []
        else (seen.filter fun names => !plan.isOwnOutput names).map (Text.joinWith '/') := by
  obtain ⟨plan, seen, hplan, hnoted, hmodules⟩ := exists_noted_of_build h
  have hvisits := BuildPlan.visits_of_noted hfs hnoted
  obtain ⟨⟨place, hplace, hsource⟩, hout, -, -, -⟩ := BuildPlan.ofConfig_eq_ok hplan
  have hproper : ∀ names ∈ seen, Place.IsProper names ∧ names ≠ [] := by
    intro names hnames
    obtain ⟨between, name, rfl, hproper, -⟩ := hvisits.all names hnames
    exact ⟨hproper, by simp⟩
  -- the entries are those of the modules on the walk that are not left alone; what is left is who is
  have hpaths := BuildPlan.paths_foldlM_buildModule hvisits.run
  rw [List.map_nil, List.nil_append, ← hmodules] at hpaths
  refine ⟨plan, seen, hplan, hnoted, hmodules ▸ BuildPlan.nodup_paths_of_noted hfs hnoted, ?_⟩
  rw [hpaths]
  split
  · rename_i hbelow
    rw [List.map_eq_nil_iff, List.filter_eq_nil_iff]
    intro names hnames
    obtain ⟨hname, hne⟩ := hproper names hnames
    rw [BuildPlan.isOutput_of_sourceBelowOutput hplace hsource hout hname hne hbelow]
    exact Bool.false_ne_true
  · rename_i hbelow
    rw [Bool.not_eq_true] at hbelow
    refine congrArg _ (List.filter_congr fun names hnames => ?_)
    obtain ⟨hname, hne⟩ := hproper names hnames
    rw [BuildPlan.isOutput_eq_isOwnOutput hplace hsource hout hname hne hbelow]

/-! ## 5. Output directories below and above the source directory -/

/-- Settings under which scripts are modules, and none is excluded. -/
def plainConfig : Config :=
  { Config.default with extensions := [".js".toList], excluded := [], sourceMap := false }

/-- A source directory with a module, and with the output of an earlier build in it. -/
def builtTree : FileSystem where
  entries := [("src".toList, .directory [
    ("dist".toList, .directory [("m.js".toList, .file [120])]),
    ("m.js".toList, .file [120])])]
  cwd := ['/']

theorem builtTree_wellFormed : builtTree.WellFormed := by
  simp only [FileSystem.WellFormed, builtTree, Listing.IsSound, Entry.IsSound, Listing.get?]
  decide +kernel

/-- Output of an earlier build below the source directory is come to, and not reported. -/
theorem build_reports_walk_builtTree :
    ∃ report state, ∃ plan : BuildPlan,
      build builtTree "/src".toList (some "/src/dist".toList) plainConfig true = .ok (report, state) ∧
        plan.noted builtTree = .ok (state, [["m.js".toList], ["dist".toList, "m.js".toList]]) ∧
        report.modules.map (·.path) = ["m.js".toList] := by
  have hbuild : (build builtTree "/src".toList (some "/src/dist".toList) plainConfig true).toOption.map
      (fun r => r.1.modules.map (·.path)) = some ["m.js".toList] := by decide +kernel
  have hseen : ((BuildPlan.ofConfig builtTree "/src".toList (some "/src/dist".toList) plainConfig
      true).toOption.bind fun plan => (plan.noted builtTree).toOption.map (·.2)) =
        some [["m.js".toList], ["dist".toList, "m.js".toList]] := by decide +kernel
  cases h : build builtTree "/src".toList (some "/src/dist".toList) plainConfig true with
  | error e =>
    rw [h] at hbuild
    cases hbuild
  | ok result =>
    obtain ⟨report, state⟩ := result
    obtain ⟨plan, seen, hplan, hnoted, -, -⟩ := build_reports_walk builtTree_wellFormed h
    rw [hplan] at hseen
    simp only [Except.toOption, Option.bind_some, hnoted, Option.map_some, Option.some.injEq] at hseen
    rw [h] at hbuild
    exact ⟨report, state, plan, rfl, hseen ▸ hnoted, Option.some.inj hbuild⟩

/-- An output directory above the source directory keeps its modules from being built, though they are no output of
the build. -/
theorem build_omits_modules_below_output :
    ∃ report state, ∃ plan : BuildPlan,
      build builtTree "/src/dist".toList (some "/src".toList) plainConfig true = .ok (report, state) ∧
        plan.noted builtTree = .ok (state, [["m.js".toList]]) ∧
        plan.isOwnOutput ["m.js".toList] = false ∧ report.modules = [] := by
  have hbuild : (build builtTree "/src/dist".toList (some "/src".toList) plainConfig true).toOption.map
      (fun r => r.1.modules) = some [] := by decide +kernel
  have hseen : ((BuildPlan.ofConfig builtTree "/src/dist".toList (some "/src".toList) plainConfig
      true).toOption.bind fun plan => (plan.noted builtTree).toOption.map fun r =>
        (r.2, plan.isOwnOutput ["m.js".toList])) = some ([["m.js".toList]], false) := by decide +kernel
  cases h : build builtTree "/src/dist".toList (some "/src".toList) plainConfig true with
  | error e =>
    rw [h] at hbuild
    cases hbuild
  | ok result =>
    obtain ⟨report, state⟩ := result
    obtain ⟨plan, seen, hplan, hnoted, -⟩ := exists_noted_of_build h
    rw [hplan] at hseen
    simp only [Except.toOption, Option.bind_some, hnoted, Option.map_some, Option.some.injEq,
      Prod.mk.injEq] at hseen
    rw [h] at hbuild
    exact ⟨report, state, plan, rfl, hseen.1 ▸ hnoted, hseen.2, Option.some.inj hbuild⟩

end AssetEmbed
