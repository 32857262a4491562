import AssetEmbed.Build
import AssetEmbed.Proofs.FileSystem.Locating

/-!
# Stepping — what a build does for one module

A build that goes on has left a module alone below the output directory, or has found out about it and written
what was to be written.  Writing makes the directory of the target, then puts one or two files there; so file
systems stay well formed.
-/

namespace AssetEmbed

variable {fs fs' : FileSystem} {path target : Text} {names : List Text}

/-! ## 1. Plans -/

theorem BuildPlan.ofConfig_eq_ok {plan : BuildPlan} {source : Text} {out : Option Text} {config : Config}
    {dryRun : Bool} (h : ofConfig fs source out config dryRun = .ok plan) :
    (∃ place, Place.IsProper place ∧ plan.source = Place.path place) ∧
      (∀ real ∈ plan.out, ∃ place, Place.IsProper place ∧ real = Place.path place) ∧
      (out = none → plan.out = none) ∧ plan.extensions = config.extensions ∧ plan.dryRun = dryRun := by
  unfold ofConfig at h
  obtain ⟨realSource, hsource, h⟩ := bind_eq_ok.1 h
  obtain ⟨realOut, hout, h⟩ := bind_eq_ok.1 h
  obtain ⟨filter, -, h⟩ := bind_eq_ok.1 h
  cases h
  refine ⟨FileSystem.exists_place_of_realPath (mapError_eq_ok.1 hsource), ?_, ?_, rfl, rfl⟩
  · intro real hreal
    -- the output directory is given by its real path, if there is one
    cases out with
    | none =>
      cases hout
      cases hreal
    | some out =>
      obtain ⟨real', hreal', h⟩ := map_eq_ok.1 hout
      cases h
      cases hreal
      exact FileSystem.exists_place_of_realPath (mapError_eq_ok.1 hreal')
  · rintro rfl
    cases hout
    rfl

theorem BuildPlan.modulePath_eq {plan : BuildPlan} {place : Place} (hplace : Place.IsProper place)
    (hsource : plan.source = Place.path place) (hnames : Place.IsProper names) :
    plan.modulePath names = Place.path (place ++ names) := by
  rw [modulePath, hsource, hplace.below_path hnames]

/-! ## 2. Steps of writing -/

theorem Writing.ofStep_eq_ok {step : Except FileError FileSystem} :
    Writing.ofStep fs step = .ok fs' ↔ step = .ok fs' := by
  exact mapError_eq_ok

theorem writeResult_eq_ok {r : Transformed} (h : writeResult fs target r = .ok fs') :
    (r.map = none ∧ fs.write target (Utf8.encode r.code) = .ok fs') ∨
      ∃ map mid, r.map = some map ∧
        fs.write (mapName target) (Utf8.encode map.toJson.render) = .ok mid ∧
        mid.write target (Utf8.encode (withMapLine r.code (mapName (Path.fileName target)))) = .ok fs' := by
  unfold writeResult at h
  split at h
  · rename_i hmap
    exact .inl ⟨hmap, Writing.ofStep_eq_ok.1 h⟩
  · rename_i map hmap
    obtain ⟨mid, hmid, h⟩ := bind_eq_ok.1 h
    exact .inr ⟨map, mid, hmap, Writing.ofStep_eq_ok.1 hmid, Writing.ofStep_eq_ok.1 h⟩

theorem FileSystem.copy_eq_ok (h : fs.copy path target = .ok fs') :
    ∃ bytes, fs.read path = .ok bytes ∧ fs.write target bytes = .ok fs' := by
  unfold copy at h
  split at h
  · cases h
  split at h
  · cases h
  · rename_i bytes hread
    exact ⟨bytes, hread, Writing.ofStep_eq_ok.1 h⟩

/-- What is written for a module: nothing, or files in a directory that is there before. -/
theorem BuildPlan.produce_eq_ok {plan : BuildPlan} {product : Product}
    (h : plan.produce fs names product = .ok fs') :
    ((plan.out = none ∨ plan.dryRun ∨ product = .nothing) ∧ fs' = fs) ∨
      ∃ out mid, plan.out = some out ∧ plan.dryRun = false ∧
        fs.ensureDirectory (Path.parent (FileSystem.below out names)) = .ok mid ∧
        ((∃ r, product = .result r ∧ writeResult mid (FileSystem.below out names) r = .ok fs') ∨
          product = .copy ∧ mid.copy (plan.modulePath names) (FileSystem.below out names) = .ok fs') := by
  unfold produce at h
  -- by what there is to write: nothing needs no directory, and a dry run makes none
  cases hout : plan.out with
  | none =>
    rw [hout] at h
    cases h
    exact .inl ⟨.inl rfl, rfl⟩
  | some out =>
    rw [hout] at h
    cases product with
    | nothing =>
      cases h
      exact .inl ⟨.inr (.inr rfl), rfl⟩
    | copy =>
      dsimp only at h
      split at h
      · rename_i hdry
        cases h
        exact .inl ⟨.inr (.inl hdry), rfl⟩
      · rename_i hdry
        obtain ⟨mid, hmid, h⟩ := bind_eq_ok.1 h
        exact .inr ⟨out, mid, rfl, by simpa using hdry, Writing.ofStep_eq_ok.1 hmid, .inr ⟨rfl, h⟩⟩
    | result r =>
      dsimp only at h
      split at h
      · rename_i hdry
        cases h
        exact .inl ⟨.inr (.inl hdry), rfl⟩
      · rename_i hdry
        obtain ⟨mid, hmid, h⟩ := bind_eq_ok.1 h
        exact .inr ⟨out, mid, rfl, by simpa using hdry, Writing.ofStep_eq_ok.1 hmid, .inl ⟨r, rfl, h⟩⟩

/-! ## 3. A module -/

theorem BuildPlan.buildModule_eq_ok [Charsets] {plan : BuildPlan} {s t : BuildState}
    (h : plan.buildModule s names = .ok t) :
    (plan.isOutput (plan.modulePath names) = true ∧ t = s) ∨
      plan.isOutput (plan.modulePath names) = false ∧
        ∃ found, plan.examine s.fs names = .ok found ∧
          plan.produce s.fs names found.product = .ok t.fs ∧ t.modules = s.modules ++ [found.report] := by
  unfold buildModule at h
  split at h
  · rename_i houtput
    cases h
    exact .inl ⟨houtput, rfl⟩
  · rename_i houtput
    split at h
    · cases h
    · rename_i found hfound
      dsimp only at h
      split at h
      · cases h
      · rename_i made hmade
        cases h
        exact .inr ⟨by simpa using houtput, found, hfound, hmade, rfl⟩

/-- What becomes of a module that is not left out: it stays as it is, or it has a syntax mistake and that is told, or
some of its calls are replaced. -/
theorem transformMention_cases [Charsets] {options : TransformOptions} {moduleId code : Text} {outcome : Outcome}
    {events : List Event} (h : transformMention fs options moduleId code = .ok (outcome, events)) :
    outcome = .untouched ∨
      (∃ location, outcome = .malformed location ∧ events = [.diagnostic (syntaxDiagnostic location)]) ∨
      ∃ r, outcome = .transformed r ∧ r.map.isSome = options.sourceMap ∧ 1 ≤ r.stats.callsReplaced := by
  unfold transformMention at h
  split at h
  · unfold transformText at h
    split at h
    · obtain ⟨⟨replacements, more⟩, -, h⟩ := bind_eq_ok.1 h
      simp only [pure, Except.pure, Except.ok.injEq, Prod.mk.injEq] at h
      obtain ⟨rfl, -⟩ := h
      unfold Replacements.finish
      split
      · exact .inl rfl
      -- from here on at least one replacement is left
      rename_i hedits
      split
      · exact .inl rfl
      · refine .inr (.inr ⟨_, rfl, ?_, List.length_pos_iff.2 hedits⟩)
        cases options.sourceMap <;> rfl
    · cases h
      exact .inr (.inl ⟨_, rfl, rfl⟩)
  · cases h
    exact .inl rfl

/-- How examining a module ends: it cannot be read, the filter leaves it out, or it is worked on. -/
theorem BuildPlan.examine_cases [Charsets] {plan : BuildPlan} {found : Examined}
    (h : plan.examine fs names = .ok found) : (∃ e, fs.readText (plan.modulePath names) = .error e ∧
      found = .plain (Text.joinWith '/' names) .failed
        [.diagnostic (unreadableModule (plan.modulePath names) e)] .nothing) ∨
    ∃ code, fs.readText (plan.modulePath names) = .ok code ∧
      (found = .plain (Text.joinWith '/' names) .skipped [] .copy ∨
        ∃ outcome events, transformMention fs plan.options (plan.modulePath names) code = .ok (outcome, events) ∧
          found = .ofOutcome (Text.joinWith '/' names) events outcome) := by
  unfold examine at h
  simp only at h
  split at h
  next e he =>
    cases h
    exact .inl ⟨e, he, rfl⟩
  next code hcode =>
    refine .inr ⟨code, hcode, ?_⟩
    split at h
    next => cases h
    next =>
      cases h
      exact .inl rfl
    next =>
      obtain ⟨⟨outcome, events⟩, houtcome, h⟩ := bind_eq_ok.1 h
      cases h
      exact .inr ⟨outcome, events, houtcome, rfl⟩

theorem BuildPlan.path_of_examine [Charsets] {plan : BuildPlan} {found : Examined}
    (h : plan.examine fs names = .ok found) : found.report.path = Text.joinWith '/' names := by
  rcases examine_cases h with ⟨e, -, rfl⟩ | ⟨code, -, rfl | ⟨outcome, events, -, rfl⟩⟩
  · rfl
  · rfl
  · cases outcome <;> rfl

theorem build_eq_ok [Charsets] {source : Text} {out : Option Text} {config : Config} {dryRun : Bool}
    {report : BuildReport} {state : BuildState} :
    build fs source out config dryRun = .ok (report, state) ↔ ∃ plan,
      BuildPlan.ofConfig fs source out config dryRun = .ok plan ∧ plan.run fs = .ok state ∧
        plan.report state = report := by
  unfold build
  constructor
  · intro h
    split at h
    next => cases h
    next plan hplan =>
      obtain ⟨s, hrun, h⟩ := bind_eq_ok.1 h
      cases h
      exact ⟨plan, hplan, hrun, rfl⟩
  · rintro ⟨plan, hplan, hrun, rfl⟩
    rw [hplan]
    exact bind_eq_ok.2 ⟨state, hrun, rfl⟩

/-! ## 4. Well-formed file systems -/

theorem WellFormed.writeResult {r : Transformed} (hfs : fs.WellFormed)
    (h : writeResult fs target r = .ok fs') : fs'.WellFormed := by
  rcases writeResult_eq_ok h with ⟨-, h⟩ | ⟨map, mid, -, hmid, h⟩
  · exact hfs.write h
  · exact (hfs.write hmid).write h

theorem WellFormed.copy (hfs : fs.WellFormed) (h : fs.copy path target = .ok fs') : fs'.WellFormed := by
  obtain ⟨bytes, -, h⟩ := FileSystem.copy_eq_ok h
  exact hfs.write h

theorem BuildPlan.wellFormed_produce {plan : BuildPlan} {product : Product} (hfs : fs.WellFormed)
    (h : plan.produce fs names product = .ok fs') : fs'.WellFormed := by
  rcases produce_eq_ok h with ⟨-, rfl⟩ | ⟨out, mid, -, -, hmid, ⟨r, -, h⟩ | ⟨-, h⟩⟩
  · exact hfs
  · exact WellFormed.writeResult (hfs.ensureDirectory hmid) h
  · exact WellFormed.copy (hfs.ensureDirectory hmid) h

theorem BuildPlan.wellFormed_buildModule [Charsets] {plan : BuildPlan} {s t : BuildState} (hs : s.fs.WellFormed)
    (h : plan.buildModule s names = .ok t) : t.fs.WellFormed := by
  rcases buildModule_eq_ok h with ⟨-, rfl⟩ | ⟨-, found, -, hmade, -⟩
  · exact hs
  · exact wellFormed_produce hs hmade

end AssetEmbed
