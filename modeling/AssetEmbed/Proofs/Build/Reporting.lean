import AssetEmbed.CommandLine
import AssetEmbed.Proofs.Build.Effects

/-!
# Reporting — what a build says of its modules

An entry of a report has a status, two counts and diagnostics.  They agree: only calls that are replaced make a module
rewritten, only a module with an error fails, and a module that a filter leaves out has nothing to tell.  This holds of
the entry that each module adds, so of all entries of a report; its totals and the exit code of the command follow.
-/

namespace AssetEmbed

/-! ## 1. Entries -/

/-- What the status of a module says of its counts and its diagnostics. -/
structure ModuleReport.IsConsistent (r : ModuleReport) : Prop where
  rewritten_iff : r.status = .rewritten ↔ 1 ≤ r.embeddedCalls
  error_of_failed : r.status = .failed → ∃ d ∈ r.diagnostics, d.isError = true
  counts_of_failed : r.status = .failed → r.embeddedCalls = 0 ∧ r.embeddedFiles = 0
  silent_of_skipped : r.status = .skipped → r.diagnostics = []
  counts_of_skipped : r.status = .skipped → r.embeddedCalls = 0 ∧ r.embeddedFiles = 0
  counts_of_unchanged : r.status = .unchanged → r.embeddedCalls = 0 ∧ r.embeddedFiles = 0

/-- An entry without replacements is consistent if it tells why its module failed, and tells nothing if it is left
out. -/
theorem Examined.plain_isConsistent {path : Text} {status : ModuleStatus} {events : List Event} {product : Product}
    (hstatus : status ≠ .rewritten)
    (hfailed : status = .failed → ∃ d ∈ Event.diagnostics events, d.isError = true)
    (hskipped : status = .skipped → Event.diagnostics events = []) :
    (Examined.plain path status events product).report.IsConsistent where
  rewritten_iff := iff_of_false hstatus (Nat.not_succ_le_zero 0)
  error_of_failed := hfailed
  counts_of_failed _ := ⟨rfl, rfl⟩
  silent_of_skipped := hskipped
  counts_of_skipped _ := ⟨rfl, rfl⟩
  counts_of_unchanged _ := ⟨rfl, rfl⟩

theorem Examined.ofOutcome_transformed_isConsistent {path : Text} {events : List Event} {r : Transformed}
    (h : 1 ≤ r.stats.callsReplaced) : (Examined.ofOutcome path events (.transformed r)).report.IsConsistent where
  rewritten_iff := iff_of_true rfl h
  error_of_failed := nofun
  counts_of_failed := nofun
  silent_of_skipped := nofun
  counts_of_skipped := nofun
  counts_of_unchanged := nofun

theorem BuildPlan.examine_isConsistent [Charsets] {plan : BuildPlan} {fs : FileSystem} {names : List Text}
    {found : Examined} (h : plan.examine fs names = .ok found) : found.report.IsConsistent := by
  rcases examine_cases h with ⟨e, -, rfl⟩ | ⟨code, -, rfl | ⟨outcome, events, houtcome, rfl⟩⟩
  -- a module that cannot be read fails with a diagnostic that says so
  · exact Examined.plain_isConsistent nofun (fun _ => ⟨unreadableModule _ e, List.mem_singleton.2 rfl, rfl⟩) nofun
  · exact Examined.plain_isConsistent nofun nofun fun _ => rfl
  -- only a module that is transformed has counts other than zero
  · rcases transformMention_cases houtcome with rfl | ⟨location, rfl, rfl⟩ | ⟨r, rfl, -, hreplaced⟩
    · exact Examined.plain_isConsistent nofun nofun nofun
    · exact Examined.plain_isConsistent nofun
        (fun _ => ⟨syntaxDiagnostic location, List.mem_singleton.2 rfl, rfl⟩) nofun
    · exact Examined.ofOutcome_transformed_isConsistent hreplaced

theorem BuildPlan.buildModule_isConsistent [Charsets] {plan : BuildPlan} {s t : BuildState} {names : List Text}
    (hs : ∀ m ∈ s.modules, m.IsConsistent) (h : plan.buildModule s names = .ok t) :
    ∀ m ∈ t.modules, m.IsConsistent := by
  rcases buildModule_eq_ok h with ⟨-, rfl⟩ | ⟨-, found, hfound, -, hmodules⟩
  · exact hs
  · intro m hm
    rw [hmodules] at hm
    rcases List.mem_append.1 hm with hm | hm
    · exact hs m hm
    · rw [List.mem_singleton.1 hm]
      exact examine_isConsistent hfound

theorem BuildPlan.run_isConsistent [Charsets] {plan : BuildPlan} {fs : FileSystem} {t : BuildState}
    (h : plan.run fs = .ok t) : ∀ m ∈ t.modules, m.IsConsistent := by
  have hstep : ∀ (s : BuildState) (names : List Text), (∀ m ∈ s.modules, m.IsConsistent) →
      Ends (fun t : BuildState => ∀ m ∈ t.modules, m.IsConsistent) (fun _ : Stopped => True)
        (plan.buildModule s names) := by
    intro s names hs
    cases hmade : plan.buildModule s names with
    | error stopped => trivial
    | ok t => exact buildModule_isConsistent hs hmade
  have hends := plan.ends_walkBelow (·.fs) hstep maxDepth (s := ⟨fs, [], []⟩) nofun []
  rw [← buildBelow_eq_walkBelow, ← run, h] at hends
  exact hends

/-! ## 2. Reports -/

/-- Whether no module has an error. -/
def BuildReport.IsClean (r : BuildReport) : Prop := ∀ m ∈ r.modules, ∀ d ∈ m.diagnostics, d.isError = false

/-- What the entries of a report say of each other, of the totals and of whether the build went well. -/
structure BuildReport.IsConsistent (r : BuildReport) : Prop where
  paths_nodup : (r.modules.map (·.path)).Nodup
  modules : ∀ m ∈ r.modules, m.IsConsistent
  rewritten_le : r.totals.rewritten ≤ r.totals.modules
  failed_le : r.totals.failed ≤ r.totals.modules
  ok_iff : r.ok = true ↔ r.IsClean

/-- A build of consistent entries went well exactly if no module has an error: each one that failed has one. -/
theorem BuildReport.ok_iff_isClean {r : BuildReport} (h : ∀ m ∈ r.modules, m.IsConsistent) :
    r.ok = true ↔ r.IsClean := by
  have herrors : r.totals.errors = 0 ↔ r.IsClean := by
    unfold totals Totals.ofModules IsClean
    simp only [List.countP_eq_zero, List.mem_flatMap, forall_exists_index, and_imp, Bool.not_eq_true]
    exact ⟨fun h m hm d hd => h d m hm hd, fun h d m hm hd => h m hm d hd⟩
  have hfailed : r.IsClean → r.totals.failed = 0 := by
    intro hclean
    unfold totals Totals.ofModules
    simp only [List.countP_eq_zero, decide_eq_true_eq]
    intro m hm hstatus
    obtain ⟨d, hd, herror⟩ := (h m hm).error_of_failed hstatus
    rw [hclean m hm d hd] at herror
    cases herror
  unfold ok
  rw [Bool.and_eq_true, decide_eq_true_eq, decide_eq_true_eq, herrors]
  exact ⟨fun h => h.1, fun h => ⟨h, hfailed h⟩⟩

theorem build_modules_isConsistent [Charsets] {fs : FileSystem} {source : Text} {out : Option Text}
    {config : Config} {dryRun : Bool} {report : BuildReport} {state : BuildState}
    (h : build fs source out config dryRun = .ok (report, state)) : ∀ m ∈ report.modules, m.IsConsistent := by
  obtain ⟨plan, -, hrun, rfl⟩ := build_eq_ok.1 h
  exact BuildPlan.run_isConsistent hrun

/-! ## 3. The command -/

/-- A command that builds ends with the exit code of a report, or is refused, or ends without an exit code. -/
theorem Command.run_build_cases [Charsets] {fs fs' : FileSystem} {source : Text} {out : Option Text}
    {dryRun : Bool} {common : CommonArguments} {result : CommandResult}
    (h : Command.run fs (.build source out dryRun common) = (fs', .ok result)) :
    (∃ events complaint, result = .refused events complaint) ∨
      ∃ real config report state, AssetEmbed.build fs real out config dryRun = .ok (report, state) ∧
        result = .done report.ok (.report report) state.events := by
  unfold run at h
  dsimp only at h
  split at h
  · cases h
    exact .inl ⟨_, _, rfl⟩
  -- the source directory is looked for first, and only then the configuration
  unfold buildSource at h
  split at h
  · cases h
  rename_i real _
  split at h
  · unfold withConfig at h
    split at h
    case h_1 config _ =>
      dsimp only at h
      unfold runBuild at h
      split at h
      · rename_i report state hbuild
        cases h
        exact .inr ⟨real, config, report, state, hbuild, rfl⟩
      · rename_i stopped _
        obtain ⟨reason, state⟩ := stopped
        -- a build that stops has no report: it is refused, or it ends without an exit code
        cases reason <;> cases h
        all_goals exact .inl ⟨_, _, rfl⟩
    case h_2 =>
      cases h
      exact .inl ⟨_, _, rfl⟩
    case h_3 =>
      cases h
      exact .inl ⟨_, _, rfl⟩
    case h_4 => cases h
  · cases h
    exact .inl ⟨_, _, rfl⟩

/-- The report of a build is consistent: its modules have distinct paths, the status of each goes with its counts and
its diagnostics, and the build went well exactly if no module has an error.  The command that builds ends with exit
code 0 exactly if it gives such a report without errors. -/
theorem build_isConsistent [Charsets] {fs : FileSystem} (hfs : fs.WellFormed) (source : Text) (out : Option Text)
    (dryRun : Bool) :
    (∀ config report state, build fs source out config dryRun = .ok (report, state) → report.IsConsistent) ∧
      ∀ common fs' result, Command.run fs (.build source out dryRun common) = (fs', .ok result) →
        (result.exitCode = 0 ↔ ∃ report, result.output = .report report ∧ report.IsClean) := by
  constructor
  · intro config report state h
    have hmodules := build_modules_isConsistent h
    obtain ⟨plan, seen, -, hnoted, hstate⟩ := exists_noted_of_build h
    -- the paths are distinct since the walk visits no module twice; the rest is about the entries alone
    exact {
      paths_nodup := hstate ▸ BuildPlan.nodup_paths_of_noted hfs hnoted
      modules := hmodules
      rewritten_le := List.countP_le_length
      failed_le := List.countP_le_length
      ok_iff := BuildReport.ok_iff_isClean hmodules }
  · intro common fs' result h
    rcases Command.run_build_cases h with ⟨events, complaint, rfl⟩ | ⟨real, config, report, state, hbuild, rfl⟩
    · -- a refused command gives no report
      refine iff_of_false (Nat.succ_ne_zero 1) ?_
      rintro ⟨report, houtput, -⟩
      cases houtput
    -- a report is given with the exit code that tells whether it is free of errors
    · have hexit : (CommandResult.done report.ok (.report report) state.events).exitCode = 0 ↔ report.ok = true := by
        unfold CommandResult.done
        cases report.ok with
        | true => exact iff_of_true rfl rfl
        | false => exact iff_of_false Nat.one_ne_zero Bool.false_ne_true
      rw [hexit, BuildReport.ok_iff_isClean (build_modules_isConsistent hbuild)]
      constructor
      · exact fun hclean => ⟨report, rfl, hclean⟩
      · rintro ⟨report', houtput, hclean⟩
        cases houtput
        exact hclean

def partConfig : Config := { mappedConfig with excluded := ["b.js".toList] }

/-- `sourceTree`, with a configuration by which scripts are modules and none is excluded. -/
def configuredTree : FileSystem :=
  { sourceTree with
    entries := ("c".toList, .file (Utf8.encode "extensions: .js\nexclude: []\n".toList)) :: sourceTree.entries }

/-- The command that tries the build with this configuration. -/
def configuredBuild : Command := .build "/src".toList none true ⟨some "/c".toList, false, false⟩

/-- In `sourceTree` one module is rewritten, one is left out and one fails, so the build does not go well; the command
with the configuration of `configuredTree` finds nothing to embed there, and nothing wrong. -/
theorem build_isConsistent_sourceTree :
    (∃ report state,
      build sourceTree "/src".toList (some "/out".toList) partConfig false = .ok (report, state) ∧
        report.modules.map (fun m => (m.status, m.embeddedCalls, m.diagnostics.length)) =
          [(.rewritten, 1, 0), (.skipped, 0, 0), (.failed, 0, 1)] ∧
        report.IsConsistent ∧ ¬ report.IsClean) ∧
      ∃ fs' result, Command.run configuredTree configuredBuild = (fs', .ok result) ∧
        ∃ report, result.output = .report report ∧ report.IsClean := by
  have hwellFormed : sourceTree.WellFormed := by
    simp only [FileSystem.WellFormed, sourceTree, Listing.IsSound, Entry.IsSound, Listing.get?]
    decide +kernel
  have hresult : (build sourceTree "/src".toList (some "/out".toList) partConfig false).toOption.any
      (fun r => r.1.modules.map (fun m => (m.status, m.embeddedCalls, m.diagnostics.length)) =
          [(.rewritten, 1, 0), (.skipped, 0, 0), (.failed, 0, 1)] ∧ r.1.ok = false) = true := by
    decide +kernel
  have hconfigured : configuredTree.WellFormed := by
    simp only [FileSystem.WellFormed, configuredTree, sourceTree, Listing.IsSound, Entry.IsSound, Listing.get?]
    decide +kernel
  have hexit : (Command.run configuredTree configuredBuild).2.toOption.any
      (fun result => result.exitCode = 0) = true := by
    decide +kernel
  constructor
  · obtain ⟨⟨report, state⟩, hbuild, hstatuses⟩ := exists_of_toOption_any hresult
    obtain ⟨hstatuses, hok⟩ := of_decide_eq_true hstatuses
    have hconsistent := (build_isConsistent hwellFormed _ _ _).1 _ _ _ hbuild
    refine ⟨report, state, hbuild, hstatuses, hconsistent, ?_⟩
    rw [← hconsistent.ok_iff, hok]
    exact Bool.false_ne_true
  · cases hended : Command.run configuredTree configuredBuild with
    | mk fs' ended =>
      rw [hended] at hexit
      obtain ⟨result, rfl, hzero⟩ := exists_of_toOption_any hexit
      exact ⟨fs', result, rfl,
        ((build_isConsistent hconfigured _ _ _).2 _ _ _ hended).1 (of_decide_eq_true hzero)⟩

end AssetEmbed
