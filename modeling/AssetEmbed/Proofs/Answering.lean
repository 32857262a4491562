import AssetEmbed.Proofs.Diagnosing
import AssetEmbed.Proofs.Loading

/-!
# Answering — when transforming a module comes to an end

Two things that a call asks for have no place in a module and end the run: a pattern that cannot be compiled
once its alternatives are written out, and the content of a file under an encoding whose name holds a NUL
character.  A filter ends it for a module whose path runs into a loop of links.  Nothing else does: whatever
else goes wrong with a call is told, and leaves the other calls as they are.
-/

namespace AssetEmbed

/-! ## 1. What a plan needs -/

def Glob.Compiles (alternative : Text) : Prop :=
  ∃ selector, Glob.selector? (Glob.splitDirectory alternative).2 = .ok selector

/-- The paths of the files that a plan reads. -/
def SearchPlan.paths (plan : SearchPlan) (fs : FileSystem) : List Text :=
  if plan.single then [Path.normalize (Path.join plan.root plan.pattern)]
  else match fs.expand plan.root plan.pattern with
    | .ok names => names.map fun name => Path.normalize (Path.join plan.root name)
    | .error _ => []

/-- Whether what a plan looks for can be loaded, or a diagnostic says why not. -/
structure SearchPlan.Answerable [Charsets] (plan : SearchPlan) (fs : FileSystem) (encoding : Text) : Prop where
  compiles : plan.single = false → ∀ alternatives,
    Glob.alternatives plan.pattern = .ok alternatives → ∀ a ∈ alternatives, Glob.Compiles a
  named : Encoding.ofName encoding = .error .embeddedNul →
    ∀ path ∈ plan.paths fs, ∀ bytes, fs.read path ≠ .ok bytes

/-! ## 2. Contents -/

/-- A character set that refuses bytes gives a message of its own. -/
theorem Encoding.decode_ne_embeddedNul (encoding : Encoding) (bytes : Bytes) :
    encoding.decode bytes ≠ .error .embeddedNul := by
  cases encoding with
  | further decode =>
    cases bytes with
    | nil => simp [Encoding.decode]
    | cons b bs => cases hread : decode (b :: bs) <;> simp [Encoding.decode, Except.mapError, hread]
  | _ => simp [Encoding.decode]

/-- The content of a file has no place in a module exactly if the name of the encoding has none. -/
theorem decodeContent_eq_embeddedNul [Charsets] (bytes : Bytes) {encoding : Text} :
    decodeContent bytes encoding = .error .embeddedNul ↔
      Encoding.ofName encoding = .error .embeddedNul := by
  unfold decodeContent
  split
  next found hname => simp [hname, found.decode_ne_embeddedNul]
  next hname => simp [hname]
  next e _ hname => simp [hname]

namespace FileSystem

variable {fs : FileSystem} {root pattern encoding path : Text} {names : List Text}

theorem readContent_eq_embeddedNul [Charsets] :
    fs.readContent path encoding = .error (.encoding .embeddedNul) ↔
      (∃ bytes, fs.read path = .ok bytes) ∧ Encoding.ofName encoding = .error .embeddedNul := by
  unfold readContent
  cases hread : fs.read path with
  | error e => simp
  | ok bytes =>
    rw [← decodeContent_eq_embeddedNul bytes]
    cases hdecode : decodeContent bytes encoding <;> simp [Except.mapError, hdecode]

theorem readContent_ne_embeddedNul [Charsets] :
    fs.readContent path encoding ≠ .error (.encoding .embeddedNul) ↔
      (Encoding.ofName encoding = .error .embeddedNul → ∀ bytes, fs.read path ≠ .ok bytes) := by
  rw [ne_eq, readContent_eq_embeddedNul]
  constructor
  · intro h hname bytes hread
    exact h ⟨⟨bytes, hread⟩, hname⟩
  · rintro h ⟨⟨bytes, hread⟩, hname⟩
    exact h hname bytes hread

theorem loadEach_isOk [Charsets] :
    (∃ answer, loadEach fs root encoding names = .ok answer) ↔
      ∀ name ∈ names, fs.readContent (Path.normalize (Path.join root name)) encoding ≠
        .error (.encoding .embeddedNul) := by
  induction names with
  | nil => simp [loadEach]
  | cons name names ih =>
    unfold loadEach
    simp only
    rw [List.forall_mem_cons, ← ih]
    -- by what reading the file gives: a NUL character in the name of the encoding is all that ends the
    -- loading
    split
    next hread => simp [hread]
    next hread =>
      rw [bind_isOk]
      simp [hread, pure_eq_ok]
    next hne hread =>
      rw [bind_isOk]
      simp only [hread, ne_eq, Except.error.injEq, pure_eq_ok, exists_eq', and_true]
      exact (and_iff_right hne).symm

/-! ## 3. Patterns -/

theorem expandAlternative_isOk (fs : FileSystem) (root alternative : Text) :
    (∃ found, fs.expandAlternative root alternative = .ok found) ↔ Glob.Compiles alternative := by
  unfold expandAlternative Glob.Compiles
  simp only
  cases Glob.selector? (Glob.splitDirectory alternative).2 with
  | error e => simp
  | ok selector => cases selector <;> simp

theorem expandAlternative_eq_error {alternative : Text} {e : ExpansionError}
    (h : fs.expandAlternative root alternative = .error e) : ∃ fault, e = .ignore fault := by
  unfold expandAlternative at h
  simp only at h
  split at h <;> cases h
  exact ⟨_, rfl⟩

/-- Expanding a pattern ends the run exactly if one of its alternatives cannot be compiled. -/
theorem expand_ne_ignore :
    (∀ e, fs.expand root pattern ≠ .error (.ignore e)) ↔
      ∀ alternatives, Glob.alternatives pattern = .ok alternatives →
        ∀ a ∈ alternatives, Glob.Compiles a := by
  unfold expand
  cases Glob.alternatives pattern with
  | error e => simp
  | ok alternatives =>
    simp only [Except.ok.injEq, forall_eq']
    rw [← forall₂_congr fun a _ => expandAlternative_isOk fs root a, ← mapM_isOk]
    cases hfound : alternatives.mapM (fs.expandAlternative root) with
    | ok found => simp [Functor.map, Except.map]
    | error e =>
      obtain ⟨a, -, hfault⟩ := exists_of_mapM_eq_error hfound
      obtain ⟨fault, rfl⟩ := expandAlternative_eq_error hfault
      simp [Functor.map, Except.map]

end FileSystem

/-! ## 4. Calls -/

section

variable {fs : FileSystem} {plan : SearchPlan} {encoding : Text} {location : Location}

theorem loadOne_isOk [Charsets] (hsingle : plan.single) :
    (∃ answer, loadOne fs plan encoding location = .ok answer) ↔ plan.Answerable fs encoding := by
  have hpaths : plan.paths fs = [Path.normalize (Path.join plan.root plan.pattern)] := if_pos hsingle
  have hread : (∃ answer, loadOne fs plan encoding location = .ok answer) ↔
      fs.readContent (Path.normalize (Path.join plan.root plan.pattern)) encoding ≠
        .error (.encoding .embeddedNul) := by
    unfold loadOne
    simp only
    split
    next hread => simp [hread]
    next hread => simp [hread]
    next hne hread =>
      simp only [hread, Except.ok.injEq, exists_eq', ne_eq, Except.error.injEq, true_iff]
      exact hne
  -- a plan for one file has one path, and no pattern that could fail to compile
  rw [hread, FileSystem.readContent_ne_embeddedNul]
  constructor
  · intro h
    refine ⟨fun hmany => absurd hsingle (by rw [hmany]; decide), ?_⟩
    intro hname path hpath
    rw [hpaths, List.mem_singleton] at hpath
    exact hpath ▸ h hname
  · intro h hname
    exact h.named hname _ (by rw [hpaths]; exact List.mem_singleton.2 rfl)

theorem loadMany_isOk [Charsets] (hmany : plan.single = false) :
    (∃ answer, loadMany fs plan encoding location = .ok answer) ↔ plan.Answerable fs encoding := by
  -- what is asked of any plan, as far as it concerns a plan for many files
  have hcompiles : plan.Answerable fs encoding ↔
      (∀ e, fs.expand plan.root plan.pattern ≠ .error (.ignore e)) ∧
        (Encoding.ofName encoding = .error .embeddedNul →
          ∀ path ∈ plan.paths fs, ∀ bytes, fs.read path ≠ .ok bytes) := by
    rw [FileSystem.expand_ne_ignore]
    exact ⟨fun h => ⟨h.compiles hmany, h.named⟩, fun h => ⟨fun _ => h.1, h.2⟩⟩
  have hpaths : plan.paths fs = match fs.expand plan.root plan.pattern with
      | .ok names => names.map fun name => Path.normalize (Path.join plan.root name)
      | .error _ => [] := if_neg (by rw [hmany]; decide)
  rw [hcompiles, hpaths]
  unfold loadMany
  simp only
  cases fs.expand plan.root plan.pattern with
  | error e =>
    cases e with
    | pattern e => simp
    | ignore e => simp
  | ok names =>
    simp only [bind_isOk, pure_eq_ok, exists_eq', and_true, FileSystem.loadEach_isOk,
      FileSystem.readContent_ne_embeddedNul, List.forall_mem_map, ne_eq, reduceCtorEq,
      not_false_eq_true, implies_true, true_and]
    exact ⟨fun h hname name hmem => h name hmem hname, fun h name hmem hname => h hname name hmem⟩

/-- Loading what a plan looks for comes to an end exactly if it has an answer. -/
theorem load_isOk [Charsets] :
    (∃ answer, load fs plan encoding location = .ok answer) ↔ plan.Answerable fs encoding := by
  unfold load
  cases hsingle : plan.single with
  | true => rw [if_pos rfl]; exact loadOne_isOk hsingle
  | false => rw [if_neg (by decide)]; exact loadMany_isOk hsingle

/-- Whether what a call asks for, if it asks for anything, can be loaded or told about. -/
def MarkerCall.Answerable [Charsets] (call : MarkerCall) (fs : FileSystem) (options : TransformOptions)
    (bindings : Bindings) : Prop :=
  ∀ resolved warnings,
    call.resolve options.marker options.encoding bindings = (some resolved, warnings) →
      (SearchPlan.ofTarget fs call.location.moduleId resolved.options.basePath
        resolved.target).Answerable fs resolved.options.encoding

theorem MarkerCall.embed_isOk [Charsets] {call : MarkerCall} {options : TransformOptions} {bindings : Bindings} :
    (∃ answer, call.embed fs options bindings = .ok answer) ↔ call.Answerable fs options bindings := by
  unfold embed Answerable
  cases hresolve : call.resolve options.marker options.encoding bindings with
  | mk resolved? warnings =>
    cases resolved? with
    | none => simp
    | some resolved =>
      simp only [bind_isOk, pure_eq_ok, exists_eq', and_true, Prod.mk.injEq, Option.some.injEq]
      rw [load_isOk]
      constructor
      · rintro h _ _ ⟨rfl, -⟩
        exact h
      · intro h
        exact h resolved warnings ⟨rfl, rfl⟩

/-- Collecting the replacements of calls comes to an end exactly if each of the calls has an answer. -/
theorem Replacements.collect_isOk [Charsets] {options : TransformOptions} {bindings : Bindings}
    {calls : List MarkerCall} {r : Replacements} :
    (∃ answer, Replacements.collect fs options bindings r calls = .ok answer) ↔
      ∀ call ∈ calls, call.Answerable fs options bindings := by
  induction calls generalizing r with
  | nil => simp [collect]
  | cons call calls ih =>
    unfold collect
    rw [bind_isOk, List.forall_mem_cons, ← MarkerCall.embed_isOk]
    constructor
    · rintro ⟨answer, hembed, hrest⟩
      obtain ⟨rest, hcollect, -⟩ := bind_isOk.1 hrest
      exact ⟨⟨answer, hembed⟩, ih.1 ⟨rest, hcollect⟩⟩
    · rintro ⟨⟨answer, hembed⟩, hrest⟩
      obtain ⟨rest, hcollect⟩ := ih.2 hrest
      exact ⟨answer, hembed, bind_isOk.2 ⟨rest, hcollect, _, rfl⟩⟩

end

/-! ## 5. Modules -/

section

variable {fs : FileSystem} {filter : Option ModuleFilter} {options : TransformOptions}
  {moduleId code : Text} {tree : Script.Tree} {outcome : Outcome} {events : List Event}

theorem transformTree_isOk [Charsets] :
    (∃ answer, transformTree fs options moduleId code tree = .ok answer) ↔
      ∀ call ∈ moduleCalls options moduleId code tree,
        call.Answerable fs options (Script.bindings tree) := by
  rw [← Replacements.collect_isOk (r := ⟨Editor.ofText code, []⟩)]
  unfold transformTree moduleCalls
  simp only [bind_isOk, pure_eq_ok, exists_eq', and_true]

theorem Replacements.finish_ne_malformed (r : Replacements) {matched : Nat} {location : Location} :
    r.finish options moduleId matched ≠ .malformed location := by
  unfold finish
  split
  next => nofun
  next => split <;> nofun

/-- A module with a syntax mistake is not transformed; any other one is transformed by its tree. -/
theorem transformText_cases [Charsets] (fs : FileSystem) (options : TransformOptions) (moduleId code : Text) :
    (∃ mistake, Script.Tree.ofScript (Script.Dialect.ofModuleId moduleId) code = .error mistake ∧
      ∃ location events,
        transformText fs options moduleId code = .ok (.malformed location, events)) ∨
    ∃ tree, Script.Tree.ofScript (Script.Dialect.ofModuleId moduleId) code = .ok tree ∧
      transformText fs options moduleId code = transformTree fs options moduleId code tree := by
  unfold transformText
  cases Script.Tree.ofScript (Script.Dialect.ofModuleId moduleId) code with
  | error mistake => exact .inl ⟨mistake, rfl, _, _, rfl⟩
  | ok tree => exact .inr ⟨tree, rfl, rfl⟩

theorem accepts_eq_error {f : ModuleFilter} {e : FileSystem.RealPathError} :
    f.accepts fs moduleId = .error e ↔ e = .loop ∧ fs.realPath moduleId = .error .loop := by
  unfold ModuleFilter.accepts ModuleFilter.relative?
  cases hreal : fs.realPath moduleId with
  | ok path => simp [Functor.map, Except.map]
  | error fault => cases fault <;> simp [Functor.map, Except.map, eq_comm]

/-- What becomes of a module: a filter accepts it, or leaves it out, or ends the run at a loop of links. -/
theorem transform_filter_cases [Charsets] (fs : FileSystem) (filter : Option ModuleFilter)
    (options : TransformOptions) (moduleId code : Text) :
    ((∀ f ∈ filter, f.accepts fs moduleId = .ok true) ∧
      (filter.isSome → fs.realPath moduleId ≠ .error .loop) ∧
      transform fs filter options moduleId code = transformMention fs options moduleId code) ∨
    ((∃ f ∈ filter, f.accepts fs moduleId = .ok false) ∧ fs.realPath moduleId ≠ .error .loop ∧
      ∃ events, transform fs filter options moduleId code = .ok (.untouched, events)) ∨
    ((∃ f ∈ filter, f.accepts fs moduleId = .error .loop) ∧ filter.isSome ∧
      fs.realPath moduleId = .error .loop ∧
      transform fs filter options moduleId code = .error .linkLoop) := by
  cases filter with
  | none => exact .inl ⟨by simp, by simp, rfl⟩
  | some f =>
    -- a filter looks at the real path, so it has an answer only where there is one
    have hloop : ∀ accepted, f.accepts fs moduleId = .ok accepted →
        fs.realPath moduleId ≠ .error .loop := by
      intro accepted haccepts hreal
      rw [accepts_eq_error.2 ⟨rfl, hreal⟩] at haccepts
      cases haccepts
    cases haccepts : f.accepts fs moduleId with
    | ok accepted =>
      cases accepted with
      | true =>
        refine .inl ⟨by simp [haccepts], fun _ => hloop true haccepts, ?_⟩
        simp only [transform, haccepts]
      | false =>
        obtain ⟨events, hevents, -⟩ := transform_of_left_out options code haccepts
        exact .inr (.inl ⟨⟨f, rfl, haccepts⟩, hloop false haccepts, events, hevents⟩)
    | error e =>
      obtain ⟨rfl, hreal⟩ := accepts_eq_error.1 haccepts
      refine .inr (.inr ⟨⟨f, rfl, haccepts⟩, rfl, hreal, ?_⟩)
      simp only [transform, haccepts]
      rfl

theorem transformMention_eq [Charsets] (fs : FileSystem) (options : TransformOptions) (moduleId code : Text) :
    (options.marker <:+: code ∧
      transformMention fs options moduleId code = transformText fs options moduleId code) ∨
    (¬ options.marker <:+: code ∧ transformMention fs options moduleId code = .ok (.untouched, [])) := by
  unfold transformMention
  rw [← Text.contains_iff]
  cases Text.contains code options.marker with
  | true => exact .inl ⟨rfl, rfl⟩
  | false => exact .inr ⟨by decide, rfl⟩

/-- Transforming a module comes to an end exactly if the path of the module that a filter looks at runs into no
loop of links, and every call of a module that is accepted, mentions the marker and has no syntax mistake is
answerable. -/
theorem transform_isOk [Charsets] :
    (∃ answer, transform fs filter options moduleId code = .ok answer) ↔
      (filter.isSome → fs.realPath moduleId ≠ .error .loop) ∧
      ((∀ f ∈ filter, f.accepts fs moduleId = .ok true) → options.marker <:+: code → ∀ tree,
        Script.Tree.ofScript (Script.Dialect.ofModuleId moduleId) code = .ok tree →
          ∀ call ∈ moduleCalls options moduleId code tree,
            call.Answerable fs options (Script.bindings tree)) := by
  rcases transform_filter_cases fs filter options moduleId code with
    ⟨haccepts, hloop, hmention⟩ | ⟨⟨f, hf, hleft⟩, hloop, events, hevents⟩ |
      ⟨⟨f, hf, -⟩, hsome, hloop, habort⟩
  -- no filter stands in the way
  · rw [hmention]
    rcases transformMention_eq fs options moduleId code with ⟨hmarker, htext⟩ | ⟨hmarker, huntouched⟩
    · rw [htext]
      rcases transformText_cases fs options moduleId code with
        ⟨mistake, hmistake, location, events, hmalformed⟩ | ⟨tree, htree, heq⟩
      · rw [hmalformed, hmistake]
        exact ⟨fun _ => ⟨hloop, fun _ _ _ h => nomatch h⟩, fun _ => ⟨_, rfl⟩⟩
      · rw [heq, transformTree_isOk, htree]
        constructor
        · intro h
          refine ⟨hloop, fun _ _ tree' htree' => ?_⟩
          cases htree'
          exact h
        · intro h
          exact h.2 haccepts hmarker tree rfl
    · rw [huntouched]
      exact ⟨fun _ => ⟨hloop, fun _ h => absurd h hmarker⟩, fun _ => ⟨_, rfl⟩⟩
  -- a filter leaves the module out, whatever calls there are
  · rw [hevents]
    refine ⟨fun _ => ⟨fun _ => hloop, fun h => ?_⟩, fun _ => ⟨_, rfl⟩⟩
    rw [h f hf] at hleft
    cases hleft
  -- a filter comes to a loop of links
  · rw [habort]
    constructor
    · rintro ⟨answer, h⟩
      cases h
    · intro h
      exact absurd hloop (h.1 hsome)

/-- A module has a syntax mistake in the end exactly if it is accepted, mentions the marker, and its text has
one. -/
theorem transform_eq_malformed [Charsets] :
    (∃ location events, transform fs filter options moduleId code = .ok (.malformed location, events)) ↔
      (∀ f ∈ filter, f.accepts fs moduleId = .ok true) ∧ options.marker <:+: code ∧
        ∃ mistake, Script.Tree.ofScript (Script.Dialect.ofModuleId moduleId) code = .error mistake := by
  rcases transform_filter_cases fs filter options moduleId code with
    ⟨haccepts, -, hmention⟩ | ⟨⟨f, hf, hleft⟩, -, events, hevents⟩ | ⟨⟨f, hf, hloop⟩, -, -, habort⟩
  · rw [hmention, and_iff_right haccepts]
    rcases transformMention_eq fs options moduleId code with ⟨hmarker, htext⟩ | ⟨hmarker, huntouched⟩
    · rw [htext, and_iff_right hmarker]
      rcases transformText_cases fs options moduleId code with
        ⟨mistake, hmistake, location, events, hmalformed⟩ | ⟨tree, htree, heq⟩
      · rw [hmalformed, hmistake]
        exact ⟨fun _ => ⟨mistake, rfl⟩, fun _ => ⟨location, events, rfl⟩⟩
      · rw [heq, htree]
        constructor
        -- what becomes of a tree that is read is never a syntax mistake
        · rintro ⟨location, events, h⟩
          obtain ⟨r, found, -, hfinish⟩ := transformTree_eq_finish h
          exact absurd hfinish.symm (Replacements.finish_ne_malformed r)
        · rintro ⟨mistake, h⟩
          cases h
    · rw [huntouched]
      constructor
      · rintro ⟨location, events, h⟩
        cases h
      · exact fun h => absurd h.1 hmarker
  · rw [hevents]
    constructor
    · rintro ⟨location, events, h⟩
      cases h
    · intro h
      rw [h.1 f hf] at hleft
      cases hleft
  · rw [habort]
    constructor
    · rintro ⟨location, events, h⟩
      cases h
    · intro h
      rw [h.1 f hf] at hloop
      cases hloop

/-- A marker call of a module that comes to an end is embedded, or it is told about and its own range is not
replaced. -/
theorem embedded_or_left [Charsets]
    (hreturns : transformTree fs options moduleId code tree = .ok (outcome, events))
    {p : Script.Tree.Placed} (hp : p ∈ modulePlaced options moduleId code tree) :
    (∃ c ∈ moduleEmbedded fs options moduleId code tree, c.1.range = p.range) ∨
      (∀ e ∈ moduleEdits fs options moduleId code tree, e.range ≠ p.range) ∧
        ∃ d ∈ moduleDiagnosticsAt fs options moduleId code tree p, d ∈ Event.diagnostics events := by
  by_cases hembedded : ∃ c ∈ moduleEmbedded fs options moduleId code tree, c.1.range = p.range
  · exact .inl hembedded
  · refine .inr ⟨?_, ?_⟩
    · intro e he hrange
      obtain ⟨c, hc, rfl⟩ := List.mem_map.1 he
      exact hembedded ⟨c, (List.mem_filter.1 hc).1, hrange⟩
    · have htold := (embedded_or_diagnosed hreturns hp).resolve_left hembedded
      obtain ⟨d, hd⟩ := List.exists_mem_of_ne_nil _ htold
      exact ⟨d, hd, mem_diagnostics_of_moduleDiagnosticsAt hreturns hp d hd⟩

/-- Transforming a module comes to an end exactly if a filter finds no loop of links in the path of the module
and every call that is understood in it is answerable: its patterns can be compiled, and no file is read for it
under an encoding name with a NUL character.  It ends with a syntax mistake exactly for a module that is
accepted, mentions the marker and has one.  Whenever it comes to an end, whatever went wrong with a call is told
and the range of that call is not replaced, while the outermost of the calls for which something was loaded are
replaced, no matter what became of the others. -/
theorem transform_answers [Charsets] (fs : FileSystem) (filter : Option ModuleFilter) (options : TransformOptions)
    (moduleId code : Text) :
    ((∃ answer, transform fs filter options moduleId code = .ok answer) ↔
      (filter.isSome → fs.realPath moduleId ≠ .error .loop) ∧
      ((∀ f ∈ filter, f.accepts fs moduleId = .ok true) → options.marker <:+: code → ∀ tree,
        Script.Tree.ofScript (Script.Dialect.ofModuleId moduleId) code = .ok tree →
          ∀ call ∈ moduleCalls options moduleId code tree,
            call.Answerable fs options (Script.bindings tree))) ∧
    ((∃ location events,
        transform fs filter options moduleId code = .ok (.malformed location, events)) ↔
      (∀ f ∈ filter, f.accepts fs moduleId = .ok true) ∧ options.marker <:+: code ∧
        ∃ mistake, Script.Tree.ofScript (Script.Dialect.ofModuleId moduleId) code = .error mistake) ∧
    ∀ outcome events tree, transform fs filter options moduleId code = .ok (outcome, events) →
      (∀ f ∈ filter, f.accepts fs moduleId = .ok true) →
      Script.Tree.ofScript (Script.Dialect.ofModuleId moduleId) code = .ok tree →
        outcome.Replaces code (moduleEdits fs options moduleId code tree) ∧
        ∀ p ∈ modulePlaced options moduleId code tree,
          (∃ c ∈ moduleEmbedded fs options moduleId code tree, c.1.range = p.range) ∨
            (∀ e ∈ moduleEdits fs options moduleId code tree, e.range ≠ p.range) ∧
              ∃ d ∈ moduleDiagnosticsAt fs options moduleId code tree p,
                d ∈ Event.diagnostics events := by
  refine ⟨transform_isOk, transform_eq_malformed, ?_⟩
  intro outcome events tree hreturns hfilter htree
  refine ⟨replaces_of_transform htree hfilter hreturns, ?_⟩
  intro p hp
  rcases transform_cases htree hfilter hreturns with h | ⟨hmarker, -⟩
  -- the calls of the tree are those that were gone through
  · exact embedded_or_left h hp
  -- without the marker in the text there is no call
  · rw [modulePlaced_eq_nil (Script.Tree.ofScript_solid htree) (Script.Tree.ofScript_text htree) hmarker] at hp
    exact absurd hp List.not_mem_nil

end

/-- A call with a pattern whose bracket expression has a range with its ends out of order, before a call with
an empty pattern. -/
def misorderedCalls : Text := "[m('[z-a]'),m('*.b')]".toList

/-- The first call of `misorderedCalls` ends the run, so that the second one is not replaced. -/
theorem transform_misorderedCalls :
    transform oneFile none oneLetter "/x.js".toList misorderedCalls = .error (.ignore .badRange) := by
  have h : (match transform oneFile none oneLetter "/x.js".toList misorderedCalls with
      | .error a => decide (a = .ignore .badRange)
      | .ok _ => false) = true := by
    decide +kernel
  cases hreturns : transform oneFile none oneLetter "/x.js".toList misorderedCalls with
  | ok answer =>
    rw [hreturns] at h
    cases h
  | error a =>
    rw [hreturns] at h
    rw [of_decide_eq_true h]

end AssetEmbed
