import AssetEmbed.Proofs.Resolving
import AssetEmbed.Proofs.Rewriting

/-!
# Diagnosing — no marker call is passed over in silence

What is told about a module is told about its marker calls, about each in turn: a call that is not understood
gives one warning, and a call that is understood gives the diagnostics of resolving and loading it.  A call for
which nothing is embedded always gives one.  So each marker call of a module that is worked on lies within a
range that is replaced, or there is a diagnostic about it.
-/

namespace AssetEmbed

/-! ## 1. Calls without an embedding -/

def MarkerCall.diagnostics [Charsets] (call : MarkerCall) (fs : FileSystem) (options : TransformOptions)
    (bindings : Bindings) : List Diagnostic :=
  match call.embed fs options bindings with
  | .ok (_, events) => Event.diagnostics events
  | .error _ => []

theorem MarkerCall.resolve_none {call : MarkerCall} {marker encoding : Text} {bindings : Bindings}
    {warnings : List Diagnostic} (h : call.resolve marker encoding bindings = (none, warnings)) :
    warnings ≠ [] := by
  rcases resolve_cases marker encoding bindings call with
    ⟨resolved, hresolve, -⟩ | ⟨warning, hresolve, -⟩ | ⟨warning, hresolve, -⟩
  · rw [h] at hresolve
    cases hresolve
  · rw [h] at hresolve
    cases hresolve
    exact List.cons_ne_nil _ _
  · rw [h] at hresolve
    cases hresolve
    exact List.append_ne_nil_of_right_ne_nil _ (List.cons_ne_nil _ _)

theorem diagnostics_load_none [Charsets] {fs : FileSystem} {plan : SearchPlan} {encoding : Text}
    {location : Location} {events : List Event} (h : load fs plan encoding location = .ok (none, events)) :
    Event.diagnostics events ≠ [] := by
  cases loaded_of_load h with
  | unread => simp [Event.diagnostics]
  | mistaken => simp [Event.diagnostics]

theorem MarkerCall.diagnostics_embed_none [Charsets] {call : MarkerCall} {fs : FileSystem}
    {options : TransformOptions} {bindings : Bindings} {events : List Event}
    (h : call.embed fs options bindings = .ok (none, events)) : Event.diagnostics events ≠ [] := by
  cases embeds_of_embed h with
  | nothing hresolve =>
    rw [Event.diagnostics_map_diagnostic]
    exact resolve_none hresolve
  | loaded _ hload =>
    have hfound := diagnostics_load_none hload
    simp [hfound]

/-! ## 2. What collecting tells -/

theorem Editor.Outcome.diagnostics_remarks (outcome : Editor.Outcome) (edit : Edit) :
    Event.diagnostics (outcome.remarks edit) = [] := by
  cases outcome with
  | refused blocker => rfl
  | accepted editor absorbed => simp [remarks, Event.diagnostics]

theorem Replacements.diagnostics_offer (r : Replacements) (call : MarkerCall) (embedding : Embedding) :
    Event.diagnostics (r.offer call embedding).2 = [] := by
  unfold offer
  simp only
  split <;> exact Editor.Outcome.diagnostics_remarks _ _

/-- Collecting tells about each call what there is to tell about it, in order, and only ends with an answer if
every call has one. -/
theorem Replacements.diagnostics_collect [Charsets] {fs : FileSystem} {options : TransformOptions}
    {bindings : Bindings} {calls : List MarkerCall} {r r' : Replacements} {events : List Event}
    (h : Replacements.collect fs options bindings r calls = .ok (r', events)) :
    Event.diagnostics events = calls.flatMap (·.diagnostics fs options bindings) ∧
      ∀ call ∈ calls, ∃ answer, call.embed fs options bindings = .ok answer := by
  induction calls generalizing r events with
  | nil =>
    cases h
    exact ⟨rfl, fun _ hcall => absurd hcall List.not_mem_nil⟩
  | cons call calls ih =>
    unfold collect at h
    obtain ⟨⟨embedding?, found⟩, hembed, h⟩ := bind_eq_ok.1 h
    obtain ⟨⟨last, more⟩, hrest, h⟩ := bind_eq_ok.1 h
    cases h
    obtain ⟨hmore, hanswers⟩ := ih hrest
    refine ⟨?_, List.forall_mem_cons.2 ⟨⟨_, hembed⟩, hanswers⟩⟩
    -- what is told about the first call is what embedding it tells: offering the result tells nothing
    rw [List.flatMap_cons, ← hmore]
    unfold MarkerCall.diagnostics
    rw [hembed]
    cases embedding? with
    | none => simp
    | some embedding => simp [diagnostics_offer]

/-! ## 3. Marker calls -/

namespace Script.Source

variable {m : Source}

/-- What is told about a marker call: the one warning if it is not understood, and otherwise what resolving
and loading it gives. -/
def diagnosticsAt [Charsets] (m : Source) (fs : FileSystem) (options : TransformOptions) (bindings : Bindings)
    (p : Tree.Placed) : List Diagnostic :=
  match m.markerCall p with
  | .ok call => call.diagnostics fs options bindings
  | .error warning => [warning]

theorem mem_warnings {script : Tree} {p : Tree.Placed} {warning : Diagnostic}
    (hp : p ∈ m.placedCalls script) (h : m.markerCall p = .error warning) :
    warning ∈ (m.markerCalls script).2 :=
  List.mem_filterMap.2 ⟨_, List.mem_map_of_mem hp, by rw [h]⟩

theorem mem_markerCalls {script : Tree} {p : Tree.Placed} {call : MarkerCall}
    (hp : p ∈ m.placedCalls script) (h : m.markerCall p = .ok call) :
    call ∈ (m.markerCalls script).1 :=
  List.mem_filterMap.2 ⟨_, List.mem_map_of_mem hp, by rw [h]⟩

theorem range_of_markerCall {p : Tree.Placed} {call : MarkerCall} (h : m.markerCall p = .ok call) :
    call.range = p.range := by
  obtain ⟨hstart, hstop⟩ := markerCall_range h
  exact Range.ext_iff_ends.2 ⟨congrArg Int.ofNat hstart, congrArg Int.ofNat hstop⟩

end Script.Source

/-! ## 4. Modules -/

def modulePlaced (options : TransformOptions) (moduleId code : Text) (tree : Script.Tree) :
    List Script.Tree.Placed :=
  (⟨moduleId, code, options.marker⟩ : Script.Source).placedCalls tree

/-- What is told about a marker call of a module. -/
def moduleDiagnosticsAt [Charsets] (fs : FileSystem) (options : TransformOptions) (moduleId code : Text)
    (tree : Script.Tree) (p : Script.Tree.Placed) : List Diagnostic :=
  (⟨moduleId, code, options.marker⟩ : Script.Source).diagnosticsAt fs options (Script.bindings tree) p

/-- The replacements that are left for a module: those of its embedded calls that are not within wider
ones. -/
def moduleEdits [Charsets] (fs : FileSystem) (options : TransformOptions) (moduleId code : Text)
    (tree : Script.Tree) : List Edit :=
  (outermostCalls (moduleEmbedded fs options moduleId code tree)).map Embedded.edit

/-- Whether an outcome is a text with some ranges replaced, or the text as it is if there are none. -/
def Outcome.Replaces (code : Text) (edits : List Edit) (outcome : Outcome) : Prop :=
  (edits = [] ∧ outcome = .untouched) ∨
    (edits ≠ [] ∧ ∃ result, outcome = .transformed result ∧ result.code = spliced code edits)

section

variable {fs : FileSystem} {options : TransformOptions} {moduleId code : Text} {tree : Script.Tree}
  {outcome : Outcome} {events : List Event} {p : Script.Tree.Placed}

/-- Every call that is embedded lies within a range that is replaced. -/
theorem exists_moduleEdit_contains [Charsets] (hsolid : tree.Solid) {c : Embedded}
    (hc : c ∈ moduleEmbedded fs options moduleId code tree) :
    ∃ e ∈ moduleEdits fs options moduleId code tree, e.range.contains c.1.range := by
  have hseparate : Replacements.Separate (moduleEmbedded fs options moduleId code tree) :=
    separate_moduleEmbedded hsolid
  have htracks := (Replacements.tracks_ofText code).foldl hseparate
  have hperm := htracks.outermost.perm hseparate.laminar (List.pairwise_map.2 hseparate.distinct)
  obtain ⟨e, he, hcontains⟩ := htracks.outermost.covered c.edit (List.mem_map_of_mem hc)
  refine ⟨e, ?_, hcontains⟩
  unfold moduleEdits
  rw [map_edit_outermostCalls]
  exact hperm.mem_iff.1 he

/-- A module is replaced in the ranges of its outermost embedded calls. -/
theorem replaces_of_transformTree [Charsets] (hsolid : tree.Solid) (htext : tree.text = code)
    (h : transformTree fs options moduleId code tree = .ok (outcome, events)) :
    outcome.Replaces code (moduleEdits fs options moduleId code tree) := by
  obtain ⟨r, found, hcollect, rfl⟩ := transformTree_eq_finish h
  obtain ⟨htracks, hcode⟩ := tracks_of_moduleReplacements hsolid hcollect
  have hseparate : Replacements.Separate (moduleEmbedded fs options moduleId code tree) :=
    separate_moduleEmbedded hsolid
  -- the editor has an edit exactly if a call is embedded, and only then is anything replaced
  by_cases hnil : moduleEmbedded fs options moduleId code tree = []
  · refine .inl ⟨?_, ?_⟩
    · unfold moduleEdits
      rw [hnil]
      rfl
    · rw [Replacements.finish, if_pos (htracks.edits_eq_nil_iff.2 hnil)]
  · have hfits : ∀ c ∈ moduleEmbedded fs options moduleId code tree, c.edit.Fits r.editor.text := by
      rw [hcode]
      exact fits_of_mem_moduleEmbedded hsolid htext
    obtain ⟨result, hresult, hspliced, -⟩ := finish_of_tracks htracks hseparate options moduleId
      (moduleCalls options moduleId code tree).length hfits hnil
    rw [hcode] at hspliced
    refine .inr ⟨?_, result, hresult, hspliced⟩
    -- some outermost call lies around an embedded one
    intro hedits
    obtain ⟨c, hc⟩ := List.exists_mem_of_ne_nil _ hnil
    obtain ⟨e, he, -⟩ := exists_moduleEdit_contains hsolid hc
    rw [hedits] at he
    exact absurd he List.not_mem_nil

theorem diagnostics_transformTree [Charsets]
    (h : transformTree fs options moduleId code tree = .ok (outcome, events)) :
    Event.diagnostics events =
        ((⟨moduleId, code, options.marker⟩ : Script.Source).markerCalls tree).2 ++
          (moduleCalls options moduleId code tree).flatMap
            (·.diagnostics fs options (Script.bindings tree)) ∧
      ∀ call ∈ moduleCalls options moduleId code tree,
        ∃ answer, call.embed fs options (Script.bindings tree) = .ok answer := by
  obtain ⟨r, found, hcollect, -⟩ := transformTree_eq_finish h
  obtain ⟨hfound, hanswers⟩ := Replacements.diagnostics_collect hcollect
  refine ⟨?_, hanswers⟩
  rw [← hfound]
  unfold moduleReplacements moduleCalls at hcollect
  simp only [transformTree, bind, Except.bind, hcollect] at h
  cases h
  rw [Event.diagnostics_append, Event.diagnostics_map_diagnostic]

/-- All that there is to tell about a marker call is told about its module. -/
theorem mem_diagnostics_of_moduleDiagnosticsAt [Charsets]
    (h : transformTree fs options moduleId code tree = .ok (outcome, events))
    (hp : p ∈ modulePlaced options moduleId code tree) :
    ∀ d ∈ moduleDiagnosticsAt fs options moduleId code tree p, d ∈ Event.diagnostics events := by
  intro d hd
  rw [(diagnostics_transformTree h).1]
  unfold moduleDiagnosticsAt Script.Source.diagnosticsAt at hd
  split at hd
  next call hcall =>
    have hmem := Script.Source.mem_markerCalls hp hcall
    exact List.mem_append_right _ (List.mem_flatMap.2 ⟨call, hmem, hd⟩)
  next warning hwarning =>
    obtain rfl := List.mem_singleton.1 hd
    exact List.mem_append_left _ (Script.Source.mem_warnings hp hwarning)

/-- A marker call is embedded, or there is something to tell about it. -/
theorem embedded_or_diagnosed [Charsets]
    (h : transformTree fs options moduleId code tree = .ok (outcome, events))
    (hp : p ∈ modulePlaced options moduleId code tree) :
    (∃ c ∈ moduleEmbedded fs options moduleId code tree, c.1.range = p.range) ∨
      moduleDiagnosticsAt fs options moduleId code tree p ≠ [] := by
  unfold moduleDiagnosticsAt Script.Source.diagnosticsAt
  split
  next call hcall =>
    have hmem := Script.Source.mem_markerCalls hp hcall
    -- the calls were gone through, so this one was embedded or had something told about it
    obtain ⟨⟨embedding?, found⟩, hembed⟩ := (diagnostics_transformTree h).2 call hmem
    cases embedding? with
    | none =>
      refine .inr ?_
      unfold MarkerCall.diagnostics
      rw [hembed]
      exact MarkerCall.diagnostics_embed_none hembed
    | some embedding =>
      exact .inl ⟨(call, embedding), mem_moduleEmbedded hmem hembed, Script.Source.range_of_markerCall hcall⟩
  next warning _ => exact .inr (List.cons_ne_nil _ _)

theorem modulePlaced_eq_nil (hsolid : tree.Solid) (htext : tree.text = code)
    (h : ¬ options.marker <:+: code) : modulePlaced options moduleId code tree = [] := by
  rw [List.eq_nil_iff_forall_not_mem]
  intro p hp
  obtain ⟨hp, hmarker⟩ := List.mem_filter.1 hp
  have hspelled := (Script.Source.isMarkerCall_text hmarker
    (Script.Tree.descend_solid 0 tree hsolid p hp)).1
  refine h (hspelled.trans ?_)
  rw [← htext]
  exact Script.Tree.descend_isInfix 0 tree p hp

theorem moduleEdits_eq_nil [Charsets] (hsolid : tree.Solid) (htext : tree.text = code)
    (h : ¬ options.marker <:+: code) : moduleEdits fs options moduleId code tree = [] := by
  unfold moduleEdits moduleEmbedded
  rw [moduleCalls_eq_nil hsolid htext h]
  rfl

/-- A module that no filter leaves out is replaced in the ranges of its outermost embedded calls. -/
theorem replaces_of_transform [Charsets] {filter : Option ModuleFilter}
    (htree : Script.Tree.ofScript (Script.Dialect.ofModuleId moduleId) code = .ok tree)
    (hfilter : ∀ f ∈ filter, f.accepts fs moduleId = .ok true)
    (hreturns : transform fs filter options moduleId code = .ok (outcome, events)) :
    outcome.Replaces code (moduleEdits fs options moduleId code tree) := by
  have hsolid := Script.Tree.ofScript_solid htree
  have htext := Script.Tree.ofScript_text htree
  rcases transform_cases htree hfilter hreturns with h | ⟨hmarker, rfl⟩
  · exact replaces_of_transformTree hsolid htext h
  · exact .inl ⟨moduleEdits_eq_nil hsolid htext hmarker, rfl⟩

theorem transform_of_left_out [Charsets] {filter : ModuleFilter} (options : TransformOptions) (code : Text)
    (h : filter.accepts fs moduleId = .ok false) :
    ∃ events, transform fs (some filter) options moduleId code = .ok (.untouched, events) ∧
      Event.diagnostics events = [] := by
  simp only [transform, h]
  exact ⟨_, rfl, rfl⟩

/-- A module that no filter leaves out is replaced in the ranges of its outermost embedded calls, and in no other.
Every marker call lies within one of these ranges, or there is a diagnostic among those about the module that arose
from this very call.  So if nothing is told, all marker calls are replaced. -/
theorem marker_call_replaced_or_diagnosed [Charsets] {filter : Option ModuleFilter}
    (htree : Script.Tree.ofScript (Script.Dialect.ofModuleId moduleId) code = .ok tree)
    (hfilter : ∀ f ∈ filter, f.accepts fs moduleId = .ok true)
    (hreturns : transform fs filter options moduleId code = .ok (outcome, events)) :
    outcome.Replaces code (moduleEdits fs options moduleId code tree) ∧
      (∀ p ∈ modulePlaced options moduleId code tree,
        (∃ e ∈ moduleEdits fs options moduleId code tree, e.range.contains p.range) ∨
          ∃ d ∈ moduleDiagnosticsAt fs options moduleId code tree p, d ∈ Event.diagnostics events) ∧
      (Event.diagnostics events = [] → ∀ p ∈ modulePlaced options moduleId code tree,
        ∃ e ∈ moduleEdits fs options moduleId code tree, e.range.contains p.range) := by
  have hsolid := Script.Tree.ofScript_solid htree
  have hcalls : ∀ p ∈ modulePlaced options moduleId code tree,
      (∃ e ∈ moduleEdits fs options moduleId code tree, e.range.contains p.range) ∨
        ∃ d ∈ moduleDiagnosticsAt fs options moduleId code tree p, d ∈ Event.diagnostics events := by
    intro p hp
    rcases transform_cases htree hfilter hreturns with h | ⟨hmarker, -⟩
    -- an embedded call lies within an outermost one; of another one something is told
    · rcases embedded_or_diagnosed h hp with ⟨c, hc, hrange⟩ | htold
      · rw [← hrange]
        exact .inl (exists_moduleEdit_contains hsolid hc)
      · obtain ⟨d, hd⟩ := List.exists_mem_of_ne_nil _ htold
        exact .inr ⟨d, hd, mem_diagnostics_of_moduleDiagnosticsAt h hp d hd⟩
    -- without the marker in the text there is no call
    · rw [modulePlaced_eq_nil hsolid (Script.Tree.ofScript_text htree) hmarker] at hp
      exact absurd hp List.not_mem_nil
  refine ⟨replaces_of_transform htree hfilter hreturns, hcalls, ?_⟩
  intro hsilent p hp
  rcases hcalls p hp with hreplaced | ⟨d, -, hd⟩
  · exact hreplaced
  · rw [hsilent] at hd
    exact absurd hd List.not_mem_nil

end

/-- Two calls, of which the second one has an argument of no known shape. -/
def mixedCalls : Text := "[m('a'),m(1)]".toList

/-- Of the two calls of `mixedCalls` just the first one is replaced, and there is a warning about the second one. -/
theorem marker_call_replaced_or_diagnosed_mixedCalls :
    ∃ tree outcome events,
      Script.Tree.ofScript (Script.Dialect.ofModuleId "/x.js".toList) mixedCalls = .ok tree ∧
      transform oneFile none oneLetter "/x.js".toList mixedCalls = .ok (outcome, events) ∧
      (modulePlaced oneLetter "/x.js".toList mixedCalls tree).map (fun p => (p.offset, p.stop)) =
        [(1, 7), (8, 12)] ∧
      (moduleEdits oneFile oneLetter "/x.js".toList mixedCalls tree).map
        (fun e => (e.range.start, e.range.stop)) = [(1, 7)] ∧
      (Event.diagnostics events).length = 1 ∧
      outcome.Replaces mixedCalls (moduleEdits oneFile oneLetter "/x.js".toList mixedCalls tree) ∧
      ∀ p ∈ modulePlaced oneLetter "/x.js".toList mixedCalls tree,
        (∃ e ∈ moduleEdits oneFile oneLetter "/x.js".toList mixedCalls tree, e.range.contains p.range) ∨
          ∃ d ∈ moduleDiagnosticsAt oneFile oneLetter "/x.js".toList mixedCalls tree p,
            d ∈ Event.diagnostics events := by
  have hcalls : (Script.Tree.ofScript (Script.Dialect.ofModuleId "/x.js".toList)
      mixedCalls).toOption.any (fun tree =>
        decide ((modulePlaced oneLetter "/x.js".toList mixedCalls tree).map (fun p => (p.offset, p.stop)) =
          [(1, 7), (8, 12)]) &&
        decide ((moduleEdits oneFile oneLetter "/x.js".toList mixedCalls tree).map
          (fun e => (e.range.start, e.range.stop)) = [(1, 7)])) = true := by
    decide +kernel
  have htold : (transform oneFile none oneLetter "/x.js".toList mixedCalls).toOption.any
      (fun answer => (Event.diagnostics answer.2).length = 1) = true := by
    decide +kernel
  cases htree : Script.Tree.ofScript (Script.Dialect.ofModuleId "/x.js".toList) mixedCalls with
  | error e =>
    rw [htree] at hcalls
    cases hcalls
  | ok tree =>
    rw [htree] at hcalls
    obtain ⟨hplaced, hedits⟩ := Bool.and_eq_true_iff.1 hcalls
    cases htransform : transform oneFile none oneLetter "/x.js".toList mixedCalls with
    | error a =>
      rw [htransform] at htold
      cases htold
    | ok answer =>
      obtain ⟨outcome, events⟩ := answer
      rw [htransform] at htold
      obtain ⟨hreplaces, hspec, -⟩ := marker_call_replaced_or_diagnosed htree (by simp) htransform
      exact ⟨tree, outcome, events, rfl, rfl, of_decide_eq_true hplaced, of_decide_eq_true hedits,
        of_decide_eq_true htold, hreplaces, hspec⟩

/-- In a module that a filter leaves out, marker calls stay without a word. -/
theorem marker_call_left_out_in_silence :
    ∃ filter tree events,
      ModuleFilter.ofLines? "/".toList [] ["*.js".toList] = .ok filter ∧
      Script.Tree.ofScript (Script.Dialect.ofModuleId "/x.js".toList) nestedCalls = .ok tree ∧
      (modulePlaced oneLetter "/x.js".toList nestedCalls tree).length = 2 ∧
      transform oneFile (some filter) oneLetter "/x.js".toList nestedCalls = .ok (.untouched, events) ∧
      Event.diagnostics events = [] := by
  have hcalls : (Script.Tree.ofScript (Script.Dialect.ofModuleId "/x.js".toList)
      nestedCalls).toOption.any (fun tree =>
        (modulePlaced oneLetter "/x.js".toList nestedCalls tree).length = 2) = true := by
    decide +kernel
  have hexcluded : (ModuleFilter.ofLines? "/".toList [] ["*.js".toList]).toOption.any (fun filter =>
      decide (filter.accepts oneFile "/x.js".toList = .ok false)) = true := by
    decide +kernel
  cases htree : Script.Tree.ofScript (Script.Dialect.ofModuleId "/x.js".toList) nestedCalls with
  | error e =>
    rw [htree] at hcalls
    cases hcalls
  | ok tree =>
    rw [htree] at hcalls
    cases hfilter : ModuleFilter.ofLines? "/".toList [] ["*.js".toList] with
    | error e =>
      rw [hfilter] at hexcluded
      cases hexcluded
    | ok filter =>
      rw [hfilter] at hexcluded
      have haccepts : filter.accepts oneFile "/x.js".toList = .ok false := of_decide_eq_true hexcluded
      obtain ⟨events, htransform, hsilent⟩ := transform_of_left_out oneLetter nestedCalls haccepts
      exact ⟨filter, tree, events, rfl, rfl, of_decide_eq_true hcalls, htransform, hsilent⟩

end AssetEmbed
