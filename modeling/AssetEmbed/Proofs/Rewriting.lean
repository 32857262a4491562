import AssetEmbed.Proofs.Outermost
import AssetEmbed.Proofs.Script.Nesting
import AssetEmbed.Proofs.Sequencing
import AssetEmbed.Transform
import Mathlib.Algebra.Ring.Nat

/-!
# Rewriting — what becomes of a module

The calls of a module that are embedded are offered to an editor one after the other.  In the end the
outermost of them are replaced, each by its own literal, and the counts that go with them are theirs.
-/

namespace AssetEmbed

/-! ## 1. Embedded calls -/

/-- A call with what takes its place. -/
abbrev Embedded := MarkerCall × Embedding

def Embedded.edit (c : Embedded) : Edit := ⟨c.1.range, c.2.literal⟩

def Embedded.files (c : Embedded) : Nat := c.2.records.length

/-- What takes the place of a call, if anything does. -/
def MarkerCall.embedding? [Charsets] (call : MarkerCall) (fs : FileSystem) (options : TransformOptions)
    (bindings : Bindings) : Option Embedding :=
  match call.embed fs options bindings with
  | .ok (embedding, _) => embedding
  | .error _ => none

/-- The calls among some that are embedded. -/
def embeddedCalls [Charsets] (fs : FileSystem) (options : TransformOptions) (bindings : Bindings)
    (calls : List MarkerCall) : List Embedded :=
  calls.filterMap fun call => (call.embedding? fs options bindings).map (call, ·)

/-- The embedded calls that are not within wider ones. -/
def outermostCalls (cs : List Embedded) : List Embedded :=
  cs.filter fun c => cs.all fun d => !c.1.range.isInside d.1.range

/-- How loading what a plan tells ends: the one file is recorded, or it cannot be read; the files that the pattern
selects are loaded one by one, or the pattern is mistaken. -/
inductive Loaded [Charsets] (fs : FileSystem) (plan : SearchPlan) (encoding : Text) (location : Location) :
    Option Embedding → List Event → Prop
  | one {mode : String} {content : Text} (hsingle : plan.single = true)
      (hread : fs.readContent (Path.normalize (Path.join plan.root plan.pattern)) encoding = .ok content) :
      Loaded fs plan encoding location
        (some (.one (.ofContent fs plan.root (Path.normalize (Path.join plan.root plan.pattern)) content)))
        [.info mode]
  | unread {mode message : String} (hsingle : plan.single = true) :
      Loaded fs plan encoding location none [.info mode, .diagnostic (.errorAt location message)]
  | many {mode : String} {names : List Text} {records : List FileRecord} {found : List Event}
      (hmany : plan.single = false) (hnames : fs.expand plan.root plan.pattern = .ok names)
      (heach : loadEach fs plan.root encoding names = .ok (records, found)) :
      Loaded fs plan encoding location (some (.many records)) (.info mode :: found)
  | mistaken {mode message : String} (hmany : plan.single = false) :
      Loaded fs plan encoding location none [.info mode, .diagnostic (.warningAt location message)]

theorem loaded_of_load [Charsets] {fs : FileSystem} {plan : SearchPlan} {encoding : Text} {location : Location}
    {embedding? : Option Embedding} {events : List Event}
    (h : load fs plan encoding location = .ok (embedding?, events)) :
    Loaded fs plan encoding location embedding? events := by
  unfold load at h
  split at h
  next hsingle =>
    unfold loadOne at h
    simp only at h
    split at h
    next content hread =>
      cases h
      exact .one hsingle hread
    next => cases h
    next =>
      cases h
      exact .unread hsingle
  next hsingle =>
    have hmany := Bool.eq_false_iff.2 hsingle
    unfold loadMany at h
    simp only at h
    split at h
    next => cases h
    next =>
      cases h
      exact .mistaken hmany
    next names hnames =>
      obtain ⟨⟨records, found⟩, heach, h⟩ := bind_eq_ok.1 h
      cases h
      exact .many hmany hnames heach

/-- How a call is worked on: it asks for nothing, or what it asks for is loaded, and a remark made if that succeeds. -/
inductive MarkerCall.Embeds [Charsets] (call : MarkerCall) (fs : FileSystem) (options : TransformOptions)
    (bindings : Bindings) : Option Embedding → List Event → Prop
  | nothing {warnings : List Diagnostic}
      (hresolve : call.resolve options.marker options.encoding bindings = (none, warnings)) :
      Embeds call fs options bindings none (warnings.map .diagnostic)
  | loaded {resolved : ResolvedCall} {warnings : List Diagnostic} {embedding? : Option Embedding}
      {found : List Event}
      (hresolve : call.resolve options.marker options.encoding bindings = (some resolved, warnings))
      (hload : load fs
        (SearchPlan.ofTarget fs call.location.moduleId resolved.options.basePath resolved.target)
        resolved.options.encoding call.location = .ok (embedding?, found)) :
      Embeds call fs options bindings embedding?
        (warnings.map .diagnostic ++ found ++ (embedding?.map (·.remark call.location)).toList)

theorem MarkerCall.embeds_of_embed [Charsets] {call : MarkerCall} {fs : FileSystem} {options : TransformOptions}
    {bindings : Bindings} {embedding? : Option Embedding} {events : List Event}
    (h : call.embed fs options bindings = .ok (embedding?, events)) :
    call.Embeds fs options bindings embedding? events := by
  unfold embed at h
  split at h
  next warnings hresolve =>
    cases h
    exact .nothing hresolve
  next resolved warnings hresolve =>
    obtain ⟨⟨loaded, found⟩, hload, h⟩ := bind_eq_ok.1 h
    cases h
    exact .loaded hresolve hload

theorem map_edit_outermostCalls (cs : List Embedded) :
    (outermostCalls cs).map Embedded.edit = Editor.outermost (cs.map Embedded.edit) := by
  unfold outermostCalls Editor.outermost
  rw [List.filter_map]
  simp only [List.all_map]
  rfl

/-! ## 2. Offering calls -/

def Replacements.step (r : Replacements) (c : Embedded) : Replacements := (r.offer c.1 c.2).1

namespace Replacements

variable {r r' : Replacements} {c : Embedded} {offered : List Embedded}

theorem step_of_refused {b : Edit} (h : r.editor.offer c.edit = .refused b) : r.step c = r := by
  unfold Embedded.edit at h
  unfold step Replacements.offer
  simp only [h]

theorem step_of_accepted {editor : Editor} {absorbed : List Edit}
    (h : r.editor.offer c.edit = .accepted editor absorbed) :
    r.step c = ⟨editor, (c.1.range, c.files) :: r.counts⟩ := by
  unfold Embedded.edit at h
  unfold step Replacements.offer
  simp only [h]
  rfl

theorem step_editor (r : Replacements) (c : Embedded) :
    (r.step c).editor = (r.editor.add c.edit).1 := by
  unfold Editor.add
  cases h : r.editor.offer c.edit with
  | refused b => rw [step_of_refused h]
  | accepted editor absorbed => rw [step_of_accepted h]

theorem collect_eq_foldl [Charsets] {fs : FileSystem} {options : TransformOptions} {bindings : Bindings}
    {calls : List MarkerCall} {events : List Event}
    (h : Replacements.collect fs options bindings r calls = .ok (r', events)) :
    r' = (embeddedCalls fs options bindings calls).foldl step r := by
  induction calls generalizing r events with
  | nil =>
    cases h
    rfl
  | cons call calls ih =>
    unfold collect at h
    obtain ⟨⟨embedding?, found⟩, hembed, h⟩ := bind_eq_ok.1 h
    obtain ⟨⟨last, more⟩, hrest, h⟩ := bind_eq_ok.1 h
    cases h
    have hembedding : call.embedding? fs options bindings = embedding? := by
      unfold MarkerCall.embedding?
      rw [hembed]
    unfold embeddedCalls
    rw [List.filterMap_cons, hembedding]
    -- a call that is not embedded is passed over by both
    cases embedding? with
    | none => exact ih hrest
    | some embedding => exact ih hrest

/-! ## 3. The invariant of a collection -/

/-- What was collected from the embedded calls that were offered: the outermost of them, and the number
of files in each. -/
structure Tracks (offered : List Embedded) (r : Replacements) : Prop where
  outermost : r.editor.Outermost (offered.map Embedded.edit)
  counts : ∀ c ∈ offered, c.edit ∈ r.editor.edits →
    (r.counts.find? fun (s, _) => s = c.1.range) = some (c.1.range, c.files)

/-- Whether embedded calls cover different ranges that are not empty, and apart or nested. -/
structure Separate (cs : List Embedded) : Prop where
  laminar : Laminar (cs.map Embedded.edit)
  distinct : cs.Pairwise fun c d => c.1.range ≠ d.1.range

theorem Separate.of_append {cs ds : List Embedded} (h : Separate (cs ++ ds)) : Separate cs where
  laminar := by
    have hl := h.laminar
    rw [List.map_append] at hl
    exact hl.of_append
  distinct := (List.pairwise_append.1 h.distinct).1

/-- One offer keeps the invariant. -/
theorem Tracks.step (h : Tracks offered r) (hs : Separate (offered ++ [c])) :
    Tracks (offered ++ [c]) (r.step c) := by
  have hl := hs.laminar
  have hdistinct := (List.pairwise_append.1 hs.distinct).2.2
  rw [List.map_append] at hl
  refine ⟨?_, ?_⟩
  · rw [step_editor, List.map_append]
    exact h.outermost.add hl
  · intro d hd hleft
    rcases r.editor.offer_cases c.edit with ⟨b, hb, hoverlaps, hwidth, hoffer⟩ | ⟨hfree, hoffer⟩
    · rw [step_of_refused hoffer] at hleft ⊢
      rcases List.mem_append.1 hd with hd | hd
      · exact h.counts d hd hleft
      · -- what is refused is not left, since it was not offered before
        obtain rfl := List.mem_singleton.1 hd
        obtain ⟨x, hx, heq⟩ := List.mem_map.1 (h.outermost.mem_offered hleft)
        exact absurd (congrArg Edit.range heq) (hdistinct x hx d (List.mem_singleton.2 rfl))
    · rw [step_of_accepted hoffer] at hleft ⊢
      rcases List.mem_append.1 hd with hd | hd
      -- an accepted replacement adds a count for a range that no earlier one has
      · have hne := hdistinct d hd c (List.mem_singleton.2 rfl)
        rcases List.mem_append.1 hleft with hleft | hleft
        · rw [List.find?_cons_of_neg (by simpa using Ne.symm hne)]
          exact h.counts d hd (List.mem_filter.1 hleft).1
        · exact absurd (congrArg Edit.range (List.mem_singleton.1 hleft)) hne
      · obtain rfl := List.mem_singleton.1 hd
        rw [List.find?_cons_of_pos (by simp)]

theorem Tracks.foldl (h : Tracks offered r) {cs : List Embedded} (hs : Separate (offered ++ cs)) :
    Tracks (offered ++ cs) (cs.foldl Replacements.step r) := by
  induction cs generalizing offered r with
  | nil => simpa using h
  | cons c cs ih =>
    rw [List.append_cons] at hs ⊢
    exact ih (h.step hs.of_append) hs

theorem tracks_ofText (text : Text) : Tracks [] ⟨Editor.ofText text, []⟩ where
  outermost := Editor.outermost_ofText text
  counts _ hc := absurd hc List.not_mem_nil

theorem foldl_text (r : Replacements) (cs : List Embedded) :
    (cs.foldl step r).editor.text = r.editor.text := by
  induction cs generalizing r with
  | nil => rfl
  | cons c cs ih =>
    rw [List.foldl_cons, ih, step_editor, Editor.add_text]

/-- The number of files in what is left is that of the outermost calls. -/
theorem Tracks.files_eq (h : Tracks offered r) (hs : Separate offered) :
    r.files = ((outermostCalls offered).map Embedded.files).sum := by
  have hperm := h.outermost.perm hs.laminar (List.pairwise_map.2 hs.distinct)
  rw [← map_edit_outermostCalls] at hperm
  have hsum : r.files = (r.editor.edits.map fun e => r.count e.range).sum := by
    rw [List.sum_eq_foldr, List.foldr_map]
    rfl
  rw [hsum, (hperm.map _).sum_nat, List.map_map]
  congr 1
  refine List.map_congr_left ?_
  intro c hc
  have hleft : c.edit ∈ r.editor.edits := hperm.mem_iff.2 (List.mem_map_of_mem hc)
  have hcount := h.counts c (List.mem_filter.1 hc).1 hleft
  show r.count c.1.range = c.files
  unfold count
  rw [hcount]

theorem Tracks.count_isSome (h : Tracks offered r) :
    ∀ e ∈ r.editor.edits, (r.counts.find? fun (s, _) => s = e.range).isSome := by
  intro e he
  obtain ⟨c, hc, rfl⟩ := List.mem_map.1 (h.outermost.mem_offered he)
  have hcount := h.counts c hc he
  show (r.counts.find? fun (s, _) => s = c.1.range).isSome
  rw [hcount]
  rfl

/-- Nothing is left only if nothing was offered. -/
theorem Tracks.edits_eq_nil_iff (h : Tracks offered r) : r.editor.edits = [] ↔ offered = [] := by
  constructor
  · intro hnil
    rw [List.eq_nil_iff_forall_not_mem]
    intro c hc
    obtain ⟨d, hd, -⟩ := h.outermost.covered c.edit (List.mem_map_of_mem hc)
    rw [hnil] at hd
    exact absurd hd List.not_mem_nil
  · rintro rfl
    rw [List.eq_nil_iff_forall_not_mem]
    intro d hd
    exact absurd (h.outermost.mem_offered hd) List.not_mem_nil

end Replacements

/-! ## 4. The calls of a module -/

namespace Script.Source

variable {m : Source} {tree : Tree}

instance : Std.Symm fun a b : MarkerCall => a.range.Nests b.range where
  symm a b h := by
    rcases h with h | h | h
    · exact .inl (by rw [Range.overlaps_comm]; exact h)
    · exact .inr (.inr h)
    · exact .inr (.inl h)

theorem markerCalls_pairwise_nests (hsolid : tree.Solid) :
    (m.markerCalls tree).1.Pairwise fun a b => a.range.Nests b.range := by
  refine (markerCalls_precede hsolid).imp ?_
  rintro a b (h | h)
  · exact .inl (Range.overlaps_eq_false_iff.2 (.inl (Int.ofNat_le.2 h)))
  · exact .inr (.inl (Range.contains_iff.2 ⟨Int.ofNat_le.2 (Nat.le_of_lt h.1), Int.ofNat_le.2 h.2⟩))

theorem markerCalls_pairwise_ne (hsolid : tree.Solid) :
    (m.markerCalls tree).1.Pairwise fun a b => a.range ≠ b.range := by
  refine List.Pairwise.imp_of_mem ?_ (markerCalls_precede (m := m) hsolid)
  intro a b ha hb hprecedes heq
  have ha := markerCalls_bounds hsolid a ha
  have hb := markerCalls_bounds hsolid b hb
  obtain ⟨hstart, hstop⟩ := Range.ext_iff_ends.1 heq
  have hstart : a.start = b.start := Int.ofNat_inj.1 hstart
  have hstop : a.stop = b.stop := Int.ofNat_inj.1 hstop
  omega

/-- Calls that are embedded cover different ranges that are apart or nested. -/
theorem separate_embeddedCalls [Charsets] (hsolid : tree.Solid) (fs : FileSystem) (options : TransformOptions)
    (bindings : Bindings) :
    Replacements.Separate (embeddedCalls fs options bindings (m.markerCalls tree).1) := by
  have hcalls : ∀ c ∈ embeddedCalls fs options bindings (m.markerCalls tree).1,
      c.1 ∈ (m.markerCalls tree).1 := by
    intro c hc
    obtain ⟨call, hcall, hembedding⟩ := List.mem_filterMap.1 hc
    obtain ⟨e, -, rfl⟩ := Option.map_eq_some_iff.1 hembedding
    exact hcall
  refine ⟨⟨?_, ?_⟩, ?_⟩
  · intro e he
    obtain ⟨c, hc, rfl⟩ := List.mem_map.1 he
    exact Int.ofNat_lt.2 (markerCalls_bounds hsolid c.1 (hcalls c hc)).1
  · intro a ha b hb
    obtain ⟨c, hc, rfl⟩ := List.mem_map.1 ha
    obtain ⟨d, hd, rfl⟩ := List.mem_map.1 hb
    refine (markerCalls_pairwise_nests hsolid).forall_of_forall ?_ (hcalls c hc) (hcalls d hd)
    intro call _
    exact .inr (.inl (Range.contains_refl _))
  · unfold embeddedCalls
    rw [List.pairwise_filterMap]
    refine (markerCalls_pairwise_ne hsolid).imp ?_
    intro a b hne c hc d hd
    obtain ⟨_, -, rfl⟩ := Option.map_eq_some_iff.1 hc
    obtain ⟨_, -, rfl⟩ := Option.map_eq_some_iff.1 hd
    exact hne

end Script.Source

/-! ## 5. Modules -/

theorem Text.contains_iff {s p : Text} : s.contains p ↔ p <:+: s := by
  induction s with
  | nil =>
    unfold contains
    rw [Bool.or_false, List.isPrefixOf_iff_prefix, List.prefix_nil, List.infix_nil]
  | cons c s ih =>
    unfold contains
    rw [Bool.or_eq_true, List.isPrefixOf_iff_prefix, List.infix_cons_iff, ih]

/-- The calls of a module that are understood. -/
def moduleCalls (options : TransformOptions) (moduleId code : Text) (tree : Script.Tree) :
    List MarkerCall :=
  ((⟨moduleId, code, options.marker⟩ : Script.Source).markerCalls tree).1

def moduleEmbedded [Charsets] (fs : FileSystem) (options : TransformOptions) (moduleId code : Text)
    (tree : Script.Tree) : List Embedded :=
  embeddedCalls fs options (Script.bindings tree) (moduleCalls options moduleId code tree)

theorem mem_moduleEmbedded [Charsets] {fs : FileSystem} {options : TransformOptions} {moduleId code : Text}
    {tree : Script.Tree} {call : MarkerCall} {embedding : Embedding} {events : List Event}
    (hcall : call ∈ moduleCalls options moduleId code tree)
    (hembed : call.embed fs options (Script.bindings tree) = .ok (some embedding, events)) :
    (call, embedding) ∈ moduleEmbedded fs options moduleId code tree := by
  refine List.mem_filterMap.2 ⟨call, hcall, ?_⟩
  unfold MarkerCall.embedding?
  rw [hembed]
  rfl

/-- What is collected from the calls of a module. -/
def moduleReplacements [Charsets] (fs : FileSystem) (options : TransformOptions) (moduleId code : Text)
    (tree : Script.Tree) : Except Abort (Replacements × List Event) :=
  Replacements.collect fs options (Script.bindings tree) ⟨Editor.ofText code, []⟩
    (moduleCalls options moduleId code tree)

section

variable {fs : FileSystem} {options : TransformOptions} {moduleId code : Text} {tree : Script.Tree}
  {outcome : Outcome} {events : List Event}

theorem separate_moduleEmbedded [Charsets] (hsolid : tree.Solid) :
    Replacements.Separate (moduleEmbedded fs options moduleId code tree) :=
  Script.Source.separate_embeddedCalls hsolid fs options _

theorem tracks_of_moduleReplacements [Charsets] (hsolid : tree.Solid) {r : Replacements}
    (h : moduleReplacements fs options moduleId code tree = .ok (r, events)) :
    Replacements.Tracks (moduleEmbedded fs options moduleId code tree) r ∧ r.editor.text = code := by
  have hfold := Replacements.collect_eq_foldl h
  have hseparate : Replacements.Separate (moduleEmbedded fs options moduleId code tree) :=
    separate_moduleEmbedded hsolid
  constructor
  · rw [hfold]
    exact (Replacements.tracks_ofText code).foldl hseparate
  · rw [hfold, Replacements.foldl_text]
    rfl

/-- Transforming a module collects its replacements and makes them. -/
theorem transformTree_eq_finish [Charsets]
    (h : transformTree fs options moduleId code tree = .ok (outcome, events)) :
    ∃ r found, moduleReplacements fs options moduleId code tree = .ok (r, found) ∧
      outcome = r.finish options moduleId (moduleCalls options moduleId code tree).length := by
  cases hcollect : moduleReplacements fs options moduleId code tree with
  | error a =>
    unfold moduleReplacements moduleCalls at hcollect
    simp [transformTree, bind, Except.bind, hcollect] at h
  | ok result =>
    obtain ⟨r, found⟩ := result
    refine ⟨r, found, rfl, ?_⟩
    unfold moduleReplacements moduleCalls at hcollect
    simp only [transformTree, bind, Except.bind, hcollect] at h
    cases h
    rfl

theorem moduleCalls_eq_nil (hsolid : tree.Solid) (htext : tree.text = code)
    (h : ¬ options.marker <:+: code) : moduleCalls options moduleId code tree = [] :=
  Script.Source.markerCalls_eq_nil hsolid (by rw [htext]; exact h)

/-- Making the replacements of a module replaces its outermost embedded calls. -/
theorem finish_of_tracks {r : Replacements} {cs : List Embedded} (h : Replacements.Tracks cs r)
    (hs : Replacements.Separate cs) (options : TransformOptions) (moduleId : Text) (matched : Nat)
    (hfits : ∀ c ∈ cs, c.edit.Fits r.editor.text) (hne : cs ≠ []) :
    ∃ result, r.finish options moduleId matched = .transformed result ∧
      result.code = spliced r.editor.text ((outermostCalls cs).map Embedded.edit) ∧
      result.stats = ⟨matched, (outermostCalls cs).length,
        ((outermostCalls cs).map Embedded.files).sum⟩ := by
  have hedits : r.editor.edits ≠ [] := fun hnil => hne (h.edits_eq_nil_iff.1 hnil)
  have hfits : ∀ e ∈ cs.map Embedded.edit, e.Fits r.editor.text := by
    intro e he
    obtain ⟨c, hc, rfl⟩ := List.mem_map.1 he
    exact hfits c hc
  have hdistinct : (cs.map Embedded.edit).Pairwise fun a b => a.range ≠ b.range :=
    List.pairwise_map.2 hs.distinct
  obtain ⟨edited, hok, htext, happlied⟩ := h.outermost.apply_eq hs.laminar hdistinct hfits
  rw [← map_edit_outermostCalls] at htext happlied
  rw [List.length_map] at happlied
  unfold Replacements.finish
  rw [if_neg hedits, hok]
  refine ⟨_, rfl, htext, ?_⟩
  -- what is applied is what is left, and that is the outermost replacements in some order
  have hlength : edited.applied = r.editor.edits.length := by
    rw [happlied, (h.outermost.perm hs.laminar hdistinct).length_eq, ← map_edit_outermostCalls,
      List.length_map]
  show (⟨matched, r.editor.edits.length, r.files⟩ : TransformStats) = _
  rw [← hlength, happlied, h.files_eq hs]

theorem fits_of_mem_moduleEmbedded [Charsets] (hsolid : tree.Solid) (htext : tree.text = code) :
    ∀ c ∈ moduleEmbedded fs options moduleId code tree, c.edit.Fits code := by
  intro c hc
  obtain ⟨call, hcall, hembedding⟩ := List.mem_filterMap.1 hc
  obtain ⟨e, -, rfl⟩ := Option.map_eq_some_iff.1 hembedding
  have hbounds := Script.Source.markerCalls_bounds hsolid call hcall
  rw [htext] at hbounds
  exact ⟨Int.natCast_nonneg _, Int.ofNat_le.2 hbounds.2⟩

/-- A module with an accepting filter is transformed by its tree, or it does not mention the marker. -/
theorem transform_cases [Charsets] {filter : Option ModuleFilter}
    (htree : Script.Tree.ofScript (Script.Dialect.ofModuleId moduleId) code = .ok tree)
    (hfilter : ∀ f ∈ filter, f.accepts fs moduleId = .ok true)
    (h : transform fs filter options moduleId code = .ok (outcome, events)) :
    transformTree fs options moduleId code tree = .ok (outcome, events) ∨
      (¬ options.marker <:+: code ∧ outcome = .untouched) := by
  have hmention : transformMention fs options moduleId code = .ok (outcome, events) := by
    cases filter with
    | none => exact h
    | some f =>
      simp only [transform, hfilter f rfl] at h
      exact h
  unfold transformMention at hmention
  split at hmention
  next =>
    unfold transformText at hmention
    rw [htree] at hmention
    exact .inl hmention
  next hcontains =>
    cases hmention
    exact .inr ⟨fun hinfix => hcontains (Text.contains_iff.2 hinfix), rfl⟩

/-- Transforming a module replaces exactly the calls that are embedded and not within wider ones of these,
each by its own literal, and counts the files in these.  A module stays untouched exactly if no call is
embedded.  The count of every replacement that is left is known. -/
theorem transform_replaces_outermost [Charsets] {filter : Option ModuleFilter}
    (htree : Script.Tree.ofScript (Script.Dialect.ofModuleId moduleId) code = .ok tree)
    (hfilter : ∀ f ∈ filter, f.accepts fs moduleId = .ok true)
    (hreturns : transform fs filter options moduleId code = .ok (outcome, events)) :
    (outcome = .untouched ↔ moduleEmbedded fs options moduleId code tree = []) ∧
    (moduleEmbedded fs options moduleId code tree ≠ [] →
      ∃ result, outcome = .transformed result ∧
        result.code = spliced code
          ((outermostCalls (moduleEmbedded fs options moduleId code tree)).map Embedded.edit) ∧
        result.stats = {
          callsMatched := (moduleCalls options moduleId code tree).length
          callsReplaced := (outermostCalls (moduleEmbedded fs options moduleId code tree)).length
          filesEmbedded :=
            ((outermostCalls (moduleEmbedded fs options moduleId code tree)).map
              Embedded.files).sum }) ∧
    ∃ replacements found,
      moduleReplacements fs options moduleId code tree = .ok (replacements, found) ∧
      ∀ e ∈ replacements.editor.edits,
        (replacements.counts.find? fun (range, _) => range = e.range).isSome := by
  have hsolid := Script.Tree.ofScript_solid htree
  have htext := Script.Tree.ofScript_text htree
  rcases transform_cases htree hfilter hreturns with h | ⟨hmarker, rfl⟩
  · obtain ⟨r, found, hcollect, hfinish⟩ := transformTree_eq_finish h
    obtain ⟨htracks, hcode⟩ := tracks_of_moduleReplacements hsolid hcollect
    have hseparate : Replacements.Separate (moduleEmbedded fs options moduleId code tree) :=
      separate_moduleEmbedded hsolid
    have hfits : ∀ c ∈ moduleEmbedded fs options moduleId code tree, c.edit.Fits r.editor.text := by
      rw [hcode]
      exact fits_of_mem_moduleEmbedded hsolid htext
    -- the module is searched: making its replacements splices the outermost ones into its text
    have htransformed := finish_of_tracks htracks hseparate options moduleId
      (moduleCalls options moduleId code tree).length hfits
    rw [← hfinish, hcode] at htransformed
    refine ⟨⟨?_, ?_⟩, htransformed, r, found, hcollect, htracks.count_isSome⟩
    · intro huntouched
      by_contra hne
      obtain ⟨result, hresult, -⟩ := htransformed hne
      rw [huntouched] at hresult
      cases hresult
    · intro hnil
      rw [hfinish, Replacements.finish, if_pos (htracks.edits_eq_nil_iff.2 hnil)]
  -- the marker is not mentioned: there are no calls, and nothing was collected
  · have hcalls : moduleCalls options moduleId code tree = [] :=
      moduleCalls_eq_nil hsolid htext hmarker
    have hnil : moduleEmbedded fs options moduleId code tree = [] := by
      unfold moduleEmbedded
      rw [hcalls]
      rfl
    refine ⟨⟨fun _ => hnil, fun _ => rfl⟩, fun hne => absurd hnil hne,
      ⟨Editor.ofText code, []⟩, [], ?_, ?_⟩
    · unfold moduleReplacements
      rw [hcalls]
      rfl
    · intro e he
      exact absurd he List.not_mem_nil

end

/-- A file system with one file. -/
def oneFile : FileSystem := ⟨[("a".toList, .file [104, 105])], "/".toList⟩

/-- Options with a marker of one letter. -/
def oneLetter : TransformOptions := ⟨"m".toList, "utf-8".toList, false⟩

/-- A call with another call in its options, which are no literals then. -/
def nestedCalls : Text := "m('a',\x7bbasePath:m('a')\x7d)".toList

/-- Both calls of `nestedCalls` are embedded, and the outer one is replaced. -/
theorem transform_replaces_outermost_nestedCalls :
    ∃ tree result events,
      Script.Tree.ofScript (Script.Dialect.ofModuleId "/x.js".toList) nestedCalls = .ok tree ∧
      transform oneFile none oneLetter "/x.js".toList nestedCalls =
        .ok (.transformed result, events) ∧
      (moduleEmbedded oneFile oneLetter "/x.js".toList nestedCalls tree).length = 2 ∧
      result.code = spliced nestedCalls ((outermostCalls
        (moduleEmbedded oneFile oneLetter "/x.js".toList nestedCalls tree)).map Embedded.edit) ∧
      result.stats = ⟨2, 1, 1⟩ := by
  have hreturns : (transform oneFile none oneLetter "/x.js".toList nestedCalls).isOk := by
    decide +kernel
  have hcounts : (match Script.Tree.ofScript (Script.Dialect.ofModuleId "/x.js".toList)
      nestedCalls with
      | .error _ => false
      | .ok tree =>
        let embedded := moduleEmbedded oneFile oneLetter "/x.js".toList nestedCalls tree
        decide ((moduleCalls oneLetter "/x.js".toList nestedCalls tree).length = 2 ∧
          embedded.length = 2 ∧ (outermostCalls embedded).length = 1 ∧
          ((outermostCalls embedded).map Embedded.files).sum = 1)) = true := by
    decide +kernel
  cases htree : Script.Tree.ofScript (Script.Dialect.ofModuleId "/x.js".toList) nestedCalls with
  | error e =>
    rw [htree] at hcounts
    cases hcounts
  | ok tree =>
    cases htransform : transform oneFile none oneLetter "/x.js".toList nestedCalls with
    | error a =>
      rw [htransform] at hreturns
      cases hreturns
    | ok returned =>
      obtain ⟨outcome, events⟩ := returned
      rw [htree] at hcounts
      obtain ⟨hmatched, hembedded, hreplaced, hfiles⟩ :=
        of_decide_eq_true hcounts
      have hspec := transform_replaces_outermost htree (by simp) htransform
      have hne : moduleEmbedded oneFile oneLetter "/x.js".toList nestedCalls tree ≠ [] := by
        intro hnil
        rw [hnil] at hembedded
        cases hembedded
      obtain ⟨result, rfl, hcode, hstats⟩ := hspec.2.1 hne
      rw [hmatched, hreplaced, hfiles] at hstats
      exact ⟨tree, result, events, rfl, rfl, hembedded, hcode, hstats⟩

end AssetEmbed
