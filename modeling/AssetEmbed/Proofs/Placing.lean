import AssetEmbed.Proofs.Answering
import AssetEmbed.Proofs.Script.Within

/-!
# Placing — where the diagnostics about a module stand

A diagnostic about a marker call stands at the beginning of a node: of the call, of the variable that is its first
argument, of its second argument, or of the value of one of its options.  The warnings about files that a pattern
selects and that cannot be read are the exception: they stand nowhere.
-/

namespace AssetEmbed

open Script (Source)
open Script.Tree (Placed)

/-! ## 1. The nodes that a call concerns -/

namespace Script.Source

variable {m : Source} {call : Placed} {script : Tree}

def entryValue? (entry : Placed) : Option Placed :=
  match entry.tree with
  | .leaf .shorthandPropertyIdentifier _ => some entry
  | .node .pair _ => entry.parts.getLast?.map (·.unwrapped)
  | _ => none

/-- The nodes that a diagnostic about a marker call can be about. -/
inductive Concerns (call : Placed) : Placed → Prop where
  | call : Concerns call call
  | argumentVariable {p : Placed} {rest : List Placed} {name : Text} : callArguments call = p :: rest →
      p.tree = .leaf .identifier name → Concerns call p
  | secondArgument {first p : Placed} {rest : List Placed} : callArguments call = first :: p :: rest →
      Concerns call p
  | optionValue {object entry value : Placed} : object ∈ callArguments call → object.tree.isKind .object →
      entry ∈ object.named → entryValue? entry = some value → value.tree.kind?.isSome → Concerns call value

theorem Concerns.isNodeOf {q : Placed} (h : Concerns call q) (hcall : call.IsNodeOf script) :
    q.IsNodeOf script := by
  cases h with
  | call => exact hcall
  | argumentVariable hargs _ => exact isNodeOf_of_mem_callArguments hcall (by rw [hargs]; exact List.mem_cons_self)
  | secondArgument hargs =>
    exact isNodeOf_of_mem_callArguments hcall (by rw [hargs]; exact List.mem_cons_of_mem _ List.mem_cons_self)
  | @optionValue object entry value hobject _ hentry hvalue hkind =>
    refine ⟨?_, hkind⟩
    have hwithin : entry.Within ⟨0, script⟩ :=
      ((Tree.within_self entry).of_child (List.mem_filter.1 hentry).1).trans
        (isNodeOf_of_mem_callArguments hcall hobject).1
    unfold entryValue? at hvalue
    split at hvalue
    next => cases hvalue; exact hwithin
    next =>
      obtain ⟨last, hlast, rfl⟩ := Option.map_eq_some_iff.1 hvalue
      exact (last.unwrapped_within.of_child (child_of_getLast?_parts hlast)).trans hwithin
    next => cases hvalue

/-! ## 2. Locations -/

def Locates (m : Source) (call : Placed) (l : Location) : Prop := ∃ q, Concerns call q ∧ l = m.location q

theorem locates_callOptions {object : Placed} (hobject : object ∈ callArguments call)
    (hkind : object.tree.isKind .object) : ∀ o ∈ m.callOptions object, m.Locates call o.location := by
  intro o ho
  obtain ⟨entry, hentry, hoption⟩ := List.mem_filterMap.1 ho
  unfold callOption? at hoption
  split at hoption
  next hshorthand =>
    obtain ⟨key, -, rfl⟩ := Option.map_eq_some_iff.1 hoption
    -- a shorthand property is its own value
    have hvalue : entryValue? entry = some entry := by
      unfold entryValue?
      rw [hshorthand]
    exact ⟨entry, .optionValue hobject hkind hentry hvalue (by rw [hshorthand]; rfl), rfl⟩
  next hpair =>
    simp only [Option.bind_eq_bind, Option.bind_eq_some_iff] at hoption
    obtain ⟨first, -, last, hlast, text, -, key, -, kind, hvalueKind, ho⟩ := hoption
    cases ho
    have hvalue : entryValue? entry = some last.unwrapped := by
      unfold entryValue?
      rw [hpair]
      simp only [hlast, Option.map_some]
    exact ⟨_, .optionValue hobject hkind hentry hvalue (by rw [hvalueKind]; rfl), rfl⟩
  next => cases hoption

theorem secondArgument_cases {first : Placed} {rest : List Placed} (hargs : callArguments call = first :: rest) :
    (∃ options, m.secondArgument rest = .ok options ∧ ∀ o ∈ options, m.Locates call o.location) ∨
      ∃ problem place, m.secondArgument rest = .error (problem, place) ∧ Concerns call place := by
  cases rest with
  | nil => exact .inl ⟨[], rfl, fun _ ho => absurd ho List.not_mem_nil⟩
  | cons object rest =>
    rw [secondArgument]
    split
    next hkind =>
      have hobject : object ∈ callArguments call := by
        rw [hargs]
        exact List.mem_cons_of_mem _ List.mem_cons_self
      exact .inl ⟨_, rfl, locates_callOptions hobject hkind⟩
    next => exact .inr ⟨_, _, rfl, .secondArgument hargs⟩

theorem locates_pathArgument? {first : Placed} {rest : List Placed} (hargs : callArguments call = first :: rest)
    {argument : Argument} (h : m.pathArgument? first = some (some argument)) :
    (∀ name l, argument = .variable name l → m.Locates call l) ∧ ∀ os, argument ≠ .options os := by
  unfold pathArgument? at h
  split at h
  next =>
    obtain ⟨value, -, rfl⟩ := Option.map_eq_some_iff.1 (Option.some.inj h)
    exact ⟨nofun, nofun⟩
  next hidentifier =>
    cases h
    refine ⟨?_, nofun⟩
    rintro _ _ hvariable
    cases hvariable
    exact ⟨first, .argumentVariable hargs hidentifier, rfl⟩
  next => cases h

/-- What is said of a call that is understood stands at nodes that the call concerns. -/
structure Understands (m : Source) (p : Placed) (argument : Argument) (options : List CallOption) : Prop where
  options : ∀ o ∈ options, m.Locates p o.location
  argumentVariable : ∀ name l, argument = .variable name l → m.Locates p l
  argumentOptions : ∀ os, argument = .options os → ∀ o ∈ os, m.Locates p o.location

/-- A call is understood, or there is a problem with a node that it concerns. -/
theorem understand_cases (m : Source) (call : Placed) :
    (∃ argument options, m.understand call (callArguments call) = .ok (argument, options) ∧
      m.Understands call argument options) ∨
    ∃ problem place, m.understand call (callArguments call) = .error (problem, place) ∧ Concerns call place := by
  -- arguments of any other shape are a problem with the call itself
  have hmisshapen : ∃ problem place, (Except.error (CallProblem.arguments, call) :
      Except Refusal (Argument × List CallOption)) = .error (problem, place) ∧ Concerns call place :=
    ⟨_, _, rfl, .call⟩
  cases hargs : callArguments call with
  | nil => exact .inr hmisshapen
  | cons first rest =>
    rw [understand]
    split
    next argument? hpath =>
      split
      next =>
        split
        next argument =>
          -- the first argument is a path or a variable; only the second one can be a problem now
          obtain ⟨hvariable, hoptions⟩ := locates_pathArgument? hargs hpath
          rcases secondArgument_cases (m := m) hargs with ⟨options, hsecond, hlocated⟩ | ⟨_, _, hsecond, hconcerns⟩
          · rw [hsecond]
            exact .inl ⟨argument, options, rfl, hlocated, hvariable, fun os hos => absurd hos (hoptions os)⟩
          · rw [hsecond]
            exact .inr ⟨_, _, rfl, hconcerns⟩
        next => exact .inr hmisshapen
      next => exact .inr hmisshapen
    next =>
      split
      next hobject =>
        have hmem : first ∈ callArguments call := by
          rw [hargs]
          exact List.mem_cons_self
        refine .inl ⟨_, _, rfl, fun _ ho => absurd ho List.not_mem_nil, nofun, ?_⟩
        rintro _ hos
        cases hos
        exact locates_callOptions hmem (Bool.and_eq_true_iff.1 hobject).1
      next => exact .inr hmisshapen

theorem markerCall_cases (m : Source) (p : Placed) :
    (∃ call, m.markerCall p = .ok call ∧ call.location = m.location p ∧
      m.Understands p call.argument call.options) ∨
    ∃ warning l, m.markerCall p = .error warning ∧ warning.location = some l ∧ m.Locates p l := by
  unfold markerCall
  rcases understand_cases m p with ⟨argument, options, h, hunderstood⟩ | ⟨problem, place, h, hconcerns⟩
  · rw [h]
    exact .inl ⟨_, rfl, rfl, hunderstood⟩
  · rw [h]
    exact .inr ⟨_, _, rfl, rfl, place, hconcerns, rfl⟩

end Script.Source

/-! ## 3. What is told about a call -/

theorem locates_optionWarnings {m : Source} {p : Placed} {marker : Text} {options : List CallOption}
    (h : ∀ o ∈ options, m.Locates p o.location) :
    ∀ d ∈ optionWarnings marker options, ∃ l, d.location = some l ∧ m.Locates p l := by
  intro d hd
  obtain ⟨o, ho, rfl⟩ := List.mem_map.1 hd
  exact ⟨o.location, rfl, h o (List.mem_filter.1 ho).1⟩

/-- The warnings about what a call asks for stand at nodes that it concerns. -/
theorem locates_resolve {m : Source} {p : Placed} {call : MarkerCall} {marker encoding : Text}
    {bindings : Bindings} (hlocation : call.location = m.location p)
    (h : m.Understands p call.argument call.options) :
    ∀ d ∈ (call.resolve marker encoding bindings).2, ∃ l, d.location = some l ∧ m.Locates p l := by
  have hcall : m.Locates p call.location := ⟨p, .call, hlocation⟩
  have hentries : ∀ o ∈ call.entries, m.Locates p o.location := by
    unfold MarkerCall.entries
    split
    next options hargument => exact h.argumentOptions options hargument
    next => exact h.options
  have hlocated : ∀ d ∈ optionWarnings marker call.entries, ∃ l, d.location = some l ∧ m.Locates p l :=
    locates_optionWarnings hentries
  have hreason : ∀ warning, call.Refuses marker bindings warning →
      ∃ l, warning.location = some l ∧ m.Locates p l := by
    intro warning hrefuses
    cases hrefuses with
    | unbound hargument => exact ⟨_, rfl, h.argumentVariable _ _ hargument⟩
    | noPatternOrBase => exact ⟨_, rfl, hcall⟩
    | noPattern => exact ⟨_, rfl, hcall⟩
    | emptyTarget => exact ⟨_, rfl, hcall⟩
  rcases MarkerCall.resolve_cases marker encoding bindings call with
    ⟨resolved, hresolve, -⟩ | ⟨warning, hresolve, -, hrefuses⟩ | ⟨warning, hresolve, -, hrefuses⟩
  · rw [hresolve]
    exact hlocated
  · rw [hresolve]
    exact List.forall_mem_singleton.2 (hreason warning hrefuses)
  · rw [hresolve]
    exact List.forall_mem_append.2 ⟨hlocated, List.forall_mem_singleton.2 (hreason warning hrefuses)⟩

/-- Whether a diagnostic is the warning about a file that the pattern of a plan selects, and that cannot be
read. -/
def SearchPlan.Misses [Charsets] (plan : SearchPlan) (fs : FileSystem) (encoding : Text) (d : Diagnostic) : Prop :=
  plan.single = false ∧ ∃ names, fs.expand plan.root plan.pattern = .ok names ∧
    ∃ name ∈ names, fs.warningAt? plan.root encoding name = some d

/-- Whether a diagnostic is the warning about a file that the pattern of a call selects, and that cannot be
read. -/
def MarkerCall.Misses [Charsets] (call : MarkerCall) (fs : FileSystem) (options : TransformOptions)
    (bindings : Bindings) (d : Diagnostic) : Prop :=
  ∃ resolved warnings, call.resolve options.marker options.encoding bindings = (some resolved, warnings) ∧
    (SearchPlan.ofTarget fs call.location.moduleId resolved.options.basePath resolved.target).Misses fs
      resolved.options.encoding d

section

variable {fs : FileSystem} {plan : SearchPlan} {encoding : Text} {location : Location}
  {embedding? : Option Embedding} {events : List Event} {d : Diagnostic}

theorem SearchPlan.Misses.location_eq [Charsets] (h : plan.Misses fs encoding d) : d.location = none := by
  obtain ⟨-, names, -, name, -, hwarning⟩ := h
  unfold FileSystem.warningAt? at hwarning
  simp only at hwarning
  split at hwarning <;> cases hwarning
  rfl

theorem MarkerCall.Misses.location_eq [Charsets] {call : MarkerCall} {options : TransformOptions}
    {bindings : Bindings} (h : call.Misses fs options bindings d) : d.location = none := by
  obtain ⟨_, _, -, hplan⟩ := h
  exact hplan.location_eq

/-- What is told about a plan stands where its call does, except for the warnings about files that its pattern
selects. -/
theorem diagnostics_load [Charsets] (h : load fs plan encoding location = .ok (embedding?, events)) :
    ∀ d ∈ Event.diagnostics events, d.location = some location ∨ plan.Misses fs encoding d := by
  intro d hd
  cases loaded_of_load h with
  | one => exact absurd hd List.not_mem_nil
  | unread =>
    rw [List.mem_singleton.1 hd]
    exact .inl rfl
  | mistaken =>
    rw [List.mem_singleton.1 hd]
    exact .inl rfl
  | @many _ names _ found hmany hnames heach =>
    -- the files are told about one by one, by what reading each of them gives
    have hfound := (FileSystem.loadEach_eq heach).2
    have hd : d ∈ Event.diagnostics found := hd
    rw [hfound, Event.diagnostics_map_diagnostic] at hd
    obtain ⟨name, hname, hwarning⟩ := List.mem_filterMap.1 hd
    exact .inr ⟨hmany, names, hnames, name, hname, hwarning⟩

theorem MarkerCall.diagnostics_cases [Charsets] {m : Source} {p : Placed} {call : MarkerCall}
    {options : TransformOptions} {bindings : Bindings} (hlocation : call.location = m.location p)
    (hunderstood : m.Understands p call.argument call.options) (hd : d ∈ call.diagnostics fs options bindings) :
    (∃ l, d.location = some l ∧ m.Locates p l) ∨ call.Misses fs options bindings d := by
  unfold MarkerCall.diagnostics at hd
  split at hd
  next answer events hembed =>
    have hwarnings : ∀ d ∈ (call.resolve options.marker options.encoding bindings).2,
        ∃ l, d.location = some l ∧ m.Locates p l := locates_resolve hlocation hunderstood
    cases MarkerCall.embeds_of_embed hembed with
    | nothing hresolve =>
      rw [hresolve] at hwarnings
      rw [Event.diagnostics_map_diagnostic] at hd
      exact .inl (hwarnings d hd)
    | @loaded resolved warnings _ _ hresolve hload =>
      rw [hresolve] at hwarnings
      -- the remark about an embedding is no diagnostic
      have hremark : ∀ e : Option Embedding,
          Event.diagnostics (e.map (·.remark call.location)).toList = [] := by
        intro e
        cases e with
        | none => rfl
        | some e => cases e <;> rfl
      rw [Event.diagnostics_append, Event.diagnostics_append, Event.diagnostics_map_diagnostic, hremark,
        List.append_nil] at hd
      rcases List.mem_append.1 hd with hd | hd
      · exact .inl (hwarnings d hd)
      · rcases diagnostics_load hload d hd with hplace | hmisses
        · exact .inl ⟨_, hplace, p, .call, hlocation⟩
        · exact .inr ⟨resolved, warnings, hresolve, hmisses⟩
  next => exact absurd hd List.not_mem_nil

end

/-! ## 4. Modules -/

section

variable {fs : FileSystem} {options : TransformOptions} {moduleId code : Text} {tree : Script.Tree}
  {outcome : Outcome} {events : List Event}

/-- What is told about a module is told about one of its marker calls. -/
theorem exists_placed_of_mem_diagnostics [Charsets]
    (h : transformTree fs options moduleId code tree = .ok (outcome, events)) :
    ∀ d ∈ Event.diagnostics events, ∃ p ∈ modulePlaced options moduleId code tree,
      d ∈ moduleDiagnosticsAt fs options moduleId code tree p := by
  intro d hd
  -- first come the warnings about calls that are not understood, then what each of the others gives
  rw [(diagnostics_transformTree h).1] at hd
  unfold moduleDiagnosticsAt Source.diagnosticsAt
  rcases List.mem_append.1 hd with hd | hd
  · obtain ⟨answer, hanswer, hwarning⟩ := List.mem_filterMap.1 hd
    obtain ⟨p, hp, rfl⟩ := List.mem_map.1 hanswer
    refine ⟨p, hp, ?_⟩
    cases hcall : (⟨moduleId, code, options.marker⟩ : Source).markerCall p with
    | ok call =>
      rw [hcall] at hwarning
      cases hwarning
    | error warning =>
      rw [hcall] at hwarning
      cases hwarning
      exact List.mem_singleton.2 rfl
  · obtain ⟨call, hcall, hd⟩ := List.mem_flatMap.1 hd
    obtain ⟨p, hp, hmarker, hok⟩ := Source.exists_placed_of_mem hcall
    refine ⟨p, List.mem_filter.2 ⟨hp, hmarker⟩, ?_⟩
    rw [hok]
    exact hd

/-- What transforming a module tells is told about its marker calls: a filter and a marker that is not mentioned
leave nothing to tell. -/
theorem exists_placed_of_transform [Charsets] {filter : Option ModuleFilter}
    (htree : Script.Tree.ofScript (Script.Dialect.ofModuleId moduleId) code = .ok tree)
    (h : transform fs filter options moduleId code = .ok (outcome, events)) :
    ∀ d ∈ Event.diagnostics events, ∃ p ∈ modulePlaced options moduleId code tree,
      d ∈ moduleDiagnosticsAt fs options moduleId code tree p := by
  rcases transform_filter_cases fs filter options moduleId code with
    ⟨-, -, haccepted⟩ | ⟨⟨f, hf, hleft⟩, -⟩ | ⟨-, -, -, hloop⟩
  · rw [haccepted] at h
    rcases transformMention_eq fs options moduleId code with ⟨-, hmention⟩ | ⟨-, hmention⟩
    · rw [hmention, transformText, htree] at h
      exact exists_placed_of_mem_diagnostics h
    · rw [hmention] at h
      cases h
      exact fun d hd => absurd hd List.not_mem_nil
  · obtain rfl : filter = some f := hf
    obtain ⟨silent, hsilent, hnone⟩ := transform_of_left_out options code hleft
    rw [hsilent] at h
    cases h
    rw [hnone]
    exact fun d hd => absurd hd List.not_mem_nil
  · rw [hloop] at h
    cases h

/-- What is told about a marker call of a module stands at the beginning of a node of the module: the call, the
variable that is its first argument, its second argument, or the value of one of its options.  Only the warnings
about files that its pattern selects, and that cannot be read, stand nowhere.  And nothing else is told about a
module. -/
theorem diagnostics_stand_at_nodes [Charsets] (fs : FileSystem) (options : TransformOptions)
    (htree : Script.Tree.ofScript (Script.Dialect.ofModuleId moduleId) code = .ok tree) :
    (∀ p ∈ modulePlaced options moduleId code tree, ∀ d ∈ moduleDiagnosticsAt fs options moduleId code tree p,
      (∃ q, Source.Concerns p q ∧ q.IsNodeOf tree ∧ q.tree.text <+: code.drop q.offset ∧
        d.location = some (Script.locate moduleId code q.offset)) ∨
      d.location = none ∧ ∃ call ∈ moduleCalls options moduleId code tree, call.range = p.range ∧
        call.Misses fs options (Script.bindings tree) d) ∧
    ∀ filter outcome events, transform fs filter options moduleId code = .ok (outcome, events) →
      ∀ d ∈ Event.diagnostics events, ∃ p ∈ modulePlaced options moduleId code tree,
        d ∈ moduleDiagnosticsAt fs options moduleId code tree p := by
  refine ⟨?_, fun _ _ _ => exists_placed_of_transform htree⟩
  intro p hp d hd
  obtain ⟨hwithin, hmarker⟩ := List.mem_filter.1 hp
  have hnode : p.IsNodeOf tree := ⟨hwithin, Source.isSome_of_isKind (Bool.and_eq_true_iff.1 hmarker).1⟩
  -- a node that the call concerns is one of the module, and its text stands at its offset
  have hplace : ∀ l, d.location = some l → (⟨moduleId, code, options.marker⟩ : Source).Locates p l →
      ∃ q, Source.Concerns p q ∧ q.IsNodeOf tree ∧ q.tree.text <+: code.drop q.offset ∧
        d.location = some (Script.locate moduleId code q.offset) := by
    rintro _ hl ⟨q, hconcerns, rfl⟩
    have hq := hconcerns.isNodeOf hnode
    have hprefix := hq.text_prefix
    rw [Script.Tree.ofScript_text htree] at hprefix
    exact ⟨q, hconcerns, hq, hprefix, hl⟩
  unfold moduleDiagnosticsAt Source.diagnosticsAt at hd
  rcases Source.markerCall_cases ⟨moduleId, code, options.marker⟩ p with
    ⟨call, hcall, hlocation, hunderstood⟩ | ⟨warning, l, hcall, hl, hlocates⟩
  · rw [hcall] at hd
    rcases MarkerCall.diagnostics_cases hlocation hunderstood hd with ⟨l, hl, hlocates⟩ | hmisses
    · exact .inl (hplace l hl hlocates)
    · exact .inr ⟨hmisses.location_eq, call, Source.mem_markerCalls hp hcall,
        Source.range_of_markerCall hcall, hmisses⟩
  · rw [hcall] at hd
    obtain rfl := List.mem_singleton.1 hd
    exact .inl (hplace l hl hlocates)

end

/-- A call with an argument of no known shape, and a call for files under an encoding that there is none of. -/
def faultyCalls : Text := "[m(1),m('*',\x7bencoding:'q'\x7d)]".toList

/-- The first call of `faultyCalls` has a warning that stands at its beginning, the second one has a warning that
stands nowhere. -/
theorem diagnostics_stand_at_nodes_faultyCalls :
    ∃ tree outcome events,
      Script.Tree.ofScript (Script.Dialect.ofModuleId "/x.js".toList) faultyCalls = .ok tree ∧
      transform oneFile none oneLetter "/x.js".toList faultyCalls = .ok (outcome, events) ∧
      (modulePlaced oneLetter "/x.js".toList faultyCalls tree).length = 2 ∧
      (Event.diagnostics events).map (·.location) = [some ⟨"/x.js".toList, 1, 1⟩, none] ∧
      ∀ d ∈ Event.diagnostics events,
        (∃ q : Placed, q.IsNodeOf tree ∧ q.tree.text <+: faultyCalls.drop q.offset ∧
          d.location = some (Script.locate "/x.js".toList faultyCalls q.offset)) ∨
        d.location = none ∧ ∃ call ∈ moduleCalls oneLetter "/x.js".toList faultyCalls tree,
          call.Misses oneFile oneLetter (Script.bindings tree) d := by
  have hcalls : (Script.Tree.ofScript (Script.Dialect.ofModuleId "/x.js".toList) faultyCalls).toOption.any
      (fun tree => (modulePlaced oneLetter "/x.js".toList faultyCalls tree).length = 2) = true := by
    decide +kernel
  have htold : (transform oneFile none oneLetter "/x.js".toList faultyCalls).toOption.any (fun answer =>
      (Event.diagnostics answer.2).map (·.location) = [some ⟨"/x.js".toList, 1, 1⟩, none]) = true := by
    decide +kernel
  obtain ⟨tree, htree, hcalls⟩ := exists_of_toOption_any hcalls
  obtain ⟨⟨outcome, events⟩, htransform, htold⟩ := exists_of_toOption_any htold
  obtain ⟨hplaces, htells⟩ := diagnostics_stand_at_nodes oneFile oneLetter htree
  refine ⟨tree, outcome, events, htree, htransform, of_decide_eq_true hcalls, of_decide_eq_true htold, ?_⟩
  intro d hd
  obtain ⟨p, hp, hd⟩ := htells none outcome events htransform d hd
  rcases hplaces p hp d hd with ⟨q, -, hq⟩ | ⟨hnone, call, hcall, -, hmisses⟩
  · exact .inl ⟨q, hq⟩
  · exact .inr ⟨hnone, call, hcall, hmisses⟩

/-- A call for files under an encoding that there is none of. -/
def unknownEncodingCall : Text := "m('*',\x7bencoding:'q'\x7d)".toList

/-- The warning about the one file that the pattern of `unknownEncodingCall` selects has no location. -/
theorem missed_file_stands_nowhere :
    ∃ tree outcome events d,
      Script.Tree.ofScript (Script.Dialect.ofModuleId "/x.js".toList) unknownEncodingCall = .ok tree ∧
      (modulePlaced oneLetter "/x.js".toList unknownEncodingCall tree).length = 1 ∧
      transform oneFile none oneLetter "/x.js".toList unknownEncodingCall = .ok (outcome, events) ∧
      d ∈ Event.diagnostics events ∧ d.message = "Error reading file /a: unknown encoding: q" ∧
      d.location = none := by
  have hcalls : (Script.Tree.ofScript (Script.Dialect.ofModuleId "/x.js".toList)
      unknownEncodingCall).toOption.any (fun tree =>
        (modulePlaced oneLetter "/x.js".toList unknownEncodingCall tree).length = 1) = true := by
    decide +kernel
  have htold : (transform oneFile none oneLetter "/x.js".toList unknownEncodingCall).toOption.any (fun answer =>
      (Event.diagnostics answer.2).any fun d =>
        d.message = "Error reading file /a: unknown encoding: q" ∧ d.location = none) = true := by
    decide +kernel
  obtain ⟨tree, htree, hcalls⟩ := exists_of_toOption_any hcalls
  obtain ⟨⟨outcome, events⟩, htransform, htold⟩ := exists_of_toOption_any htold
  obtain ⟨d, hd, hnowhere⟩ := List.any_eq_true.1 htold
  obtain ⟨hmessage, hlocation⟩ := of_decide_eq_true hnowhere
  exact ⟨tree, outcome, events, d, htree, of_decide_eq_true hcalls, htransform, hd, hmessage, hlocation⟩

end AssetEmbed
