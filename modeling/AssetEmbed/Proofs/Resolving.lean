import AssetEmbed.Call.Resolve

/-!
# Resolving — what a call asks for, and what is said about it

The options of a call are the entries of one object: its only argument, or its second one.  An option has the last
literal value that an entry gives it, whatever entries come between, or its default.  A call asks for nothing if no
path, pattern or variable tells what, and then the last warning says why.
-/

namespace AssetEmbed

/-! ## 1. Values of options -/

def OptionValues.get (v : OptionValues) : OptionKey → Text
  | .basePath => v.basePath
  | .pattern => v.pattern
  | .encoding => v.encoding

theorem OptionValues.get_set (v : OptionValues) (key other : OptionKey) (value : Text) :
    (v.set key value).get other = if key = other then value else v.get other := by
  cases key <;> cases other <;> rfl

/-- Whether a value is the one that entries give an option: the literal value of the last entry for the option that
has one, or the default if there is none. -/
inductive Gives (key : OptionKey) (default : Text) : List CallOption → Text → Prop where
  | last {before after : List CallOption} {o : CallOption} {value : Text} : o.key = key → o.value = some value →
      (∀ p ∈ after, p.key = key → p.value = none) → Gives key default (before ++ o :: after) value
  | none {options : List CallOption} : (∀ o ∈ options, o.key = key → o.value = none) →
      Gives key default options default

section

variable {key : OptionKey} {default value : Text} {options : List CallOption}

theorem gives_nil : Gives key default [] value ↔ value = default := by
  constructor
  · intro h
    generalize hnil : ([] : List CallOption) = options at h
    cases h with
    | last => exact absurd hnil.symm (List.append_ne_nil_of_right_ne_nil _ (List.cons_ne_nil _ _))
    | none => rfl
  · rintro rfl
    exact .none (List.forall_mem_nil _)

/-- An entry in front of others counts if it has a literal value for the option and no later one has. -/
theorem gives_cons {o : CallOption} :
    Gives key default (o :: options) value ↔
      Gives key (if o.key = key then o.value.getD default else default) options value := by
  constructor
  · intro h
    generalize hcons : o :: options = all at h
    cases h with
    | @last before after p value hkey hvalue hafter =>
      -- the last entry with a value is the one in front, or it is among the others
      cases before with
      | nil =>
        cases hcons
        rw [if_pos hkey, hvalue]
        exact .none hafter
      | cons _ before =>
        cases hcons
        exact .last hkey hvalue hafter
    | none hnone =>
      subst hcons
      obtain ⟨hfirst, hrest⟩ := List.forall_mem_cons.1 hnone
      by_cases hkey : o.key = key
      · rw [if_pos hkey, hfirst hkey]
        exact .none hrest
      · rw [if_neg hkey]
        exact .none hrest
  · intro h
    cases h with
    | @last before after p _ hkey hvalue hafter =>
      show Gives key default ((o :: before) ++ p :: after) value
      exact .last hkey hvalue hafter
    | none hnone =>
      by_cases hkey : o.key = key
      · rw [if_pos hkey]
        cases hvalue : o.value with
        | some v =>
          show Gives key default ([] ++ o :: options) v
          exact .last hkey hvalue hnone
        | none => exact .none (List.forall_mem_cons.2 ⟨fun _ => hvalue, hnone⟩)
      · rw [if_neg hkey]
        exact .none (List.forall_mem_cons.2 ⟨fun h => absurd h hkey, hnone⟩)

/-- Applying entries one after the other leaves each option with the value that they give it, and with no other. -/
theorem OptionValues.gives_iff (v : OptionValues) :
    Gives key (v.get key) options value ↔ value = (v.apply options).get key := by
  -- the values so far are the defaults of the entries that are left, so they change in the induction
  induction options generalizing v with
  | nil => exact gives_nil
  | cons o options ih =>
    rw [gives_cons]
    cases hvalue : o.value with
    | none =>
      have happly : v.apply (o :: options) = v.apply options := by
        unfold apply
        rw [List.foldl_cons, hvalue]
      rw [Option.getD_none, ite_self, happly]
      exact ih v
    | some literal =>
      have happly : v.apply (o :: options) = (v.set o.key literal).apply options := by
        unfold apply
        rw [List.foldl_cons, hvalue]
      rw [Option.getD_some, ← get_set, happly]
      exact ih (v.set o.key literal)

end

/-! ## 2. Warnings -/

/-- Whether warnings are those about the entries without a literal value: one for each of them, in order. -/
inductive Warns (marker : Text) : List CallOption → List Diagnostic → Prop where
  | nil : Warns marker [] []
  | literal {o : CallOption} {options : List CallOption} {warnings : List Diagnostic} : o.value.isSome →
      Warns marker options warnings → Warns marker (o :: options) warnings
  | other {o : CallOption} {options : List CallOption} {warnings : List Diagnostic} : o.value = none →
      Warns marker options warnings →
      Warns marker (o :: options) (CallProblem.warning marker o.location (.option o.key o.kind) :: warnings)

theorem warns_optionWarnings (marker : Text) (options : List CallOption) :
    Warns marker options (optionWarnings marker options) := by
  unfold optionWarnings
  induction options with
  | nil => exact .nil
  | cons o options ih =>
    cases hvalue : o.value with
    | none =>
      rw [List.filter_cons_of_pos (by rw [hvalue]; rfl)]
      exact .other hvalue ih
    | some value =>
      rw [List.filter_cons_of_neg (by rw [hvalue]; exact Bool.false_ne_true)]
      exact .literal (by rw [hvalue]; rfl) ih

/-! ## 3. What a call asks for -/

namespace MarkerCall

def entries (call : MarkerCall) : List CallOption :=
  match call.argument with
  | .options options => options
  | _ => call.options

/-- Whether a call has options alone, and these leave the pattern at its default. -/
def IsPatternless (call : MarkerCall) : Prop :=
  ∃ options, call.argument = .options options ∧
    Gives .pattern OptionValues.defaultPattern options OptionValues.defaultPattern

def IsUnbound (call : MarkerCall) (bindings : Bindings) : Prop :=
  ∃ name location, call.argument = .variable name location ∧ bindings.get? name = none

/-- Whether a call names a path or pattern: by a literal, by a variable that stands for it, or by an option. -/
inductive Names (bindings : Bindings) (call : MarkerCall) (target : Text) : Prop where
  | literal : call.argument = .literal target → Names bindings call target
  | bound {name : Text} {location : Location} : call.argument = .variable name location →
      bindings.get? name = some target → Names bindings call target
  | pattern {options : List CallOption} : call.argument = .options options →
      Gives .pattern OptionValues.defaultPattern options target → Names bindings call target

/-- Whether a call asks for something, and what. -/
structure AsksFor (encoding : Text) (bindings : Bindings) (call : MarkerCall) (resolved : ResolvedCall) : Prop where
  names : call.Names bindings resolved.target
  target_ne_nil : resolved.target ≠ []
  not_isPatternless : ¬ call.IsPatternless
  gives : ∀ key, Gives key ((OptionValues.default encoding).get key) call.entries (resolved.options.get key)

/-- Whether a warning says why a call asks for nothing. -/
inductive Refuses (marker : Text) (bindings : Bindings) (call : MarkerCall) : Diagnostic → Prop where
  | noPatternOrBase : call.IsPatternless → Gives .basePath [] call.entries [] →
      Refuses marker bindings call (CallProblem.warning marker call.location .noPatternOrBase)
  | noPattern {base : Text} : call.IsPatternless → Gives .basePath [] call.entries base → base ≠ [] →
      Refuses marker bindings call (CallProblem.warning marker call.location .noPattern)
  | unbound {name : Text} {location : Location} : call.argument = .variable name location →
      bindings.get? name = none → Refuses marker bindings call (CallProblem.warning marker location (.unbound name))
  | emptyTarget : call.Names bindings [] →
      Refuses marker bindings call (CallProblem.warning marker call.location .emptyTarget)

section

variable {marker encoding : Text} {bindings : Bindings} {call : MarkerCall}

theorem gives_pattern_iff (encoding : Text) {options : List CallOption} {value : Text} :
    Gives .pattern OptionValues.defaultPattern options value ↔
      value = ((OptionValues.default encoding).apply options).pattern :=
  (OptionValues.default encoding).gives_iff

theorem gives_basePath_iff (encoding : Text) {options : List CallOption} {value : Text} :
    Gives .basePath [] options value ↔ value = ((OptionValues.default encoding).apply options).basePath :=
  (OptionValues.default encoding).gives_iff

theorem Names.unique {target other : Text} (h : call.Names bindings target) (h' : call.Names bindings other) :
    target = other := by
  cases h <;> cases h' <;> simp_all
  next hgives _ hgives' => exact ((gives_pattern_iff []).1 hgives).trans ((gives_pattern_iff []).1 hgives').symm

/-- A call that asks for something is not refused. -/
theorem AsksFor.not_refuses {resolved : ResolvedCall} (h : call.AsksFor encoding bindings resolved)
    {warning : Diagnostic} : ¬ call.Refuses marker bindings warning := by
  intro hrefuses
  cases hrefuses with
  | noPatternOrBase hnone _ => exact h.not_isPatternless hnone
  | noPattern hnone _ _ => exact h.not_isPatternless hnone
  | emptyTarget hempty => exact h.target_ne_nil (h.names.unique hempty)
  | unbound hargument hnone => cases h.names <;> simp_all

theorem ofTarget_cases {target : Text} (hnames : call.Names bindings target) (hpattern : ¬ call.IsPatternless)
    (marker encoding : Text) :
    (∃ resolved,
      ResolvedCall.ofTarget target ((OptionValues.default encoding).apply call.entries) = .ok resolved ∧
        call.AsksFor encoding bindings resolved) ∨
      ∃ problem,
        ResolvedCall.ofTarget target ((OptionValues.default encoding).apply call.entries) = .error problem ∧
          call.Refuses marker bindings (problem.warning marker call.location) := by
  unfold ResolvedCall.ofTarget
  split
  next hempty =>
    subst hempty
    exact .inr ⟨_, rfl, .emptyTarget hnames⟩
  next hempty => exact .inl ⟨_, rfl, hnames, hempty, hpattern, fun _ => OptionValues.gives_iff _ |>.2 rfl⟩

theorem ofOptions_cases {options : List CallOption} (hargument : call.argument = .options options)
    (marker encoding : Text) (bindings : Bindings) :
    (∃ resolved, ResolvedCall.ofOptions ((OptionValues.default encoding).apply call.entries) = .ok resolved ∧
      call.AsksFor encoding bindings resolved) ∨
      ∃ problem, ResolvedCall.ofOptions ((OptionValues.default encoding).apply call.entries) = .error problem ∧
        call.Refuses marker bindings (problem.warning marker call.location) := by
  have hentries : call.entries = options := by
    unfold entries
    rw [hargument]
  -- the pattern has its default value exactly if no entry gives it another one
  have hpatternless : call.IsPatternless ↔
      ((OptionValues.default encoding).apply call.entries).pattern = OptionValues.defaultPattern := by
    rw [hentries, eq_comm, ← gives_pattern_iff]
    unfold IsPatternless
    rw [hargument]
    simp
  unfold ResolvedCall.ofOptions
  split
  next hdefault =>
    refine .inr ⟨_, rfl, ?_⟩
    split
    next hbase => exact .noPatternOrBase (hpatternless.2 hdefault) ((gives_basePath_iff encoding).2 hbase.symm)
    next hbase => exact .noPattern (hpatternless.2 hdefault) ((gives_basePath_iff encoding).2 rfl) hbase
  next hdefault =>
    refine ofTarget_cases (.pattern hargument ?_) (fun h => hdefault (hpatternless.1 h)) marker encoding
    rw [gives_pattern_iff encoding, hentries]

/-- A call whose variable stands for something asks for what its target and its options come to, or the reason why
they come to nothing is the last warning. -/
theorem resolve_cases_of_bound {asked : Except CallProblem ResolvedCall} (hbound : ¬ call.IsUnbound bindings)
    (hok : ∀ resolved, asked = .ok resolved →
      call.resolve marker encoding bindings = (some resolved, optionWarnings marker call.entries))
    (herror : ∀ problem, asked = .error problem →
      call.resolve marker encoding bindings =
        (none, optionWarnings marker call.entries ++ [problem.warning marker call.location]))
    (hasked : (∃ resolved, asked = .ok resolved ∧ call.AsksFor encoding bindings resolved) ∨
      ∃ problem, asked = .error problem ∧ call.Refuses marker bindings (problem.warning marker call.location)) :
    (∃ resolved, call.resolve marker encoding bindings = (some resolved, optionWarnings marker call.entries) ∧
      call.AsksFor encoding bindings resolved) ∨
    ∃ warning, call.resolve marker encoding bindings = (none, optionWarnings marker call.entries ++ [warning]) ∧
      ¬ call.IsUnbound bindings ∧ call.Refuses marker bindings warning := by
  rcases hasked with ⟨resolved, hresolved, hasks⟩ | ⟨problem, hproblem, hrefuses⟩
  · exact .inl ⟨_, hok resolved hresolved, hasks⟩
  · exact .inr ⟨_, herror problem hproblem, hbound, hrefuses⟩

/-- A call asks for something, with the warnings about its entries; or a warning says why not, after those about its
entries, which are not looked at if its variable stands for nothing. -/
theorem resolve_cases (marker encoding : Text) (bindings : Bindings) (call : MarkerCall) :
    (∃ resolved, call.resolve marker encoding bindings = (some resolved, optionWarnings marker call.entries) ∧
      call.AsksFor encoding bindings resolved) ∨
    (∃ warning, call.resolve marker encoding bindings = (none, [warning]) ∧ call.IsUnbound bindings ∧
      call.Refuses marker bindings warning) ∨
    ∃ warning, call.resolve marker encoding bindings = (none, optionWarnings marker call.entries ++ [warning]) ∧
      ¬ call.IsUnbound bindings ∧ call.Refuses marker bindings warning := by
  match hargument : call.argument with
  | .options options =>
    have hbound : ¬ call.IsUnbound bindings := by
      simp [IsUnbound, hargument]
    have hentries : call.entries = options := by
      simp only [entries, hargument]
    have hasked := ofOptions_cases hargument marker encoding bindings
    refine (resolve_cases_of_bound hbound ?_ ?_ hasked).imp_right .inr
    all_goals
      intro _ h
      rw [hentries] at h ⊢
      simp only [resolve, hargument, h]
  | .literal target =>
    have hbound : ¬ call.IsUnbound bindings := by
      simp [IsUnbound, hargument]
    have hpattern : ¬ call.IsPatternless := by
      simp [IsPatternless, hargument]
    have hnames : call.Names bindings target := .literal hargument
    have hentries : call.entries = call.options := by
      simp only [entries, hargument]
    have hasked := ofTarget_cases hnames hpattern marker encoding
    refine (resolve_cases_of_bound hbound ?_ ?_ hasked).imp_right .inr
    all_goals
      intro _ h
      rw [hentries] at h ⊢
      simp only [resolve, hargument, h]
  | .variable name location =>
    cases hget : bindings.get? name with
    -- the options are not looked at
    | none =>
      refine .inr (.inl ⟨_, ?_, ⟨name, location, hargument, hget⟩, .unbound hargument hget⟩)
      simp only [resolve, hargument, hget]
    | some target =>
      have hbound : ¬ call.IsUnbound bindings := by
        simp [IsUnbound, hargument, hget]
      have hpattern : ¬ call.IsPatternless := by
        simp [IsPatternless, hargument]
      have hentries : call.entries = call.options := by
        simp only [entries, hargument]
      have hasked := ofTarget_cases (.bound hargument hget) hpattern marker encoding
      refine (resolve_cases_of_bound hbound ?_ ?_ hasked).imp_right .inr
      all_goals
        intro _ h
        rw [hentries] at h ⊢
        simp only [resolve, hargument, hget, h]

theorem Refuses.reason {warning : Diagnostic} (h : call.Refuses marker bindings warning) :
    warning.severity = .warning ∧
      (call.IsPatternless ∨ call.IsUnbound bindings ∨ call.Names bindings []) := by
  cases h with
  | noPatternOrBase hnone _ => exact ⟨rfl, .inl hnone⟩
  | noPattern hnone _ _ => exact ⟨rfl, .inl hnone⟩
  | unbound hargument hnone => exact ⟨rfl, .inr (.inl ⟨_, _, hargument, hnone⟩)⟩
  | emptyTarget hempty => exact ⟨rfl, .inr (.inr hempty)⟩

theorem exists_refuses (marker encoding : Text)
    (h : call.IsPatternless ∨ call.IsUnbound bindings ∨ call.Names bindings []) :
    ∃ warning, call.Refuses marker bindings warning := by
  rcases h with hnone | ⟨name, location, hargument, hnone⟩ | hempty
  · by_cases hbase : ((OptionValues.default encoding).apply call.entries).basePath = []
    · exact ⟨_, .noPatternOrBase hnone ((gives_basePath_iff encoding).2 hbase.symm)⟩
    · exact ⟨_, .noPattern hnone ((gives_basePath_iff encoding).2 rfl) hbase⟩
  · exact ⟨_, .unbound hargument hnone⟩
  · exact ⟨_, .emptyTarget hempty⟩

/-- A call asks for nothing exactly if it has options alone that leave the pattern at its default, if its variable
stands for nothing, or if what it names is empty.  Then one warning says why, after those about the entries, of which
none is made if the variable stands for nothing.  Otherwise each option has the last literal value that an entry gives
it, or its default, and the warnings are one for each entry without a literal value, in order. -/
theorem resolve_takes_last_values (marker encoding : Text) (bindings : Bindings) (call : MarkerCall) :
    ((call.resolve marker encoding bindings).1 = none ↔
      call.IsPatternless ∨ call.IsUnbound bindings ∨ call.Names bindings []) ∧
    (∀ resolved, (call.resolve marker encoding bindings).1 = some resolved →
      call.AsksFor encoding bindings resolved ∧
        Warns marker call.entries (call.resolve marker encoding bindings).2) ∧
    ((call.resolve marker encoding bindings).1 = none →
      ∃ earlier warning, (call.resolve marker encoding bindings).2 = earlier ++ [warning] ∧
        call.Refuses marker bindings warning ∧ (call.IsUnbound bindings → earlier = []) ∧
        (¬ call.IsUnbound bindings → Warns marker call.entries earlier)) := by
  have hwarns := warns_optionWarnings marker call.entries
  rcases resolve_cases marker encoding bindings call with
    ⟨resolved, hresolve, hasks⟩ | ⟨warning, hresolve, hunbound, hrefuses⟩ | ⟨warning, hresolve, hbound, hrefuses⟩
  · rw [hresolve]
    refine ⟨⟨nofun, ?_⟩, ?_, nofun⟩
    · intro hreason
      obtain ⟨warning, hrefuses⟩ := exists_refuses marker encoding hreason
      exact absurd hrefuses hasks.not_refuses
    · rintro _ ⟨⟩
      exact ⟨hasks, hwarns⟩
  · rw [hresolve]
    exact ⟨⟨fun _ => hrefuses.reason.2, fun _ => rfl⟩, nofun,
      fun _ => ⟨[], warning, rfl, hrefuses, fun _ => rfl, fun hbound => absurd hunbound hbound⟩⟩
  · rw [hresolve]
    exact ⟨⟨fun _ => hrefuses.reason.2, fun _ => rfl⟩, nofun,
      fun _ => ⟨_, warning, rfl, hrefuses, fun hunbound => absurd hunbound hbound, fun _ => hwarns⟩⟩

end

end MarkerCall

end AssetEmbed
