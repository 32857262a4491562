import AssetEmbed.Proofs.Script.Binding

/-!
# Scoping — what a variable in a call stands for

A variable in a call stands for what the top of the script binds it to, wherever the call is.  Declarations in any
other construct — a function, a block, an argument — may read as they like: they bind nothing.
-/

namespace AssetEmbed.Script

namespace Tree

/-! ## 1. Constructs with other children -/

/-- A tree with other children of the construct at an address within it. -/
def refillAt (inner : List Tree) : List Nat → Tree → Tree
  | [], .node kind _ => .node kind inner
  | i :: address, .node kind children => .node kind (children.modify i (refillAt inner address))
  | _, t => t

section

variable (inner : List Tree) (address : List Nat) (t : Tree)

theorem kind?_refillAt : (t.refillAt inner address).kind? = t.kind? := by
  cases address <;> cases t <;> rfl

theorem isKind_refillAt (kind : Kind) : (t.refillAt inner address).isKind kind = t.isKind kind := by
  unfold isKind
  rw [kind?_refillAt]

theorem declaresVariables_refillAt : (t.refillAt inner address).declaresVariables = t.declaresVariables := by
  unfold declaresVariables
  rw [isKind_refillAt, isKind_refillAt]

theorem counts_refillAt : (t.refillAt inner address).counts = t.counts := by
  unfold counts isComment
  rw [kind?_refillAt, isKind_refillAt]

theorem isTrivia_refillAt : (t.refillAt inner address).isTrivia = t.isTrivia := by
  cases address <;> cases t <;> rfl

theorem isToken_refillAt (s : String) : (t.refillAt inner address).isToken s = t.isToken s := by
  cases address <;> cases t <;> rfl

theorem children_refillAt_cons (i : Nat) :
    (t.refillAt inner (i :: address)).children = t.children.modify i (refillAt inner address) := by
  cases t with
  | blank _ | token _ | leaf _ _ => exact (List.modify_nil _ _).symm
  | node _ _ => rfl

end

theorem map_modify_of {α β : Type} {l : List α} {i : Nat} {f : α → α} {g : α → β}
    (h : ∀ a, l[i]? = some a → g (f a) = g a) : (l.modify i f).map g = l.map g := by
  refine List.ext_getElem? fun j => ?_
  rw [List.getElem?_map, List.getElem?_map, List.getElem?_modify]
  cases ha : l[j]? with
  | none => rfl
  | some a =>
    by_cases hj : i = j
    · subst hj
      simpa using h a ha
    · simp [hj]

section

variable {inner : List Tree} {p q declaration : Placed} {i : Nat} {address : List Nat}

theorem Placed.getElem?_tree_children (h : p.children[i]? = some q) : p.tree.children[i]? = some q.tree := by
  rw [← p.map_tree_children, List.getElem?_map, h]
  rfl

theorem Placed.map_children_refillAt {β : Type} {g : Tree → β} (hq : p.children[i]? = some q)
    (h : g (q.tree.refillAt inner address) = g q.tree) :
    (p.tree.refillAt inner (i :: address)).children.map g = p.tree.children.map g := by
  rw [children_refillAt_cons]
  refine map_modify_of fun t ht => ?_
  rw [p.getElem?_tree_children hq] at ht
  obtain rfl := Option.some.inj ht
  exact h

theorem Placed.map_filter_children_refillAt {β : Type} {test : Tree → Bool} {g : Tree → β}
    (hq : p.children[i]? = some q) (htest : test (q.tree.refillAt inner address) = test q.tree)
    (h : test q.tree → g (q.tree.refillAt inner address) = g q.tree) :
    ((p.tree.refillAt inner (i :: address)).children.filter test).map g = (p.tree.children.filter test).map g := by
  -- keep only what passes after the change, which goes through the children as they stand
  let passed (t : Tree) : Option β := if test t then some (g t) else none
  have hpassed : passed (q.tree.refillAt inner address) = passed q.tree := by
    dsimp only [passed]
    rw [htest]
    split
    next hpasses => rw [h hpasses]
    next => rfl
  have hfilter : ∀ ts : List Tree,
      (ts.filter test).map g = (ts.map passed).filterMap id := by
    intro ts
    rw [List.filterMap_map, ← List.filterMap_eq_map, List.filterMap_filter]
    rfl
  rw [hfilter, map_children_refillAt hq hpassed, ← hfilter]

/-! ## 2. Expressions -/

theorem stringValue?_parentheses (children : List Tree) :
    (Tree.node .parenthesizedExpression children).stringValue? =
      match (children.filter counts).map stringValue? with
      | [value] => value
      | _ => none := by
  have hcounted : (children.filter counts).map stringValue? =
      ((placeList 0 children).filter (·.tree.counts)).map (·.tree.stringValue?) := by
    conv_lhs => rw [← map_tree_placeList 0 children, List.filter_map, List.map_map]
    rfl
  rw [hcounted, stringValue?, Tree.unwrapped, unwrapAt, if_pos rfl, soleAt?_eq]
  generalize (placeList 0 children).filter (·.tree.counts) = counted
  rcases counted with _ | ⟨q, _ | _⟩
  · rfl
  · have hunwrapped : q.unwrapped.tree = q.tree.unwrapped := tree_unwrapAt _ _ _
    simp only [Option.getD_some, List.map_singleton, hunwrapped, stringValue?]
  · rfl

theorem stringValue?_node {kind : Kind} (h : kind ≠ .parenthesizedExpression) (children : List Tree) :
    (Tree.node kind children).stringValue? = none := by
  unfold stringValue? unwrapped
  rw [unwrapAt, if_neg h]

theorem stringValue?_refillAt (hat : p.at? address = some declaration)
    (hdeclares : declaration.tree.declaresVariables) :
    (p.tree.refillAt inner address).stringValue? = p.tree.stringValue? := by
  -- down the address: only parentheses take their value from what is in them
  induction address generalizing p with
  | nil =>
    obtain rfl := Option.some.inj hat
    cases htree : p.tree with
    | blank _ | token _ | leaf _ _ => rfl
    | node kind children =>
      have hkind : kind ≠ .parenthesizedExpression := by
        rintro rfl
        rw [htree] at hdeclares
        cases hdeclares
      rw [refillAt, stringValue?_node hkind, stringValue?_node hkind]
  | cons i address ih =>
    obtain ⟨q, hq, hat⟩ := Option.bind_eq_some_iff.1 hat
    have hsole := Placed.map_filter_children_refillAt hq (counts_refillAt inner address q.tree) fun _ => ih hat
    cases htree : p.tree with
    | blank _ | token _ | leaf _ _ => rfl
    | node kind children =>
      rw [htree] at hsole
      by_cases hkind : kind = .parenthesizedExpression
      · subst hkind
        rw [refillAt, stringValue?_parentheses, stringValue?_parentheses]
        simp only [refillAt, Tree.children] at hsole
        rw [hsole]
      · rw [refillAt, stringValue?_node hkind, stringValue?_node hkind]

/-! ## 3. Declarators and declarations -/

def identifierName? : Tree → Option Text
  | .leaf .identifier name => some name
  | _ => none

/-- What counts of a part of a declarator: its name, whether it is an equals sign, and its value. -/
def roleIn (t : Tree) : Option Text × Bool × Option Text := (t.identifierName?, t.isToken "=", t.stringValue?)

/-- What a declarator binds only depends on what counts of its parts. -/
theorem literalBinding?_eq (t : Tree) :
    t.literalBinding? = (do
      let name ← (t.parts.map roleIn).head?.bind (·.1)
      let value ← ((t.parts.map roleIn).dropWhile (!·.2.1))[1]?.bind (·.2.2)
      return (name, value)) := by
  rw [List.head?_map, List.dropWhile_map, List.getElem?_map]
  unfold literalBinding? initialValue?
  split
  next name hfirst =>
    have hequals : (fun role : Option Text × Bool × Option Text => !role.2.1) ∘ roleIn = (!isToken "=" ·) := rfl
    rw [hfirst, hequals]
    cases (t.parts.dropWhile (!isToken "=" ·))[1]? <;> rfl
  -- a declarator that does not begin with a name binds nothing, whatever its value
  next hother =>
    cases hfirst : t.parts.head? with
    | none => rfl
    | some first =>
      have hname : (roleIn first).1 = none := by
        unfold roleIn identifierName?
        split
        next name => exact absurd hfirst (hother name)
        next => rfl
      rw [Option.map_some, Option.bind_some, hname]
      rfl

theorem literalBinding?_refillAt (hat : p.at? (i :: address) = some declaration)
    (hdeclares : declaration.tree.declaresVariables) :
    (p.tree.refillAt inner (i :: address)).literalBinding? = p.tree.literalBinding? := by
  obtain ⟨q, hq, hat⟩ := Option.bind_eq_some_iff.1 hat
  have hparts : (p.tree.refillAt inner (i :: address)).parts.map roleIn = p.tree.parts.map roleIn := by
    refine Placed.map_filter_children_refillAt hq (by rw [isTrivia_refillAt]) fun _ => ?_
    have hname : (q.tree.refillAt inner address).identifierName? = q.tree.identifierName? := by
      cases address <;> cases q.tree <;> rfl
    unfold roleIn
    rw [hname, isToken_refillAt, stringValue?_refillAt hat hdeclares]
  rw [literalBinding?_eq, hparts, ← literalBinding?_eq]

theorem boundBy_refillAt (hat : p.at? (i :: address) = some declaration)
    (hdeclares : declaration.tree.declaresVariables) :
    (p.tree.refillAt inner (i :: address)).boundBy = p.tree.boundBy := by
  obtain ⟨q, hq, hat⟩ := Option.bind_eq_some_iff.1 hat
  have hdeclarators : ((p.tree.refillAt inner (i :: address)).children.filter (isKind .variableDeclarator)).map
      literalBinding? = (p.tree.children.filter (isKind .variableDeclarator)).map literalBinding? := by
    refine Placed.map_filter_children_refillAt hq (isKind_refillAt ..) fun hkind => ?_
    cases address with
    | nil =>
      -- the declaration itself is no declarator
      obtain rfl := Option.some.inj hat
      rcases eq_of_declaresVariables hdeclares hkind with h | h <;> cases h
    | cons => exact literalBinding?_refillAt hat hdeclares
  have hbound := congrArg (List.filterMap id) hdeclarators
  rw [List.filterMap_map, List.filterMap_map] at hbound
  unfold boundBy
  rw [filter_named_of fun _ => Source.isSome_of_isKind, filter_named_of fun _ => Source.isSome_of_isKind]
  exact hbound

/-! ## 4. Scripts -/

theorem flatMap_declarationsIn {t : Tree} (h : t.isKind .exportStatement) :
    t.declarationsIn.flatMap boundBy = (((t.children.filter declaresVariables).map boundBy).take 1).flatten := by
  unfold declarationsIn
  rw [if_neg fun hdeclares => ?_, if_pos h, filter_named_of fun _ => isSome_of_declaresVariables, ← List.map_take,
    List.flatMap_def]
  rcases eq_of_declaresVariables hdeclares h with h | h <;> cases h

theorem take_filter_modify {α : Type} {l : List α} {test : α → Bool} {f : α → α} {i : Nat}
    (h : ∃ earlier < i, ∃ a, l[earlier]? = some a ∧ test a) :
    ((l.modify i f).filter test).take 1 = (l.filter test).take 1 := by
  obtain ⟨earlier, hlt, a, ha, htest⟩ := h
  -- the first one that passes stands before the position, where nothing changes
  have hmem : a ∈ (l.take i).filter test := by
    refine List.mem_filter.2 ⟨List.mem_of_getElem? (i := earlier) ?_, htest⟩
    rwa [List.getElem?_take_of_lt hlt]
  have hlength : 1 ≤ ((l.take i).filter test).length := List.length_pos_of_mem hmem
  rw [List.modify_eq_take_drop, List.filter_append, List.take_append_of_le_length hlength]
  conv_rhs => rw [← List.take_append_drop i l, List.filter_append, List.take_append_of_le_length hlength]

/-- Declarations within a child of a script, unless they are at the top of the script, do not change what the child
binds. -/
theorem flatMap_boundBy_refillAt {script : Placed} {i : Nat} (hp : script.children[i]? = some p)
    (hat : p.at? address = some declaration) (hdeclares : declaration.tree.declaresVariables)
    (hnested : ¬ script.TopDeclaration (i :: address) declaration) :
    (p.tree.refillAt inner address).declarationsIn.flatMap boundBy = p.tree.declarationsIn.flatMap boundBy := by
  cases address with
  | nil =>
    obtain rfl := Option.some.inj hat
    exact absurd (.plain hp hdeclares) hnested
  | cons j address =>
    by_cases hdeclaration : p.tree.declaresVariables
    · have hbound : (p.tree.refillAt inner (j :: address)).boundBy = p.tree.boundBy := boundBy_refillAt hat hdeclares
      unfold declarationsIn
      rw [declaresVariables_refillAt, if_pos hdeclaration, if_pos hdeclaration, List.flatMap_singleton, hbound,
        List.flatMap_singleton]
    by_cases hexport : p.tree.isKind .exportStatement
    · obtain ⟨q, hq, hat⟩ := Option.bind_eq_some_iff.1 hat
      rw [flatMap_declarationsIn hexport, flatMap_declarationsIn (by rwa [isKind_refillAt])]
      cases address with
      | nil =>
        -- another declaration comes first
        obtain rfl := Option.some.inj hat
        have hearlier : ∃ earlier < j, ∃ t, p.tree.children[earlier]? = some t ∧ t.declaresVariables := by
          by_contra hnone
          refine hnested (.exported hp hexport hq hdeclares fun earlier hlt r hr hdeclares => ?_)
          exact hnone ⟨earlier, hlt, r.tree, p.getElem?_tree_children hr, hdeclares⟩
        rw [← List.map_take, ← List.map_take, children_refillAt_cons, take_filter_modify hearlier]
      | cons k address =>
        rw [Placed.map_filter_children_refillAt hq (declaresVariables_refillAt ..)
          fun _ => boundBy_refillAt hat hdeclares]
    · unfold declarationsIn
      rw [declaresVariables_refillAt, isKind_refillAt, if_neg hdeclaration, if_neg hexport]
      rw [if_neg hdeclaration, if_neg hexport]

theorem literalBindings_refillAt {script : Placed} (hscript : ¬ script.tree.declaresVariables)
    (hat : script.at? address = some declaration) (hdeclares : declaration.tree.declaresVariables)
    (hnested : ¬ script.TopDeclaration address declaration) :
    (script.tree.refillAt inner address).literalBindings = script.tree.literalBindings := by
  cases address with
  | nil =>
    obtain rfl := Option.some.inj hat
    exact absurd hdeclares hscript
  | cons i address =>
    obtain ⟨p, hp, hat⟩ := Option.bind_eq_some_iff.1 hat
    have hchild :
        (p.tree.refillAt inner address).declarationsIn.flatMap boundBy = p.tree.declarationsIn.flatMap boundBy :=
      flatMap_boundBy_refillAt hp hat hdeclares hnested
    have hbound := Placed.map_children_refillAt (g := fun t => t.declarationsIn.flatMap boundBy) hp hchild
    rw [literalBindings_eq_flatMap, literalBindings_eq_flatMap, List.flatMap_def, hbound, ← List.flatMap_def]

end

theorem not_declaresVariables_of_ofScript {d : Dialect} {text : Text} {tree : Tree} (h : ofScript d text = .ok tree) :
    ¬ tree.declaresVariables := by
  obtain ⟨ts, rfl⟩ := exists_program h
  exact Bool.false_ne_true

end Tree

namespace Source

open AssetEmbed.Script.Tree

/-! ## 5. Calls -/

theorem Asks.exists_of_variable {m : Source} {arguments : List Placed} {options : List CallOption} {name : Text}
    {location : Location} (h : m.Asks arguments (.variable name location) options) :
    ∃ q rest, arguments = q :: rest ∧ q.tree = .leaf .identifier name ∧ location = m.location q := by
  cases h with
  | target hdenotes | targetWithOptions hdenotes _ =>
    match hdenotes with
    | .variable hq => exact ⟨_, _, rfl, hq, rfl⟩

/-- A call with a variable asks for what the same call with a literal does: the literal of the last declarator at the
top of the script that gives the variable one, wherever the call is and whatever else is bound.  If there is none, the
call asks for nothing, and the one warning says so at the variable.  Other children of declarations that are not at
the top make no difference. -/
theorem resolve_variable_as_literal {d : Dialect} {tree : Tree} (m : Source) (encoding : Text)
    (htree : Tree.ofScript d m.text = .ok tree) {call : MarkerCall} (hcall : call ∈ (m.markerCalls tree).1)
    {name : Text} {location : Location} (hargument : call.argument = .variable name location) :
    ((⟨0, tree⟩ : Placed).GivesSome name →
      ∃ value, (∀ other, (⟨0, tree⟩ : Placed).GivesLast name other ↔ other = value) ∧
        ∀ others, call.resolve m.marker encoding (bindings tree) =
          { call with argument := .literal value }.resolve m.marker encoding others) ∧
    (¬ (⟨0, tree⟩ : Placed).GivesSome name →
      ∃ warning, call.resolve m.marker encoding (bindings tree) = (none, [warning]) ∧ warning.severity = .warning ∧
        ∃ p q rest, p.IsNodeOf tree ∧ m.Calls p ∧ m.Means p call ∧ Arguments p (q :: rest) ∧
          q.tree = .leaf .identifier name ∧ warning.location = some (m.location q)) ∧
    ∀ address declaration inner, (⟨0, tree⟩ : Placed).at? address = some declaration →
      declaration.tree.declaresVariables → ¬ (⟨0, tree⟩ : Placed).TopDeclaration address declaration →
      call.resolve m.marker encoding (bindings (tree.refillAt inner address)) =
        call.resolve m.marker encoding (bindings tree) := by
  refine ⟨fun hgives => ?_, fun hnone => ?_, fun address declaration inner hat hdeclares hnested => ?_⟩
  · obtain ⟨value, hlast⟩ := exists_givesLast hgives
    have hget : (bindings tree).get? name = some value := get?_bindings_iff.2 hlast
    refine ⟨value, fun other => ?_, fun others => ?_⟩
    · have hother : (bindings tree).get? name = some other ↔ (⟨0, tree⟩ : Placed).GivesLast name other :=
        @get?_bindings_iff ⟨0, tree⟩ name other
      rw [← hother, hget, Option.some.injEq, eq_comm]
    · unfold MarkerCall.resolve
      rw [hargument]
      dsimp only
      rw [hget]
  · have hget : (bindings tree).get? name = none := get?_bindings_eq_none_iff.2 hnone
    obtain ⟨p, hnode, hcalls, hmeans⟩ := exists_means (ofScript_formed htree) hcall
    obtain ⟨arguments, harguments, -, hasks⟩ := hmeans.asks
    rw [hargument] at hasks
    obtain ⟨q, rest, rfl, hq, rfl⟩ := hasks.exists_of_variable
    refine ⟨CallProblem.warning m.marker (m.location q) (.unbound name), ?_, rfl, p, q, rest, hnode, hcalls, hmeans,
      harguments, hq, rfl⟩
    unfold MarkerCall.resolve
    rw [hargument]
    dsimp only
    rw [hget]
  · have hsame : bindings (tree.refillAt inner address) = bindings tree := by
      unfold bindings
      rw [literalBindings_refillAt (not_declaresVariables_of_ofScript htree) hat hdeclares hnested]
    rw [hsame]

/-- A call with a variable that is declared after it, and another one with one that is only declared in a block. -/
def callsBeforeDeclarations : Source :=
  ⟨"/x.js".toList, "m(p);m(q)\nvar p='a';\x7blet q='c'\x7d\nvar p=('b')".toList, ['m']⟩

/-- The first one of the calls of `callsBeforeDeclarations` asks for what its variable is bound to last, and the second
one for nothing. -/
theorem resolve_variable_as_literal_callsBeforeDeclarations :
    ∃ tree p q, Tree.ofScript .plain callsBeforeDeclarations.text = .ok tree ∧
      (callsBeforeDeclarations.markerCalls tree).1 = [p, q] ∧
      (bindings tree).get? ['p'] = some ['b'] ∧ (bindings tree).get? ['q'] = none ∧
      (∃ value, (∀ other, (⟨0, tree⟩ : Placed).GivesLast ['p'] other ↔ other = value) ∧
        ∀ others, p.resolve ['m'] [] (bindings tree) =
          { p with argument := .literal value }.resolve ['m'] [] others) ∧
      ∃ warning, q.resolve ['m'] [] (bindings tree) = (none, [warning]) ∧ warning.severity = .warning := by
  have hcalls : (Tree.ofScript .plain callsBeforeDeclarations.text).toOption.any (fun tree =>
      (callsBeforeDeclarations.markerCalls tree).1.map (·.argument) =
          [.variable ['p'] ⟨"/x.js".toList, 1, 2⟩, .variable ['q'] ⟨"/x.js".toList, 1, 7⟩] ∧
        (bindings tree).get? ['p'] = some ['b'] ∧ (bindings tree).get? ['q'] = none) = true := by
    decide +kernel
  obtain ⟨tree, htree, hcalls⟩ := exists_of_toOption_any hcalls
  obtain ⟨harguments, hp, hq⟩ := of_decide_eq_true hcalls
  obtain ⟨p, _, hsplit, hfirst, hrest⟩ := List.map_eq_cons_iff.1 harguments
  obtain ⟨q, _, rfl, hsecond, hnil⟩ := List.map_eq_cons_iff.1 hrest
  obtain rfl := List.map_eq_nil_iff.1 hnil
  have hbound : (⟨0, tree⟩ : Placed).GivesSome ['p'] := by
    by_contra hnone
    rw [get?_bindings_eq_none_iff.2 hnone] at hp
    cases hp
  have hunbound : ¬ (⟨0, tree⟩ : Placed).GivesSome ['q'] := get?_bindings_eq_none_iff.1 hq
  have hliteral := (resolve_variable_as_literal callsBeforeDeclarations [] htree (by simp [hsplit]) hfirst).1 hbound
  obtain ⟨warning, hwarning, hseverity, -⟩ :=
    (resolve_variable_as_literal callsBeforeDeclarations [] htree (by simp [hsplit]) hsecond).2.1 hunbound
  exact ⟨tree, p, q, htree, hsplit, hp, hq, hliteral, warning, hwarning, hseverity⟩

end Source

end AssetEmbed.Script
