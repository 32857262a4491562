import AssetEmbed.Proofs.Script.Understanding
import AssetEmbed.Script.Bindings
import Mathlib.Data.List.Induction
import Mathlib.Data.List.TakeWhile

/-!
# Binding — which literals the variables of a script stand for

A variable stands for the literal of the last declarator that gives it one, among the declarators at the top of the
script.  So it does not matter where a call stands, nor what is declared anywhere else.
-/

namespace AssetEmbed.Script

namespace Tree

/-! ## 1. Declarators at the top -/

/-- Whether a declaration of variables stands at the top of a script, and at which address: as a child of the script,
or as the first one in an export. -/
inductive Placed.TopDeclaration (script : Placed) : List Nat → Placed → Prop where
  | plain {i : Nat} {declaration : Placed} : script.children[i]? = some declaration →
      declaration.tree.declaresVariables → TopDeclaration script [i] declaration
  | exported {i j : Nat} {statement declaration : Placed} : script.children[i]? = some statement →
      statement.tree.isKind .exportStatement → statement.children[j]? = some declaration →
      declaration.tree.declaresVariables →
      (∀ earlier < j, ∀ p, statement.children[earlier]? = some p → ¬ p.tree.declaresVariables) →
      TopDeclaration script [i, j] declaration

/-- Whether a declarator stands at the top of a script, and at which address: as a child of a declaration there. -/
def Placed.Declares (script : Placed) (address : List Nat) (declarator : Placed) : Prop :=
  ∃ above i declaration, address = above ++ [i] ∧ script.TopDeclaration above declaration ∧
    declaration.children[i]? = some declarator ∧ declarator.tree.isKind .variableDeclarator

def gather (children : List (Placed × Nat)) (places : Placed → List (List Nat × Placed)) : List (List Nat × Placed) :=
  children.flatMap fun child => (places child.1).map fun x => (child.2 :: x.1, x.2)

theorem mem_gather {children : List (Placed × Nat)} {places : Placed → List (List Nat × Placed)}
    {address : List Nat} {p : Placed} :
    (address, p) ∈ gather children places ↔
      ∃ i rest q, address = i :: rest ∧ (q, i) ∈ children ∧ (rest, p) ∈ places q := by
  simp only [gather, List.mem_flatMap, List.mem_map, Prod.exists, Prod.mk.injEq]
  constructor
  · rintro ⟨q, i, hq, rest, r, hr, rfl, rfl⟩
    exact ⟨i, rest, q, rfl, hq, hr⟩
  · rintro ⟨i, rest, q, rfl, hq, hr⟩
    exact ⟨q, i, hq, rest, p, hr, rfl, rfl⟩

theorem gather_ascends {children : List (Placed × Nat)} {places : Placed → List (List Nat × Placed)}
    (hchildren : children.Pairwise fun a b => a.2 < b.2)
    (hplaces : ∀ p, (places p).Pairwise fun a b => a.1 < b.1) :
    (gather children places).Pairwise fun a b => a.1 < b.1 := by
  -- addresses are compared at the child first, and then within it
  refine List.pairwise_flatMap.2 ⟨fun child _ => List.pairwise_map.2 ((hplaces child.1).imp fun h => ?_), ?_⟩
  · exact List.cons_lt_cons_iff.2 (.inr ⟨rfl, h⟩)
  · refine hchildren.imp fun {a b} h x hx y hy => ?_
    obtain ⟨x', -, rfl⟩ := List.mem_map.1 hx
    obtain ⟨y', -, rfl⟩ := List.mem_map.1 hy
    exact List.cons_lt_cons_iff.2 (.inl h)

theorem filterMap_gather {α : Type} (children : List (Placed × Nat)) (places : Placed → List (List Nat × Placed))
    (g : Placed → Option α) :
    (gather children places).filterMap (fun x => g x.2) =
      (children.map Prod.fst).flatMap fun p => (places p).filterMap fun x => g x.2 := by
  rw [gather, List.filterMap_flatMap, List.flatMap_map]
  simp only [List.filterMap_map]
  rfl

theorem zipIdx_ascends {α : Type} (l : List α) : l.zipIdx.Pairwise fun a b => a.2 < b.2 := by
  rw [List.pairwise_iff_getElem]
  intro i j hi hj hlt
  simpa using hlt

theorem mem_later_iff {earlier later : List (List Nat × Placed)} {x y : List Nat × Placed}
    (h : (earlier ++ x :: later).Pairwise fun a b => a.1 < b.1) (hy : y ∈ earlier ++ x :: later) :
    x.1 < y.1 ↔ y ∈ later := by
  obtain ⟨-, hlater, hearlier⟩ := List.pairwise_append.1 h
  constructor
  · intro hlt
    rcases List.mem_append.1 hy with hy | hy
    · exact absurd (List.lt_trans hlt (hearlier y hy x List.mem_cons_self)) (List.lt_irrefl _)
    rcases List.mem_cons.1 hy with rfl | hy
    · exact absurd hlt (List.lt_irrefl _)
    · exact hy
  · exact (List.pairwise_cons.1 hlater).1 y

/-- The children of a construct that pass a test, with their positions. -/
def Placed.select (test : Tree → Bool) (p : Placed) : List (Placed × Nat) :=
  p.children.zipIdx.filter fun child => test child.1.tree

theorem Placed.mem_select {test : Tree → Bool} {p q : Placed} {i : Nat} :
    (q, i) ∈ p.select test ↔ p.children[i]? = some q ∧ test q.tree := by
  rw [select, List.mem_filter, List.mem_zipIdx_iff_getElem?]

theorem Placed.map_tree_select (test : Tree → Bool) (p : Placed) :
    (p.select test).map (·.1.tree) = p.tree.children.filter test := by
  have hplaced : p.children.zipIdx.map (·.1.tree) = p.tree.children :=
    calc p.children.zipIdx.map (·.1.tree) = (p.children.zipIdx.map Prod.fst).map (·.tree) := List.map_map.symm
      _ = p.tree.children := by rw [List.zipIdx_map_fst, p.map_tree_children]
  rw [← hplaced, List.filter_map]
  rfl

def Placed.declaratorsOf (declaration : Placed) : List (List Nat × Placed) :=
  gather (declaration.select (isKind .variableDeclarator)) fun p => [([], p)]

def Placed.declaratorsIn (p : Placed) : List (List Nat × Placed) :=
  if p.tree.declaresVariables then p.declaratorsOf
  else if p.tree.isKind .exportStatement then gather ((p.select declaresVariables).take 1) declaratorsOf
  else []

def Placed.declarators (script : Placed) : List (List Nat × Placed) := gather script.children.zipIdx declaratorsIn

theorem Placed.declaratorsOf_ascend (declaration : Placed) :
    declaration.declaratorsOf.Pairwise fun a b => a.1 < b.1 :=
  gather_ascends ((zipIdx_ascends _).filter _) fun _ => List.pairwise_singleton _ _

theorem Placed.declarators_ascend (script : Placed) : script.declarators.Pairwise fun a b => a.1 < b.1 := by
  refine gather_ascends (zipIdx_ascends _) fun p => ?_
  unfold declaratorsIn
  split
  · exact p.declaratorsOf_ascend
  split
  · exact gather_ascends (((zipIdx_ascends _).filter _).sublist (List.take_sublist _ _)) declaratorsOf_ascend
  · exact List.Pairwise.nil

theorem Placed.mem_declaratorsOf {declaration declarator : Placed} {address : List Nat} :
    (address, declarator) ∈ declaration.declaratorsOf ↔ ∃ i, address = [i] ∧
      declaration.children[i]? = some declarator ∧ declarator.tree.isKind .variableDeclarator := by
  rw [declaratorsOf, mem_gather]
  simp only [mem_select, List.mem_singleton, Prod.mk.injEq]
  constructor
  · rintro ⟨i, _, _, rfl, hchild, rfl, rfl⟩
    exact ⟨i, rfl, hchild⟩
  · rintro ⟨i, rfl, hchild⟩
    exact ⟨i, [], declarator, rfl, hchild, rfl, rfl⟩

theorem Placed.mem_take_select {test : Tree → Bool} {p q : Placed} {i : Nat} :
    (q, i) ∈ (p.select test).take 1 ↔ p.children[i]? = some q ∧ test q.tree ∧
      ∀ earlier < i, ∀ r, p.children[earlier]? = some r → ¬ test r.tree := by
  rw [List.take_one, Option.mem_toList, select, List.head?_filter, List.find?_eq_some_iff_getElem]
  -- the first child that passes is the one at an index before which none passes
  constructor
  · rintro ⟨htest, j, hj, hat, hearlier⟩
    rw [List.getElem_zipIdx, Nat.zero_add, Prod.mk.injEq] at hat
    obtain ⟨rfl, rfl⟩ := hat
    rw [List.length_zipIdx] at hj
    refine ⟨List.getElem?_eq_getElem hj, htest, fun earlier hlt r hr => ?_⟩
    obtain ⟨hlength, rfl⟩ := List.getElem?_eq_some_iff.1 hr
    have := hearlier earlier hlt
    rw [List.getElem_zipIdx] at this
    simpa using this
  · rintro ⟨hat, htest, hearlier⟩
    obtain ⟨hlength, rfl⟩ := List.getElem?_eq_some_iff.1 hat
    refine ⟨htest, i, by rwa [List.length_zipIdx], ?_, fun j hj => ?_⟩
    · rw [List.getElem_zipIdx, Nat.zero_add]
    · have hlt : j < p.children.length := Nat.lt_trans hj hlength
      have := hearlier j hj _ (List.getElem?_eq_getElem hlt)
      rw [List.getElem_zipIdx]
      simpa using this

/-- A declaration of variables is of no other kind, such as that of exports or of declarators. -/
theorem eq_of_declaresVariables {kind : Kind} {t : Tree} (h : t.declaresVariables) (hkind : t.isKind kind) :
    kind = .lexicalDeclaration ∨ kind = .variableDeclaration := by
  unfold declaresVariables isKind at h
  rw [eq_of_beq hkind] at h
  simpa using h

theorem Placed.mem_declaratorsIn {p declarator : Placed} {address : List Nat} :
    (address, declarator) ∈ p.declaratorsIn ↔
      p.tree.declaresVariables ∧ (address, declarator) ∈ p.declaratorsOf ∨
      p.tree.isKind .exportStatement ∧ ∃ j rest declaration, address = j :: rest ∧
        (declaration, j) ∈ (p.select declaresVariables).take 1 ∧ (rest, declarator) ∈ declaration.declaratorsOf := by
  unfold declaratorsIn
  split
  next hdeclares =>
    refine ⟨fun h => .inl ⟨hdeclares, h⟩, fun h => ?_⟩
    rcases h with ⟨-, h⟩ | ⟨hexport, -⟩
    · exact h
    · rcases eq_of_declaresVariables hdeclares hexport with h | h <;> cases h
  next hdeclares =>
    split
    next hexport =>
      rw [mem_gather]
      exact ⟨fun h => .inr ⟨hexport, h⟩, fun h => (h.resolve_left fun h => hdeclares h.1).2⟩
    next hexport =>
      exact ⟨fun h => absurd h List.not_mem_nil, fun h => absurd h (by simp [hdeclares, hexport])⟩

theorem Placed.declares_iff {script : Placed} {address : List Nat} {declarator : Placed} :
    (address, declarator) ∈ script.declarators ↔ script.Declares address declarator := by
  rw [declarators, mem_gather]
  simp only [List.mem_zipIdx_iff_getElem?, mem_declaratorsIn, mem_declaratorsOf, mem_take_select]
  constructor
  · rintro ⟨i, rest, p, rfl, hp, ⟨hdeclares, j, rfl, hchild, hkind⟩ |
      ⟨hexport, j, _, declaration, rfl, ⟨hdeclaration, hdeclares, hearlier⟩, k, rfl, hchild, hkind⟩⟩
    · exact ⟨[i], j, p, rfl, .plain hp hdeclares, hchild, hkind⟩
    · exact ⟨[i, j], k, declaration, rfl, .exported hp hexport hdeclaration hdeclares hearlier, hchild, hkind⟩
  · rintro ⟨_, k, declaration, rfl, ⟨hp, hdeclares⟩ | ⟨hp, hexport, hdeclaration, hdeclares, hearlier⟩, hchild, hkind⟩
    · exact ⟨_, _, _, rfl, hp, .inl ⟨hdeclares, _, rfl, hchild, hkind⟩⟩
    · exact ⟨_, _, _, rfl, hp,
        .inr ⟨hexport, _, _, _, rfl, ⟨hdeclaration, hdeclares, hearlier⟩, _, rfl, hchild, hkind⟩⟩

theorem filter_named_of {test : Tree → Bool} (h : ∀ t, test t → t.kind?.isSome) (t : Tree) :
    t.named.filter test = t.children.filter test := by
  unfold named
  rw [List.filter_filter]
  refine List.filter_congr fun u _ => ?_
  cases htest : test u with
  | true => rw [h u htest, Bool.and_true]
  | false => rfl

theorem isSome_of_declaresVariables {t : Tree} (h : t.declaresVariables) : t.kind?.isSome :=
  (Bool.or_eq_true_iff.1 h).elim Source.isSome_of_isKind Source.isSome_of_isKind

theorem Placed.filterMap_declaratorsOf {α : Type} (declaration : Placed) (g : Tree → Option α) :
    declaration.declaratorsOf.filterMap (fun x => g x.2.tree) =
      (declaration.tree.named.filter (isKind .variableDeclarator)).filterMap g := by
  rw [filter_named_of fun _ => Source.isSome_of_isKind, ← map_tree_select, declaratorsOf,
    filterMap_gather _ _ fun p => g p.tree, List.filterMap_map, List.flatMap_map, List.filterMap_eq_flatMap_toList]
  congr 1

theorem flatMap_filter_of {α β : Type} {l : List α} {test : α → Bool} {f : α → List β}
    (h : ∀ a, test a = false → f a = []) : (l.filter test).flatMap f = l.flatMap f := by
  induction l with
  | nil => rfl
  | cons a l ih =>
    rw [List.filter_cons, List.flatMap_cons, ← ih]
    cases htest : test a with
    | true => rfl
    | false =>
      rw [h a htest]
      rfl

def boundBy (t : Tree) : List (Text × Text) :=
  (t.named.filter (·.isKind .variableDeclarator)).filterMap literalBinding?

def declarationsIn (t : Tree) : List Tree :=
  if t.declaresVariables then [t]
  else if t.isKind .exportStatement then (t.named.filter declaresVariables).take 1
  else []

theorem declarationsIn_of_kind?_eq_none {t : Tree} (h : t.kind?.isSome = false) : t.declarationsIn = [] := by
  unfold declarationsIn
  rw [if_neg fun hdeclares => ?_, if_neg fun hexport => ?_]
  · rw [Source.isSome_of_isKind hexport] at h
    cases h
  · rw [isSome_of_declaresVariables hdeclares] at h
    cases h

theorem Placed.filterMap_declaratorsIn (p : Placed) :
    (p.declaratorsIn.filterMap fun x => literalBinding? x.2.tree) = p.tree.declarationsIn.flatMap boundBy := by
  unfold declaratorsIn declarationsIn
  split
  · rw [filterMap_declaratorsOf, List.flatMap_singleton]
    rfl
  split
  · rw [filterMap_gather _ _ fun q => literalBinding? q.tree,
      filter_named_of fun _ => isSome_of_declaresVariables, ← map_tree_select, ← List.map_take, List.flatMap_map,
      List.flatMap_map]
    simp only [filterMap_declaratorsOf]
    rfl
  · rfl

theorem literalBindings_eq_flatMap (script : Tree) :
    script.literalBindings = script.children.flatMap fun t => t.declarationsIn.flatMap boundBy := by
  calc script.literalBindings = script.named.flatMap fun t => t.declarationsIn.flatMap boundBy := List.flatMap_assoc
    _ = script.children.flatMap fun t => t.declarationsIn.flatMap boundBy :=
        flatMap_filter_of fun t ht => by rw [declarationsIn_of_kind?_eq_none ht]; rfl

/-- The literals that a script binds are those of the declarators at its top. -/
theorem literalBindings_eq (script : Placed) :
    script.tree.literalBindings = script.declarators.filterMap fun x => literalBinding? x.2.tree := by
  calc script.tree.literalBindings
      = script.children.flatMap fun p => p.tree.declarationsIn.flatMap boundBy := by
        rw [literalBindings_eq_flatMap, ← script.map_tree_children, List.flatMap_map]
    _ = script.children.flatMap fun p => p.declaratorsIn.filterMap fun x => literalBinding? x.2.tree := by
        simp only [Placed.filterMap_declaratorsIn]
    _ = script.declarators.filterMap fun x => literalBinding? x.2.tree := by
        rw [Placed.declarators, filterMap_gather _ _ fun q => literalBinding? q.tree, List.zipIdx_map_fst]

/-! ## 2. Literals that are declared -/

/-- Whether a declarator gives a variable the value of a quoted literal: after its name, whatever stands between, and
an equals sign, there is such a literal, in any parentheses. -/
inductive Placed.GivesLiteral (declarator : Placed) (name value : Text) : Prop where
  | mk {target equals initial literal : Placed} {between rest : List Placed} {quote : Char} {body : Text} :
      declarator.parts = target :: (between ++ equals :: initial :: rest) → target.tree = .leaf .identifier name →
      (∀ p ∈ between, p.tree.isToken "=" = false) → equals.tree.isToken "=" → initial.Bares literal →
      quote = '\'' ∨ quote = '"' → literal.tree = .leaf .string (quote :: (body ++ [quote])) →
      value = unescape body → GivesLiteral declarator name value

mutual

theorem tree_unwrapAt (offset offset' : Nat) (t : Tree) : (unwrapAt offset t).tree = (unwrapAt offset' t).tree := by
  match t with
  | .blank _ | .token _ | .leaf _ _ => rfl
  | .node kind children =>
    rw [unwrapAt, unwrapAt]
    split
    · have hsole := map_tree_soleAt? offset offset' children
      cases h : soleAt? offset children <;> cases h' : soleAt? offset' children <;> rw [h, h'] at hsole
      · rfl
      · cases hsole
      · cases hsole
      · exact Option.some.inj hsole
    · rfl

theorem map_tree_soleAt? (offset offset' : Nat) (ts : List Tree) :
    (soleAt? offset ts).map (·.tree) = (soleAt? offset' ts).map (·.tree) := by
  match ts with
  | [] => rfl
  | t :: ts =>
    rw [soleAt?, soleAt?]
    split
    · split
      · rfl
      · exact congrArg some (tree_unwrapAt offset offset' t)
    · exact map_tree_soleAt? _ _ ts

end

/-- The value of an expression is that of the quoted literal in its parentheses. -/
theorem stringValue?_iff {p : Placed} {value : Text} :
    p.tree.stringValue? = some value ↔ ∃ literal quote body, p.Bares literal ∧ (quote = '\'' ∨ quote = '"') ∧
      literal.tree = .leaf .string (quote :: (body ++ [quote])) ∧ value = unescape body := by
  have hunwrapped : p.tree.unwrapped = p.unwrapped.tree := tree_unwrapAt _ _ _
  unfold stringValue?
  rw [hunwrapped]
  constructor
  · intro h
    split at h
    next raw htree =>
      obtain ⟨quote, body, hquote, rfl, hvalue⟩ := literalValue?_eq_some_iff.1 h
      exact ⟨p.unwrapped, quote, body, p.bares_unwrapped, hquote, htree, hvalue⟩
    next => cases h
  · rintro ⟨literal, quote, body, hbares, hquote, htree, rfl⟩
    rw [← Placed.bares_iff.1 hbares, htree]
    exact literalValue?_eq_some_iff.2 ⟨quote, body, hquote, rfl, rfl⟩

/-- The initial value of a declarator is what comes after the first equals sign among its parts. -/
theorem initialValue?_iff {declarator : Placed} {t : Tree} :
    declarator.tree.initialValue? = some t ↔ ∃ between equals initial rest,
      declarator.parts = between ++ equals :: initial :: rest ∧ (∀ p ∈ between, p.tree.isToken "=" = false) ∧
        equals.tree.isToken "=" ∧ initial.tree = t := by
  rw [initialValue?, ← declarator.map_tree_parts, List.dropWhile_map, List.getElem?_map, Option.map_eq_some_iff]
  constructor
  · rintro ⟨initial, hinitial, rfl⟩
    -- the parts before the first equals sign are those that are dropped
    have hsplit := declarator.parts.takeWhile_append_dropWhile (p := (!isToken "=" ·) ∘ (·.tree))
    cases hafter : declarator.parts.dropWhile ((!isToken "=" ·) ∘ (·.tree)) with
    | nil => rw [hafter] at hinitial; cases hinitial
    | cons equals after =>
      rw [hafter] at hinitial hsplit
      cases after with
      | nil => cases hinitial
      | cons second rest =>
        cases hinitial
        refine ⟨_, equals, initial, rest, hsplit.symm, fun p hp => ?_, ?_, rfl⟩
        · simpa using List.mem_takeWhile_imp hp
        · have hfirst := List.head?_dropWhile_not ((!isToken "=" ·) ∘ (·.tree)) declarator.parts
          rw [hafter] at hfirst
          simpa using hfirst
  · rintro ⟨between, equals, initial, rest, hparts, hbetween, hequals, rfl⟩
    refine ⟨initial, ?_, rfl⟩
    rw [hparts, List.dropWhile_append_of_pos fun p hp => by simp [hbetween p hp],
      List.dropWhile_cons_of_neg (by simp [hequals])]
    rfl

/-- A declarator binds a variable to a literal if it gives it that. -/
theorem literalBinding?_iff {declarator : Placed} {name value : Text} :
    literalBinding? declarator.tree = some (name, value) ↔ declarator.GivesLiteral name value := by
  unfold literalBinding?
  rw [← declarator.map_tree_parts, List.head?_map]
  constructor
  · intro h
    split at h
    next found hhead =>
      simp only [Option.bind_eq_bind, Option.bind_eq_some_iff] at h
      obtain ⟨_, hinitial, literal, hliteral, h⟩ := h
      cases h
      obtain ⟨between, equals, initial, rest, hparts, hbetween, hequals, rfl⟩ := initialValue?_iff.1 hinitial
      obtain ⟨_, quote, body, hbares, hquote, htree, rfl⟩ := stringValue?_iff.1 hliteral
      rw [hparts] at hhead
      cases between with
      | nil =>
        -- the name is no equals sign
        have hname : equals.tree = .leaf .identifier name := Option.some.inj hhead
        rw [hname] at hequals
        cases hequals
      | cons target between =>
        have hafter : ∀ p ∈ between, p.tree.isToken "=" = false := fun p hp => hbetween p (List.mem_cons_of_mem _ hp)
        exact ⟨hparts, Option.some.inj hhead, hafter, hequals, hbares, hquote, htree, rfl⟩
    next => cases h
  · rintro ⟨hparts, htarget, hbetween, hequals, hbares, hquote, htree, rfl⟩
    have hinitial := initialValue?_iff.2 ⟨_ :: _, _, _, _, hparts,
      List.forall_mem_cons.2 ⟨by rw [htarget]; rfl, hbetween⟩, hequals, rfl⟩
    have hvalue := stringValue?_iff.2 ⟨_, _, _, hbares, hquote, htree, rfl⟩
    rw [hparts]
    simp only [List.head?_cons, Option.map_some, htarget, hinitial, Option.bind_eq_bind, Option.bind_some, hvalue]
    rfl

/-! ## 3. The last declarator -/

/-- Whether some declarator at the top of a script gives a variable a literal. -/
def Placed.GivesSome (script : Placed) (name : Text) : Prop :=
  ∃ address declarator value, script.Declares address declarator ∧ declarator.GivesLiteral name value

/-- Whether a value is that of the last declarator at the top of a script that gives a variable a literal. -/
def Placed.GivesLast (script : Placed) (name value : Text) : Prop :=
  ∃ address declarator, script.Declares address declarator ∧ declarator.GivesLiteral name value ∧
    ∀ later q other, address < later → script.Declares later q → ¬ q.GivesLiteral name other

end Tree

open AssetEmbed.Script.Tree

/-- Binding literals one after the other leaves each variable with the last one. -/
theorem get?_foldl_bind (bs : List (Text × Text)) (name : Text) :
    Bindings.get? (bs.foldl (fun bs b => bs.filter (fun c => c.1 ≠ b.1) ++ [b]) []) name =
      (bs.reverse.find? fun b => b.1 = name).map (·.2) := by
  -- from the end: the binding that is made last takes the place of those before it
  induction bs using List.reverseRecOn with
  | nil => rfl
  | append_singleton bs b ih =>
    rw [List.foldl_concat, List.reverse_append, List.reverse_singleton, List.singleton_append]
    unfold Bindings.get? at ih ⊢
    rw [List.find?_append]
    by_cases hb : b.1 = name
    · -- what was bound to the name before is gone
      have hgone : ∀ fs : List (Text × Text), (fs.filter fun c => c.1 ≠ b.1).find? (fun c => c.1 = name) = none := by
        intro fs
        simp [List.find?_eq_none, hb]
      rw [hgone, List.find?_cons_of_pos (by simpa using hb)]
      simp [hb]
    · have hkept : ∀ fs : List (Text × Text),
          (fs.filter fun c => c.1 ≠ b.1).find? (fun c => c.1 = name) = fs.find? fun c => c.1 = name := by
        intro fs
        rw [List.find?_filter]
        congr 1
        funext c
        by_cases hc : c.1 = name
        · simp [hc, Ne.symm hb]
        · simp [hc]
      have hnew : [b].find? (fun c => c.1 = name) = none := by simp [hb]
      rw [hkept, hnew, Option.or_none, ih, List.find?_cons_of_neg (by simpa using hb)]

theorem get?_bindings_eq_some_iff (script : Tree) {name value : Text} :
    (bindings script).get? name = some value ↔
      ∃ before after, script.literalBindings = before ++ (name, value) :: after ∧ ∀ b ∈ after, b.1 ≠ name := by
  rw [bindings, get?_foldl_bind, Option.map_eq_some_iff]
  simp only [List.find?_eq_some_iff_append]
  constructor
  · rintro ⟨⟨_, _⟩, ⟨hname, after, before, hsplit, hafter⟩, rfl⟩
    obtain rfl := of_decide_eq_true hname
    refine ⟨before.reverse, after.reverse, ?_, fun b hb => by simpa using hafter b (List.mem_reverse.1 hb)⟩
    rw [← List.reverse_reverse script.literalBindings, hsplit]
    simp
  · rintro ⟨before, after, hsplit, hafter⟩
    refine ⟨(name, value), ⟨decide_eq_true rfl, after.reverse, before.reverse, ?_, fun b hb => ?_⟩, rfl⟩
    · rw [hsplit]
      simp
    · simpa using hafter b (List.mem_reverse.1 hb)

/-- The literal that a variable stands for is the one of the last declarator that gives it one. -/
theorem get?_bindings_iff {script : Placed} {name value : Text} :
    (bindings script.tree).get? name = some value ↔ script.GivesLast name value := by
  rw [get?_bindings_eq_some_iff, literalBindings_eq]
  have hascend := script.declarators_ascend
  constructor
  · rintro ⟨_, _, hsplit, hafter⟩
    obtain ⟨earlier, most, hall, -, hmost⟩ := List.filterMap_eq_append_iff.1 hsplit
    obtain ⟨silent, ⟨address, declarator⟩, later, rfl, hsilent, hgives, rfl⟩ := List.filterMap_eq_cons_iff.1 hmost
    have hmem : (address, declarator) ∈ script.declarators := by simp [hall]
    refine ⟨address, declarator, Placed.declares_iff.1 hmem, literalBinding?_iff.1 hgives, ?_⟩
    intro address' q other hlt hdeclares hgives'
    -- a declarator with a later address comes after this one, where none gives the variable a literal
    have hq := Placed.declares_iff.2 hdeclares
    rw [hall, ← List.append_assoc] at hq hascend
    have hlater := (mem_later_iff hascend hq).1 hlt
    exact hafter _ (List.mem_filterMap.2 ⟨_, hlater, literalBinding?_iff.2 hgives'⟩) rfl
  · rintro ⟨address, declarator, hdeclares, hgives, hlast⟩
    obtain ⟨earlier, later, hall⟩ := List.append_of_mem (Placed.declares_iff.2 hdeclares)
    rw [hall] at hascend
    refine ⟨earlier.filterMap fun x => literalBinding? x.2.tree,
      later.filterMap fun x => literalBinding? x.2.tree, ?_, ?_⟩
    · rw [hall, List.filterMap_append, List.filterMap_cons, literalBinding?_iff.2 hgives]
    · rintro ⟨other, v⟩ hb rfl
      obtain ⟨⟨address', q⟩, hq, hgives'⟩ := List.mem_filterMap.1 hb
      refine hlast address' q v ?_ (Placed.declares_iff.1 (by simp [hall, hq])) (literalBinding?_iff.1 hgives')
      exact (mem_later_iff hascend (by simp [hq])).2 hq

/-- A variable stands for nothing if no declarator gives it a literal. -/
theorem get?_bindings_eq_none_iff {script : Placed} {name : Text} :
    (bindings script.tree).get? name = none ↔ ¬ script.GivesSome name := by
  rw [bindings, get?_foldl_bind, Option.map_eq_none_iff, List.find?_eq_none, literalBindings_eq]
  simp only [List.mem_reverse, List.mem_filterMap, Prod.exists, decide_eq_true_eq]
  constructor
  · rintro h ⟨address, declarator, value, hdeclares, hgives⟩
    exact h (name, value) ⟨address, declarator, Placed.declares_iff.2 hdeclares, literalBinding?_iff.2 hgives⟩ rfl
  · rintro h ⟨_, value⟩ ⟨address, declarator, hmem, hgives⟩ rfl
    exact h ⟨address, declarator, value, Placed.declares_iff.1 hmem, literalBinding?_iff.1 hgives⟩

theorem exists_givesLast {script : Placed} {name : Text} (h : script.GivesSome name) :
    ∃ value, script.GivesLast name value := by
  cases hget : (bindings script.tree).get? name with
  | some value => exact ⟨value, get?_bindings_iff.1 hget⟩
  | none => exact absurd h (get?_bindings_eq_none_iff.1 hget)

end AssetEmbed.Script
