import AssetEmbed.Proofs.Script.Formed

/-!
# The tree of a script is formed, and spells the script

Each construct of the grammar keeps formed trees and leaves out no character as long as the goals within it do; by
induction on the depth of the goals, so does the reading of a script.
-/

namespace AssetEmbed.Script.Tree

/-! ## 1. Patterns -/

theorem eq_of_firstToPattern? {ts ps : List Tree} (h : firstToPattern? ts = some ps) : ps = ts := by
  unfold firstToPattern? at h
  split at h
  case h_3 => split at h <;> cases h; rfl
  all_goals cases h
  all_goals rfl

/-- The patterns that expressions, items and entries become are what they have to be if these are. -/
theorem patterns_formed :
    (∀ t : Tree, t.Formed → ∀ p, t.toPattern? = some p → p.Formed) ∧
      (∀ ts, AllFormed ts → ∀ ps, itemsToPatterns? ts = some ps → AllFormed ps) ∧
      (∀ ts, AllFormed ts → ∀ ps, lastToPattern? ts = some ps → AllFormed ps) ∧
      (∀ ts, AllFormed ts → ∀ ps, entriesToPatterns? ts = some ps → AllFormed ps) := by
  -- one case for each clause of the four functions; only the trees within a clause change
  apply toPattern?.mutual_induct
  all_goals
    intros
    simp_all only [toPattern?, itemsToPatterns?, lastToPattern?, entriesToPatterns?,
      Option.map_eq_map, Option.map_eq_some_iff, Option.bind_eq_bind, Option.bind_eq_some_iff,
      Option.pure_def, Option.some.injEq, AllFormed, Formed, Kind.Joins, Kind.Spells]
  all_goals grind [Formed, AllFormed, Kind.Joins, Kind.Spells, eq_of_firstToPattern?]

/-- The patterns that expressions, items and entries become have the same characters. -/
theorem patterns_text :
    (∀ t : Tree, ∀ p, t.toPattern? = some p → p.text = t.text) ∧
      (∀ ts ps, itemsToPatterns? ts = some ps → textOfList ps = textOfList ts) ∧
      (∀ ts ps, lastToPattern? ts = some ps → textOfList ps = textOfList ts) ∧
      (∀ ts ps, entriesToPatterns? ts = some ps → textOfList ps = textOfList ts) := by
  apply toPattern?.mutual_induct
  all_goals
    intros
    simp_all only [toPattern?, itemsToPatterns?, lastToPattern?, entriesToPatterns?,
      Option.map_eq_map, Option.map_eq_some_iff, Option.bind_eq_bind, Option.bind_eq_some_iff,
      Option.pure_def, Option.some.injEq]
  all_goals grind [Tree.text, textOfList, eq_of_firstToPattern?]

theorem isTrivia_of_toPattern? {t p : Tree} (ht : t.isKind .object || t.isKind .array)
    (h : t.toPattern? = some p) : p.isTrivia = false := by
  cases t with
  | blank _ | token _ => cases h
  | leaf kind _ =>
    -- a token of these kinds is no place that can be assigned to
    rcases Bool.or_eq_true_iff.1 ht with hkind | hkind <;> obtain rfl : kind = _ := by simpa [isKind, kind?] using hkind
    all_goals cases h
  | node kind children =>
    rcases Bool.or_eq_true_iff.1 ht with hkind | hkind <;> obtain rfl : kind = _ := by simpa [isKind, kind?] using hkind
    all_goals
      obtain ⟨_, -, rfl⟩ := Option.map_eq_some_iff.1 h
      rfl

end AssetEmbed.Script.Tree

-- The size of an answer doubles with each step of a sequence.
set_option synthInstance.maxSize 100000000

namespace AssetEmbed.Script.Grammar

open Step AssetEmbed.Script.Tree Lexeme

variable {g : Grammar} [∀ goal, Keeps (g.read goal)]

/-! ## 2. Names and lists -/

instance {c : Context} : Keeps (g.expression c) := by
  unfold expression
  infer_instance

instance : Keeps g.type := by
  unfold type
  infer_instance

instance {p : Step} [Keeps p] : Keeps (g.typed p) := by
  unfold typed
  infer_instance

instance {p : Step} [Keeps p] : Keeps (g.typedOptional p) := by
  unfold typedOptional
  infer_instance

instance {c : Context} : Keeps (g.expressions c) := by
  unfold expressions
  infer_instance

instance {p : Step} [Keeps p] : Keeps (items p) := by
  unfold items
  infer_instance

instance {kind : Kind} [Passes kind.isOrdinary] {excluded : List String} : Keeps (wordBut kind excluded) := by
  unfold wordBut
  infer_instance

instance {excluded : List String} : Keeps (g.name excluded) := by
  unfold name
  infer_instance

instance : Keeps g.reference := by
  unfold reference
  infer_instance

instance : Keeps propertyWord := by
  unfold propertyWord
  infer_instance

instance : Keeps privateName := by
  unfold privateName
  have : Consuming fun s => match s with
      | '#' :: s => (word? s).map (before ['#'])
      | _ => none :=
    { eq_append := fun h => by
        split at h
        · exact eq_append_of_map_before Cutting.eq_append h
        · cases h
      ne_nil := fun h => by
        split at h
        · exact ne_nil_of_map_before h
        · cases h }
  infer_instance

instance : Keeps string := by
  unfold string
  infer_instance

instance : Keeps g.propertyName := by
  unfold propertyName
  infer_instance

instance {words : List String} : Keeps (mark g words) := by
  unfold mark
  refine @keeps_choose _ fun s => ?_
  split <;> infer_instance

instance {c : Context} : Keeps (g.initializer c) := by
  unfold initializer
  infer_instance

/-! ## 3. Parameters and patterns -/

instance {mayEnd : Bool} : Keeps (g.predicate mayEnd) := by
  unfold predicate
  infer_instance

instance {mayEnd : Bool} : Keeps (g.ascription mayEnd) := by
  unfold ascription
  infer_instance

instance {mayEnd : Bool} : Keeps (g.resultAscription mayEnd) := by
  unfold resultAscription
  infer_instance

instance : Keeps g.typeArguments := by
  unfold typeArguments
  infer_instance

instance : Keeps g.typeParameter := by
  unfold typeParameter
  infer_instance

instance : Keeps g.typeParameters := by
  unfold typeParameters
  infer_instance

instance : Keeps g.memberAfter := by
  unfold memberAfter
  infer_instance

instance : Keeps g.place := by
  unfold place
  infer_instance

instance : Keeps g.restPattern := by
  unfold restPattern
  infer_instance

instance : Keeps g.defaulted := by
  unfold defaulted
  infer_instance

instance : Keeps g.patternEntry := by
  unfold patternEntry
  infer_instance

instance : Keeps g.objectPattern := by
  unfold objectPattern
  infer_instance

instance : Keeps g.arrayPattern := by
  unfold arrayPattern
  infer_instance

instance : Keeps g.bindingStep := by
  unfold bindingStep
  infer_instance

instance : Keeps g.arguments := by
  unfold arguments
  infer_instance

instance : Keeps g.decorator := by
  unfold decorator
  infer_instance

instance : Keeps parameterMark := by
  unfold parameterMark
  refine @keeps_choose _ fun s => ?_
  split <;> infer_instance

instance : Keeps g.typedParameter := by
  unfold typedParameter
  infer_instance

instance : Keeps g.parameter := by
  unfold parameter
  infer_instance

instance : Keeps g.parameters := by
  unfold parameters
  infer_instance

instance {mayEnd : Bool} : Keeps (g.signature mayEnd) := by
  unfold signature
  infer_instance

/-! ## 4. Types -/

instance : Keeps g.mappedAscription := by
  unfold mappedAscription
  infer_instance

instance : Keeps g.indexMember := by
  unfold indexMember
  infer_instance

instance : Keeps g.typeMember := by
  unfold typeMember
  infer_instance

instance : Keeps g.memberEnd := by
  unfold memberEnd
  infer_instance

instance : Keeps g.typeMembers := by
  unfold typeMembers
  infer_instance

instance : Keeps g.tupleMember := by
  unfold tupleMember
  infer_instance

theorem templateChars_eq_append (s : Text) : s = (templateChars s).1 ++ (templateChars s).2 := by
  fun_induction templateChars s with
  | case1 | case2 | case3 => rfl
  | case4 c s _ _ ih => exact congrArg (c :: ·) ih

instance : Keeps templateFragment := by
  unfold templateFragment
  have : Consuming fun s => match templateChars s with
      | ([], _) => none
      | read => some read :=
    { eq_append := fun {s _ _} h => by
        have hsplit := templateChars_eq_append s
        split at h
        · cases h
        · rw [Option.some.inj h] at hsplit
          exact hsplit
      ne_nil := fun h => by
        split at h
        · cases h
        · rename_i hne
          rintro rfl
          exact hne _ (Option.some.inj h) }
  infer_instance

instance : Keeps g.templateType := by
  unfold templateType
  infer_instance

instance : Keeps g.namedType := by
  unfold namedType
  infer_instance

instance : Keeps g.typeQuery := by
  unfold typeQuery
  infer_instance

instance : Keeps g.wordType := by
  unfold wordType
  infer_instance

instance : Keeps g.simpleType := by
  unfold simpleType
  refine @keeps_choose _ fun s => ?_
  split <;> infer_instance

instance {mayEnd : Bool} : Keeps (g.indexedType mayEnd) := by
  unfold indexedType
  infer_instance

instance {mayEnd : Bool} : Keeps (g.markedType mayEnd) := by
  unfold markedType
  infer_instance

instance {mayEnd : Bool} : Keeps (g.functionType mayEnd) := by
  unfold functionType
  infer_instance

instance {mayEnd : Bool} : Keeps (g.unionPart mayEnd) := by
  unfold unionPart
  infer_instance

instance {mayEnd : Bool} : Keeps (g.unionType mayEnd) := by
  unfold unionType
  infer_instance

instance {mayEnd : Bool} : Keeps (g.typeStep mayEnd) := by
  unfold typeStep
  infer_instance

/-! ## 5. Functions and classes -/

instance : Keeps g.block := by
  unfold block
  infer_instance

instance : Keeps g.functionExpression := by
  unfold functionExpression
  infer_instance

instance : Keeps g.bareParameter := by
  unfold bareParameter
  infer_instance

instance {c : Context} : Keeps (g.arrowBody c) := by
  unfold arrowBody
  infer_instance

instance {c : Context} : Keeps (g.arrowFunction c) := by
  unfold arrowFunction
  infer_instance

instance : Keeps g.method := by
  unfold method
  infer_instance

instance : Keeps g.methodSignature := by
  unfold methodSignature
  infer_instance

instance : Keeps g.field := by
  unfold field
  infer_instance

instance : Keeps g.member := by
  unfold member
  infer_instance

instance : Keeps g.heritage := by
  unfold heritage
  infer_instance

instance {named : Bool} : Keeps (g.classTail named) := by
  unfold classTail
  infer_instance

instance : Keeps g.classExpression := by
  unfold classExpression
  infer_instance

/-! ## 6. Literals -/

instance : Keeps g.spread := by
  unfold spread
  infer_instance

instance : Keeps g.objectEntry := by
  unfold objectEntry
  infer_instance

instance : Keeps g.object := by
  unfold object
  infer_instance

instance : Keeps g.array := by
  unfold array
  infer_instance

instance : Keeps g.template := by
  unfold template
  infer_instance

instance : Keeps Step.toPattern where
  keepsFrom rooted script s t hs h := by
    unfold Step.toPattern at h
    split at h
    · rename_i tree trees htrees
      have hstacked : Stacked rooted (tree :: trees) := htrees ▸ hs.toStacked
      split at h
      · rename_i hkind
        split at h
        · rename_i pattern hpattern
          cases h
          have hformed := patterns_formed.1 _ hstacked.formed.1 _ hpattern
          refine ⟨hstacked.replace hformed (isTrivia_of_toPattern? hkind hpattern), ?_⟩
          rw [State.text_of_cons rfl, patterns_text.1 _ _ hpattern, ← hs.text_eq, State.text_of_cons htrees]
        · cases h
      · cases h
        exact hs
    · cases h

/-! ## 7. Markup -/

instance : Keeps g.markupWord := by
  unfold markupWord
  have : Consuming fun s => (word? s).bind fun (w, rest) =>
      if !g.dialect.hasTypes && reservedWords.contains (String.ofList w) then none
      else some (w, rest) :=
    Consuming.of_word fun w r h => by
      obtain ⟨a, b⟩ := w
      dsimp only at h
      split at h <;> simp_all
  infer_instance

instance : Keeps g.markupName := by
  unfold markupName
  infer_instance

instance : Keeps g.markupExpression := by
  unfold markupExpression
  infer_instance

instance : Keeps attributeName := by
  unfold attributeName
  infer_instance

instance : Keeps g.tagAttribute := by
  unfold tagAttribute
  infer_instance

instance : Keeps g.tagHead := by
  unfold tagHead
  infer_instance

instance : Keeps g.markupChild := by
  unfold markupChild
  infer_instance

instance : Keeps g.elementTail := by
  unfold elementTail
  infer_instance

instance {kind : Kind} [hkind : Passes kind.isOrdinary] : Keeps (wrap kind) where
  keepsFrom _ _ _ _ hs h := by
    cases h
    refine ⟨stacked_singleton ⟨Kind.joins_of_isOrdinary hkind.eq_true _, allFormed_reverse hs.formed⟩ rfl, ?_⟩
    rw [State.text_of_cons rfl]
    exact hs.text_eq

instance : Keeps g.elementParts := by
  unfold elementParts
  infer_instance

instance : Starts g.elementParts := by
  unfold elementParts
  infer_instance

instance : Keeps g.elementStep where
  keepsFrom rooted script s t hs h := by
    unfold elementStep at h
    dsimp only at h
    split at h
    · rename_i u hu
      cases h
      have hu := Starts.starts (p := g.elementParts) (s := { s.skip with trees := [] }) rfl s.trivium?_skip hu
      have hpiled := (hs.toPiled.skipUpTo true s.rest).append hu.formed
      refine ⟨⟨hpiled, ?_⟩, ?_⟩
      · intro tree htree
        obtain ⟨first, hfirst, -⟩ := hu.root trivial
        cases htrees : u.trees with
        | nil => rw [htrees] at hfirst; cases hfirst
        | cons v trees =>
          rw [htrees] at htree
          exact hu.landed tree (by rw [htrees]; exact htree)
      · have hskip := State.text_skipUpTo true s.rest s
        rw [← hs.text_eq, ← hskip]
        show textOfList (u.trees ++ s.skip.trees).reverse ++ u.rest = s.skip.text
        rw [List.reverse_append, textOfList_append, List.append_assoc]
        exact congrArg (textOfList s.skip.trees.reverse ++ ·) hu.text_eq
    · cases h

/-! ## 8. Expressions -/

instance : Keeps g.parenthesized := by
  unfold parenthesized
  infer_instance

instance {c : Context} : Keeps (g.parenthesizedOrArrow c) := by
  unfold parenthesizedOrArrow
  refine Keeps.afterTrial inferInstance fun rooted script t ht => ?_
  have harrow : (g.arrowFunction c).KeepsFrom rooted script := Keeps.keepsFrom rooted script
  dsimp only
  split
  · exact harrow
  split
  · exact harrow.orElse fun _ => keepsFrom_resume ht
  · exact keepsFrom_resume ht

instance {c : Context} : Keeps (g.asyncOperand c) := by
  unfold asyncOperand
  exact Keeps.afterTrial inferInstance fun rooted script t ht => Keeps.keepsFrom rooted script

instance : Keeps g.importOperand := by
  unfold importOperand
  infer_instance

instance {c : Context} : Keeps (g.nameOrArrow c) := by
  unfold nameOrArrow
  exact Keeps.afterTrial inferInstance fun rooted script t ht => Keeps.keepsFrom rooted script

instance {c : Context} {word : String} : Keeps (g.wordOperand c word) := by
  unfold wordOperand
  infer_instance

instance {c : Context} : Keeps (g.simple c) := by
  unfold simple
  refine @keeps_choose _ fun s => ?_
  split
  · infer_instance
  · rename_i ch rest _
    have : Keeps (match wordAt? (ch :: rest) with
        | some word => g.wordOperand c word
        | none => fail) := by split <;> infer_instance
    infer_instance

instance {c : Context} : Keeps (g.typeArgumentsAfter c) := by
  unfold typeArgumentsAfter
  infer_instance

instance {primary : Bool} : Keeps (g.optionalChain primary) := by
  unfold optionalChain
  extract_lets chain
  have : Consuming (exactly "?.") := ⟨fun h => by
    obtain ⟨r, -, hr⟩ := Option.map_eq_some_iff.1 h
    cases hr
    decide⟩
  have : Keeps chain := Keeps.afterExpression
  infer_instance

instance {c : Context} : Keeps (g.suffix c) := by
  unfold suffix
  refine @keeps_choose _ fun s => ?_
  split
  · infer_instance
  · dsimp only
    split <;> infer_instance

instance : Keeps g.constructorSuffix := by
  unfold constructorSuffix
  refine @keeps_choose _ fun s => ?_
  split <;> infer_instance

instance : Keeps g.constructor := by
  unfold constructor
  infer_instance

instance {c : Context} : Keeps (g.newOperand c) := by
  unfold newOperand
  infer_instance

instance {c : Context} : Keeps (g.assignmentTail c) := by
  unfold assignmentTail
  refine @keeps_choose _ fun s => ?_
  split <;> infer_instance

instance {start : Step} {c : Context} [Keeps start] : Keeps (g.chain start c) := by
  unfold chain
  infer_instance

instance : Keeps privateOperand := by
  unfold privateOperand
  infer_instance

instance {c : Context} : Keeps (g.yieldOperand c) := by
  unfold yieldOperand
  infer_instance

instance {c : Context} {mark : Step} [Keeps mark] : Keeps (g.unary c mark) := by
  unfold unary
  infer_instance

instance {c : Context} : Keeps (g.operandStep c) := by
  unfold operandStep
  refine @keeps_choose _ fun s => ?_
  split
  case h_5 =>
    split
    · infer_instance
    · split
      · infer_instance
      · split <;> infer_instance
  all_goals infer_instance

instance {operator : String} : Passes (jointKind operator).isOrdinary := by
  unfold jointKind
  split
  · exact ⟨rfl⟩
  split <;> exact ⟨rfl⟩

instance {c : Context} {bound : Text} {least : Nat} : Keeps (g.jointsUpTo c bound least) := by
  induction bound generalizing least with
  | nil => unfold jointsUpTo; infer_instance
  | cons _ bound ih =>
    unfold jointsUpTo
    refine @keeps_choose _ fun s => ?_
    split <;> infer_instance

instance {c : Context} : Keeps (g.conditional c) := by
  unfold conditional
  infer_instance

instance {c : Context} : Keeps (g.expressionStep c) := by
  unfold expressionStep
  infer_instance

/-! ## 9. Declarations -/

instance {c : Context} : Keeps (g.declarator c) := by
  unfold declarator
  infer_instance

instance : Keeps g.declarators := by
  unfold declarators
  infer_instance

instance : Keeps g.variableDeclaration := by
  unfold variableDeclaration
  infer_instance

instance : Keeps g.lexicalDeclaration := by
  unfold lexicalDeclaration
  infer_instance

instance : Keeps g.usingDeclaration := by
  unfold usingDeclaration
  infer_instance

instance : Keeps g.functionDeclaration := by
  unfold functionDeclaration
  infer_instance

instance : Keeps g.classDeclaration := by
  unfold classDeclaration
  infer_instance

instance {word : String} : Keeps (g.leadingWord word) := by
  unfold leadingWord
  infer_instance

instance : Keeps g.interfaceDeclaration := by
  unfold interfaceDeclaration
  infer_instance

instance : Keeps g.enumMember := by
  unfold enumMember
  infer_instance

instance : Keeps g.enumDeclaration := by
  unfold enumDeclaration
  infer_instance

instance : Keeps g.typeAlias := by
  unfold typeAlias
  infer_instance

instance : Keeps dottedName := by
  unfold dottedName
  infer_instance

instance : Keeps g.moduleDeclaration := by
  unfold moduleDeclaration
  infer_instance

instance : Keeps g.importAlias := by
  unfold importAlias
  infer_instance

instance : Keeps g.plainDeclaration := by
  unfold plainDeclaration
  infer_instance

instance : Keeps g.ambientDeclaration := by
  unfold ambientDeclaration
  infer_instance

instance : Keeps g.declaration := by
  unfold declaration
  infer_instance

/-! ## 10. Statements -/

instance : Keeps g.exportName := by
  unfold exportName
  infer_instance

instance : Keeps g.exportSpecifier := by
  unfold exportSpecifier
  infer_instance

instance : Keeps g.importSpecifier := by
  unfold importSpecifier
  infer_instance

instance {specifier : Step} [Keeps specifier] : Keeps (specifiers specifier) := by
  unfold specifiers
  infer_instance

instance : Keeps source := by
  unfold source
  infer_instance

instance : Keeps g.importAttribute := by
  unfold importAttribute
  infer_instance

instance : Keeps g.importClause := by
  unfold importClause
  infer_instance

instance : Keeps g.importStatement := by
  unfold importStatement
  infer_instance

instance : Keeps g.exportedNames := by
  unfold exportedNames
  infer_instance

instance : Keeps g.typedExport := by
  unfold typedExport
  infer_instance

instance : Keeps g.exportStatement := by
  unfold exportStatement
  infer_instance

instance : Keeps g.condition := by
  unfold condition
  infer_instance

instance {kind : Kind} [Passes kind.isOrdinary] {word : String} {rest : Step} [Keeps rest] :
    Keeps (clause kind word rest) := by
  unfold clause
  infer_instance

instance : Keeps g.ifStatement := by
  unfold ifStatement
  infer_instance

instance : Keeps g.switchStatement := by
  unfold switchStatement
  infer_instance

instance : Keeps g.iterationHead := by
  unfold iterationHead
  infer_instance

instance : Keeps g.countHead := by
  unfold countHead
  infer_instance

instance : Keeps g.forStatement := by
  unfold forStatement
  infer_instance

instance : Keeps g.whileStatement := by
  unfold whileStatement
  infer_instance

instance : Keeps g.doStatement := by
  unfold doStatement
  infer_instance

instance : Keeps g.tryStatement := by
  unfold tryStatement
  infer_instance

instance {kind : Kind} [Passes kind.isOrdinary] {word : String} {part : Step} {inExpression : Bool} [Keeps part] :
    Keeps (g.jump kind word part inExpression) := by
  unfold jump
  infer_instance

instance : Keeps g.expressionStatement := by
  unfold expressionStatement
  infer_instance

instance : Keeps g.labeledStatement := by
  unfold labeledStatement
  infer_instance

instance : Keeps g.otherStatement := by
  unfold otherStatement
  infer_instance

instance {statement : Step} [Keeps statement] : Keeps (g.eitherStatement statement) := by
  unfold eitherStatement
  refine Keeps.afterTrial inferInstance fun rooted script t ht => ?_
  dsimp only
  split
  · exact KeepsFrom.orElse (Keeps.keepsFrom rooted script) fun _ => keepsFrom_resume ht
  · exact keepsFrom_resume ht

instance {word : String} : Keeps (g.wordStatement word) := by
  unfold wordStatement
  split
  case h_7 => exact Keeps.afterTrial inferInstance fun rooted script t ht => Keeps.keepsFrom rooted script
  case h_22 => exact Keeps.afterTrial inferInstance fun rooted script t ht => Keeps.keepsFrom rooted script
  all_goals infer_instance

instance : Keeps g.statementStep := by
  unfold statementStep
  refine @keeps_choose _ fun s => ?_
  split
  case h_5 =>
    split <;> infer_instance
  all_goals infer_instance

/-! ## 11. Scripts -/

instance {goal : Goal} : Keeps (g.step goal) := by
  cases goal <;> unfold step <;> infer_instance

omit [∀ goal, Keeps (g.read goal)] in
theorem ofDepth_keeps (d : Dialect) (depth : Nat) (goal : Goal) :
    Keeps ((ofDepth d depth).read goal) := by
  induction depth generalizing goal with
  | zero => exact inferInstanceAs (Keeps fail)
  | succ depth ih => exact inferInstanceAs (Keeps ((ofDepth d depth).step goal))

omit [∀ goal, Keeps (g.read goal)] in
/-- The trees of a script are formed and spell what has been read of it; the blanks and comments at its end are no
part of anything. -/
theorem formed_of_script {d : Dialect} {depth : Nat} {script : Text} {t : State}
    (h : (ofDepth d depth).script (State.ofScript script) = .ok t) : AllFormed t.trees ∧ t.text = script := by
  have := ofDepth_keeps d depth
  obtain ⟨s, hs, h⟩ := exists_of_andThen
    (q := fun _ => many ((ofDepth d depth).read .statement) >> spaced nothing) h
  obtain ⟨s', hs', h⟩ := exists_of_andThen (q := fun _ => spaced nothing) h
  cases h
  have hfirst := Keeps.keepsFrom False script (underway_of_nil (s := .ofScript script) rfl) hs
  have hlast := Keeps.keepsFrom False script hfirst hs'
  exact ⟨(hlast.toPiled.skipUpTo _ _).formed, (State.text_skipUpTo _ _ _).trans hlast.text_eq⟩

end AssetEmbed.Script.Grammar

namespace AssetEmbed.Script.Tree

section

variable {d : Dialect} {script : Text} {tree : Tree}

/-- The tree of a script is a program of all that is read, and nothing is left. -/
theorem exists_of_ofScript (h : ofScript d script = .ok tree) :
    ∃ s, (Grammar.ofDepth d (Grammar.depthOf script)).script (State.ofScript script) = .ok s ∧
      tree = .node .program s.trees.reverse ∧ s.rest = [] := by
  unfold ofScript at h
  split at h
  next s hs =>
    dsimp only at h
    split at h
    next hcond =>
      cases h
      simp only [Bool.and_eq_true, decide_eq_true_eq] at hcond
      exact ⟨s, hs, rfl, hcond.1⟩
    next => cases h
  next => cases h

theorem exists_program (h : ofScript d script = .ok tree) : ∃ ts, tree = .node .program ts := by
  obtain ⟨_, -, htree, -⟩ := exists_of_ofScript h
  exact ⟨_, htree⟩

/-- The tokens and constructs of the tree of a script are what they have to be. -/
theorem ofScript_formed (h : ofScript d script = .ok tree) : tree.Formed := by
  obtain ⟨_, hs, rfl, -⟩ := exists_of_ofScript h
  exact ⟨trivial, allFormed_reverse (Grammar.formed_of_script hs).1⟩

theorem ofScript_solid (h : ofScript d script = .ok tree) : tree.Solid := (ofScript_formed h).solid

/-- The tree of a script spells it: no step leaves out a character, and in the end nothing is left. -/
theorem ofScript_text (h : ofScript d script = .ok tree) : tree.text = script := by
  obtain ⟨s, hs, rfl, hrest⟩ := exists_of_ofScript h
  have htext := (Grammar.formed_of_script hs).2
  unfold State.text at htext
  rwa [hrest, List.append_nil] at htext

end

end AssetEmbed.Script.Tree
