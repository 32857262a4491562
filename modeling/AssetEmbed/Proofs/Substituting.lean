import AssetEmbed.Proofs.Diagnosing
import AssetEmbed.Proofs.Literal
import AssetEmbed.Proofs.Script.Plain.Script
import AssetEmbed.Proofs.Script.Plain.Substitution

/-!
# Substituting — the tree of a module in which calls are replaced

The text of a module in which calls are replaced is that of its tree with literals in the place of the calls.
Whether the grammar reads that tree in it depends on what stands before and behind the calls: in a module in
plain form it does.
-/

namespace AssetEmbed

/-! ## 1. The tree with the literals -/

/-- What takes the place of the call at a place of a module, if anything does. -/
def embeddingAt [Charsets] (fs : FileSystem) (options : TransformOptions) (moduleId code : Text)
    (tree : Script.Tree) (p : Script.Tree.Placed) : Option Embedding :=
  let source : Script.Source := ⟨moduleId, code, options.marker⟩
  if source.isMarkerCall p.tree then
    (source.markerCall p).toOption.bind (·.embedding? fs options (Script.bindings tree))
  else none

/-- The tree that takes the place of the call at a place of a module, if any does. -/
def literalAt [Charsets] (fs : FileSystem) (options : TransformOptions) (moduleId code : Text) (tree : Script.Tree)
    (p : Script.Tree.Placed) : Option Script.Tree :=
  (embeddingAt fs options moduleId code tree p).map Embedding.tree

/-- The tree of a module with the trees of literals in the place of the calls that are embedded; what stands
within a call that is replaced is gone with it. -/
def embeddedTree [Charsets] (fs : FileSystem) (options : TransformOptions) (moduleId code : Text)
    (tree : Script.Tree) : Script.Tree :=
  tree.substitute (literalAt fs options moduleId code tree) 0

section

variable {fs : FileSystem} {options : TransformOptions} {moduleId code : Text} {tree : Script.Tree}
  {outcome : Outcome} {events : List Event}

theorem isMarkerCall_of_literalAt [Charsets] (p : Script.Tree.Placed) (u : Script.Tree)
    (h : literalAt fs options moduleId code tree p = some u) :
    (⟨moduleId, code, options.marker⟩ : Script.Source).isMarkerCall p.tree := by
  obtain ⟨e, he, -⟩ := Option.map_eq_some_iff.1 h
  by_contra hmarker
  simp [embeddingAt, hmarker] at he

theorem replacements_eq [Charsets] :
    tree.replacements (literalAt fs options moduleId code tree) 0 =
      (moduleEmbedded fs options moduleId code tree).map Embedded.edit := by
  unfold Script.Tree.replacements moduleEmbedded embeddedCalls moduleCalls
  rw [Script.Source.markerCalls_eq_filterMap, Script.Source.placedCalls, List.map_filterMap,
    List.filterMap_filterMap, List.filterMap_filter]
  -- place by place: an embedded call gives its literal, and nothing else gives one
  congr 1
  funext p
  unfold literalAt embeddingAt
  dsimp only
  split
  next hmarker =>
    cases hcall : (⟨moduleId, code, options.marker⟩ : Script.Source).markerCall p with
    | error warning => rfl
    | ok call =>
      show ((call.embedding? fs options (Script.bindings tree)).map Embedding.tree).map p.editTo =
        ((call.embedding? fs options (Script.bindings tree)).map (call, ·)).map Embedded.edit
      rw [Option.map_map, Option.map_map]
      congr 1
      funext e
      simp only [Function.comp_apply, Script.Tree.Placed.editTo, Embedded.edit, e.tree_text,
        Script.Source.range_of_markerCall hcall]
  next => rfl

theorem transformTree_of_transformed [Charsets] {filter : Option ModuleFilter} {result : Transformed}
    (htree : Script.Tree.ofScript (Script.Dialect.ofModuleId moduleId) code = .ok tree)
    (hreturns : transform fs filter options moduleId code = .ok (.transformed result, events)) :
    transformTree fs options moduleId code tree = .ok (.transformed result, events) := by
  -- had a filter left the module out, it would have come back untouched
  have hfilter : ∀ f ∈ filter, f.accepts fs moduleId = .ok true := by
    rintro f hf
    cases hf
    simp only [transform] at hreturns
    cases haccepts : f.accepts fs moduleId with
    | error e =>
      rw [haccepts] at hreturns
      cases hreturns
    | ok accepted =>
      cases accepted with
      | true => rfl
      | false =>
        rw [haccepts] at hreturns
        cases hreturns
  rcases transform_cases htree hfilter hreturns with h | ⟨-, h⟩
  · exact h
  · cases h

theorem code_eq_text_embeddedTree [Charsets] {result : Transformed} (hsolid : tree.Solid)
    (htext : tree.text = code)
    (h : transformTree fs options moduleId code tree = .ok (.transformed result, events)) :
    result.code = (embeddedTree fs options moduleId code tree).text := by
  have hmarker : ∀ p u, literalAt fs options moduleId code tree p = some u →
      (⟨moduleId, code, options.marker⟩ : Script.Source).isMarkerCall p.tree := isMarkerCall_of_literalAt
  have hspliced := Script.Tree.substitute_text_eq_spliced hmarker hsolid
  rw [replacements_eq, ← map_edit_outermostCalls, htext] at hspliced
  rcases replaces_of_transformTree hsolid htext h with ⟨-, h⟩ | ⟨-, _, h, hcode⟩
  · cases h
  · cases h
    rw [hcode]
    exact hspliced.symm

theorem Embedding.isKind_tree (e : Embedding) :
    e.tree.isKind (match e with | .one _ => .object | .many _ => .array) := by
  cases e <;> rfl

/-- The text of a module in which calls are replaced is that of its tree with an object in the place of each
outermost call for one file that is embedded, and an array in the place of each call for a pattern.  For a
module in plain form this text is well formed, and that tree is the one that is read in it. -/
theorem transformed_text_spells_substitution [Charsets] {filter : Option ModuleFilter} {result : Transformed}
    (htree : Script.Tree.ofScript (Script.Dialect.ofModuleId moduleId) code = .ok tree)
    (hreturns : transform fs filter options moduleId code = .ok (.transformed result, events)) :
    result.code = (embeddedTree fs options moduleId code tree).text ∧
    (∀ p e, embeddingAt fs options moduleId code tree p = some e →
      e.tree.text = e.literal ∧ e.tree.isKind (match e with | .one _ => .object | .many _ => .array)) ∧
    (Script.Module (Script.Dialect.ofModuleId moduleId) ⟨moduleId, code, options.marker⟩ tree.children →
      Script.Tree.ofScript (Script.Dialect.ofModuleId moduleId) result.code =
        .ok (embeddedTree fs options moduleId code tree)) := by
  have hcode := code_eq_text_embeddedTree (Script.Tree.ofScript_solid htree)
    (Script.Tree.ofScript_text htree) (transformTree_of_transformed htree hreturns)
  refine ⟨hcode, fun p e _ => ⟨e.tree_text, e.isKind_tree⟩, fun hplain => ?_⟩
  obtain ⟨ts, rfl⟩ := Script.Tree.exists_program htree
  -- a literal may be followed by what followed its call, and begins no block
  have hliteral : ∀ p u, literalAt fs options moduleId code (.node .program ts) p = some u →
      Script.Primary u ∧ Script.NoBlock u := by
    intro p u hu
    obtain ⟨e, -, rfl⟩ := Option.map_eq_some_iff.1 hu
    exact ⟨e.tree_primary, e.tree_noBlock⟩
  have hmodule := hplain.substitute isMarkerCall_of_literalAt hliteral 0
  have hembedded : embeddedTree fs options moduleId code (.node .program ts) =
      .node .program (Script.Tree.substituteList
        (literalAt fs options moduleId code (.node .program ts)) 0 ts) :=
    Script.substitute_node (Script.isKind_of_isMarkerCall isMarkerCall_of_literalAt) (by decide) 0 ts
  rw [hcode, hembedded]
  exact Script.ofScript_eq_ok hmodule

end

/-- Whether a module is transformed into one of some kind. -/
def answersWith (test : Transformed → Bool) : Except Abort (Outcome × List Event) → Bool
  | .ok (.transformed result, _) => test result
  | _ => false

theorem exists_of_answersWith {test : Transformed → Bool} {answer : Except Abort (Outcome × List Event)}
    (h : answersWith test answer) :
    ∃ result events, answer = .ok (.transformed result, events) ∧ test result := by
  unfold answersWith at h
  split at h
  next result events => exact ⟨result, events, rfl, h⟩
  next => cases h

/-- The statements of `let x = m('a')` and `f(m('*'))` on two lines. -/
def plainStatements : List Script.Tree :=
  let name (w : String) : Script.Tree := .leaf .identifier w.toList
  let call (f : String) (argument : Script.Tree) : Script.Tree :=
    .node .callExpression [name f, .node .arguments [.token ['('], argument, .token [')']]]
  let string (w : String) : Script.Tree := .leaf .string w.toList
  [.node .lexicalDeclaration [.token "let".toList, .blank [' '],
      .node .variableDeclarator [name "x", .blank [' '], .token ['='], .blank [' '], call "m" (string "'a'")]],
    .blank ['\n'],
    .node .expressionStatement [call "f" (call "m" (string "'*'"))],
    .blank ['\n']]

/-- They are in plain form: the line break behind the first one ends it, since a name begins the next. -/
theorem module_plainStatements (d : Script.Dialect) (moduleId code : Text) :
    Script.Module d ⟨moduleId, code, oneLetter.marker⟩ plainStatements := by
  have hname : ∀ w ∈ ["x", "m", "f"], Script.IsName w.toList := by
    have hall : ∀ w ∈ ["x", "m", "f"], w.toList ≠ [] ∧ (∀ c ∈ w.toList, Script.isWordChar c = true) ∧
        w.toList.head?.any Script.isDecimal = false ∧ String.ofList w.toList ∉ Script.specialWords := by
      decide
    intro w hw
    obtain ⟨hne, hchars, hhead, hspecial⟩ := hall w hw
    exact ⟨⟨hne, hchars, hhead⟩, hspecial⟩
  have hspace : ∀ c ∈ [' '], c ∈ [' ', '\t'] := by decide
  have hbreak : ∀ c ∈ ['\n'], c ∈ Script.lineBlanks := by decide
  have hinline : Script.Inline [.blank [' ']] := .blank (List.cons_ne_nil _ _) hspace
  have hline : Script.Spaces [.blank ['\n']] := .blank (List.cons_ne_nil _ _) hbreak
  have hcall : ∀ {w : String} {t : Script.Tree}, w ∈ ["x", "m", "f"] → Script.Primary t →
      Script.Primary (.node .callExpression [.leaf .identifier w.toList,
        .node .arguments [.token ['('], t, .token [')']]]) := fun hw ht =>
    .call (.name (hname _ hw)) (.some .none (.value (.primary ht)) .nil .none)
  have hstring : ∀ {w : String}, Script.quotedLiteral? w.toList = some (w.toList, []) →
      Script.Primary (.leaf .string w.toList) := fun hw => .string hw
  have hlast := hcall (w := "f") (by decide) (hcall (w := "m") (by decide) (hstring (w := "'*'") rfl))
  have hnamed : Script.Named ⟨moduleId, code, oneLetter.marker⟩ (.node .callExpression
      [.leaf .identifier "f".toList, .node .arguments [.token ['('], .node .callExpression
        [.leaf .identifier "m".toList, .node .arguments [.token ['('], .leaf .string "'*'".toList,
          .token [')']]], .token [')']]]) :=
    .follows (by decide) (.name (hname "f" (by decide)) (by decide)) rfl
  refine .opened .none (.declaration (.mk (by decide) hinline (hname "x" (by decide)) hinline.spaces.isGap
    hinline.spaces.isGap (.primary (hcall (by decide) (hstring rfl))) .nothing)) ?_ ?_
  · refine .opened hline.isGap (.expression (.primary hlast) (.follows (by decide) (.other (by decide)))
      .nothing) (.done hline.isGap) (.done hline)
  · exact .next hbreak (by decide) (.expression (.primary hlast) hnamed .nothing)

/-- The file is in both lines of `plainStatements`, once by itself and once in an array. -/
theorem transformed_text_spells_substitution_plainStatements :
    ∃ result events,
      Script.Tree.ofScript (Script.Dialect.ofModuleId "/x.js".toList)
        (Script.Tree.textOfList plainStatements) = .ok (.node .program plainStatements) ∧
      transform oneFile none oneLetter "/x.js".toList (Script.Tree.textOfList plainStatements) =
        .ok (.transformed result, events) ∧
      Script.Tree.ofScript (Script.Dialect.ofModuleId "/x.js".toList) result.code =
        .ok (embeddedTree oneFile oneLetter "/x.js".toList (Script.Tree.textOfList plainStatements)
          (.node .program plainStatements)) := by
  have hplain := module_plainStatements (Script.Dialect.ofModuleId "/x.js".toList) "/x.js".toList
    (Script.Tree.textOfList plainStatements)
  have htree := Script.ofScript_eq_ok hplain
  have hresult : answersWith (fun _ => true)
      (transform oneFile none oneLetter "/x.js".toList (Script.Tree.textOfList plainStatements)) := by
    decide +kernel
  obtain ⟨result, events, htransform, -⟩ := exists_of_answersWith hresult
  exact ⟨result, events, htree, htransform, (transformed_text_spells_substitution htree htransform).2.2 hplain⟩

/-- A line that goes on with the call on the line after it as soon as that is an array. -/
def openLine : Text := "let x = f\nm('*.txt')\n".toList

/-- Where a literal stands in the place of a call at the beginning of a line, the line before may go on with
it: the module is well formed, and what it becomes is not. -/
theorem transform_breaks_openLine :
    ∃ tree result events mistake,
      Script.Tree.ofScript (Script.Dialect.ofModuleId "/x.js".toList) openLine = .ok tree ∧
      transform oneFile none oneLetter "/x.js".toList openLine = .ok (.transformed result, events) ∧
      result.code = "let x = f\n[]\n".toList ∧
      Script.Tree.ofScript (Script.Dialect.ofModuleId "/x.js".toList) result.code = .error mistake := by
  have hreads : (Script.Tree.ofScript (Script.Dialect.ofModuleId "/x.js".toList) openLine).isOk := by
    decide +kernel
  have hresult : answersWith (fun result => result.code = "let x = f\n[]\n".toList)
      (transform oneFile none oneLetter "/x.js".toList openLine) := by
    decide +kernel
  have hbroken : (Script.Tree.ofScript (Script.Dialect.ofModuleId "/x.js".toList)
      "let x = f\n[]\n".toList).isOk = false := by
    decide +kernel
  obtain ⟨result, events, htransform, hcode⟩ := exists_of_answersWith hresult
  have hcode : result.code = "let x = f\n[]\n".toList := of_decide_eq_true hcode
  cases htree : Script.Tree.ofScript (Script.Dialect.ofModuleId "/x.js".toList) openLine with
  | error mistake =>
    rw [htree] at hreads
    cases hreads
  | ok tree =>
    cases hmistake : Script.Tree.ofScript (Script.Dialect.ofModuleId "/x.js".toList)
        "let x = f\n[]\n".toList with
    | ok tree =>
      rw [hmistake] at hbroken
      cases hbroken
    | error mistake => exact ⟨tree, result, events, mistake, rfl, htransform, hcode, hcode ▸ hmistake⟩

end AssetEmbed
