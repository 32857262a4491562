import AssetEmbed.Proofs.Answering
import AssetEmbed.Proofs.Script.Ranging

/-!
# Mentioning — modules in which the marker is not spelled

A module in which the marker is not spelled is left as it is without being read.  Reading it would come to the same:
every node spells a part of the module, so none of them is a call of the marker, and nothing is found, told or replaced.
-/

namespace AssetEmbed

/-! ## 1. What nodes spell -/

namespace Script.Tree

/-- The bytes from one place of a text up to another one. -/
def bytesBetween (s : Text) (start stop : Nat) : Bytes :=
  ((Utf8.encode s).take (byteOffset s stop)).drop (byteOffset s start)

theorem Placed.IsNodeOf.decode_bytes {p : Placed} {script : Tree} (h : p.IsNodeOf script) :
    Utf8.decode? (bytesBetween script.text p.offset p.stop) = .ok p.tree.text ∧ p.tree.text <:+: script.text := by
  obtain ⟨before, after, hsplit, hbefore⟩ := h.exists_text
  refine ⟨?_, before, after, hsplit.symm⟩
  have hstop : p.stop = before.length + p.tree.text.length := by
    rw [hbefore]
    rfl
  rw [bytesBetween, hstop, ← hbefore, hsplit, drop_take_encode, Utf8.decode?_encode]

end Script.Tree

/-! ## 2. Modules without calls -/

section

variable {fs : FileSystem} {options : TransformOptions} {moduleId code : Text} {tree : Script.Tree}

theorem markerCalls_eq_nil_nil (hplaced : modulePlaced options moduleId code tree = []) :
    (⟨moduleId, code, options.marker⟩ : Script.Source).markerCalls tree = ([], []) := by
  unfold modulePlaced at hplaced
  unfold Script.Source.markerCalls
  rw [hplaced]
  rfl

/-- Without marker calls, a module is left as it is. -/
theorem transformTree_of_no_calls [Charsets] (hplaced : modulePlaced options moduleId code tree = []) :
    transformTree fs options moduleId code tree = .ok (.untouched, []) := by
  unfold transformTree
  dsimp only
  rw [markerCalls_eq_nil_nil hplaced]
  rfl

/-- What is done for a module, unless a filter leaves it out. -/
def unlessLeftOut (fs : FileSystem) (filter : Option ModuleFilter) (moduleId : Text)
    (work : Except Abort (Outcome × List Event)) : Except Abort (Outcome × List Event) :=
  match filter with
  | none => work
  | some filter =>
    match filter.accepts fs moduleId with
    | .error e => .error (.ofRealPath e)
    | .ok true => work
    | .ok false => .ok (.untouched, [.debug s!"Module filtered out: {moduleId.toString}"])

theorem transform_eq_unlessLeftOut [Charsets] (fs : FileSystem) (filter : Option ModuleFilter)
    (options : TransformOptions) (moduleId code : Text) : transform fs filter options moduleId code =
      unlessLeftOut fs filter moduleId (transformMention fs options moduleId code) := by
  cases filter <;> rfl

/-- In a module that can be read and in which the marker is not spelled, no node spells the marker, be it in characters
or in bytes; so there is no marker call, and nothing to tell about one.  Reading the module all the same leaves it as
it is without a word, and a module that is looked through for the marker first has no other outcome, whatever the file
system holds and whatever a filter says. -/
theorem transform_eq_of_not_mentioned [Charsets]
    (htree : Script.Tree.ofScript (Script.Dialect.ofModuleId moduleId) code = .ok tree)
    (hmarker : Text.contains code options.marker = false) :
    (∀ p : Script.Tree.Placed, p.IsNodeOf tree → ∃ spelled,
        Utf8.decode? (Script.Tree.bytesBetween code p.offset p.stop) = .ok spelled ∧ p.tree.text = spelled ∧
          ¬ options.marker <:+: spelled) ∧
      (⟨moduleId, code, options.marker⟩ : Script.Source).placedCalls tree = [] ∧
      (⟨moduleId, code, options.marker⟩ : Script.Source).markerCalls tree = ([], []) ∧
      ∀ fs, transformText fs options moduleId code = .ok (.untouched, []) ∧
        ∀ filter, transform fs filter options moduleId code =
          unlessLeftOut fs filter moduleId (transformText fs options moduleId code) := by
  have htext := Script.Tree.ofScript_text htree
  have hnone : ¬ options.marker <:+: code := by
    rw [← Text.contains_iff, hmarker]
    exact Bool.false_ne_true
  -- a marker call would spell the marker, and what a node spells is a part of the module
  have hplaced : modulePlaced options moduleId code tree = [] :=
    modulePlaced_eq_nil (Script.Tree.ofScript_solid htree) htext hnone
  refine ⟨?_, hplaced, markerCalls_eq_nil_nil hplaced, ?_⟩
  · intro p hp
    obtain ⟨hbytes, hpart⟩ := hp.decode_bytes
    rw [htext] at hbytes hpart
    exact ⟨_, hbytes, rfl, fun hspelled => hnone (hspelled.trans hpart)⟩
  · intro fs
    have hread : transformText fs options moduleId code = .ok (.untouched, []) := by
      unfold transformText
      rw [htree]
      exact transformTree_of_no_calls hplaced
    -- looking for the marker first leads to the same answer without reading the module
    have hskip : transformMention fs options moduleId code = .ok (.untouched, []) := by
      unfold transformMention
      rw [hmarker]
      rfl
    refine ⟨hread, ?_⟩
    intro filter
    rw [transform_eq_unlessLeftOut, hskip, hread]

end

/-- A call of a function whose name is spelled with an escape, and denotes the marker of `oneLetter`. -/
def escapedCall : Text := "\\u006d('a')".toList

/-- The call in `escapedCall` is no call of the marker. -/
theorem transform_eq_of_not_mentioned_escapedCall :
    ∃ tree, Script.Tree.ofScript (Script.Dialect.ofModuleId "/x.js".toList) escapedCall = .ok tree ∧
      Text.contains escapedCall oneLetter.marker = false ∧
      (⟨"/x.js".toList, escapedCall, oneLetter.marker⟩ : Script.Source).markerCalls tree = ([], []) ∧
      transformText oneFile oneLetter "/x.js".toList escapedCall = .ok (.untouched, []) ∧
      transform oneFile none oneLetter "/x.js".toList escapedCall =
        unlessLeftOut oneFile none "/x.js".toList (transformText oneFile oneLetter "/x.js".toList escapedCall) := by
  have hread : (Script.Tree.ofScript (Script.Dialect.ofModuleId "/x.js".toList) escapedCall).toOption.any
      (fun tree => tree.isKind .program) = true := by
    decide +kernel
  obtain ⟨tree, htree, -⟩ := exists_of_toOption_any hread
  have hmarker : Text.contains escapedCall oneLetter.marker = false := by decide +kernel
  obtain ⟨-, -, hcalls, hsame⟩ := transform_eq_of_not_mentioned htree hmarker
  exact ⟨tree, htree, hmarker, hcalls, (hsame oneFile).1, (hsame oneFile).2 none⟩

end AssetEmbed
