import AssetEmbed.Proofs.Script.Walking
import AssetEmbed.Proofs.Sequencing
import Mathlib.Data.List.Forall2

/-!
# Understanding — what the calls of a script ask for

A call of the marker is understood if its arguments have one of three shapes, which only their kinds decide: comments
among them and parentheses around them do not count.  Of every other call there is one warning.
-/

namespace AssetEmbed.Script

/-! ## 1. Parentheses -/

namespace Tree

namespace Placed

/-- Whether a place is what is left of another one without the parentheses around it: of parentheses that hold one
thing besides comments, that thing is left.  A comment in the notation of markup is such a thing. -/
inductive Bares : Placed → Placed → Prop where
  | inside {p q r : Placed} : p.tree.isKind .parenthesizedExpression →
      p.named.filter (!·.tree.isComment) = [q] → Bares q r → Bares p r
  | self {p : Placed} :
      (p.tree.isKind .parenthesizedExpression → ∀ q, p.named.filter (!·.tree.isComment) ≠ [q]) → Bares p p

theorem filter_named (p : Placed) :
    p.named.filter (!·.tree.isComment) = p.children.filter (·.tree.counts) := by
  unfold named
  rw [List.filter_filter]
  exact List.filter_congr fun q _ => Bool.and_comm _ _

end Placed

theorem filter_placeList_eq_nil (offset : Nat) (ts : List Tree) :
    (placeList offset ts).filter (·.tree.counts) = [] ↔ ts.any counts = false := by
  induction ts generalizing offset with
  | nil => exact ⟨fun _ => rfl, fun _ => rfl⟩
  | cons t ts ih =>
    rw [placeList, List.any_cons, Bool.or_eq_false_iff, List.filter_cons]
    cases t.counts with
    | true => exact ⟨nofun, nofun⟩
    | false => exact (ih _).trans ⟨fun h => ⟨rfl, h⟩, fun h => h.2⟩

theorem soleAt?_eq (offset : Nat) (ts : List Tree) :
    soleAt? offset ts = match (placeList offset ts).filter (·.tree.counts) with
      | [q] => some q.unwrapped
      | _ => none := by
  induction ts generalizing offset with
  | nil => rfl
  | cons t ts ih =>
    rw [soleAt?, placeList, List.filter_cons]
    cases ht : t.counts with
    | false => exact ih _
    | true =>
      simp only [if_true]
      -- the first one that counts is the only one if none of the later ones does
      cases hlater : (placeList (offset + t.text.length) ts).filter (·.tree.counts) with
      | nil =>
        rw [(filter_placeList_eq_nil _ ts).1 hlater]
        rfl
      | cons q later =>
        have hany : ts.any counts = true := by
          rw [← Bool.not_eq_false, ← filter_placeList_eq_nil (offset + t.text.length), hlater]
          exact List.cons_ne_nil _ _
        rw [hany]
        rfl

namespace Placed

theorem unwrapped_of_not_isKind {p : Placed} (h : ¬ p.tree.isKind .parenthesizedExpression) : p.unwrapped = p := by
  obtain ⟨offset, t⟩ := p
  cases t with
  | blank _ | token _ | leaf _ _ => rfl
  | node kind children =>
    have hkind : kind ≠ .parenthesizedExpression := by
      rintro rfl
      exact h rfl
    rw [unwrapped, unwrapAt, if_neg hkind]

theorem unwrapped_of_isKind {p : Placed} (h : p.tree.isKind .parenthesizedExpression) :
    p.unwrapped = match p.named.filter (!·.tree.isComment) with
      | [q] => q.unwrapped
      | _ => p := by
  rw [filter_named]
  obtain ⟨offset, t⟩ := p
  cases t with
  | blank _ | token _ => cases h
  | leaf _ _ => rfl
  | node kind children =>
    obtain rfl : kind = .parenthesizedExpression := by simpa [isKind, kind?] using h
    have hchildren : (⟨offset, .node .parenthesizedExpression children⟩ : Placed).children =
      placeList offset children := rfl
    rw [unwrapped, unwrapAt, if_pos rfl, soleAt?_eq, hchildren]
    dsimp only
    generalize (placeList offset children).filter (·.tree.counts) = counted
    rcases counted with _ | ⟨q, _ | _⟩ <;> rfl

theorem sizeOf_lt_of_mem_children {p q : Placed} (h : q ∈ p.children) : sizeOf q.tree < sizeOf p.tree := by
  have hq : q.tree ∈ p.tree.children := p.map_tree_children ▸ List.mem_map_of_mem h
  cases htree : p.tree with
  | blank _ | token _ | leaf _ _ =>
    rw [htree] at hq
    exact absurd hq List.not_mem_nil
  | node kind children =>
    rw [htree] at hq
    have := List.sizeOf_lt_of_mem hq
    simp only [Tree.children, node.sizeOf_spec] at this ⊢
    omega

theorem bares_unwrapped (p : Placed) : p.Bares p.unwrapped := by
  by_cases hkind : p.tree.isKind .parenthesizedExpression
  · rw [unwrapped_of_isKind hkind]
    split
    next q hone =>
      -- what the parentheses hold is smaller than they are
      have hq : q ∈ p.children := (List.mem_filter.1 (List.mem_filter.1 (hone ▸ List.mem_singleton_self q)).1).1
      have := sizeOf_lt_of_mem_children hq
      exact .inside hkind hone (bares_unwrapped q)
    next hmany => exact .self fun _ => hmany
  · rw [unwrapped_of_not_isKind hkind]
    exact .self fun h => absurd h hkind
termination_by sizeOf p.tree

theorem Bares.unique {p q r : Placed} (hq : p.Bares q) (hr : p.Bares r) : q = r := by
  induction hq with
  | inside hkind hone _ ih =>
    cases hr with
    | inside _ hone' hr =>
      cases hone.symm.trans hone'
      exact ih hr
    | self hnone => exact absurd hone (hnone hkind _)
  | self hnone =>
    cases hr with
    | inside hkind hone _ => exact absurd hone (hnone hkind _)
    | self _ => rfl

theorem bares_iff {p q : Placed} : p.Bares q ↔ q = p.unwrapped :=
  ⟨fun h => h.unique p.bares_unwrapped, fun h => h ▸ p.bares_unwrapped⟩

theorem forall₂_bares {ps qs : List Placed} : ps.Forall₂ Bares qs ↔ qs = ps.map (·.unwrapped) := by
  induction ps generalizing qs with
  | nil => rw [List.forall₂_nil_left_iff, List.map_nil]
  | cons p ps ih =>
    rw [List.forall₂_cons_left_iff, List.map_cons]
    simp only [bares_iff, ih]
    exact ⟨fun ⟨q, qs', hq, hqs, h⟩ => by rw [h, hq, hqs], fun h => ⟨_, _, rfl, rfl, h⟩⟩

end Placed

end Tree

open AssetEmbed.Script.Tree (Placed)

namespace Source

variable {m : Source} {call : Placed} {arguments : List Placed}

/-! ## 2. Arguments -/

/-- Whether a tree at its place is a call of the marker by its plain name. -/
def Calls (m : Source) (p : Placed) : Prop :=
  p.tree.isKind .callExpression ∧ p.tree.parts.head? = some (.leaf .identifier m.marker)

theorem isMarkerCall_iff {p : Placed} : m.isMarkerCall p.tree ↔ m.Calls p := by
  unfold isMarkerCall Calls
  rw [Bool.and_eq_true]
  refine and_congr_right fun _ => ?_
  split
  next name hhead => simp [hhead]
  next hother =>
    refine ⟨nofun, fun hhead => ?_⟩
    exact absurd hhead (hother m.marker)

/-- Whether places are the arguments of a call: what the parentheses after its callee hold besides comments, each
without the parentheses around it. -/
def Arguments (call : Placed) (arguments : List Placed) : Prop :=
  ∃ list, call.parts.getLast? = some list ∧ list.tree.isKind .arguments ∧
    (list.named.filter (!·.tree.isComment)).Forall₂ Placed.Bares arguments

theorem arguments_cases (call : Placed) :
    (∀ arguments, Arguments call arguments ↔ arguments = callArguments call) ∨
      callArguments call = [] ∧ ∀ arguments, ¬ Arguments call arguments := by
  unfold Arguments callArguments
  simp only [Placed.forall₂_bares]
  cases call.parts.getLast? with
  | none => exact .inr ⟨rfl, nofun⟩
  | some list =>
    by_cases hkind : list.tree.isKind .arguments
    · simp [hkind]
    · simp [hkind]

/-! ## 3. Shapes -/

/-- Whether a place is a quoted literal or a name. -/
inductive IsTarget : Placed → Prop where
  | literal {p : Placed} {raw : Text} : p.tree = .leaf .string raw → IsTarget p
  | variable {p : Placed} {name : Text} : p.tree = .leaf .identifier name → IsTarget p

/-- Whether arguments have one of the shapes that are understood: a quoted literal or a name, alone or with an object
after it, or an object alone. -/
inductive Shaped : List Placed → Prop where
  | target {p : Placed} : IsTarget p → Shaped [p]
  | targetWithOptions {p object : Placed} : IsTarget p → object.tree.isKind .object → Shaped [p, object]
  | options {object : Placed} : object.tree.isKind .object → Shaped [object]

/-- What a quoted literal or a name stands for as an argument. -/
inductive Denotes (m : Source) : Placed → Argument → Prop where
  | literal {p : Placed} {quote : Char} {body : Text} : quote = '\'' ∨ quote = '"' →
      p.tree = .leaf .string (quote :: (body ++ [quote])) → Denotes m p (.literal (unescape body))
  | variable {p : Placed} {name : Text} : p.tree = .leaf .identifier name →
      Denotes m p (.variable name (m.location p))

/-- What arguments ask for, and under which options. -/
inductive Asks (m : Source) : List Placed → Argument → List CallOption → Prop where
  | target {p : Placed} {argument : Argument} : m.Denotes p argument → Asks m [p] argument []
  | targetWithOptions {p object : Placed} {argument : Argument} : m.Denotes p argument →
      object.tree.isKind .object → Asks m [p, object] argument (m.callOptions object)
  | options {object : Placed} : object.tree.isKind .object → Asks m [object] (.options (m.callOptions object)) []

/-- What a call of the marker means, if it is understood. -/
structure Means (m : Source) (p : Placed) (call : MarkerCall) : Prop where
  start_eq : call.start = p.offset
  stop_eq : call.stop = p.stop
  location_eq : call.location = m.location p
  asks : ∃ arguments, Arguments p arguments ∧ Shaped arguments ∧ m.Asks arguments call.argument call.options

/-- Whether a diagnostic is a warning about a call of the marker that is not understood. -/
structure Refuses (m : Source) (p : Placed) (warning : Diagnostic) : Prop where
  not_shaped : ∀ arguments, Arguments p arguments → ¬ Shaped arguments
  severity_eq : warning.severity = .warning
  location_eq : ∃ q, (q = p ∨ ∃ arguments, Arguments p arguments ∧ q ∈ arguments) ∧
    warning.location = some (m.location q)

/-- Whether calls and warnings are what calls of the marker yield, one after the other: each of them a call that says
what it means, or a warning. -/
inductive Answers (m : Source) : List Placed → List MarkerCall → List Diagnostic → Prop where
  | nil : Answers m [] [] []
  | understood {p : Placed} {places : List Placed} {call : MarkerCall} {calls : List MarkerCall}
      {warnings : List Diagnostic} : m.Means p call → Answers m places calls warnings →
      Answers m (p :: places) (call :: calls) warnings
  | refused {p : Placed} {places : List Placed} {warning : Diagnostic} {calls : List MarkerCall}
      {warnings : List Diagnostic} : m.Refuses p warning → Answers m places calls warnings →
      Answers m (p :: places) calls (warning :: warnings)

theorem pathArgument?_cases (m : Source) {p : Placed} (hformed : p.tree.Formed) :
    (∃ argument, m.pathArgument? p = some (some argument) ∧ IsTarget p ∧ m.Denotes p argument) ∨
      m.pathArgument? p = none ∧ ¬ IsTarget p := by
  unfold pathArgument?
  split
  next raw hp =>
    rw [hp] at hformed
    obtain ⟨quote, body, hquote, rfl⟩ := (hformed : IsQuoted raw)
    rw [literalValue?_eq_some_iff.2 ⟨quote, body, hquote, rfl, rfl⟩]
    exact .inl ⟨_, rfl, .literal hp, .literal hquote hp⟩
  next name hp => exact .inl ⟨_, rfl, .variable hp, .variable hp⟩
  next hstring hidentifier =>
    refine .inr ⟨rfl, ?_⟩
    rintro (⟨hp⟩ | ⟨hp⟩)
    · exact hstring _ hp
    · exact hidentifier _ hp

theorem understand_target (m : Source) (call : Placed) {first : Placed} {argument : Argument}
    (hpath : m.pathArgument? first = some (some argument)) (htarget : IsTarget first)
    (hdenotes : m.Denotes first argument) (rest : List Placed) :
    (∃ options, m.understand call (first :: rest) = .ok (argument, options) ∧ Shaped (first :: rest) ∧
      m.Asks (first :: rest) argument options) ∨
    ∃ problem q, m.understand call (first :: rest) = .error (problem, q) ∧ ¬ Shaped (first :: rest) ∧
      (q = call ∨ q ∈ first :: rest) := by
  rw [understand, hpath]
  dsimp only
  -- only an object may follow, and nothing after it
  match rest with
  | [] => exact .inl ⟨[], rfl, .target htarget, .target hdenotes⟩
  | [object] =>
    rw [if_pos (show [object].length ≤ 1 from Nat.le_refl 1), secondArgument]
    by_cases hkind : object.tree.isKind .object
    · rw [if_pos hkind]
      exact .inl ⟨_, rfl, .targetWithOptions htarget hkind, .targetWithOptions hdenotes hkind⟩
    · rw [if_neg hkind]
      refine .inr ⟨_, object, rfl, ?_, .inr (List.mem_cons_of_mem _ List.mem_cons_self)⟩
      rintro (_ | ⟨_, hobject⟩ | _)
      exact hkind hobject
  | _ :: _ :: _ =>
    rw [if_neg (by simp)]
    exact .inr ⟨_, call, rfl, nofun, .inl rfl⟩

theorem understand_shaped (m : Source) (call : Placed) {arguments : List Placed}
    (hformed : ∀ p ∈ arguments, p.tree.Formed) :
    (∃ argument options, m.understand call arguments = .ok (argument, options) ∧ Shaped arguments ∧
      m.Asks arguments argument options) ∨
    ∃ problem q, m.understand call arguments = .error (problem, q) ∧ ¬ Shaped arguments ∧
      (q = call ∨ q ∈ arguments) := by
  match arguments with
  | [] => exact .inr ⟨_, call, rfl, nofun, .inl rfl⟩
  | first :: rest =>
    rcases pathArgument?_cases m (hformed first List.mem_cons_self) with
      ⟨argument, hpath, htarget, hdenotes⟩ | ⟨hpath, htarget⟩
    · rcases understand_target m call hpath htarget hdenotes rest with ⟨options, h⟩ | h
      · exact .inl ⟨argument, options, h⟩
      · exact .inr h
    · rw [understand, hpath]
      dsimp only
      split
      next hobject =>
        obtain ⟨hkind, hrest⟩ := Bool.and_eq_true_iff.1 hobject
        obtain rfl := List.isEmpty_iff.1 hrest
        exact .inl ⟨_, _, rfl, .options hkind, .options hkind⟩
      next hobject =>
        -- none of the shapes begins with anything else
        refine .inr ⟨_, call, rfl, ?_, .inl rfl⟩
        rintro (htarget' | ⟨htarget', -⟩ | hkind)
        · exact htarget htarget'
        · exact htarget htarget'
        · exact hobject (Bool.and_eq_true_iff.2 ⟨hkind, rfl⟩)

theorem markerCall_answers (m : Source) {p : Placed} (hformed : ∀ q ∈ callArguments p, q.tree.Formed) :
    (∃ call, m.markerCall p = .ok call ∧ m.Means p call) ∨
      ∃ warning, m.markerCall p = .error warning ∧ m.Refuses p warning := by
  unfold markerCall
  -- a template after the callee is no list of arguments
  rcases arguments_cases p with harguments | ⟨hnil, hnone⟩
  · rcases understand_shaped m p hformed with ⟨argument, options, h, hshaped, hasks⟩ | ⟨problem, q, h, hshaped, hq⟩
    · rw [h]
      exact .inl ⟨_, rfl, rfl, rfl, rfl, _, (harguments _).2 rfl, hshaped, hasks⟩
    · rw [h]
      refine .inr ⟨_, rfl, ?_, rfl, q, hq.imp_right fun hq => ⟨_, (harguments _).2 rfl, hq⟩, rfl⟩
      intro arguments h
      rwa [(harguments _).1 h]
  · rw [hnil]
    exact .inr ⟨_, rfl, fun arguments h => absurd h (hnone arguments), rfl, p, .inl rfl, rfl⟩

theorem formed_of_mem_callArguments {script : Tree} (hscript : script.Formed) {call : Placed}
    (hcall : call ∈ m.placedCalls script) : ∀ p ∈ callArguments call, p.tree.Formed := by
  obtain ⟨hwithin, hmarker⟩ := List.mem_filter.1 hcall
  have hnode : call.IsNodeOf script := ⟨hwithin, isSome_of_isKind (Bool.and_eq_true_iff.1 hmarker).1⟩
  intro p hp
  exact Tree.descend_formed 0 script hscript p (isNodeOf_of_mem_callArguments hnode hp).1

/-- A call that is understood is what a node of the script means. -/
theorem means_of_markerCall {script : Tree} (hscript : script.Formed) {p : Placed} {call : MarkerCall}
    (hp : p ∈ m.placedCalls script) (h : m.markerCall p = .ok call) :
    p.IsNodeOf script ∧ m.Calls p ∧ m.Means p call := by
  obtain ⟨hwithin, hmarker⟩ := List.mem_filter.1 hp
  refine ⟨⟨hwithin, isSome_of_isKind (Bool.and_eq_true_iff.1 hmarker).1⟩, isMarkerCall_iff.1 hmarker, ?_⟩
  rcases markerCall_answers m (formed_of_mem_callArguments hscript hp) with ⟨_, hok, hmeans⟩ | ⟨_, herror, -⟩
  · rw [h] at hok
    cases hok
    exact hmeans
  · rw [h] at herror
    cases herror

theorem exists_means {script : Tree} (hscript : script.Formed) {call : MarkerCall}
    (hcall : call ∈ (m.markerCalls script).1) : ∃ p, p.IsNodeOf script ∧ m.Calls p ∧ m.Means p call := by
  obtain ⟨p, hp, hmarker, hok⟩ := exists_placed_of_mem hcall
  exact ⟨p, means_of_markerCall hscript (List.mem_filter.2 ⟨hp, hmarker⟩) hok⟩

theorem answers_markerCalls (m : Source) {places : List Placed}
    (hformed : ∀ p ∈ places, ∀ q ∈ callArguments p, q.tree.Formed) :
    m.Answers places ((places.map m.markerCall).filterMap fun
        | .ok call => some call
        | .error _ => none)
      ((places.map m.markerCall).filterMap fun
        | .ok _ => none
        | .error warning => some warning) := by
  induction places with
  | nil => exact .nil
  | cons p places ih =>
    have hlater := ih fun q hq => hformed q (List.mem_cons_of_mem _ hq)
    rw [List.map_cons]
    rcases markerCall_answers m (hformed p List.mem_cons_self) with ⟨call, h, hmeans⟩ | ⟨warning, h, hrefuses⟩
    · rw [h]
      exact .understood hmeans hlater
    · rw [h]
      exact .refused hrefuses hlater

/-- A cursor goes through all that is in a script, each tree once and in order.  The calls of the marker among them
yield, one after the other, a call that says what they mean, if their arguments have one of the shapes, or else a
warning; and nothing else yields anything. -/
theorem markerCalls_answer_calls {d : Dialect} {tree : Tree} (m : Source)
    (htree : Tree.ofScript d m.text = .ok tree) :
    ∃ nodes calls, Tree.Cursor.Walks false ⟨⟨0, tree⟩, []⟩ nodes ∧
      Placed.Enumerates ⟨0, tree⟩ (fun _ => True) nodes ∧ calls.Sublist nodes ∧
      Placed.Enumerates ⟨0, tree⟩ m.Calls calls ∧
      m.Answers calls (m.markerCalls tree).1 (m.markerCalls tree).2 := by
  have hscript := Tree.ofScript_formed htree
  refine ⟨tree.descend 0, m.placedCalls tree, Tree.Cursor.walks_root ⟨0, tree⟩, Placed.enumerates_descend ⟨0, tree⟩,
    List.filter_sublist, ?_, answers_markerCalls m fun p hp => formed_of_mem_callArguments hscript hp⟩
  refine ((Placed.enumerates_descend ⟨0, tree⟩).filter fun p => m.isMarkerCall p.tree).congr fun p => ?_
  rw [isMarkerCall_iff, true_and]

/-- A call of the marker with another one as its second argument, which is in parentheses and has a comment. -/
def callWithinCall : Source := ⟨"/x.js".toList, "m(n,(m('a'/**/)))".toList, ['m']⟩

/-- The outer one of the calls of `callWithinCall` yields a warning, the inner one a call. -/
theorem markerCalls_answer_calls_callWithinCall :
    ∃ tree, Tree.ofScript .plain callWithinCall.text = .ok tree ∧
      (callWithinCall.markerCalls tree).1.map (·.start) = [5] ∧
      (callWithinCall.markerCalls tree).2.map (·.location) = [some ⟨"/x.js".toList, 1, 5⟩] ∧
      ∃ nodes calls, Tree.Cursor.Walks false ⟨⟨0, tree⟩, []⟩ nodes ∧
        Placed.Enumerates ⟨0, tree⟩ (fun _ => True) nodes ∧ calls.Sublist nodes ∧
        Placed.Enumerates ⟨0, tree⟩ callWithinCall.Calls calls ∧
        callWithinCall.Answers calls (callWithinCall.markerCalls tree).1 (callWithinCall.markerCalls tree).2 := by
  have hyield : (Tree.ofScript .plain callWithinCall.text).toOption.any (fun tree =>
      (callWithinCall.markerCalls tree).1.map (·.start) = [5] ∧
        (callWithinCall.markerCalls tree).2.map (·.location) = [some ⟨"/x.js".toList, 1, 5⟩]) = true := by
    decide +kernel
  obtain ⟨tree, htree, hyield⟩ := exists_of_toOption_any hyield
  obtain ⟨hcalls, hwarnings⟩ := of_decide_eq_true hyield
  exact ⟨tree, htree, hcalls, hwarnings, markerCalls_answer_calls callWithinCall htree⟩

end Source

end AssetEmbed.Script
