import AssetEmbed.Proofs.Script.Positioning
import AssetEmbed.Proofs.Script.Substitution
import AssetEmbed.Proofs.Script.Understanding
import Mathlib.Data.List.TakeWhile

/-!
# Ranging — where the calls of a script lie

A call that is understood begins with the name of the marker and ends with the parenthesis after its arguments, so a
call within it ends before it does.  Offsets count characters; the bytes up to an offset, and those of a range, are
those of the characters there.
-/

namespace AssetEmbed.Script

/-! ## 1. Lines -/

/-- The line of an offset counts the line breaks before it, its column the characters after the last of them. -/
theorem locate_eq (moduleId s : Text) (offset : Nat) :
    ∃ lines line, s.take offset = lines ++ line ∧ (∀ c ∈ lines.getLast?, c = '\n') ∧ '\n' ∉ line ∧
      locate moduleId s offset = ⟨moduleId, (s.take offset).count '\n' + 1, line.length⟩ := by
  -- the column is counted backwards from the offset
  refine ⟨((s.take offset).reverse.dropWhile (· ≠ '\n')).reverse,
    ((s.take offset).reverse.takeWhile (· ≠ '\n')).reverse, ?_, ?_, ?_, ?_⟩
  · rw [← List.reverse_append, List.takeWhile_append_dropWhile, List.reverse_reverse]
  · intro c hc
    rw [List.getLast?_reverse] at hc
    have hfirst := List.head?_dropWhile_not (· ≠ '\n') (s.take offset).reverse
    rw [hc] at hfirst
    simpa using hfirst
  · intro hmem
    simpa using List.mem_takeWhile_imp (List.mem_reverse.1 hmem)
  · rw [List.length_reverse]
    rfl

namespace Tree

variable {p q : Placed} {script : Tree}

/-! ## 2. Texts -/

theorem Placed.IsNodeOf.exists_text (h : p.IsNodeOf script) :
    ∃ before after, script.text = before ++ p.tree.text ++ after ∧ before.length = p.offset := by
  obtain ⟨after, hafter⟩ := h.text_prefix
  have hbounds := descend_bounds 0 script p h.1
  refine ⟨script.text.take p.offset, after, ?_, List.length_take_of_le ?_⟩
  · rw [List.append_assoc, hafter, List.take_append_drop]
  · unfold Placed.stop at hbounds
    omega

/-- A call that ends with its arguments ends after everything that is called within it. -/
theorem stop_lt_of_mem {kind : Kind} {most inside : List Tree} {close : Text}
    (hp : p.tree = .node kind (most ++ [.node .arguments (inside ++ [.token close])])) (hclose : close ≠ [])
    (hq : q ∈ descendList p.offset p.tree.children) (hcall : q.tree.isKind .callExpression) : q.stop < p.stop := by
  have hstop : p.stop = p.offset + (textOfList most).length + (textOfList inside).length + close.length := by
    unfold Placed.stop
    rw [hp]
    simp only [text, textOfList_append, textOfList, List.append_nil, List.length_append]
    omega
  have hlength := List.length_pos_iff.2 hclose
  have hchildren : p.tree.children = most ++ [.node .arguments (inside ++ [.token close])] := by
    rw [hp]
    rfl
  -- what is called within stands before the arguments, or in them
  rw [hchildren, descendList_append, List.mem_append] at hq
  rcases hq with hq | hq
  · have := (descendList_bounds _ most q hq).2
    omega
  rw [descendList, descendList, List.append_nil, descend, List.mem_cons] at hq
  rcases hq with rfl | hq
  · -- the arguments themselves are no call
    cases hcall
  rw [descendList_append, List.mem_append] at hq
  rcases hq with hq | hq
  · have := (descendList_bounds _ inside q hq).2
    omega
  · -- neither is the parenthesis after them
    simp only [descendList, descend, List.append_nil, List.mem_singleton] at hq
    subst hq
    cases hcall

theorem head?_parts {kind : Kind} {children : List Tree} (h : ∀ t ∈ children.head?, t.isTrivia = false) :
    (Tree.node kind children).parts.head? = children.head? := by
  cases children with
  | nil => rfl
  | cons t ts =>
    show ((t :: ts).filter _).head? = _
    rw [List.filter_cons_of_pos (by rw [h t rfl]; rfl)]
    rfl

theorem getLast?_parts {kind : Kind} {children : List Tree} (h : ∀ t ∈ children.getLast?, t.isTrivia = false) :
    (Tree.node kind children).parts.getLast? = children.getLast? := by
  rcases List.eq_nil_or_concat children with rfl | ⟨ts, t, rfl⟩
  · rfl
  · rw [List.concat_eq_append] at h ⊢
    have ht : t.isTrivia = false := h t List.getLast?_concat
    show ((ts ++ [t]).filter _).getLast? = _
    rw [List.filter_append, List.filter_cons_of_pos (by rw [ht]; rfl)]
    exact List.getLast?_concat.trans List.getLast?_concat.symm

theorem exists_of_isKind_arguments {t : Tree} (ht : t.Formed) (hkind : t.isKind .arguments) (h : t.children ≠ []) :
    ∃ inside, t = .node .arguments (inside ++ [.token [')']]) := by
  cases t with
  | blank _ | token _ | leaf _ _ => exact absurd rfl h
  | node kind children =>
    obtain rfl : kind = .arguments := by simpa [isKind, kind?] using hkind
    obtain ⟨inside, rfl⟩ := List.getLast?_eq_some_iff.1 ht.1
    exact ⟨inside, rfl⟩

end Tree

namespace Source

open AssetEmbed.Script.Tree

variable {m : Source} {script : Tree} {p : Placed} {call : MarkerCall}

/-! ## 3. Calls -/

theorem Means.exists_list (h : m.Means p call) :
    ∃ list : Placed, p.tree.parts.getLast? = some list.tree ∧ list.tree.isKind .arguments ∧
      list.tree.children ≠ [] := by
  obtain ⟨arguments, ⟨list, hlast, hkind, hbares⟩, hshaped, -⟩ := h.asks
  refine ⟨list, ?_, hkind, ?_⟩
  · rw [← Placed.map_tree_parts, List.getLast?_map, hlast]
    rfl
  · intro hnil
    have hnamed : list.named = [] := by
      unfold Placed.named Placed.children
      rw [hnil]
      rfl
    rw [hnamed, List.filter_nil, List.forall₂_nil_left_iff] at hbares
    rw [hbares] at hshaped
    cases hshaped

theorem Means.shape (h : m.Means p call) (hcalls : m.Calls p) (hformed : p.tree.Formed) :
    ∃ middle inside, p.tree = .node .callExpression
      (.leaf .identifier m.marker :: (middle ++ [.node .arguments (inside ++ [.token [')']])])) := by
  obtain ⟨list, hlist, hkind, hchildren⟩ := h.exists_list
  obtain ⟨hcall, hcallee⟩ := hcalls
  cases htree : p.tree with
  | blank _ | token _ | leaf _ _ =>
    rw [htree] at hcallee
    cases hcallee
  | node kind children =>
    rw [htree] at hcall hcallee hlist hformed
    obtain rfl : kind = .callExpression := by simpa [isKind, kind?] using hcall
    obtain ⟨⟨hfirst, hlast⟩, hinner⟩ := hformed
    rw [head?_parts hfirst] at hcallee
    rw [getLast?_parts hlast] at hlist
    obtain ⟨rest, rfl⟩ : ∃ rest, children = .leaf .identifier m.marker :: rest := by
      cases children with
      | nil => cases hcallee
      | cons first rest => exact ⟨rest, by rw [Option.some.inj hcallee]⟩
    obtain ⟨inside, hinside⟩ :=
      exists_of_isKind_arguments (allFormed_iff.1 hinner _ (List.mem_of_getLast? hlist)) hkind hchildren
    rw [hinside] at hlist
    -- the callee is not the arguments, so something comes after it
    cases rest with
    | nil => cases hlist
    | cons second rest =>
      rw [List.getLast?_cons_cons] at hlist
      obtain ⟨middle, hmiddle⟩ := List.getLast?_eq_some_iff.1 hlist
      exact ⟨middle, inside, by rw [hmiddle]⟩

/-- Whether the range and the location of a call are those of its node: in characters and in bytes, and by lines. -/
structure Spans (m : Source) (p : Placed) (call : MarkerCall) : Prop where
  start_eq : call.start = p.offset
  stop_eq : call.stop = p.stop
  slice_eq : m.text.slice call.start call.stop = p.tree.text
  marker_isPrefix : m.marker <+: p.tree.text
  parenthesis_isSuffix : [')'] <:+ p.tree.text
  bytes_eq : Utf8.decode? (((Utf8.encode m.text).take (byteOffset m.text call.stop)).drop
    (byteOffset m.text call.start)) = .ok p.tree.text
  start_position : characterPosition m.text (byteOffset m.text call.start) = call.start
  stop_position : characterPosition m.text (byteOffset m.text call.stop) = call.stop
  location_eq : ∃ lines line, m.text.take call.start = lines ++ line ∧ (∀ c ∈ lines.getLast?, c = '\n') ∧
    '\n' ∉ line ∧ call.location = ⟨m.moduleId, (m.text.take call.start).count '\n' + 1, line.length⟩

theorem Means.spans (h : m.Means p call) (hcalls : m.Calls p) (hnode : p.IsNodeOf script) (hformed : script.Formed)
    (htext : script.text = m.text) : m.Spans p call := by
  obtain ⟨middle, inside, hshape⟩ := h.shape hcalls (descend_formed 0 script hformed p hnode.1)
  have hspelled : p.tree.text = m.marker ++ (textOfList middle ++ textOfList inside) ++ [')'] := by
    rw [hshape]
    simp only [Tree.text, textOfList, textOfList_append, List.append_nil, List.append_assoc]
  have hmarker : m.marker <+: p.tree.text := by
    rw [hspelled, List.append_assoc]
    exact List.prefix_append _ _
  have hparenthesis : [')'] <:+ p.tree.text := by
    rw [hspelled]
    exact List.suffix_append _ _
  -- where the node stands in the script is where the call stands in the module
  obtain ⟨before, after, hsplit, hbefore⟩ := hnode.exists_text
  rw [htext] at hsplit
  have hstart : call.start = before.length := h.start_eq.trans hbefore.symm
  have hstop : call.stop = before.length + p.tree.text.length := by
    rw [h.stop_eq, hbefore]
    rfl
  have hlength : call.stop ≤ m.text.length := by
    rw [hsplit, hstop, List.length_append, List.length_append]
    exact Nat.le_add_right _ _
  refine ⟨h.start_eq, h.stop_eq, ?_, hmarker, hparenthesis, ?_,
    characterPosition_byteOffset (Nat.le_trans call.start_le_stop hlength), characterPosition_byteOffset hlength, ?_⟩
  · rw [hstart, hstop, hsplit]
    exact Text.slice_middle before p.tree.text after
  · rw [hstart, hstop, hsplit, drop_take_encode, Utf8.decode?_encode]
  · rw [h.location_eq, h.start_eq]
    exact locate_eq m.moduleId m.text p.offset

/-- Of the calls of a script the later one starts later, and lies behind the earlier one or ends before it does. -/
theorem markerCalls_nest (hformed : script.Formed) :
    (m.markerCalls script).1.Pairwise fun a b => a.start < b.start ∧ (a.stop ≤ b.start ∨ b.stop < a.stop) := by
  rw [markerCalls_eq_filterMap, List.pairwise_filterMap]
  refine ((descend_pairwise 0 script).filter _).imp_of_mem ?_
  intro p q hp hq h a ha b hb
  obtain ⟨hnode, hcalls, hmeans⟩ := means_of_markerCall hformed hp (markerCall_of_toOption ha)
  obtain ⟨hnode', hcalls', hmeans'⟩ := means_of_markerCall hformed hq (markerCall_of_toOption hb)
  obtain ⟨middle, inside, hshape⟩ := hmeans.shape hcalls (descend_formed 0 script hformed p hnode.1)
  rw [hmeans.start_eq, hmeans.stop_eq, hmeans'.start_eq, hmeans'.stop_eq]
  rcases h with h | h
  · -- the earlier call is not empty: it ends with a parenthesis
    refine ⟨Nat.lt_of_lt_of_le ?_ h, .inl h⟩
    unfold Placed.stop
    rw [hshape]
    simp only [Tree.text, textOfList, textOfList_append, List.length_append, List.length_singleton]
    omega
  · -- the later call stands within the earlier one, so before the parenthesis that ends it
    have hcut : p.tree = .node .callExpression
        ((.leaf .identifier m.marker :: middle) ++ [.node .arguments (inside ++ [.token [')']])]) := hshape
    refine ⟨?_, .inr (stop_lt_of_mem hcut (List.cons_ne_nil _ _) h hcalls'.1)⟩
    have hsolid := (descend_formed 0 script hformed p hnode.1).solid
    obtain ⟨offset, tree⟩ := p
    cases hshape
    exact lt_offset_of_mem (isMarkerCall_iff.2 hcalls) hsolid q (List.mem_filter.2 ⟨h, isMarkerCall_iff.2 hcalls'⟩)

/-- The calls of a script have ranges of their own, in the order of their starts, of which two lie apart or one
strictly within the other.  Each of them is the range of a node, which begins with the name of the marker and ends with
a parenthesis. -/
theorem markerCalls_span_nodes {d : Dialect} {tree : Tree} (m : Source) (htree : Tree.ofScript d m.text = .ok tree) :
    ((m.markerCalls tree).1.map fun call => (call.start, call.stop)).Nodup ∧
    ((m.markerCalls tree).1.Pairwise fun a b => a.start < b.start ∧ (a.stop ≤ b.start ∨ b.stop < a.stop)) ∧
    ∀ call ∈ (m.markerCalls tree).1, ∃ p, p.IsNodeOf tree ∧ m.Calls p ∧ m.Spans p call := by
  have hformed := ofScript_formed htree
  have hnest := markerCalls_nest (m := m) hformed
  refine ⟨List.pairwise_map.2 (hnest.imp ?_), hnest, ?_⟩
  · rintro a b ⟨hlt, -⟩ hsame
    exact Nat.ne_of_lt hlt (Prod.ext_iff.1 hsame).1
  · intro call hcall
    obtain ⟨p, hnode, hcalls, hmeans⟩ := exists_means hformed hcall
    exact ⟨p, hnode, hcalls, hmeans.spans hcalls hnode hformed (ofScript_text htree)⟩

/-- A call of the marker within another one, after characters of two bytes. -/
def callAfterLine : Source := ⟨"/x.js".toList, "'é'\nm('ü',\x7bb:m(p)\x7d)".toList, ['m']⟩

/-- Both calls of `callAfterLine` span their nodes; the inner one starts at byte 15, where the outer one starts at
byte 5. -/
theorem markerCalls_span_nodes_callAfterLine :
    ∃ tree, Tree.ofScript .plain callAfterLine.text = .ok tree ∧
      ((callAfterLine.markerCalls tree).1.map fun call => (call.start, call.stop)) = [(4, 19), (13, 17)] ∧
      ((callAfterLine.markerCalls tree).1.map fun call => byteOffset callAfterLine.text call.start) = [5, 15] ∧
      (callAfterLine.markerCalls tree).1.map (·.location) =
        [⟨"/x.js".toList, 2, 0⟩, ⟨"/x.js".toList, 2, 9⟩] ∧
      ((callAfterLine.markerCalls tree).1.Pairwise fun a b =>
        a.start < b.start ∧ (a.stop ≤ b.start ∨ b.stop < a.stop)) ∧
      ∀ call ∈ (callAfterLine.markerCalls tree).1,
        ∃ p, p.IsNodeOf tree ∧ callAfterLine.Calls p ∧ callAfterLine.Spans p call := by
  have hcalls : (Tree.ofScript .plain callAfterLine.text).toOption.any (fun tree =>
      ((callAfterLine.markerCalls tree).1.map fun call => (call.start, call.stop)) = [(4, 19), (13, 17)] ∧
        ((callAfterLine.markerCalls tree).1.map fun call => byteOffset callAfterLine.text call.start) = [5, 15] ∧
        (callAfterLine.markerCalls tree).1.map (·.location) =
          [⟨"/x.js".toList, 2, 0⟩, ⟨"/x.js".toList, 2, 9⟩]) = true := by
    decide +kernel
  obtain ⟨tree, htree, hcalls⟩ := exists_of_toOption_any hcalls
  obtain ⟨hranges, hbytes, hlocations⟩ := of_decide_eq_true hcalls
  exact ⟨tree, htree, hranges, hbytes, hlocations, (markerCalls_span_nodes callAfterLine htree).2⟩

end Source

end AssetEmbed.Script
