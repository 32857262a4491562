import AssetEmbed.Proofs.Script.Nesting

/-!
# Within — the nodes of a script at their places

What lies within a tree at its place is found by going through its children, and what stands in parentheses lies
within them.  The text of a node begins where the node is placed.  The arguments of a call are nodes within it.
-/

namespace AssetEmbed.Script.Tree

namespace Placed

/-- Whether a tree at its place lies within another one, or is that one. -/
def Within (q p : Placed) : Prop := q ∈ descend p.offset p.tree

/-- Whether a placed tree is a node of a script: a construct, or a token with a kind. -/
def IsNodeOf (p : Placed) (script : Tree) : Prop := p.Within ⟨0, script⟩ ∧ p.tree.kind?.isSome

end Placed

theorem map_tree_placeList (offset : Nat) (ts : List Tree) : (placeList offset ts).map (·.tree) = ts := by
  induction ts generalizing offset with
  | nil => rfl
  | cons t ts ih => rw [placeList, List.map_cons, ih]

theorem Placed.map_tree_children (p : Placed) : p.children.map (·.tree) = p.tree.children := map_tree_placeList _ _

theorem Placed.map_tree_parts (p : Placed) : p.parts.map (·.tree) = p.tree.parts := by
  rw [Tree.parts, ← p.map_tree_children, List.filter_map]
  rfl

theorem within_self (p : Placed) : p.Within p := by
  obtain ⟨offset, t⟩ := p
  cases t with
  | blank _ | token _ | leaf _ _ => exact List.mem_singleton.2 rfl
  | node _ _ => exact List.mem_cons_self

theorem mem_descendList {offset : Nat} {ts : List Tree} {p q : Placed} (hp : p ∈ placeList offset ts)
    (hq : q.Within p) : q ∈ descendList offset ts := by
  induction ts generalizing offset with
  | nil => exact absurd hp List.not_mem_nil
  | cons t ts ih =>
    rcases List.mem_cons.1 hp with rfl | hp
    · exact List.mem_append_left _ hq
    · exact List.mem_append_right _ (ih hp)

theorem Placed.Within.of_child {p q r : Placed} (hq : q ∈ p.children) (hr : r.Within q) : r.Within p := by
  obtain ⟨offset, t⟩ := p
  cases t with
  | blank _ | token _ | leaf _ _ => exact absurd hq List.not_mem_nil
  | node kind children => exact List.mem_cons_of_mem _ (mem_descendList hq hr)

mutual

theorem within_of_mem_descend {offset : Nat} {t : Tree} {p q : Placed} (hp : p ∈ descend offset t)
    (hq : q.Within p) : q ∈ descend offset t := by
  match t with
  | .blank _ | .token _ | .leaf _ _ =>
    simp only [descend, List.mem_singleton] at hp
    subst hp
    exact hq
  | .node kind children =>
    simp only [descend, List.mem_cons] at hp
    rcases hp with rfl | hp
    · exact hq
    · exact List.mem_cons_of_mem _ (within_of_mem_descendList hp hq)

theorem within_of_mem_descendList {offset : Nat} {ts : List Tree} {p q : Placed}
    (hp : p ∈ descendList offset ts) (hq : q.Within p) : q ∈ descendList offset ts := by
  match ts with
  | [] => exact absurd hp List.not_mem_nil
  | t :: ts =>
    simp only [descendList, List.mem_append] at hp ⊢
    rcases hp with hp | hp
    · exact .inl (within_of_mem_descend hp hq)
    · exact .inr (within_of_mem_descendList hp hq)

end

theorem Placed.Within.trans {p q r : Placed} (hr : r.Within q) (hq : q.Within p) : r.Within p :=
  within_of_mem_descend hq hr

mutual

theorem unwrapAt_within (offset : Nat) (t : Tree) : (unwrapAt offset t).Within ⟨offset, t⟩ := by
  match t with
  | .blank _ | .token _ | .leaf _ _ => exact within_self _
  | .node kind children =>
    rw [unwrapAt]
    split
    next =>
      cases hsole : soleAt? offset children with
      | none => exact within_self _
      | some p => exact List.mem_cons_of_mem _ (mem_descendList_of_soleAt? hsole)
    next => exact within_self _

theorem mem_descendList_of_soleAt? {offset : Nat} {ts : List Tree} {p : Placed} (h : soleAt? offset ts = some p) :
    p ∈ descendList offset ts := by
  match ts with
  | [] => cases h
  | t :: ts =>
    rw [soleAt?] at h
    split at h
    next =>
      split at h
      next => cases h
      next =>
        cases h
        exact List.mem_append_left _ (unwrapAt_within offset t)
    next => exact List.mem_append_right _ (mem_descendList_of_soleAt? h)

end

theorem Placed.unwrapped_within (p : Placed) : p.unwrapped.Within p := unwrapAt_within p.offset p.tree

mutual

theorem kind?_unwrapAt (offset : Nat) {t : Tree} (h : t.kind?.isSome) : (unwrapAt offset t).tree.kind?.isSome := by
  match t with
  | .blank _ | .token _ | .leaf _ _ => exact h
  | .node kind children =>
    rw [unwrapAt]
    split
    next =>
      cases hsole : soleAt? offset children with
      | none => rfl
      | some p => exact kind?_of_soleAt? hsole
    next => rfl

theorem kind?_of_soleAt? {offset : Nat} {ts : List Tree} {p : Placed} (h : soleAt? offset ts = some p) :
    p.tree.kind?.isSome := by
  match ts with
  | [] => cases h
  | t :: ts =>
    rw [soleAt?] at h
    split at h
    next hcounts =>
      split at h
      next => cases h
      next =>
        cases h
        exact kind?_unwrapAt offset (Bool.and_eq_true_iff.1 hcounts).1
    next => exact kind?_of_soleAt? h

end

mutual

theorem text_prefix_of_mem_descend {offset : Nat} {t : Tree} {q : Placed} (hq : q ∈ descend offset t) :
    q.tree.text <+: t.text.drop (q.offset - offset) := by
  match t with
  | .blank _ | .token _ | .leaf _ _ =>
    simp only [descend, List.mem_singleton] at hq
    subst hq
    rw [Nat.sub_self]
    exact List.prefix_rfl
  | .node kind children =>
    simp only [descend, List.mem_cons] at hq
    rcases hq with rfl | hq
    · rw [Nat.sub_self]
      exact List.prefix_rfl
    · exact text_prefix_of_mem_descendList hq

theorem text_prefix_of_mem_descendList {offset : Nat} {ts : List Tree} {q : Placed}
    (hq : q ∈ descendList offset ts) : q.tree.text <+: (textOfList ts).drop (q.offset - offset) := by
  match ts with
  | [] => exact absurd hq List.not_mem_nil
  | t :: ts =>
    simp only [descendList, List.mem_append] at hq
    rw [textOfList]
    rcases hq with hq | hq
    · have hbounds := descend_bounds offset t q hq
      have hprefix := text_prefix_of_mem_descend hq
      rw [List.drop_append_of_le_length (by unfold Placed.stop at hbounds; omega)]
      exact hprefix.trans (List.prefix_append _ _)
    · have hbounds := descendList_bounds (offset + t.text.length) ts q hq
      have hoffset : q.offset - offset = t.text.length + (q.offset - (offset + t.text.length)) := by omega
      rw [hoffset, List.drop_append, List.drop_of_length_le (by omega), Nat.add_sub_cancel_left, List.nil_append]
      exact text_prefix_of_mem_descendList hq

end

namespace Placed.IsNodeOf

variable {script : Tree} {p q : Placed}

theorem text_prefix (h : p.IsNodeOf script) : p.tree.text <+: script.text.drop p.offset :=
  text_prefix_of_mem_descend h.1

theorem unwrapped_of_named (h : p.IsNodeOf script) (hq : q ∈ p.named) : q.unwrapped.IsNodeOf script := by
  obtain ⟨hchild, hkind⟩ := List.mem_filter.1 hq
  exact ⟨(q.unwrapped_within.of_child hchild).trans h.1, kind?_unwrapAt _ hkind⟩

end Placed.IsNodeOf

end AssetEmbed.Script.Tree

namespace AssetEmbed.Script.Source

open AssetEmbed.Script.Tree

variable {call : Placed} {script : Tree}

theorem isSome_of_isKind {kind : Kind} {t : Tree} (h : t.isKind kind) : t.kind?.isSome := by
  rw [eq_of_beq h]
  rfl

theorem child_of_getLast?_parts {p q : Placed} (h : p.parts.getLast? = some q) : q ∈ p.children :=
  (List.mem_filter.1 (List.mem_of_getLast? h)).1

theorem isNodeOf_of_mem_callArguments (hcall : call.IsNodeOf script) {p : Placed} (hp : p ∈ callArguments call) :
    p.IsNodeOf script := by
  unfold callArguments at hp
  split at hp
  next last hlast =>
    split at hp
    next hkind =>
      obtain ⟨q, hq, rfl⟩ := List.mem_map.1 hp
      have hnode : last.IsNodeOf script :=
        ⟨((within_self last).of_child (child_of_getLast?_parts hlast)).trans hcall.1, isSome_of_isKind hkind⟩
      exact hnode.unwrapped_of_named (List.mem_filter.1 hq).1
    next => exact absurd hp List.not_mem_nil
  next => exact absurd hp List.not_mem_nil

end AssetEmbed.Script.Source
