import AssetEmbed.Proofs.Script.Plain.Module
import AssetEmbed.Proofs.Script.Substitution

/-!
# Substitution in plain trees

Where values in plain form take the place of calls, a tree in plain form stays one.
-/

namespace AssetEmbed.Script

open AssetEmbed.Script.Tree

section

variable {f : Placed → Option Tree}

/-! ## 1. Lists -/

theorem substituteList_append (offset : Nat) (ts us : List Tree) :
    substituteList f offset (ts ++ us) =
      substituteList f offset ts ++ substituteList f (offset + (textOfList ts).length) us := by
  induction ts generalizing offset with
  | nil => rfl
  | cons t ts ih =>
    have hoffset : offset + t.text.length + (textOfList ts).length =
        offset + (t.text ++ textOfList ts).length := by
      rw [List.length_append, Nat.add_assoc]
    rw [List.cons_append, substituteList, substituteList, ih, textOfList, hoffset, List.cons_append]

theorem substituteList_gap {gap : List Tree} (hgap : Step.Gap gap) (offset : Nat) :
    substituteList f offset gap = gap := by
  induction hgap generalizing offset with
  | none => rfl
  | blank _ _ _ _ ih | block _ _ ih | line _ _ _ ih =>
    rw [substituteList, ih]
    rfl

theorem Tail.substitute {P Q : Tree → Prop} {ts : List Tree} (h : Tail P ts)
    (hP : ∀ t offset, P t → Q (t.substitute f offset)) (offset : Nat) :
    Tail Q (substituteList f offset ts) := by
  induction h generalizing offset with
  | nil => exact .nil
  | hole hgap hts ih =>
    rw [substituteList_append, substituteList_gap hgap]
    exact .hole hgap (ih _)
  | entry hgap hgap' ht hts ih =>
    rw [substituteList_append, substituteList_gap hgap, substituteList, substituteList_append,
      substituteList_gap hgap']
    exact .entry hgap hgap' (hP _ _ ht) (ih _)

theorem Entries.substitute {P Q : Tree → Prop} {close : Char} {ts : List Tree} (h : Entries P close ts)
    (hP : ∀ t offset, P t → Q (t.substitute f offset)) (offset : Nat) :
    Entries Q close (substituteList f offset ts) := by
  cases h with
  | none hts hgap =>
    rw [substituteList_append, substituteList_append, substituteList_gap hgap]
    exact .none (hts.substitute hP _) hgap
  | some hgap ht hts hgap' =>
    rw [substituteList_append, substituteList_gap hgap, substituteList, substituteList_append,
      substituteList_append, substituteList_gap hgap']
    exact .some hgap (hP _ _ ht) (hts.substitute hP _) hgap'

variable (hcall : ∀ p u, f p = some u → p.tree.isKind .callExpression)

include hcall

theorem substitute_node {kind : Kind} (hkind : kind ≠ .callExpression) (offset : Nat) (ts : List Tree) :
    (Tree.node kind ts).substitute f offset = .node kind (substituteList f offset ts) := by
  have hnone : f ⟨offset, .node kind ts⟩ = none := by
    cases h : f ⟨offset, .node kind ts⟩ with
    | none => rfl
    | some u =>
      have hcallKind := hcall _ u h
      simp only [isKind, kind?, beq_iff_eq, Option.some.injEq] at hcallKind
      exact absurd hcallKind hkind
  rw [Tree.substitute, hnone]

theorem Item.substitute {P Q : Tree → Prop} {t : Tree} (h : Item P t)
    (hP : ∀ u offset, P u → Q (u.substitute f offset)) (offset : Nat) : Item Q (t.substitute f offset) := by
  cases h with
  | value ht => exact .value (hP _ _ ht)
  | spread hgap ht =>
    rw [substitute_node hcall (by decide), substituteList, substituteList_append, substituteList_gap hgap]
    exact .spread hgap (hP _ _ ht)

theorem Key.substitute {P Q : Tree → Prop} {t : Tree} (h : Key P t)
    (hP : ∀ u offset, P u → Q (u.substitute f offset)) (offset : Nat) : Key Q (t.substitute f offset) := by
  cases h with
  | word hw => exact .word hw
  | string hq => exact .string hq
  | computed hgap ht hgap' =>
    rw [substitute_node hcall (by decide), substituteList, substituteList_append, substituteList_gap hgap,
      substituteList, substituteList_append, substituteList_gap hgap']
    exact .computed hgap (hP _ _ ht) hgap'

theorem Field.substitute {P Q : Tree → Prop} {t : Tree} (h : Field P t)
    (hP : ∀ u offset, P u → Q (u.substitute f offset)) (offset : Nat) : Field Q (t.substitute f offset) := by
  cases h with
  | spread hgap ht =>
    rw [substitute_node hcall (by decide), substituteList, substituteList_append, substituteList_gap hgap]
    exact .spread hgap (hP _ _ ht)
  | pair hkey hgap hgap' ht =>
    rw [substitute_node hcall (by decide), substituteList, substituteList_append, substituteList_gap hgap,
      substituteList, substituteList_append, substituteList_gap hgap']
    exact .pair (hkey.substitute hcall hP _) hgap hgap' (hP _ _ ht)
  | shorthand hw => exact .shorthand hw

/-! ## 2. Values -/

theorem ArrowHead.substitute {t : Tree} (h : ArrowHead t) (offset : Nat) :
    ArrowHead (t.substitute f offset) := by
  cases h with
  | nothing hgap =>
    rw [substitute_node hcall (by decide), substituteList, substituteList_append, substituteList_gap hgap]
    exact .nothing hgap
  | name hw => exact .name hw

variable (hliteral : ∀ p u, f p = some u → Primary u ∧ NoBlock u)

include hliteral

theorem NoBlock.substitute {t : Tree} (h : NoBlock t) (offset : Nat) : NoBlock (t.substitute f offset) := by
  induction h generalizing offset with
  | quoted hgap hq =>
    rw [substitute_node hcall (by decide), substituteList, substituteList_append, substituteList_gap hgap,
      substituteList, substitute_node hcall (by decide), substituteList, substituteList]
    exact .quoted hgap hq
  -- a call may itself be replaced, by a literal that is no block either
  | @follows kind t ts hkind ht ih =>
    rw [Tree.substitute]
    split
    next u hu => exact (hliteral _ u hu).2
    next => exact .follows hkind (ih _)
  | @other t ht =>
    cases t with
    | node kind ts =>
      have hne := ht .callExpression (by decide)
      have hkind : kind ≠ .callExpression := by
        rintro rfl
        exact absurd hne (by simp [isKind, kind?])
      rw [substitute_node hcall hkind]
      exact .other ht
    | _ => exact .other ht

theorem valueCases_substitute :
    ValueCases (fun t => ∀ offset, Primary (t.substitute f offset))
      (fun t => ∀ offset, Value (t.substitute f offset)) where
  string _ hq _ := .string hq
  name _ hw _ := .name hw
  constant _ _ hw _ := .constant hw
  array ts hts offset := by
    rw [substitute_node hcall (by decide), substituteList]
    exact .array (hts.substitute (fun v offset hv => hv.substitute hcall (fun _ _ hu => hu _) offset) _)
  object ts hts offset := by
    rw [substitute_node hcall (by decide), substituteList]
    exact .object (hts.substitute (fun v offset hv => hv.substitute hcall (fun _ _ hu => hu _) offset) _)
  parenthesized gap t gap' hgap ht hgap' offset := by
    rw [inParentheses, substitute_node hcall (by decide), substituteList, substituteList_append,
      substituteList_gap hgap, substituteList, substituteList_append, substituteList_gap hgap']
    exact .parenthesized hgap (ht _) hgap'
  member t w ht hw offset := by
    rw [substitute_node hcall (by decide), substituteList]
    exact .member (ht _) hw
  index t gap u gap' ht hgap hu hgap' offset := by
    rw [substitute_node hcall (by decide), substituteList, substituteList, substituteList_append,
      substituteList_gap hgap, substituteList, substituteList_append, substituteList_gap hgap']
    exact .index (ht _) hgap (hu _) hgap'
  call t ts ht hts offset := by
    -- the call is replaced, or what is in it is
    rw [Tree.substitute]
    split
    next u hu => exact (hliteral _ u hu).1
    next =>
      rw [substituteList, substituteList, substitute_node hcall (by decide), substituteList]
      exact .call (ht _)
        (hts.substitute (fun v offset hv => hv.substitute hcall (fun _ _ hu => hu _) offset) _)
  primary _ ht offset := .primary (ht offset)
  arrow head gap gap' body hhead hgap hgap' hbody hblock offset := by
    rw [substitute_node hcall (by decide), substituteList, substituteList_append, substituteList_gap hgap,
      substituteList, substituteList_append, substituteList_gap hgap', substituteList]
    exact .arrow (hhead.substitute hcall _) hgap hgap' (hbody _) (hblock.substitute hcall hliteral _)

theorem Value.substitute {t : Tree} (ht : Value t) (offset : Nat) : Value (t.substitute f offset) :=
  (valueCases_substitute hcall hliteral).value ht offset

end

/-! ## 3. Modules -/

section

variable {f : Placed → Option Tree} {d : Dialect} {m : Source} {closed : Bool} {t : Tree} {ts : List Tree}

theorem Ending.substitute (h : Ending closed ts) (offset : Nat) :
    Ending closed (substituteList f offset ts) := by
  cases h with
  | semicolon hgap =>
    rw [substituteList_append, substituteList_gap hgap.isGap]
    exact .semicolon hgap
  | nothing => exact .nothing

theorem substitute_of_not_isMarkerCall (hf : ∀ p u, f p = some u → m.isMarkerCall p.tree) {kind : Kind}
    (h : m.isMarkerCall (.node kind ts) = false) (offset : Nat) :
    (Tree.node kind ts).substitute f offset = .node kind (substituteList f offset ts) := by
  have hnone : f ⟨offset, .node kind ts⟩ = none := by
    by_contra hne
    obtain ⟨u, hu⟩ := Option.ne_none_iff_exists'.1 hne
    have hmarker := hf _ u hu
    rw [h] at hmarker
    cases hmarker
  rw [Tree.substitute, hnone]

mutual

/-- Where there are no marker calls, nothing is substituted. -/
theorem substitute_eq_self (hf : ∀ p u, f p = some u → m.isMarkerCall p.tree) (t : Tree)
    {place offset : Nat} (h : ∀ p ∈ t.descend place, m.isMarkerCall p.tree = false) :
    t.substitute f offset = t := by
  match t with
  | .blank _ | .token _ | .leaf _ _ => rfl
  | .node kind ts =>
    rw [substitute_of_not_isMarkerCall hf (h _ List.mem_cons_self),
      substituteList_eq_self hf ts fun p hp => h p (List.mem_cons_of_mem _ hp)]

theorem substituteList_eq_self (hf : ∀ p u, f p = some u → m.isMarkerCall p.tree) (ts : List Tree)
    {place offset : Nat} (h : ∀ p ∈ descendList place ts, m.isMarkerCall p.tree = false) :
    substituteList f offset ts = ts := by
  match ts with
  | [] => rfl
  | t :: ts =>
    rw [substituteList, substitute_eq_self hf t fun p hp => h p (List.mem_append_left _ hp),
      substituteList_eq_self hf ts fun p hp => h p (List.mem_append_right _ hp)]

end

variable (hf : ∀ p u, f p = some u → m.isMarkerCall p.tree)

include hf

theorem isKind_of_isMarkerCall (p : Placed) (u : Tree) (h : f p = some u) : p.tree.isKind .callExpression := by
  have hmarker := hf p u h
  rw [Source.isMarkerCall, Bool.and_eq_true] at hmarker
  exact hmarker.1

theorem Named.substitute {v : Tree} (h : Named m v) (offset : Nat) : Named m (v.substitute f offset) := by
  induction h generalizing offset with
  | name hw hhead => exact .name hw hhead
  | @follows kind t ts hkind ht hmarker ih =>
    rw [substitute_of_not_isMarkerCall hf hmarker, substituteList]
    refine .follows hkind (ih offset) ?_
    -- what is called is still the same name, or no name
    cases ht with
    | name => exact hmarker
    | follows _ _ hmarker' =>
      rw [substitute_of_not_isMarkerCall hf hmarker']
      simp [Source.isMarkerCall, Tree.parts, Tree.children, Tree.isTrivia]

variable (hliteral : ∀ p u, f p = some u → Primary u ∧ NoBlock u)

include hliteral

theorem Declaration.substitute (h : Declaration closed t) (offset : Nat) :
    Declaration closed (t.substitute f offset) := by
  have hcall := isKind_of_isMarkerCall hf
  cases h with
  | mk hword hgap₁ hw hgap₂ hgap₃ hv hts =>
    rw [substitute_node hcall (by decide), substituteList, substituteList_append,
      substituteList_gap hgap₁.spaces.isGap, substituteList, substitute_node hcall (by decide), substituteList,
      substituteList_append, substituteList_gap hgap₂, substituteList, substituteList_append,
      substituteList_gap hgap₃]
    exact .mk hword hgap₁ hw hgap₂ hgap₃ (hv.substitute hcall hliteral _) (hts.substitute _)

theorem Statement.substitute (h : Statement d m closed t) (offset : Nat) :
    Statement d m closed (t.substitute f offset) := by
  have hcall := isKind_of_isMarkerCall hf
  cases h with
  | declaration h => exact .declaration (h.substitute hf hliteral offset)
  | exported hgap h =>
    rw [substitute_node hcall (by decide), substituteList, substituteList_append,
      substituteList_gap hgap.spaces.isGap]
    exact .exported hgap (h.substitute hf hliteral _)
  | default hgap₁ hgap₂ hv hts =>
    rw [substitute_node hcall (by decide), substituteList, substituteList_append,
      substituteList_gap hgap₁.spaces.isGap, substituteList, substituteList_append,
      substituteList_gap hgap₂.spaces.isGap, substituteList]
    exact .default hgap₁ hgap₂ (hv.substitute hcall hliteral _) (hts.substitute _)
  | expression hv hblock hts =>
    rw [substitute_node hcall (by decide), substituteList]
    exact .expression (hv.substitute hcall hliteral _) (hblock.substitute hcall hliteral _) (hts.substitute _)
  | other halone hend hmarker =>
    rw [substitute_eq_self hf _ hmarker]
    exact .other halone hend hmarker

theorem BeginsLine.substitute (h : BeginsLine m t) (offset : Nat) : BeginsLine m (t.substitute f offset) := by
  have hcall := isKind_of_isMarkerCall hf
  cases h with
  | word hkind hword hgap =>
    rw [substitute_node hcall hkind, substituteList, substituteList_append,
      substituteList_gap hgap.spaces.isGap]
    exact .word hkind hword hgap
  | expression hvalue hv hts =>
    rw [substitute_node hcall (by decide), substituteList]
    exact .expression (hvalue.substitute hcall hliteral _) (hv.substitute hf _) (hts.substitute _)

theorem Line.substitute (h : Line m ts) (offset : Nat) : Line m (substituteList f offset ts) := by
  cases h with
  | done hgap =>
    rw [substituteList_gap hgap.isGap]
    exact .done hgap
  | next hs hbreak ht => exact .next hs hbreak (ht.substitute hf hliteral _)

/-- Where literals take the place of marker calls, a module in plain form stays one. -/
theorem Module.substitute (h : Module d m ts) (offset : Nat) : Module d m (substituteList f offset ts) := by
  induction h generalizing offset with
  | done hgap =>
    rw [substituteList_gap hgap]
    exact .done hgap
  | closed hgap ht _ ih =>
    rw [substituteList_append, substituteList_gap hgap, substituteList]
    exact .closed hgap (ht.substitute hf hliteral _) (ih _)
  | opened hgap ht _ hline ih =>
    rw [substituteList_append, substituteList_gap hgap, substituteList]
    exact .opened hgap (ht.substitute hf hliteral _) (ih _) (hline.substitute hf hliteral _)

end

end AssetEmbed.Script
