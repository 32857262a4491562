import AssetEmbed.Proofs.Glob.Nesting
import AssetEmbed.Proofs.Glob.Ranges
import Mathlib.Data.List.Basic

/-!
# Expanding — how a pattern with braces is taken apart

The first pair of braces is expanded to its alternatives or to itself, before whatever the text behind it is
expanded to.  The bound on the number of steps is never met, since a step leaves less text or no braces.
-/

namespace AssetEmbed.Glob

/-! ## 1. Steps without a bound -/

theorem splitClosing_eq_some {opening closing : Char} {depth : Nat} {s p r : Text}
    (h : splitClosing opening closing depth s = some (p, r)) : s = p ++ closing :: r := by
  -- a closing sign ends the text at depth zero only, and otherwise is a part of it
  induction s generalizing depth p with
  | nil => cases h
  | cons c s ih =>
    by_cases hc : c = closing
    · subst hc
      cases depth with
      | zero =>
        rw [splitClosing_closing_zero] at h
        cases h
        rfl
      | succ depth =>
        rw [splitClosing_closing_succ] at h
        obtain ⟨⟨p', r'⟩, hsplit, heq⟩ := Option.map_eq_some_iff.1 h
        cases heq
        rw [ih hsplit, List.cons_append]
    · rw [splitClosing_of_ne hc] at h
      obtain ⟨⟨p', r'⟩, hsplit, heq⟩ := Option.map_eq_some_iff.1 h
      cases heq
      rw [ih hsplit, List.cons_append]

theorem splitBraces?_eq_some {pattern head body after : Text}
    (h : splitBraces? pattern = some (head, body, after)) :
    pattern = head ++ '{' :: (body ++ '}' :: after) ∧ head = pattern.takeWhile (· ≠ '{') := by
  unfold splitBraces? at h
  split at h
  · cases h
  · rename_i c rest hdrop
    obtain ⟨⟨b, a⟩, hsplit, heq⟩ := Option.map_eq_some_iff.1 h
    cases heq
    refine ⟨?_, rfl⟩
    have hc : c = '{' := by
      have hfirst := List.head?_dropWhile_not (fun x => decide (x ≠ '{')) pattern
      rw [hdrop] at hfirst
      simpa using hfirst
    have hall := List.takeWhile_append_dropWhile (p := fun x => decide (x ≠ '{')) (l := pattern)
    rw [hdrop, hc, splitClosing_eq_some hsplit] at hall
    exact hall.symm

theorem splitBraces?_of_not_mem {s : Text} (hs : '{' ∉ s) : splitBraces? s = none := by
  have hdrop : s.dropWhile (· ≠ '{') = [] := by
    rw [List.dropWhile_eq_nil_iff]
    rintro c hc
    rw [decide_eq_true_eq]
    rintro rfl
    exact hs hc
  unfold splitBraces?
  rw [hdrop]

theorem length_le_of_mem_splitTopLevel {sep : Char} {depth : Int} {s piece : Text}
    (h : piece ∈ splitTopLevel sep depth s) : piece.length ≤ s.length := by
  induction s generalizing depth piece with
  | nil =>
    obtain rfl := List.mem_singleton.1 h
    exact le_rfl
  | cons c s ih =>
    rw [splitTopLevel] at h
    split at h
    · rcases List.mem_cons.1 h with rfl | h
      · exact Nat.zero_le _
      · exact (ih h).trans (Nat.le_succ _)
    · split at h
      · rename_i hsplit
        exact absurd hsplit (splitTopLevel_ne_nil _ _ _)
      -- the character goes to the first of the pieces behind it
      · rename_i first pieces hsplit
        have hpieces : ∀ p ∈ first :: pieces, p.length ≤ s.length := fun p hp => ih (hsplit.symm ▸ hp)
        rcases List.mem_cons.1 h with rfl | h
        · exact Nat.succ_le_succ (hpieces first List.mem_cons_self)
        · exact (hpieces piece (List.mem_cons_of_mem _ h)).trans (Nat.le_succ _)

theorem length_le_of_mem_alternatives? {body alternative : Text} {alternatives : List Text}
    (h : alternatives? body = some alternatives) (hmem : alternative ∈ alternatives) :
    alternative.length ≤ body.length ∨ '{' ∉ alternative := by
  unfold alternatives? at h
  split at h
  · rename_i hsplit
    cases h
    exact .inl (length_le_of_mem_splitTopLevel (hsplit ▸ hmem))
  · exact .inr (not_mem_of_mem_rangeValues? h hmem)

theorem expandUpTo_of_not_mem {s : Text} (hs : '{' ∉ s) (bound : Nat) : expandUpTo bound s = [s] := by
  cases bound with
  | zero => rfl
  | succ bound =>
    rw [expandUpTo, splitBraces?_of_not_mem hs]

/-- A bound on the length of a pattern is no limit. -/
theorem expandUpTo_eq {s : Text} {bound bound' : Nat} (h : s.length ≤ bound) (h' : s.length ≤ bound') :
    expandUpTo bound s = expandUpTo bound' s := by
  induction bound generalizing s bound' with
  | zero =>
    obtain rfl := List.length_eq_zero_iff.1 (Nat.le_zero.1 h)
    rw [expandUpTo_of_not_mem List.not_mem_nil, expandUpTo_of_not_mem List.not_mem_nil]
  | succ bound ih =>
    cases bound' with
    | zero =>
      obtain rfl := List.length_eq_zero_iff.1 (Nat.le_zero.1 h')
      rw [expandUpTo_of_not_mem List.not_mem_nil, expandUpTo_of_not_mem List.not_mem_nil]
    | succ bound' =>
      rw [expandUpTo, expandUpTo]
      cases hsplit : splitBraces? s with
      | none => rfl
      | some parts =>
        obtain ⟨head, body, after⟩ := parts
        have hlength := congrArg List.length (splitBraces?_eq_some hsplit).1
        simp only [List.length_append, List.length_cons] at hlength
        have hafter : expandUpTo bound after = expandUpTo bound' after := ih (by omega) (by omega)
        have hbody : expandUpTo bound body = expandUpTo bound' body := ih (by omega) (by omega)
        dsimp only
        rw [hafter, hbody]
        -- a value of a range may be longer than its body, but there is nothing to expand in it
        cases halternatives : alternatives? body with
        | none => rfl
        | some alternatives =>
          have heach : alternatives.flatMap (expandUpTo bound) = alternatives.flatMap (expandUpTo bound') := by
            refine List.flatMap_congr fun alternative hmem => ?_
            rcases length_le_of_mem_alternatives? halternatives hmem with hle | hbrace
            · exact ih (by omega) (by omega)
            · rw [expandUpTo_of_not_mem hbrace, expandUpTo_of_not_mem hbrace]
          dsimp only
          rw [heach]

/-! ## 2. The first pair -/

def expandBody (body : Text) : List Text :=
  match alternatives? body with
  | none => (expandBraces body).map fun x => '{' :: x ++ ['}']
  | some alternatives => alternatives.flatMap expandBraces

def products (heads tails : List Text) : List Text := heads.flatMap fun x => tails.map fun y => x ++ y

theorem products_assoc (as bs cs : List Text) :
    products (products as bs) cs = products as (products bs cs) := by
  simp only [products, List.flatMap_assoc, List.flatMap_map, List.map_flatMap, List.map_map]
  refine List.flatMap_congr fun a _ => List.flatMap_congr fun b _ => List.map_congr_left fun c _ => ?_
  exact List.append_assoc a b c

theorem mem_products {as bs : List Text} {s : Text} :
    s ∈ products as bs ↔ ∃ a ∈ as, ∃ b ∈ bs, a ++ b = s := by
  simp only [products, List.mem_flatMap, List.mem_map]

theorem products_singleton (a : Text) (bs : List Text) : products [a] bs = bs.map fun b => a ++ b :=
  List.flatMap_singleton _ _

theorem products_nil_text (as : List Text) : products as [[]] = as := by
  simp [products]

theorem map_products (head : Text) (as bs : List Text) :
    (products as bs).map (fun x => head ++ x) = as.flatMap fun a => bs.map fun b => head ++ a ++ b := by
  simp only [products, List.map_flatMap, List.map_map]
  refine List.flatMap_congr fun a _ => List.map_congr_left fun b _ => ?_
  exact (List.append_assoc head a b).symm

theorem expandBraces_of_split {pattern head body after : Text}
    (h : splitBraces? pattern = some (head, body, after)) :
    expandBraces pattern = (products (expandBody body) (expandBraces after)).map fun x => head ++ x := by
  have hlength := congrArg List.length (splitBraces?_eq_some h).1
  simp only [List.length_append, List.length_cons] at hlength
  obtain ⟨bound, hbound⟩ : ∃ bound, pattern.length = bound + 1 := ⟨pattern.length - 1, by omega⟩
  have hafter : expandUpTo bound after = expandBraces after := expandUpTo_eq (by omega) le_rfl
  have hbody : expandUpTo bound body = expandBraces body := expandUpTo_eq (by omega) le_rfl
  -- one step of the recursion, in which the bound falls by one
  rw [map_products, expandBraces, hbound, expandUpTo, h]
  unfold expandBody
  cases halternatives : alternatives? body with
  | none =>
    dsimp only
    rw [halternatives, hafter, hbody]
  | some alternatives =>
    have heach : alternatives.flatMap (expandUpTo bound) = alternatives.flatMap expandBraces := by
      refine List.flatMap_congr fun alternative hmem => ?_
      rcases length_le_of_mem_alternatives? halternatives hmem with hle | hbrace
      · exact expandUpTo_eq (by omega) le_rfl
      · rw [expandBraces, expandUpTo_of_not_mem hbrace, expandUpTo_of_not_mem hbrace]
    dsimp only
    rw [halternatives, hafter]
    dsimp only
    rw [heach]

theorem expandBraces_of_splitBraces?_eq_none {s : Text} (h : splitBraces? s = none) : expandBraces s = [s] := by
  unfold expandBraces
  cases s.length with
  | zero => rfl
  | succ bound => rw [expandUpTo, h]

/-- Text without an opening brace stands before whatever follows it. -/
theorem expandBraces_literal_append {s : Text} (hs : '{' ∉ s) (t : Text) :
    expandBraces (s ++ t) = products [s] (expandBraces t) := by
  have hkeep : ∀ c ∈ s, (decide (c ≠ '{')) = true := by
    intro c hc
    rw [decide_eq_true_eq]
    rintro rfl
    exact hs hc
  -- the first pair is the first one of the rest
  have hsplit : splitBraces? (s ++ t) = (splitBraces? t).map fun (h, b, a) => (s ++ h, b, a) := by
    unfold splitBraces?
    rw [List.dropWhile_append_of_pos hkeep, List.takeWhile_append_of_pos hkeep]
    split
    · rfl
    · rw [Option.map_map]
      rfl
  rw [products_singleton]
  cases ht : splitBraces? t with
  | none =>
    rw [ht] at hsplit
    rw [expandBraces_of_splitBraces?_eq_none hsplit, expandBraces_of_splitBraces?_eq_none ht]
    rfl
  | some parts =>
    obtain ⟨head, body, after⟩ := parts
    rw [ht] at hsplit
    rw [expandBraces_of_split hsplit, expandBraces_of_split ht, List.map_map]
    exact List.map_congr_left fun x _ => List.append_assoc s head x

theorem expandBraces_pair_append {body : Text} (hbody : Balanced '{' '}' body) (t : Text) :
    expandBraces ('{' :: body ++ ['}'] ++ t) = products (expandBody body) (expandBraces t) := by
  have hassoc : '{' :: body ++ ['}'] ++ t = '{' :: (body ++ '}' :: t) := by simp
  have hsplit : splitBraces? ('{' :: (body ++ '}' :: t)) = some ([], body, t) := by
    unfold splitBraces?
    simp [hbody.splitClosing_eq]
  rw [hassoc, expandBraces_of_split hsplit]
  simp

end AssetEmbed.Glob
