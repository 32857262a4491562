import AssetEmbed.Glob.Braces

/-!
# Nesting — what reading a pattern passes over

The sign that closes a pair is found by passing over the pairs within it, and a separator counts only where
nothing is open.  A text that closes what it opens is passed over as a whole.
-/

namespace AssetEmbed.Glob

variable {opening closing sep c : Char} {s t : Text} {depth : Int}

/-! ## 1. Closing signs -/

/-- Whether the search for a closing sign passes over a text. -/
def Balanced (opening closing : Char) (s : Text) : Prop :=
  ∀ depth t, splitClosing opening closing depth (s ++ t) =
    (splitClosing opening closing depth t).map fun (p, r) => (s ++ p, r)

theorem splitClosing_closing_zero (s : Text) : splitClosing opening closing 0 (closing :: s) = some ([], s) :=
  (splitClosing.eq_def opening closing 0 (closing :: s)).trans (if_pos rfl)

theorem splitClosing_closing_succ (depth : Nat) (s : Text) :
    splitClosing opening closing (depth + 1) (closing :: s) =
      (splitClosing opening closing depth s).map fun (p, r) => (closing :: p, r) :=
  (splitClosing.eq_def opening closing (depth + 1) (closing :: s)).trans (if_pos rfl)

theorem splitClosing_of_ne (hc : c ≠ closing) (depth : Nat) (s : Text) :
    splitClosing opening closing depth (c :: s) =
      (splitClosing opening closing (if c = opening then depth + 1 else depth) s).map
        fun (p, r) => (c :: p, r) :=
  (splitClosing.eq_def opening closing depth (c :: s)).trans (if_neg hc)

theorem balanced_nil : Balanced opening closing [] := by
  intro depth t
  cases h : splitClosing opening closing depth t <;> simp [h]

theorem Balanced.append (hs : Balanced opening closing s) (ht : Balanced opening closing t) :
    Balanced opening closing (s ++ t) := by
  intro depth rest
  rw [List.append_assoc, hs, ht, Option.map_map]
  congr 1
  funext ⟨p, r⟩
  simp

theorem balanced_char (hopening : c ≠ opening) (hclosing : c ≠ closing) :
    Balanced opening closing [c] := by
  intro depth t
  rw [List.singleton_append, splitClosing_of_ne hclosing, if_neg hopening]
  rfl

theorem balanced_of_not_mem (hopening : opening ∉ s) (hclosing : closing ∉ s) :
    Balanced opening closing s := by
  induction s with
  | nil => exact balanced_nil
  | cons c s ih =>
    rw [List.mem_cons, not_or] at hopening hclosing
    exact (balanced_char (Ne.symm hopening.1) (Ne.symm hclosing.1)).append
      (ih hopening.2 hclosing.2)

theorem Balanced.enclosed (hne : opening ≠ closing) (hs : Balanced opening closing s) :
    Balanced opening closing (opening :: s ++ [closing]) := by
  intro depth t
  have hassoc : opening :: s ++ [closing] ++ t = opening :: (s ++ closing :: t) := by simp
  rw [hassoc, splitClosing_of_ne hne, if_pos rfl, hs, splitClosing_closing_succ, Option.map_map,
    Option.map_map]
  congr 1
  funext ⟨p, r⟩
  simp

theorem Balanced.splitClosing_eq (hs : Balanced opening closing s) (t : Text) :
    splitClosing opening closing 0 (s ++ closing :: t) = some (s, t) := by
  rw [hs, splitClosing_closing_zero]
  simp

/-! ## 2. Separators -/

/-- Pieces of which the first one has a text before it. -/
def extendFirst (s : Text) : List Text → List Text
  | [] => [s]
  | piece :: pieces => (s ++ piece) :: pieces

/-- Whether a text is read without a cut at some depth, and leaves the depth as it is. -/
def Whole (sep : Char) (depth : Int) (s : Text) : Prop :=
  ∀ t, splitTopLevel sep depth (s ++ t) = extendFirst s (splitTopLevel sep depth t)

theorem splitTopLevel_ne_nil (sep : Char) (depth : Int) (s : Text) : splitTopLevel sep depth s ≠ [] := by
  cases s with
  | nil => exact List.cons_ne_nil _ _
  | cons c s =>
    rw [splitTopLevel]
    split
    · exact List.cons_ne_nil _ _
    · split <;> exact List.cons_ne_nil _ _

theorem splitTopLevel_cons (h : ¬ (c = sep ∧ depthAfter depth c = 0)) (s : Text) :
    splitTopLevel sep depth (c :: s) = extendFirst [c] (splitTopLevel sep (depthAfter depth c) s) := by
  rw [splitTopLevel, if_neg (by simpa using h)]
  cases splitTopLevel sep (depthAfter depth c) s <;> rfl

theorem extendFirst_extendFirst (s t : Text) (pieces : List Text) :
    extendFirst s (extendFirst t pieces) = extendFirst (s ++ t) pieces := by
  cases pieces <;> simp [extendFirst]

theorem whole_nil (sep : Char) (depth : Int) : Whole sep depth [] := by
  intro t
  cases h : splitTopLevel sep depth t with
  | nil => exact absurd h (splitTopLevel_ne_nil sep depth t)
  | cons piece pieces => exact h

theorem Whole.append (hs : Whole sep depth s) (ht : Whole sep depth t) : Whole sep depth (s ++ t) := by
  intro rest
  rw [List.append_assoc, hs, ht, extendFirst_extendFirst]

def IsFlat (c : Char) : Prop := c ≠ '{' ∧ c ≠ '(' ∧ c ≠ '}' ∧ c ≠ ')'

instance : DecidablePred IsFlat := fun _ => inferInstanceAs (Decidable (_ ∧ _))

theorem IsFlat.depthAfter_eq (hc : IsFlat c) (depth : Int) : depthAfter depth c = depth := by
  obtain ⟨h₁, h₂, h₃, h₄⟩ := hc
  simp [depthAfter, h₁, h₂, h₃, h₄]

theorem whole_char (hc : IsFlat c) (hsep : c = sep → depth ≠ 0) : Whole sep depth [c] := by
  intro t
  rw [List.singleton_append, splitTopLevel_cons, hc.depthAfter_eq]
  rw [hc.depthAfter_eq]
  exact fun h => hsep h.1 h.2

theorem whole_of_forall (hs : ∀ c ∈ s, IsFlat c) (hsep : sep ∈ s → depth ≠ 0) : Whole sep depth s := by
  induction s with
  | nil => exact whole_nil sep depth
  | cons c s ih =>
    have hc : Whole sep depth [c] := whole_char (hs c List.mem_cons_self) fun heq => hsep (heq ▸ List.mem_cons_self)
    exact hc.append (ih (fun d hd => hs d (List.mem_cons_of_mem _ hd)) fun h => hsep (List.mem_cons_of_mem _ h))

theorem Whole.inBraces (hsep : IsFlat sep) (hs : Whole sep (depth + 1) s) :
    Whole sep depth ('{' :: s ++ ['}']) := by
  intro t
  have hopen : depthAfter depth '{' = depth + 1 := rfl
  have hclose : depthAfter (depth + 1) '}' = depth := by
    show depth + 1 - 1 = depth
    omega
  have hassoc : '{' :: s ++ ['}'] ++ t = '{' :: (s ++ '}' :: t) := by simp
  rw [hassoc, splitTopLevel_cons fun h => hsep.1 h.1.symm, hopen, hs,
    splitTopLevel_cons fun h => hsep.2.2.1 h.1.symm, hclose, extendFirst_extendFirst,
    extendFirst_extendFirst, List.singleton_append]

theorem splitTopLevel_joinWith (hsep : IsFlat sep) {pieces : List Text} (hne : pieces ≠ [])
    (h : ∀ piece ∈ pieces, Whole sep 0 piece) : splitTopLevel sep 0 (Text.joinWith sep pieces) = pieces := by
  induction pieces with
  | nil => exact absurd rfl hne
  | cons piece rest ih =>
    have hpiece := h piece List.mem_cons_self
    cases rest with
    | nil =>
      have hend : splitTopLevel sep 0 (piece ++ []) = [piece ++ []] := hpiece []
      rwa [List.append_nil] at hend
    | cons next rest =>
      rw [Text.joinWith_cons_cons, hpiece, splitTopLevel, hsep.depthAfter_eq, if_pos (by simp),
        ih (List.cons_ne_nil _ _) fun p hp => h p (List.mem_cons_of_mem _ hp)]
      simp [extendFirst]

/-- Texts with flat separators between them are read without a cut where something is open. -/
theorem whole_joinWith {between : Char} (hbetween : IsFlat between) (hdepth : between = sep → depth ≠ 0)
    {pieces : List Text} (h : ∀ piece ∈ pieces, Whole sep depth piece) :
    Whole sep depth (Text.joinWith between pieces) := by
  induction pieces with
  | nil => exact whole_nil sep depth
  | cons piece rest ih =>
    cases rest with
    | nil => exact h piece List.mem_cons_self
    | cons next rest =>
      rw [Text.joinWith_cons_cons]
      exact (h piece List.mem_cons_self).append
        ((whole_char hbetween hdepth).append (ih fun p hp => h p (List.mem_cons_of_mem _ hp)))

theorem balanced_joinWith (hopening : sep ≠ opening) (hclosing : sep ≠ closing) {pieces : List Text}
    (h : ∀ piece ∈ pieces, Balanced opening closing piece) :
    Balanced opening closing (Text.joinWith sep pieces) := by
  induction pieces with
  | nil => exact balanced_nil
  | cons piece rest ih =>
    cases rest with
    | nil => exact h piece List.mem_cons_self
    | cons next rest =>
      rw [Text.joinWith_cons_cons]
      exact (h piece List.mem_cons_self).append
        ((balanced_char hopening hclosing).append (ih fun p hp => h p (List.mem_cons_of_mem _ hp)))

end AssetEmbed.Glob
