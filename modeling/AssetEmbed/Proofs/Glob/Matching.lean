import AssetEmbed.Glob.Alternative
import Mathlib.Data.List.Basic
import Mathlib.Data.List.TakeWhile
import Mathlib.Data.Option.Basic

/-!
# Matching — which paths a compiled line names

The parts of a compiled line take a path piece by piece.  A line matches a path exactly if its parts take a
beginning of the path and its ending agrees with the rest; which of the possible beginnings comes first only decides
whether the path is the named one or lies below it.
-/

namespace AssetEmbed.Glob

/-! ## 1. What the parts of a pattern take -/

/-- Whether a part of a pattern takes a text. -/
def Element.Takes : Element → Text → Prop
  | .literal c, s => s = [c]
  | .oneOf negated ranges, s => ∃ c, s = [c] ∧ (inRanges ranges c != negated) = true
  | .nameChar, s => ∃ c, s = [c] ∧ c ≠ '/'
  | .nameChars, s => '/' ∉ s
  | .name, s => s ≠ [] ∧ '/' ∉ s
  | .anything, s => s ≠ [] ∧ '\n' ∉ s
  | .leadingDirs, s => s = [] ∨ ∃ d, s = d ++ ['/'] ∧ d ≠ [] ∧ '\n' ∉ d
  | .innerDirs, s => s = [] ∨ ∃ d, s = '/' :: d ∧ d ≠ [] ∧ '\n' ∉ d

/-- Whether the parts of a pattern take a text, one behind another. -/
def Takes : List Element → Text → Prop
  | [], s => s = []
  | e :: es, s => ∃ a b, s = a ++ b ∧ e.Takes a ∧ Takes es b

theorem takes_singleton {e : Element} {s : Text} : Takes [e] s ↔ e.Takes s := by
  constructor
  · rintro ⟨a, b, rfl, ha, rfl⟩
    rwa [List.append_nil]
  · intro h
    exact ⟨s, [], (List.append_nil s).symm, h, rfl⟩

theorem takes_append {es es' : List Element} {s : Text} :
    Takes (es ++ es') s ↔ ∃ a b, s = a ++ b ∧ Takes es a ∧ Takes es' b := by
  induction es generalizing s with
  | nil =>
    constructor
    · intro h
      exact ⟨[], s, rfl, rfl, h⟩
    · rintro ⟨a, b, rfl, rfl, h⟩
      exact h
  | cons e es ih =>
    constructor
    · rintro ⟨a, b, rfl, ha, hb⟩
      obtain ⟨b, c, rfl, hb, hc⟩ := ih.1 hb
      exact ⟨a ++ b, c, (List.append_assoc a b c).symm, ⟨a, b, rfl, ha, hb⟩, hc⟩
    · rintro ⟨_, c, rfl, ⟨a, b, rfl, ha, hb⟩, hc⟩
      exact ⟨a, b ++ c, List.append_assoc a b c, ha, ih.2 ⟨b, c, rfl, hb, hc⟩⟩

/-! ## 2. Continuations -/

section

variable {p : Char → Bool} {k : Text → Option Hit} {s a b : Text} {h : Hit}

theorem afterRun_eq_some (hs : afterRun p k s = some h) :
    ∃ a b, s = a ++ b ∧ (∀ c ∈ a, p c = true) ∧ k b = some h := by
  induction s with
  | nil => exact ⟨[], [], rfl, nofun, hs⟩
  | cons c s ih =>
    rw [afterRun] at hs
    split at hs
    · rename_i hc
      -- longer runs come first
      rcases (Option.orElse_eq_some _ _ _).1 hs with hs | ⟨-, hs⟩
      · obtain ⟨a, b, rfl, ha, hb⟩ := ih hs
        exact ⟨c :: a, b, rfl, List.forall_mem_cons.2 ⟨hc, ha⟩, hb⟩
      · exact ⟨[], c :: s, rfl, nofun, hs⟩
    · exact ⟨[], c :: s, rfl, nofun, hs⟩

theorem isSome_afterRun (ha : ∀ c ∈ a, p c = true) (hb : (k b).isSome = true) :
    (afterRun p k (a ++ b)).isSome = true := by
  induction a with
  | nil =>
    cases b with
    | nil => exact hb
    | cons c b =>
      rw [List.nil_append, afterRun]
      split
      · cases hrun : afterRun p k b with
        | none => exact hb
        | some hit => rfl
      · exact hb
  | cons c a ih =>
    obtain ⟨hc, ha⟩ := List.forall_mem_cons.1 ha
    obtain ⟨hit, hrun⟩ := Option.isSome_iff_exists.1 (ih ha)
    rw [List.cons_append, afterRun, if_pos hc, hrun]
    rfl

theorem afterRun_all (ha : ∀ c ∈ a, p c = true) (hk : k [] = some h) : afterRun p k a = some h := by
  induction a with
  | nil => exact hk
  | cons c a ih =>
    obtain ⟨hc, ha⟩ := List.forall_mem_cons.1 ha
    rw [afterRun, if_pos hc, ih ha]
    rfl

theorem afterRunOne_eq_some (hs : afterRunOne p k s = some h) :
    ∃ a b, s = a ++ b ∧ a ≠ [] ∧ (∀ c ∈ a, p c = true) ∧ k b = some h := by
  cases s with
  | nil => cases hs
  | cons c s =>
    rw [afterRunOne] at hs
    split at hs
    · rename_i hc
      obtain ⟨a, b, rfl, ha, hb⟩ := afterRun_eq_some hs
      exact ⟨c :: a, b, rfl, List.cons_ne_nil c a, List.forall_mem_cons.2 ⟨hc, ha⟩, hb⟩
    · cases hs

theorem isSome_afterRunOne (hne : a ≠ []) (ha : ∀ c ∈ a, p c = true) (hb : (k b).isSome = true) :
    (afterRunOne p k (a ++ b)).isSome = true := by
  obtain ⟨c, a, rfl⟩ := List.exists_cons_of_ne_nil hne
  obtain ⟨hc, ha⟩ := List.forall_mem_cons.1 ha
  rw [List.cons_append, afterRunOne, if_pos hc]
  exact isSome_afterRun ha hb

theorem afterChar_eq_some : afterChar p k s = some h ↔ ∃ c t, s = c :: t ∧ p c = true ∧ k t = some h := by
  cases s with
  | nil => exact ⟨nofun, nofun⟩
  | cons c t =>
    rw [afterChar]
    constructor
    · intro hs
      split at hs
      · rename_i hc
        exact ⟨c, t, rfl, hc, hs⟩
      · cases hs
    · rintro ⟨_, _, heq, hc, ht⟩
      cases heq
      rwa [if_pos hc]

theorem isSome_afterChar {c : Char} (hc : p c = true) (hb : (k b).isSome = true) :
    (afterChar p k (c :: b)).isSome = true := by
  rw [afterChar, if_pos hc]
  exact hb

/-- What a part of a pattern does before a continuation. -/
def Element.after (k : Text → Option Hit) : Element → Text → Option Hit
  | .literal c, s => afterChar (· = c) k s
  | .oneOf negated ranges, s => afterChar (fun c => inRanges ranges c != negated) k s
  | .nameChar, s => afterChar (· ≠ '/') k s
  | .nameChars, s => afterRun (· ≠ '/') k s
  | .name, s => afterRunOne (· ≠ '/') k s
  | .anything, s => afterRunOne (· ≠ '\n') k s
  | .leadingDirs, s => (afterRunOne (· ≠ '\n') (afterChar (· = '/') k) s).orElse fun _ => k s
  | .innerDirs, s => (afterChar (· = '/') (afterRunOne (· ≠ '\n') k) s).orElse fun _ => k s

theorem firstHit_cons (ending : Ending) (e : Element) (es : List Element) (s : Text) :
    firstHit ending (e :: es) s = e.after (firstHit ending es) s := by
  cases e <;> rfl

theorem not_mem_of_forall {c : Char} (ha : ∀ d ∈ a, decide (d ≠ c) = true) : c ∉ a :=
  fun hc => of_decide_eq_true (ha c hc) rfl

theorem forall_of_not_mem {c : Char} (ha : c ∉ a) : ∀ d ∈ a, decide (d ≠ c) = true :=
  fun _ hd => decide_eq_true fun heq => ha (heq ▸ hd)

theorem Element.exists_takes_of_after {e : Element} (hs : e.after k s = some h) :
    ∃ a b, s = a ++ b ∧ e.Takes a ∧ k b = some h := by
  cases e with
  | literal c =>
    obtain ⟨d, t, rfl, hd, ht⟩ := afterChar_eq_some.1 hs
    exact ⟨[d], t, rfl, by rw [of_decide_eq_true hd]; rfl, ht⟩
  | oneOf negated ranges =>
    obtain ⟨d, t, rfl, hd, ht⟩ := afterChar_eq_some.1 hs
    exact ⟨[d], t, rfl, ⟨d, rfl, hd⟩, ht⟩
  | nameChar =>
    obtain ⟨d, t, rfl, hd, ht⟩ := afterChar_eq_some.1 hs
    exact ⟨[d], t, rfl, ⟨d, rfl, of_decide_eq_true hd⟩, ht⟩
  | nameChars =>
    obtain ⟨a, b, rfl, ha, hb⟩ := afterRun_eq_some hs
    exact ⟨a, b, rfl, not_mem_of_forall ha, hb⟩
  | name =>
    obtain ⟨a, b, rfl, hne, ha, hb⟩ := afterRunOne_eq_some hs
    exact ⟨a, b, rfl, ⟨hne, not_mem_of_forall ha⟩, hb⟩
  | anything =>
    obtain ⟨a, b, rfl, hne, ha, hb⟩ := afterRunOne_eq_some hs
    exact ⟨a, b, rfl, ⟨hne, not_mem_of_forall ha⟩, hb⟩
  | leadingDirs =>
    rcases (Option.orElse_eq_some _ _ _).1 hs with hs | ⟨-, hs⟩
    -- directories are a run and the slash behind it, or nothing
    · obtain ⟨a, b, rfl, hne, ha, hb⟩ := afterRunOne_eq_some hs
      obtain ⟨d, t, rfl, hd, ht⟩ := afterChar_eq_some.1 hb
      obtain rfl := of_decide_eq_true hd
      exact ⟨a ++ ['/'], t, by simp, .inr ⟨a, rfl, hne, not_mem_of_forall ha⟩, ht⟩
    · exact ⟨[], s, rfl, .inl rfl, hs⟩
  | innerDirs =>
    rcases (Option.orElse_eq_some _ _ _).1 hs with hs | ⟨-, hs⟩
    · obtain ⟨d, t, rfl, hd, ht⟩ := afterChar_eq_some.1 hs
      obtain ⟨a, b, rfl, hne, ha, hb⟩ := afterRunOne_eq_some ht
      obtain rfl := of_decide_eq_true hd
      exact ⟨'/' :: a, b, rfl, .inr ⟨a, rfl, hne, not_mem_of_forall ha⟩, hb⟩
    · exact ⟨[], s, rfl, .inl rfl, hs⟩

theorem Element.isSome_after {e : Element} (ha : e.Takes a) (hb : (k b).isSome = true) :
    (e.after k (a ++ b)).isSome = true := by
  -- directories that may be left out are left out where nothing is taken for them
  have horElse : ∀ x : Option Hit, (x.orElse fun _ => k b).isSome = true := by
    intro x
    cases x with
    | none => exact hb
    | some hit => rfl
  cases e with
  | literal c =>
    obtain rfl := ha
    rw [after, List.singleton_append]
    exact isSome_afterChar (decide_eq_true rfl) hb
  | oneOf negated ranges =>
    obtain ⟨c, rfl, hc⟩ := ha
    rw [after, List.singleton_append]
    exact isSome_afterChar hc hb
  | nameChar =>
    obtain ⟨c, rfl, hc⟩ := ha
    rw [after, List.singleton_append]
    exact isSome_afterChar (decide_eq_true hc) hb
  | nameChars => exact isSome_afterRun (forall_of_not_mem ha) hb
  | name => exact isSome_afterRunOne ha.1 (forall_of_not_mem ha.2) hb
  | anything => exact isSome_afterRunOne ha.1 (forall_of_not_mem ha.2) hb
  | leadingDirs =>
    rcases ha with rfl | ⟨d, rfl, hne, hd⟩
    · exact horElse _
    · have hslash : (afterChar (· = '/') k ('/' :: b)).isSome = true := isSome_afterChar (decide_eq_true rfl) hb
      have hrun := isSome_afterRunOne hne (forall_of_not_mem hd) hslash
      obtain ⟨hit, hhit⟩ := Option.isSome_iff_exists.1 hrun
      rw [after, List.append_assoc, List.singleton_append, hhit]
      rfl
  | innerDirs =>
    rcases ha with rfl | ⟨d, rfl, hne, hd⟩
    · exact horElse _
    · have hrun := isSome_afterRunOne hne (forall_of_not_mem hd) hb
      obtain ⟨hit, hhit⟩ := Option.isSome_iff_exists.1 hrun
      rw [after, List.cons_append, afterChar, if_pos (decide_eq_true rfl), hhit]
      rfl

end

/-! ## 3. Matches -/

variable {ending : Ending} {es : List Element} {s : Text}

theorem exists_takes_of_firstHit_append {es' : List Element} {h : Hit}
    (hs : firstHit ending (es ++ es') s = some h) :
    ∃ a b, s = a ++ b ∧ Takes es a ∧ firstHit ending es' b = some h := by
  induction es generalizing s with
  | nil => exact ⟨[], s, rfl, rfl, hs⟩
  | cons e es ih =>
    rw [List.cons_append, firstHit_cons] at hs
    obtain ⟨a, b, rfl, ha, hb⟩ := Element.exists_takes_of_after hs
    obtain ⟨b, c, rfl, hb, hc⟩ := ih hb
    exact ⟨a ++ b, c, (List.append_assoc a b c).symm, ⟨a, b, rfl, ha, hb⟩, hc⟩

theorem isSome_firstHit_append {es' : List Element} {a b : Text} (ha : Takes es a)
    (hb : (firstHit ending es' b).isSome = true) : (firstHit ending (es ++ es') (a ++ b)).isSome = true := by
  induction es generalizing a with
  | nil =>
    obtain rfl := ha
    exact hb
  | cons e es ih =>
    obtain ⟨a, c, rfl, ha, hc⟩ := ha
    rw [List.cons_append, firstHit_cons, List.append_assoc]
    exact Element.isSome_after ha (ih hc)

theorem exists_takes_of_firstHit {h : Hit} (hs : firstHit ending es s = some h) :
    ∃ a b, s = a ++ b ∧ Takes es a ∧ ending.hit? b = some h := by
  rw [← List.append_nil es] at hs
  exact exists_takes_of_firstHit_append hs

/-- There is a match exactly if the parts take a beginning of the path and the ending agrees with the rest. -/
theorem isSome_firstHit :
    (firstHit ending es s).isSome = true ↔ ∃ a b, s = a ++ b ∧ Takes es a ∧ (ending.hit? b).isSome = true := by
  constructor
  · intro h
    obtain ⟨hit, hhit⟩ := Option.isSome_iff_exists.1 h
    obtain ⟨a, b, hs, ha, hb⟩ := exists_takes_of_firstHit hhit
    exact ⟨a, b, hs, ha, by rw [hb]; rfl⟩
  · rintro ⟨a, b, rfl, ha, hb⟩
    rw [← List.append_nil es]
    exact isSome_firstHit_append ha hb

/-! ## 4. Paths that are matched themselves -/

theorem isBelow_cons {s : Text} (hs : '\n' ∉ s) : isBelow ('/' :: s) = true := by
  have hnil : s.dropWhile (· ≠ '\n') = [] := List.dropWhile_eq_nil_iff.2 (forall_of_not_mem hs)
  show Text.isAtEnd (s.dropWhile (· ≠ '\n')) = true
  rw [hnil]
  rfl

theorem Ending.hit?_eq_direct :
    ending.hit? s = some .direct ↔ ending = .entry ∧ isBelow s = false ∧ s.isAtEnd = true := by
  cases ending <;> cases hbelow : isBelow s <;> cases hend : s.isAtEnd <;> simp [Ending.hit?, hbelow, hend]

theorem IgnorePattern.selects_content (negated : Bool) (es : List Element) (s : Text) :
    (IgnorePattern.mk negated es .content).selects s = false := by
  unfold selects hit?
  rw [beq_eq_false_iff_ne]
  intro hhit
  obtain ⟨-, b, -, -, hb⟩ := exists_takes_of_firstHit hhit
  cases (Ending.hit?_eq_direct.1 hb).1

theorem IgnorePattern.selects_name {negated : Bool} :
    (IgnorePattern.mk negated [.name] .entry).selects s = true ↔ s ≠ [] ∧ '/' ∉ s := by
  unfold selects hit?
  rw [beq_iff_eq]
  constructor
  · intro hhit
    obtain ⟨a, b, rfl, ha, hb⟩ := exists_takes_of_firstHit hhit
    obtain ⟨hne, hslash⟩ := takes_singleton.1 ha
    have hend := (Ending.hit?_eq_direct.1 hb).2.2
    unfold Text.isAtEnd at hend
    rw [Bool.or_eq_true, decide_eq_true_eq, decide_eq_true_eq] at hend
    refine ⟨List.append_ne_nil_of_left_ne_nil hne b, ?_⟩
    rcases hend with rfl | rfl
    · rwa [List.append_nil]
    · simp [hslash]
  · rintro ⟨hne, hslash⟩
    obtain ⟨c, s, rfl⟩ := List.exists_cons_of_ne_nil hne
    obtain ⟨hc, hs⟩ := List.forall_mem_cons.1 (forall_of_not_mem hslash)
    -- the longest run is the whole text, and it comes first
    show afterRunOne (· ≠ '/') Ending.entry.hit? (c :: s) = some .direct
    rw [afterRunOne, if_pos hc]
    exact afterRun_all hs rfl

end AssetEmbed.Glob
