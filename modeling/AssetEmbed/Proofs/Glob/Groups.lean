import AssetEmbed.Proofs.Glob.Braces
import AssetEmbed.Proofs.Sequencing
import AssetEmbed.Proofs.Sorting

/-!
# Groups — what patterns with groups stand for

A pattern with groups spells texts, one of some alternatives, or at most one of them, one after the other.  A
group is rewritten to braces, and it is read as braces from then on: the two agree unless a comma stands in a
group, or a group that asks for one alternative has only one.
-/

namespace AssetEmbed.Glob

/-! ## 1. Patterns -/

/-- A pattern with groups. -/
inductive GroupPattern where
  | literal (s : Text)
  | append (left right : GroupPattern)
  | group (optional : Bool) (first : GroupPattern) (others : List GroupPattern)

def groupSign (optional : Bool) : Char := if optional then '?' else '@'

mutual

def GroupPattern.text : GroupPattern → Text
  | .literal s => s
  | .append left right => left.text ++ right.text
  | .group optional first others =>
    groupSign optional :: '(' :: Text.joinWith '|' (first.text :: GroupPattern.texts others) ++ [')']

def GroupPattern.texts : List GroupPattern → List Text
  | [] => []
  | p :: ps => p.text :: GroupPattern.texts ps

end

/-- Whether a pattern denotes a text: a literal denotes itself, two patterns one after the other denote what they
denote one after the other, a group denotes what its alternatives denote, and an optional one also nothing. -/
inductive GroupPattern.Denotes : GroupPattern → Text → Prop
  | literal (s : Text) : Denotes (.literal s) s
  | append {left right : GroupPattern} {x y : Text} (hleft : left.Denotes x) (hright : right.Denotes y) :
    Denotes (.append left right) (x ++ y)
  | alternative (optional : Bool) {first : GroupPattern} {others : List GroupPattern} {p : GroupPattern}
    {x : Text} (hmem : p ∈ first :: others) (hp : p.Denotes x) : Denotes (.group optional first others) x
  | nothing (first : GroupPattern) (others : List GroupPattern) : Denotes (.group true first others) []

/-- Whether literal text holds no brace, parenthesis, bar or line break. -/
inductive GroupPattern.IsWellFormed : GroupPattern → Prop
  | literal {s : Text} (h : ∀ c ∈ s, IsFlat c ∧ c ≠ '|' ∧ c ≠ '\n') : IsWellFormed (.literal s)
  | append {left right : GroupPattern} (hleft : left.IsWellFormed) (hright : right.IsWellFormed) :
    IsWellFormed (.append left right)
  | group (optional : Bool) {first : GroupPattern} {others : List GroupPattern}
    (h : ∀ p ∈ first :: others, p.IsWellFormed) : IsWellFormed (.group optional first others)

/-- Whether the groups of a pattern mean the same when they are read as braces: no comma stands in a group, and
one that is not optional has at least two alternatives. -/
inductive GroupPattern.ReadsAsBraces : GroupPattern → Prop
  | literal (s : Text) : ReadsAsBraces (.literal s)
  | append {left right : GroupPattern} (hleft : left.ReadsAsBraces) (hright : right.ReadsAsBraces) :
    ReadsAsBraces (.append left right)
  | group (optional : Bool) {first : GroupPattern} {others : List GroupPattern}
    (hcount : optional = true ∨ others ≠ []) (hcomma : ',' ∉ (GroupPattern.group optional first others).text)
    (h : ∀ p ∈ first :: others, p.ReadsAsBraces) : ReadsAsBraces (.group optional first others)

mutual

def GroupPattern.braced : GroupPattern → Text
  | .literal s => s
  | .append left right => left.braced ++ right.braced
  | .group optional first others =>
    let pieces := first.braced :: GroupPattern.bracedAll others
    '{' :: Text.joinWith ',' (if optional then [] :: pieces else pieces) ++ ['}']

def GroupPattern.bracedAll : List GroupPattern → List Text
  | [] => []
  | p :: ps => p.braced :: GroupPattern.bracedAll ps

end

namespace GroupPattern

theorem texts_eq_map (ps : List GroupPattern) : texts ps = ps.map text := by
  induction ps with
  | nil => rfl
  | cons p ps ih => rw [texts, ih, List.map_cons]

theorem bracedAll_eq_map (ps : List GroupPattern) : bracedAll ps = ps.map braced := by
  induction ps with
  | nil => rfl
  | cons p ps ih => rw [bracedAll, ih, List.map_cons]

def pieces (optional : Bool) (first : GroupPattern) (others : List GroupPattern) : List Text :=
  (if optional then [[]] else []) ++ (first :: others).map braced

theorem text_group (optional : Bool) (first : GroupPattern) (others : List GroupPattern) :
    (group optional first others).text =
      groupSign optional :: '(' :: Text.joinWith '|' ((first :: others).map text) ++ [')'] := by
  rw [text, texts_eq_map, List.map_cons]

theorem braced_group (optional : Bool) (first : GroupPattern) (others : List GroupPattern) :
    (group optional first others).braced = '{' :: Text.joinWith ',' (pieces optional first others) ++ ['}'] := by
  rw [braced, bracedAll_eq_map, pieces]
  cases optional <;> rfl

end GroupPattern

/-! ## 2. Rewriting without a bound -/

/-- A pattern with its groups rewritten to braces, whatever signs stand before them. -/
def groups (s : Text) : Except PatternError Text := groupsUpTo s.length s

/-- A bound on the length of a pattern is no limit. -/
theorem groupsUpTo_eq {s : Text} {bound bound' : Nat} (h : s.length ≤ bound) (h' : s.length ≤ bound') :
    groupsUpTo bound s = groupsUpTo bound' s := by
  induction bound generalizing s bound' with
  | zero =>
    obtain rfl := List.length_eq_zero_iff.1 (Nat.le_zero.1 h)
    cases bound' <;> rfl
  | succ bound ih =>
    cases bound' with
    | zero =>
      obtain rfl := List.length_eq_zero_iff.1 (Nat.le_zero.1 h')
      rfl
    | succ bound' =>
      cases s with
      | nil => rfl
      | cons c s =>
        rw [List.length_cons] at h h'
        rw [groupsUpTo, groupsUpTo]
        split
        · cases hsplit : splitClosing '(' ')' 0 s.tail with
          | none => rfl
          | some parts =>
            obtain ⟨inside, after⟩ := parts
            -- what stands in a group, and what follows it, are both shorter by the two parentheses
            have hlength := congrArg List.length (splitClosing_eq_some hsplit)
            rw [List.length_tail, List.length_append, List.length_cons] at hlength
            have hinside : groupsUpTo bound inside = groupsUpTo bound' inside := ih (by omega) (by omega)
            have hafter : groupsUpTo bound after = groupsUpTo bound' after := ih (by omega) (by omega)
            dsimp only
            rw [hinside, hafter]
        · have hrest : groupsUpTo bound s = groupsUpTo bound' s := ih (by omega) (by omega)
          rw [hrest]

theorem groups_nil : groups [] = .ok [] := rfl

theorem groups_cons {c : Char} {s s' : Text} (hc : c = '@' ∨ c = '?' → s.head? ≠ some '(')
    (h : groups s = .ok s') : groups (c :: s) = .ok (c :: s') := by
  unfold groups at h ⊢
  rw [List.length_cons, groupsUpTo, if_neg (by simpa using hc), h]
  rfl

theorem groups_group (optional : Bool) {inside inside' after after' : Text}
    (hbalanced : Balanced '(' ')' inside) (hinside : groups inside = .ok inside')
    (hafter : groups after = .ok after') :
    groups (groupSign optional :: '(' :: inside ++ [')'] ++ after) =
      .ok ('{' :: Text.joinWith ',' ((if optional then [[]] else []) ++ splitTopLevel '|' 0 inside') ++
        ['}'] ++ after') := by
  have hassoc : groupSign optional :: '(' :: inside ++ [')'] ++ after =
      groupSign optional :: '(' :: (inside ++ ')' :: after) := by simp
  have hlength : ('(' :: (inside ++ ')' :: after)).length = inside.length + after.length + 2 := by
    simp only [List.length_cons, List.length_append]
    omega
  have hsign : (groupSign optional = '@' || groupSign optional = '?') = true := by cases optional <;> rfl
  unfold groups at hinside hafter
  rw [hassoc, groups, List.length_cons, hlength, groupsUpTo, hsign, if_pos (by simp), List.tail_cons,
    hbalanced.splitClosing_eq]
  dsimp only
  rw [groupsUpTo_eq (s := inside) (by omega) le_rfl, groupsUpTo_eq (s := after) (by omega) le_rfl, hinside,
    hafter]
  -- only an optional group has an empty piece before the others
  cases optional <;> simp [groupSign, bind, Except.bind, pure, Except.pure]

theorem groups_literal_append {s t t' : Text} (hs : '(' ∉ s) (ht : t.head? ≠ some '(')
    (h : groups t = .ok t') : groups (s ++ t) = .ok (s ++ t') := by
  induction s with
  | nil => exact h
  | cons c s ih =>
    rw [List.mem_cons, not_or] at hs
    refine groups_cons (fun _ => ?_) (ih hs.2)
    cases s with
    | nil => exact ht
    | cons d s =>
      intro hhead
      exact hs.2 (Option.some.inj hhead ▸ List.mem_cons_self)

/-! ## 3. Rewriting a pattern -/

namespace GroupPattern

variable {p : GroupPattern}

theorem IsWellFormed.head?_text_append (h : p.IsWellFormed) {t : Text} (ht : t.head? ≠ some '(') :
    (p.text ++ t).head? ≠ some '(' := by
  induction h generalizing t with
  | @literal s hs =>
    cases s with
    | nil => exact ht
    | cons c s => exact fun hhead => (hs c List.mem_cons_self).1.2.1 (Option.some.inj hhead)
  | append _ _ ihleft ihright =>
    rw [text, List.append_assoc]
    exact ihleft (ihright ht)
  | group optional =>
    rw [text_group]
    cases optional <;> exact fun hhead => absurd (Option.some.inj hhead) (by decide)

theorem IsWellFormed.balanced_text (h : p.IsWellFormed) : Balanced '(' ')' p.text := by
  induction h with
  | literal hs => exact balanced_of_not_mem (fun h => (hs _ h).1.2.1 rfl) fun h => (hs _ h).1.2.2.2 rfl
  | append _ _ ihleft ihright => exact ihleft.append ihright
  | group optional _ ih =>
    rw [text_group]
    refine (balanced_char ?_ ?_).append (Balanced.enclosed (by decide) ?_)
    · cases optional <;> decide
    · cases optional <;> decide
    · refine balanced_joinWith (by decide) (by decide) fun piece hpiece => ?_
      obtain ⟨q, hq, rfl⟩ := List.mem_map.1 hpiece
      exact ih q hq

/-- What holds of nothing, and of each alternative in braces, holds of each piece between the braces. -/
theorem forall_mem_pieces {P : Text → Prop} {optional : Bool} {first : GroupPattern}
    {others : List GroupPattern} (hnothing : P []) (h : ∀ q ∈ first :: others, P q.braced) :
    ∀ piece ∈ pieces optional first others, P piece := by
  intro piece hpiece
  rcases List.mem_append.1 hpiece with hpiece | hpiece
  · cases optional with
    | true => rwa [List.mem_singleton.1 hpiece]
    | false => exact absurd hpiece List.not_mem_nil
  · obtain ⟨q, hq, rfl⟩ := List.mem_map.1 hpiece
    exact h q hq

theorem IsWellFormed.whole_braced (h : p.IsWellFormed) {depth : Int} (hdepth : 0 ≤ depth) :
    Whole '|' depth p.braced := by
  induction h generalizing depth with
  | literal hs => exact whole_of_forall (fun c hc => (hs c hc).1) fun h => absurd rfl (hs _ h).2.1
  | append _ _ ihleft ihright => exact (ihleft hdepth).append (ihright hdepth)
  | group optional _ ih =>
    rw [braced_group]
    refine Whole.inBraces (by decide) (whole_joinWith (by decide) (fun heq => absurd heq (by decide)) ?_)
    exact forall_mem_pieces (whole_nil _ _) fun q hq => ih q hq (by omega)

theorem groups_joinWith {ps : List GroupPattern}
    (h : ∀ p ∈ ps, ∀ t t', t.head? ≠ some '(' → groups t = .ok t' → groups (p.text ++ t) = .ok (p.braced ++ t')) :
    groups (Text.joinWith '|' (ps.map text)) = .ok (Text.joinWith '|' (ps.map braced)) := by
  induction ps with
  | nil => rfl
  | cons p ps ih =>
    have hp := h p List.mem_cons_self
    cases ps with
    | nil =>
      have hend := hp [] [] nofun rfl
      rwa [List.append_nil, List.append_nil] at hend
    | cons q ps =>
      refine hp _ _ (fun hhead => absurd (Option.some.inj hhead) (by decide)) ?_
      exact groups_cons (fun hsign => absurd hsign (by decide)) (ih fun p hp => h p (List.mem_cons_of_mem _ hp))

theorem IsWellFormed.groups_append (h : p.IsWellFormed) {t t' : Text} (ht : t.head? ≠ some '(')
    (hgroups : groups t = .ok t') : groups (p.text ++ t) = .ok (p.braced ++ t') := by
  induction h generalizing t t' with
  | literal hs => exact groups_literal_append (fun h => (hs _ h).1.2.1 rfl) ht hgroups
  | append _ hright ihleft ihright =>
    rw [text, braced, List.append_assoc, List.append_assoc]
    exact ihleft (hright.head?_text_append ht) (ihright ht hgroups)
  | @group optional first others hall ih =>
    have hinside : groups (Text.joinWith '|' ((first :: others).map text)) =
        .ok (Text.joinWith '|' ((first :: others).map braced)) :=
      groups_joinWith fun q hq t t' ht h => ih q hq ht h
    have hbalanced : Balanced '(' ')' (Text.joinWith '|' ((first :: others).map text)) := by
      refine balanced_joinWith (by decide) (by decide) fun piece hpiece => ?_
      obtain ⟨q, hq, rfl⟩ := List.mem_map.1 hpiece
      exact (hall q hq).balanced_text
    -- the bars inside the alternatives have become commas, so only those between them cut
    have hsplit : splitTopLevel '|' 0 (Text.joinWith '|' ((first :: others).map braced)) =
        (first :: others).map braced := by
      refine splitTopLevel_joinWith (by decide) (List.cons_ne_nil _ _) fun piece hpiece => ?_
      obtain ⟨q, hq, rfl⟩ := List.mem_map.1 hpiece
      exact (hall q hq).whole_braced le_rfl
    rw [text_group, groups_group optional hbalanced hinside hgroups, hsplit, braced_group, pieces]

/-! ## 4. Signs that are not supported -/

theorem unsupportedGroup?_cons {c : Char} {s : Text} (hc : s.head? = some '(' → c ≠ '+' ∧ c ≠ '*' ∧ c ≠ '!') :
    unsupportedGroup? (c :: s) = unsupportedGroup? s := by
  rw [unsupportedGroup?, if_neg]
  rw [Bool.and_eq_true, beq_iff_eq]
  rintro ⟨hsign, hhead⟩
  obtain ⟨h₁, h₂, h₃⟩ := hc hhead
  simp [h₁, h₂, h₃] at hsign

theorem unsupportedGroup?_literal_append {s t : Text} (hs : '(' ∉ s) (ht : t.head? ≠ some '(') :
    unsupportedGroup? (s ++ t) = unsupportedGroup? t := by
  induction s with
  | nil => rfl
  | cons c s ih =>
    rw [List.mem_cons, not_or] at hs
    rw [List.cons_append, unsupportedGroup?_cons fun hhead => ?_, ih hs.2]
    cases s with
    | nil => exact absurd hhead ht
    | cons d s => exact absurd (Option.some.inj hhead ▸ List.mem_cons_self) hs.2

/-- The parenthesis of a group stands behind the sign of the group only. -/
theorem IsWellFormed.unsupportedGroup?_append (h : p.IsWellFormed) {t : Text} (ht : t.head? ≠ some '(') :
    unsupportedGroup? (p.text ++ t) = unsupportedGroup? t := by
  induction h generalizing t with
  | literal hs => exact unsupportedGroup?_literal_append (fun h => (hs _ h).1.2.1 rfl) ht
  | append _ hright ihleft ihright =>
    rw [text, List.append_assoc, ihleft (hright.head?_text_append ht), ihright ht]
  | @group optional first others hall ih =>
    have hinside : ∀ ps : List GroupPattern, (∀ q ∈ ps, q ∈ first :: others) →
        unsupportedGroup? (Text.joinWith '|' (ps.map text) ++ ')' :: t) = unsupportedGroup? t := by
      intro ps hps
      -- along the alternatives: a bar and the closing parenthesis are no signs
      have hclose : unsupportedGroup? (')' :: t) = unsupportedGroup? t :=
        unsupportedGroup?_cons fun hhead => absurd hhead ht
      have hsign : ∀ {c : Char} (t : Text), c ≠ '(' → (c :: t).head? ≠ some '(' :=
        fun t hc hhead => hc (Option.some.inj hhead)
      induction ps with
      | nil => exact hclose
      | cons q ps ihps =>
        have hq := fun t ht => ih q (hps q List.mem_cons_self) (t := t) ht
        cases ps with
        | nil => exact (hq _ (hsign t (by decide))).trans hclose
        | cons r ps =>
          rw [List.map_cons, List.map_cons, Text.joinWith_cons_cons, List.append_assoc, List.cons_append,
            hq _ (hsign _ (by decide)), unsupportedGroup?_cons fun _ => by decide]
          exact ihps fun q hq => hps q (List.mem_cons_of_mem _ hq)
    have hassoc : (GroupPattern.group optional first others).text ++ t =
        groupSign optional :: '(' :: (Text.joinWith '|' ((first :: others).map text) ++ ')' :: t) := by
      rw [text_group]
      simp
    rw [hassoc, unsupportedGroup?_cons fun _ => by cases optional <;> decide,
      unsupportedGroup?_cons fun _ => by decide, hinside _ fun q hq => hq]

theorem IsWellFormed.groupsToBraces_text (h : p.IsWellFormed) : groupsToBraces p.text = .ok p.braced := by
  have hsigns := h.unsupportedGroup?_append (t := []) nofun
  have hgroups := h.groups_append (t := []) nofun groups_nil
  rw [List.append_nil] at hsigns hgroups
  rw [List.append_nil] at hgroups
  unfold groupsToBraces
  rw [hsigns]
  exact hgroups

/-! ## 5. Groups as braces -/

theorem comma_not_mem_text {optional : Bool} {first : GroupPattern} {others : List GroupPattern}
    (h : ',' ∉ (group optional first others).text) : ∀ q ∈ first :: others, ',' ∉ q.text := by
  intro q hq hcomma
  rw [text_group] at h
  have hinside : ',' ∈ Text.joinWith '|' ((first :: others).map text) :=
    Text.mem_joinWith (List.mem_map_of_mem hq) hcomma
  exact h (List.mem_append_left _ (List.mem_cons_of_mem _ (List.mem_cons_of_mem _ hinside)))

/-- A pattern without commas can stand within braces, whatever commas its own braces hold. -/
theorem IsWellFormed.isPart_braced (h : p.IsWellFormed) (hcomma : ',' ∉ p.text) : IsPart p.braced := by
  induction h with
  | @literal s hs =>
    refine isPart_of_isOrdinary fun c hc => ⟨(hs c hc).1, ?_, (hs c hc).2.2⟩
    rintro rfl
    exact hcomma hc
  | append _ _ ihleft ihright =>
    rw [text, List.mem_append, not_or] at hcomma
    exact (ihleft hcomma.1).append (ihright hcomma.2)
  | group optional _ ih =>
    rw [braced_group]
    refine isPart_list (forall_mem_pieces (isPart_of_isOrdinary nofun) fun q hq => ?_)
    exact ih q hq (comma_not_mem_text hcomma q hq)

theorem exists_pieces_eq {optional : Bool} (first : GroupPattern) {others : List GroupPattern}
    (hcount : optional = true ∨ others ≠ []) :
    ∃ a b rest, pieces optional first others = a :: b :: rest := by
  cases optional with
  | true => exact ⟨_, _, _, rfl⟩
  | false =>
    cases others with
    | nil => exact absurd rfl (hcount.resolve_left Bool.false_ne_true)
    | cons q others => exact ⟨_, _, _, rfl⟩

theorem denotes_group_iff {optional : Bool} {first : GroupPattern} {others : List GroupPattern} {s : Text} :
    (group optional first others).Denotes s ↔
      optional = true ∧ s = [] ∨ ∃ q ∈ first :: others, q.Denotes s := by
  constructor
  · rintro (_ | _ | ⟨_, hmem, hq⟩ | _)
    · exact .inr ⟨_, hmem, hq⟩
    · exact .inl ⟨rfl, rfl⟩
  · rintro (⟨rfl, rfl⟩ | ⟨q, hmem, hq⟩)
    · exact .nothing first others
    · exact .alternative optional hmem hq

/-- A pattern whose groups mean the same as braces is expanded to what it denotes, before whatever follows it. -/
theorem mem_expandBraces_append (h : p.IsWellFormed) (hreads : p.ReadsAsBraces) (t s : Text) :
    s ∈ expandBraces (p.braced ++ t) ↔ ∃ x, p.Denotes x ∧ ∃ y ∈ expandBraces t, x ++ y = s := by
  induction h generalizing t s with
  | @literal w hw =>
    rw [braced, expandBraces_literal_append (fun h => (hw _ h).1.1 rfl), mem_products]
    constructor
    · rintro ⟨x, hx, hrest⟩
      rw [List.mem_singleton.1 hx] at hrest
      exact ⟨w, .literal w, hrest⟩
    · rintro ⟨x, hx, hrest⟩
      cases hx
      exact ⟨w, List.mem_singleton_self w, hrest⟩
  | append _ _ ihleft ihright =>
    obtain _ | ⟨hleft, hright⟩ := hreads
    rw [braced, List.append_assoc, ihleft hleft]
    constructor
    · rintro ⟨x, hx, z, hz, rfl⟩
      obtain ⟨x', hx', y, hy, rfl⟩ := (ihright hright t z).1 hz
      exact ⟨x ++ x', .append hx hx', y, hy, List.append_assoc x x' y⟩
    · rintro ⟨x, hx, y, hy, rfl⟩
      obtain _ | ⟨hx, hx'⟩ := hx
      exact ⟨_, hx, _, (ihright hright t _).2 ⟨_, hx', y, hy, rfl⟩, (List.append_assoc _ _ y).symm⟩
  | @group optional first others hall ih =>
    obtain _ | _ | ⟨_, hcount, hcomma, hreads⟩ := hreads
    -- the pair is a list, not a range or a pair that stands for itself
    obtain ⟨a, b, rest, hpieces⟩ := exists_pieces_eq first hcount
    have hpart : ∀ piece ∈ pieces optional first others, IsPart piece :=
      forall_mem_pieces (isPart_of_isOrdinary nofun) fun q hq =>
        (hall q hq).isPart_braced (comma_not_mem_text hcomma q hq)
    have hbody : ∀ x, x ∈ (pieces optional first others).flatMap expandBraces ↔
        (group optional first others).Denotes x := by
      intro x
      rw [denotes_group_iff, pieces, List.flatMap_append, List.mem_append, List.flatMap_map]
      refine or_congr ?_ (List.mem_flatMap.trans (exists_congr fun q => and_congr_right fun hq => ?_))
      · cases optional <;> simp [expandBraces_of_not_mem]
      · -- what stands for itself stands before nothing
        have hq := ih q hq (hreads q hq) [] x
        rw [List.append_nil, expandBraces_of_not_mem List.not_mem_nil] at hq
        simpa using hq
    rw [braced_group, expandBraces_pair_append
      (balanced_joinWith (by decide) (by decide) fun piece hpiece => (hpart piece hpiece).balanced), mem_products]
    rw [hpieces] at hpart hbody ⊢
    rw [expandBody_list hpart]
    constructor
    · rintro ⟨x, hx, hrest⟩
      exact ⟨x, (hbody x).1 hx, hrest⟩
    · rintro ⟨x, hx, hrest⟩
      exact ⟨x, (hbody x).2 hx, hrest⟩

end GroupPattern

/-- The plain patterns that a pattern stands for are the texts that it denotes, each once, if its groups mean the
same when they are read as braces. -/
theorem alternatives_text {p : GroupPattern} (h : p.IsWellFormed) (hreads : p.ReadsAsBraces) :
    ∃ texts, alternatives p.text = .ok texts ∧ texts.Nodup ∧ ∀ s, s ∈ texts ↔ p.Denotes s := by
  refine ⟨(expandBraces p.braced).eraseDups, ?_, Text.nodup_eraseDups _, fun s => ?_⟩
  · rw [alternatives, h.groupsToBraces_text]
    rfl
  · have hmem := GroupPattern.mem_expandBraces_append h hreads [] s
    rw [List.append_nil, expandBraces_of_not_mem List.not_mem_nil] at hmem
    simpa using hmem

/-- A group in a group, an optional one with one alternative, and commas and dots outside of groups. -/
def nestedGroups : GroupPattern :=
  .append (.literal "a,1..".toList)
    (.append
      (.group false (.literal ['b'])
        [.group true (.literal "1..3".toList) [], .append (.literal []) (.literal ['b'])])
      (.literal ['+']))

theorem nestedGroups_isWellFormed : nestedGroups.IsWellFormed := by
  have hliteral : ∀ s : Text, (s.all fun c => decide (IsFlat c ∧ c ≠ '|' ∧ c ≠ '\n')) = true →
      (GroupPattern.literal s).IsWellFormed :=
    fun s hs => .literal fun c hc => of_decide_eq_true (List.all_eq_true.1 hs c hc)
  refine .append (hliteral _ (by decide)) (.append (.group _ ?_) (hliteral _ (by decide)))
  simp only [List.forall_mem_cons]
  refine ⟨hliteral _ (by decide), .group _ ?_, .append (hliteral _ (by decide)) (hliteral _ (by decide)), nofun⟩
  exact List.forall_mem_singleton.2 (hliteral _ (by decide))

theorem nestedGroups_readsAsBraces : nestedGroups.ReadsAsBraces := by
  refine .append (.literal _) (.append (.group _ (.inr (List.cons_ne_nil _ _)) (by decide) ?_) (.literal _))
  simp only [List.forall_mem_cons]
  refine ⟨.literal _, .group _ (.inl rfl) (by decide) ?_, .append (.literal _) (.literal _), nofun⟩
  exact List.forall_mem_singleton.2 (.literal _)

theorem alternatives_text_nestedGroups :
    nestedGroups.IsWellFormed ∧ nestedGroups.ReadsAsBraces ∧
      nestedGroups.text = "a,1..@(b|?(1..3)|b)+".toList ∧
      alternatives nestedGroups.text = .ok ["a,1..b+".toList, "a,1..+".toList, "a,1..1..3+".toList] ∧
      ∀ s, s ∈ ["a,1..b+".toList, "a,1..+".toList, "a,1..1..3+".toList] ↔ nestedGroups.Denotes s := by
  obtain ⟨texts, halternatives, -, hmem⟩ := alternatives_text nestedGroups_isWellFormed nestedGroups_readsAsBraces
  have heval : alternatives nestedGroups.text = .ok ["a,1..b+".toList, "a,1..+".toList, "a,1..1..3+".toList] := by
    decide +kernel
  obtain rfl := Except.ok.inj (halternatives.symm.trans heval)
  exact ⟨nestedGroups_isWellFormed, nestedGroups_readsAsBraces, by decide, heval, hmem⟩

def singleGroup : GroupPattern := .group false (.literal ['a']) []

/-- A group with one alternative is read as a pair of braces that stands for itself: what the group denotes is not
among the plain patterns, and what is among them it does not denote. -/
theorem alternatives_singleGroup :
    singleGroup.IsWellFormed ∧ singleGroup.text = "@(a)".toList ∧ singleGroup.Denotes ['a'] ∧
      ¬ singleGroup.Denotes "\x7ba\x7d".toList ∧ alternatives singleGroup.text = .ok ["\x7ba\x7d".toList] := by
  have hflat : IsFlat 'a' ∧ 'a' ≠ '|' ∧ 'a' ≠ '\n' := by decide
  refine ⟨.group _ ?_, by decide, .alternative _ List.mem_cons_self (.literal _), ?_, by decide +kernel⟩
  · exact List.forall_mem_singleton.2 (.literal (List.forall_mem_singleton.2 hflat))
  · intro hdenotes
    obtain ⟨hoptional, -⟩ | ⟨q, hq, hdenotes⟩ := GroupPattern.denotes_group_iff.1 hdenotes
    · exact absurd hoptional (by decide)
    · obtain rfl := List.mem_singleton.1 hq
      cases hdenotes

end AssetEmbed.Glob
