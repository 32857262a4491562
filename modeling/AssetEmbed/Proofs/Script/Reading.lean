import AssetEmbed.Proofs.Script.Nesting
import AssetEmbed.Proofs.Script.Quoted
import AssetEmbed.Script.Grammar.Statement

/-!
# Reading — steps that read a given text, whatever stands around it

A step reads a text as some trees if it does so behind everything that may have been read before, and in
front of every rest that a test accepts.  What a sequence of steps reads follows from what its steps read;
of a choice, from the first alternative that does not fail.
-/

namespace AssetEmbed.Script

namespace Step

/-- A step that reads a text as some trees in front of the rests that a test accepts. -/
def Reads (p : Step) (text : Text) (trees : List Tree) (next : Text → Prop) : Prop :=
  ∀ s rest, s.rest = text ++ rest → next rest →
    ∃ reach, p s = .ok ⟨rest, trees.reverse ++ s.trees, s.offset + text.length, reach⟩

/-- A step that fails in front of the rests that a test accepts. -/
def Fails (p : Step) (next : Text → Prop) : Prop := ∀ s, next s.rest → ∃ reach, p s = .error reach

variable {p q : Step} {a b text : Text} {ts us : List Tree} {next : Text → Prop}

/-! ## 1. Sequences and choices -/

theorem Reads.mono {next' : Text → Prop} (h : p.Reads text ts next) (hnext : ∀ rest, next' rest → next rest) :
    p.Reads text ts next' := by
  intro s rest hs hrest
  exact h s rest hs (hnext rest hrest)

theorem nothing_reads : nothing.Reads [] [] next := by
  intro s rest hs _
  rw [List.nil_append] at hs
  subst hs
  exact ⟨s.reach, rfl⟩

theorem Reads.andThen {before : Text → Prop} (hp : p.Reads a ts before) (hq : q.Reads b us next)
    (hbefore : ∀ rest, next rest → before (b ++ rest)) :
    (p >> q).Reads (a ++ b) (ts ++ us) next := by
  intro s rest hs hrest
  rw [List.append_assoc] at hs
  obtain ⟨reach, hfirst⟩ := hp s (b ++ rest) hs (hbefore rest hrest)
  obtain ⟨reach', hsecond⟩ :=
    hq ⟨b ++ rest, ts.reverse ++ s.trees, s.offset + a.length, reach⟩ rest rfl hrest
  refine ⟨reach', ?_⟩
  show Step.andThen p (fun _ => q) s = _
  unfold Step.andThen
  rw [hfirst]
  show q _ = _
  rw [hsecond]
  simp only [List.reverse_append, List.append_assoc, List.length_append, Nat.add_assoc]

theorem Reads.thenNothing (hp : p.Reads text ts next) (hq : q.Reads [] [] next) :
    (p >> q).Reads text ts next := by
  have hread := hp.andThen hq fun _ h => h
  rwa [List.append_nil, List.append_nil] at hread

theorem andThen_assoc (p q r : Step) : (p >> q) >> r = p >> q >> r := by
  funext s
  show Step.andThen (Step.andThen p fun _ => q) (fun _ => r) s =
    Step.andThen p (fun _ => Step.andThen q fun _ => r) s
  unfold Step.andThen
  cases p s <;> rfl

/-- Whether a text stands in front of what a test accepts. -/
def Before (a : Text) (P : Text → Prop) (s : Text) : Prop := ∃ rest, P rest ∧ s = a ++ rest

theorem Reads.thenFails {before P : Text → Prop} (hp : p.Reads a ts before) (hq : q.Fails P)
    (hbefore : ∀ rest, P rest → before rest) : (p >> q).Fails (Before a P) := by
  rintro s ⟨rest, hrest, hs⟩
  obtain ⟨reach, hfirst⟩ := hp s rest hs (hbefore rest hrest)
  obtain ⟨reach', hfail⟩ := hq ⟨rest, ts.reverse ++ s.trees, s.offset + a.length, reach⟩ hrest
  refine ⟨reach', ?_⟩
  show Step.andThen p (fun _ => q) s = _
  unfold Step.andThen
  rw [hfirst]
  exact hfail

theorem Reads.orElse (hp : p.Reads text ts next) : (p <|> q).Reads text ts next := by
  intro s rest hs hrest
  obtain ⟨reach, hread⟩ := hp s rest hs hrest
  refine ⟨reach, ?_⟩
  show Step.orElse p (fun _ => q) s = _
  unfold Step.orElse
  rw [hread]

theorem Reads.orElse_of_fails {before : Text → Prop} (hp : p.Fails before) (hq : q.Reads text ts next)
    (hbefore : ∀ rest, next rest → before (text ++ rest)) : (p <|> q).Reads text ts next := by
  intro s rest hs hrest
  obtain ⟨reach, hfail⟩ := hp s (hs ▸ hbefore rest hrest)
  obtain ⟨reach', hread⟩ := hq (s.reached reach) rest hs hrest
  refine ⟨reach', ?_⟩
  show Step.orElse p (fun _ => q) s = _
  unfold Step.orElse
  rw [hfail]
  exact hread

theorem Fails.mono {next' : Text → Prop} (h : p.Fails next) (hnext : ∀ rest, next' rest → next rest) :
    p.Fails next' := fun s hs => h s (hnext _ hs)

theorem Fails.after (hp : p.Reads [] [] next) (hq : q.Fails next) : (p >> q).Fails next :=
  (hp.thenFails hq fun _ h => h).mono fun rest h => ⟨rest, h, rfl⟩

theorem fail_fails : fail.Fails next := fun _ _ => ⟨_, rfl⟩

theorem Fails.andThen (hp : p.Fails next) : (p >> q).Fails next := by
  intro s hs
  obtain ⟨reach, hfail⟩ := hp s hs
  refine ⟨reach, ?_⟩
  show Step.andThen p (fun _ => q) s = _
  unfold Step.andThen
  rw [hfail]

theorem Fails.orElse (hp : p.Fails next) (hq : q.Fails next) : (p <|> q).Fails next := by
  intro s hs
  obtain ⟨reach, hfail⟩ := hp s hs
  obtain ⟨reach', hfail'⟩ := hq (s.reached reach) hs
  refine ⟨reach', ?_⟩
  show Step.orElse p (fun _ => q) s = _
  unfold Step.orElse
  rw [hfail]
  exact hfail'

theorem Fails.optional (hp : p.Fails next) : (optional p).Reads [] [] next :=
  Reads.orElse_of_fails hp nothing_reads fun _ h => h

theorem Reads.optional (hp : p.Reads text ts next) : (Step.optional p).Reads text ts next := hp.orElse

/-! ## 2. White space -/

def opens (s : Text) : Bool :=
  s.head?.all fun c => !isSpace c && c ≠ '/' && c ≠ '<' && c ≠ '-'

theorem trivium?_of_opens {s : Text} (h : opens s) (markup : Bool) : trivium? markup s = none := by
  cases s with
  | nil => cases markup <;> rfl
  | cons c s =>
    simp only [opens, List.head?_cons, Option.all_some, Bool.and_eq_true, Bool.not_eq_true',
      decide_eq_true_eq] at h
    obtain ⟨⟨⟨hspace, hslash⟩, hless⟩, hminus⟩ := h
    have hblank : (c :: s).takeWhile isSpace = [] := by rw [List.takeWhile_cons, hspace]; rfl
    have hcomment : comment? (c :: s) = none := by
      unfold comment?
      split <;> simp_all
    have hmarkup : markupComment? (c :: s) = none := by
      unfold markupComment?
      split <;> simp_all
    unfold trivium?
    rw [hblank]
    simp [hcomment, hmarkup]

theorem skipUpTo_of_opens {s : State} (h : opens s.rest) (markup : Bool) (bound : Text) :
    s.skipUpTo markup bound = s := by
  cases bound with
  | nil => rfl
  | cons _ bound =>
    unfold State.skipUpTo
    rw [trivium?_of_opens h]

/-- What may stand between two tokens: white space and comments, no two runs of white space in a row. -/
inductive Gap : List Tree → Prop where
  | none : Gap []
  | blank {s : Text} {more : List Tree} (hne : s ≠ []) (hspace : ∀ c ∈ s, isSpace c)
      (hstop : ∀ c ∈ (Tree.textOfList more).head?, isSpace c = false) (hmore : Gap more) :
      Gap (.blank s :: more)
  | block {s : Text} {more : List Tree} (hs : blockCommentTail? s = some (s, [])) (hmore : Gap more) :
      Gap (.leaf .comment ('/' :: '*' :: s) :: more)
  /-- A line comment ends where a line break follows. -/
  | line {s : Text} {more : List Tree} (hs : ∀ c ∈ s, isCommentChar c)
      (hbreak : ∃ c ∈ (Tree.textOfList more).head?, isCommentChar c = false) (hmore : Gap more) :
      Gap (.leaf .comment ('/' :: '/' :: s) :: more)

variable {gap : List Tree}

theorem head?_append_of_opens {more : List Tree} {rest : Text} {p : Char → Prop}
    (hmore : ∀ c ∈ (Tree.textOfList more).head?, p c) (hrest : ∀ c ∈ rest.head?, p c) :
    ∀ c ∈ (Tree.textOfList more ++ rest).head?, p c := by
  cases htext : Tree.textOfList more with
  | nil => exact hrest
  | cons d ds =>
    rw [htext] at hmore
    exact hmore

theorem Gap.trivium? {t : Tree} {more : List Tree} (hgap : Gap (t :: more)) {rest : Text} (h : opens rest)
    (markup : Bool) :
    trivium? markup (t.text ++ (Tree.textOfList more ++ rest)) =
      some (t, t.text, Tree.textOfList more ++ rest) := by
  -- what comes behind is no white space, so a blank ends where it ends
  have hopens : ∀ c ∈ rest.head?, isSpace c = false := by
    intro c hc
    simp only [opens, Option.all_eq_true, Bool.and_eq_true, Bool.not_eq_true'] at h
    exact (h c hc).1.1.1
  unfold Script.trivium?
  cases hgap with
  | @blank s _ hne hspace hstop hmore =>
    obtain ⟨c, cs, rfl⟩ := List.exists_cons_of_ne_nil hne
    have hbehind := head?_append_of_opens hstop hopens
    simp only [Tree.text]
    rw [Text.takeWhile_append_of_stop hspace hbehind, Text.dropWhile_append_of_stop hspace hbehind]
  | @block s _ hs hmore =>
    have hread := blockCommentTail?_append (Tree.textOfList more ++ rest) hs
    have hslash : isSpace '/' = false := by decide
    simp [Tree.text, comment?, hread, before, hslash]
  | @line s _ hs hbreak hmore =>
    have hslash : isSpace '/' = false := by decide
    obtain ⟨c, hc, hbreak⟩ := hbreak
    -- a line comment ends at its line break, which belongs to what is behind it
    have hstop : ∀ d ∈ (Tree.textOfList more ++ rest).head?, isCommentChar d = false := by
      intro d hd
      cases hmore : Tree.textOfList more with
      | nil => rw [hmore] at hc; cases hc
      | cons e es =>
        rw [hmore] at hc hd
        cases hc
        cases hd
        exact hbreak
    simp [Tree.text, comment?, Text.takeWhile_append_of_stop hs hstop, Text.dropWhile_append_of_stop hs hstop, hslash]

theorem Gap.tail {t : Tree} {more : List Tree} (hgap : Gap (t :: more)) : Gap more := by
  cases hgap <;> assumption

theorem Gap.text_ne_nil {t : Tree} {more : List Tree} (hgap : Gap (t :: more)) : t.text ≠ [] := by
  cases hgap with
  | blank hne => exact hne
  | block => exact List.cons_ne_nil _ _
  | line => exact List.cons_ne_nil _ _

theorem Gap.length_le (hgap : Gap gap) : gap.length ≤ (Tree.textOfList gap).length := by
  induction gap with
  | nil => exact Nat.zero_le _
  | cons t more ih =>
    have hpos := List.length_pos_iff.2 hgap.text_ne_nil
    have hmore := ih hgap.tail
    rw [Tree.textOfList, List.length_append, List.length_cons]
    omega

theorem Gap.skipUpTo (hgap : Gap gap) {s : State} {rest : Text}
    (hs : s.rest = Tree.textOfList gap ++ rest) (h : opens rest) (markup : Bool) {bound : Text}
    (hbound : gap.length ≤ bound.length) :
    s.skipUpTo markup bound =
      ⟨rest, gap.reverse ++ s.trees, s.offset + (Tree.textOfList gap).length, s.reach⟩ := by
  induction gap generalizing s bound with
  | nil =>
    obtain rfl : s.rest = rest := hs
    exact skipUpTo_of_opens h markup bound
  | cons t more ih =>
    cases bound with
    | nil => cases hbound
    | cons b bound =>
      rw [Tree.textOfList, List.append_assoc] at hs
      have hmore := ih hgap.tail (s := s.push t t.text (Tree.textOfList more ++ rest)) rfl
        (Nat.le_of_succ_le_succ hbound)
      rw [State.skipUpTo, hs, hgap.trivium? h]
      dsimp only
      rw [hmore]
      simp [State.push, Tree.textOfList, Nat.add_assoc]

theorem Gap.skipAll (hgap : Gap gap) {s : State} {rest : Text}
    (hs : s.rest = Tree.textOfList gap ++ rest) (h : opens rest) (markup : Bool) :
    s.skipUpTo markup s.rest =
      ⟨rest, gap.reverse ++ s.trees, s.offset + (Tree.textOfList gap).length, s.reach⟩ := by
  have hlength := hgap.length_le
  refine hgap.skipUpTo hs h markup ?_
  rw [hs, List.length_append]
  omega

theorem Gap.skip (hgap : Gap gap) {s : State} {rest : Text} (hs : s.rest = Tree.textOfList gap ++ rest)
    (h : opens rest) :
    s.skip = ⟨rest, gap.reverse ++ s.trees, s.offset + (Tree.textOfList gap).length, s.reach⟩ :=
  hgap.skipAll hs h true

theorem Gap.ahead (hgap : Gap gap) {s : State} {rest : Text} (hs : s.rest = Tree.textOfList gap ++ rest)
    (h : opens rest) : s.ahead = rest := by
  unfold State.ahead
  rw [hgap.skip hs h]

theorem Gap.aheadOfExpression (hgap : Gap gap) {s : State} {rest : Text}
    (hs : s.rest = Tree.textOfList gap ++ rest) (h : opens rest) : s.aheadOfExpression = rest := by
  unfold State.aheadOfExpression State.skipAfterExpression
  rw [hgap.skipAll hs h false]

def Beyond (P : Text → Prop) (s : Text) : Prop :=
  ∃ gap rest, Gap gap ∧ P rest ∧ s = Tree.textOfList gap ++ rest

theorem Beyond.mono {P Q : Text → Prop} (h : ∀ s, P s → Q s) {s : Text} (hs : Beyond P s) : Beyond Q s := by
  obtain ⟨gap, rest, hgap, hrest, heq⟩ := hs
  exact ⟨gap, rest, hgap, h rest hrest, heq⟩

theorem beyond_of {P : Text → Prop} {s : Text} (h : P s) : Beyond P s := ⟨[], s, .none, h, rfl⟩

theorem Gap.beyond (hgap : Gap gap) {P : Text → Prop} {s : Text} (h : P s) :
    Beyond P (Tree.textOfList gap ++ s) :=
  ⟨gap, s, hgap, h, rfl⟩

def BeginsWith (cs : List Char) (s : Text) : Prop := ∃ c ∈ cs, ∃ rest, s = c :: rest

theorem BeginsWith.opens {cs : List Char} (hcs : ∀ c ∈ cs, opens [c]) {s : Text} (h : BeginsWith cs s) :
    Step.opens s := by
  obtain ⟨c, hc, rest, rfl⟩ := h
  exact hcs c hc

theorem BeginsWith.head_ne {cs : List Char} {s : Text} (h : BeginsWith cs s) {c : Char} (hc : c ∉ cs) :
    s.head? ≠ some c := by
  obtain ⟨d, hd, rest, rfl⟩ := h
  intro heq
  cases heq
  exact hc hd

theorem BeginsWith.mono {cs ds : List Char} (h : ∀ c ∈ cs, c ∈ ds) {s : Text} (hs : BeginsWith cs s) :
    BeginsWith ds s := by
  obtain ⟨c, hc, hrest⟩ := hs
  exact ⟨c, h c hc, hrest⟩

theorem BeginsWith.opens_head_ne {cs : List Char} {c : Char} (hcs : ∀ d ∈ cs, Step.opens [d]) (hc : c ∉ cs) :
    ∀ s, BeginsWith cs s → Step.opens s ∧ s.head? ≠ some c :=
  fun _ hs => ⟨hs.opens hcs, hs.head_ne hc⟩

theorem beginsWith_cons {cs : List Char} {c : Char} (hc : c ∈ cs) (rest : Text) : BeginsWith cs (c :: rest) :=
  ⟨c, hc, rest, rfl⟩

/-! ## 3. Tokens -/

theorem Reads.immediateTree {tree : Text → Tree} {read : Lexeme}
    (h : ∀ rest, next rest → read (text ++ rest) = some (text, rest)) :
    (immediateTree tree read).Reads text [tree text] next := by
  intro s rest hs hrest
  refine ⟨s.reach, ?_⟩
  unfold Step.immediateTree
  rw [hs, h rest hrest]
  rfl

theorem Fails.immediateTree {tree : Text → Tree} {read : Lexeme} (h : ∀ s, next s → read s = none) :
    (Step.immediateTree tree read).Fails next := by
  intro s hs
  unfold Step.immediateTree
  rw [h _ hs]
  exact ⟨_, rfl⟩

theorem Reads.spaced (hp : p.Reads text ts next) (h : ∀ rest, next rest → opens (text ++ rest))
    (hgap : Gap gap) : (spaced p).Reads (Tree.textOfList gap ++ text) (gap ++ ts) next := by
  intro s rest hs hrest
  rw [List.append_assoc] at hs
  obtain ⟨reach, hread⟩ := hp ⟨text ++ rest, gap.reverse ++ s.trees,
    s.offset + (Tree.textOfList gap).length, s.reach⟩ rest rfl hrest
  refine ⟨reach, ?_⟩
  unfold Step.spaced
  rw [hgap.skip hs (h rest hrest), hread]
  simp only [List.reverse_append, List.append_assoc, List.length_append, Nat.add_assoc]

theorem Fails.spaced {P : Text → Prop} (hP : ∀ s, P s → opens s) (hp : p.Fails P) :
    (Step.spaced p).Fails (Beyond P) := by
  rintro s ⟨gap, rest, hgap, hrest, hs⟩
  unfold Step.spaced
  rw [hgap.skip hs (hP rest hrest)]
  exact hp _ hrest

theorem Reads.node (kind : Kind) (hp : p.Reads text ts next)
    (h : ∀ rest, next rest → opens (text ++ rest)) (hgap : Gap gap) :
    (node kind p).Reads (Tree.textOfList gap ++ text) (gap ++ [.node kind ts]) next := by
  intro s rest hs hrest
  rw [List.append_assoc] at hs
  obtain ⟨reach, hread⟩ := hp ⟨text ++ rest, [], s.offset + (Tree.textOfList gap).length, s.reach⟩
    rest rfl hrest
  refine ⟨reach, ?_⟩
  unfold Step.node
  rw [hgap.skip hs (h rest hrest)]
  dsimp only
  rw [hread]
  simp [Nat.add_assoc]

theorem Fails.node {kind : Kind} {P : Text → Prop} (hP : ∀ s, P s → opens s) (hp : p.Fails P) :
    (Step.node kind p).Fails (Beyond P) := by
  rintro s ⟨gap, rest, hgap, hrest, hs⟩
  obtain ⟨reach, hfail⟩ := hp ⟨rest, [], s.offset + (Tree.textOfList gap).length, s.reach⟩ hrest
  refine ⟨reach, ?_⟩
  unfold Step.node
  rw [hgap.skip hs (hP rest hrest)]
  dsimp only
  rw [hfail]

theorem Fails.node_beyond {kind : Kind} {P : Text → Prop} (hP : ∀ s, P s → opens s)
    (hp : p.Fails (Beyond P)) : (Step.node kind p).Fails (Beyond P) :=
  Fails.node hP (hp.mono fun _ h => beyond_of h)

theorem exactly_append (sign : String) (rest : Text) :
    exactly sign (sign.toList ++ rest) = some (sign.toList, rest) := by
  unfold exactly
  rw [Text.dropStart?_eq_some.2 rfl]
  rfl

variable {c : Char} {cs : Text}

theorem sign_reads {sign : String} (hsign : sign.toList = c :: cs) (h : opens [c]) (hgap : Gap gap) :
    (Step.sign sign).Reads (Tree.textOfList gap ++ c :: cs) (gap ++ [.token (c :: cs)]) next := by
  rw [← hsign]
  refine Reads.spaced (Reads.immediateTree fun rest _ => exactly_append sign rest) ?_ hgap
  rw [hsign]
  exact fun _ _ => h

theorem operator_reads {sign : String} (hsign : sign.toList = c :: cs) (h : opens [c]) (hgap : Gap gap) :
    (operator sign).Reads (Tree.textOfList gap ++ c :: cs) (gap ++ [.token (c :: cs)]) next := by
  intro s rest hs hrest
  rw [List.append_assoc] at hs
  have himmediate : (immediateSign sign).Reads (c :: cs) [.token (c :: cs)] next := by
    rw [← hsign]
    exact Reads.immediateTree fun rest _ => exactly_append sign rest
  obtain ⟨reach, hread⟩ := himmediate ⟨c :: cs ++ rest, gap.reverse ++ s.trees,
    s.offset + (Tree.textOfList gap).length, s.reach⟩ rest rfl hrest
  refine ⟨reach, ?_⟩
  have hopens : opens (c :: cs ++ rest) := h
  unfold operator State.skipAfterExpression
  rw [hgap.skipAll hs hopens false, hread]
  simp only [List.reverse_append, List.append_assoc, List.length_append, Nat.add_assoc]

theorem sign_fails {sign : String} {P : Text → Prop} (hsign : sign.toList.head? = some c)
    (hP : ∀ s, P s → opens s ∧ s.head? ≠ some c) : (Step.sign sign).Fails (Beyond P) := by
  obtain ⟨more, hmore⟩ : ∃ more, sign.toList = c :: more := List.head?_eq_some_iff.1 hsign
  refine Fails.spaced (fun s hs => (hP s hs).1) (Fails.immediateTree ?_)
  intro s hs
  have hhead := (hP s hs).2
  cases s with
  | nil => simp [exactly, hmore, Text.dropStart?]
  | cons d rest =>
    have hne : c ≠ d := by
      rintro rfl
      exact hhead rfl
    simp [exactly, hmore, Text.dropStart?, hne]

theorem lexeme_reads {kind : Kind} {read : Lexeme}
    (hread : ∀ rest, next rest → read (text ++ rest) = some (text, rest))
    (h : ∀ rest, next rest → opens (text ++ rest)) (hgap : Gap gap) :
    (lexeme kind read).Reads (Tree.textOfList gap ++ text) (gap ++ [.leaf kind text]) next :=
  Reads.spaced (Reads.immediateTree hread) h hgap

theorem lexeme_fails {kind : Kind} {read : Lexeme} {P : Text → Prop} (hP : ∀ s, P s → opens s)
    (h : ∀ s, P s → read s = none) : (lexeme kind read).Fails (Beyond P) :=
  Fails.spaced hP (Fails.immediateTree h)

/-! ## 4. Repetitions -/

theorem Fails.manyUpTo (hp : p.Fails next) (bound : Text) : (manyUpTo p bound).Reads [] [] next := by
  cases bound with
  | nil => exact nothing_reads
  | cons _ bound => exact Reads.orElse_of_fails hp.andThen nothing_reads fun _ h => h

theorem Fails.many (hp : p.Fails next) : (many p).Reads [] [] next := fun s => hp.manyUpTo s.rest s

theorem Reads.choose {step : State → Step}
    (h : ∀ s rest, s.rest = text ++ rest → next rest → (step s).Reads text ts next) :
    (choose step).Reads text ts next := fun s rest hs hrest => h s rest hs hrest s rest hs hrest

theorem Fails.choose {step : State → Step} (h : ∀ s, next s.rest → (step s).Fails next) :
    (Step.choose step).Fails next := fun s hs => h s hs s hs

theorem Reads.afterTrial {before : Text → Prop} {step : Option State → Step} (hp : p.Reads a ts before)
    (hbefore : ∀ rest, next rest → before (b ++ rest))
    (h : ∀ t : State, (∃ rest, next rest ∧ t.rest = b ++ rest) → (step (some t)).Reads (a ++ b) us next) :
    (Step.afterTrial p step).Reads (a ++ b) us next := by
  intro s rest hs hrest
  have hsplit := hs
  rw [List.append_assoc] at hsplit
  obtain ⟨reach, htrial⟩ := hp s (b ++ rest) hsplit (hbefore rest hrest)
  unfold Step.afterTrial
  rw [htrial]
  exact h _ ⟨rest, hrest, rfl⟩ s rest hs hrest

theorem Reads.afterTrial_of_fails {before : Text → Prop} {step : Option State → Step} (hp : p.Fails before)
    (hbefore : ∀ rest, next rest → before (text ++ rest)) (h : (step none).Reads text ts next) :
    (Step.afterTrial p step).Reads text ts next := by
  intro s rest hs hrest
  obtain ⟨reach, hfail⟩ := hp s (hs ▸ hbefore rest hrest)
  unfold Step.afterTrial
  rw [hfail]
  exact h (s.reached reach) rest hs hrest

/-- Parts that are read one after the other are read by repeating the step, up to where it fails. -/
theorem manyUpTo_reads {before : Text → Prop} {parts : List (List Tree)}
    (hparts : ∀ part ∈ parts, p.Reads (Tree.textOfList part) part before)
    (hbegin : ∀ part ∈ parts, ∀ rest, before (Tree.textOfList part ++ rest))
    (hnext : ∀ rest, next rest → before rest) (hend : p.Fails next) {bound : Text}
    (hbound : parts.length ≤ bound.length) :
    (manyUpTo p bound).Reads (Tree.textOfList parts.flatten) parts.flatten next := by
  induction parts generalizing bound with
  | nil => exact hend.manyUpTo bound
  | cons part parts ih =>
    cases bound with
    | nil => cases hbound
    | cons b bound =>
      have hrest := ih (fun q hq => hparts q (List.mem_cons_of_mem _ hq))
        (fun q hq => hbegin q (List.mem_cons_of_mem _ hq)) (Nat.le_of_succ_le_succ hbound)
      rw [List.flatten_cons, Tree.textOfList_append]
      refine Reads.orElse (Reads.andThen (hparts part List.mem_cons_self) hrest ?_)
      intro rest hfollows
      -- behind the part another one begins, or what comes after all of them
      cases parts with
      | nil => exact hnext rest hfollows
      | cons q parts =>
        rw [List.flatten_cons, Tree.textOfList_append, List.append_assoc]
        exact hbegin q (by simp) _

theorem many_reads (before : Text → Prop) {parts : List (List Tree)}
    (hparts : ∀ part ∈ parts, p.Reads (Tree.textOfList part) part before)
    (hbegin : ∀ part ∈ parts, ∀ rest, before (Tree.textOfList part ++ rest))
    (hpos : ∀ part ∈ parts, Tree.textOfList part ≠ [])
    (hnext : ∀ rest, next rest → before rest) (hend : p.Fails next) :
    (many p).Reads (Tree.textOfList parts.flatten) parts.flatten next := by
  refine Reads.choose fun s rest hs _ => manyUpTo_reads hparts hbegin hnext hend ?_
  rw [hs, List.length_append]
  refine Nat.le_trans ?_ (Nat.le_add_right _ _)
  clear hs hparts hbegin hend
  induction parts with
  | nil => exact Nat.zero_le _
  | cons part parts ih =>
    have hfirst := List.length_pos_iff.2 (hpos part List.mem_cons_self)
    have hrest := ih fun q hq => hpos q (List.mem_cons_of_mem _ hq)
    rw [List.flatten_cons, Tree.textOfList_append, List.length_append, List.length_cons]
    omega


/-! ## 5. Extensions -/

/-- A step that makes one construct of the latest tree and a text behind it. -/
def Extends (p : Step) (t : Tree) (text : Text) (t' : Tree) (next : Text → Prop) : Prop :=
  ∀ s trees rest, s.trees = t :: trees → s.rest = text ++ rest → next rest →
    ∃ reach, p s = .ok ⟨rest, t' :: trees, s.offset + text.length, reach⟩

theorem Reads.extend (kind : Kind) {t : Tree} (hp : p.Reads text ts next) :
    (extend kind p).Extends t text (.node kind (t :: ts)) next := by
  intro s trees rest htrees hs hrest
  obtain ⟨reach, hread⟩ := hp { s with trees := [t] } rest hs hrest
  refine ⟨reach, ?_⟩
  unfold Step.extend
  rw [htrees]
  dsimp only
  rw [hread]
  simp

theorem Fails.extend {kind : Kind} (hp : p.Fails next) : (Step.extend kind p).Fails next := by
  intro s hs
  unfold Step.extend
  cases s.trees with
  | nil => exact ⟨_, rfl⟩
  | cons tree trees =>
    obtain ⟨reach, hfail⟩ := hp { s with trees := [tree] } hs
    refine ⟨reach, ?_⟩
    dsimp only
    rw [hfail]

theorem Extends.orElse {t t' : Tree} (hp : p.Extends t text t' next) : (p <|> q).Extends t text t' next := by
  intro s trees rest htrees hs hrest
  obtain ⟨reach, hread⟩ := hp s trees rest htrees hs hrest
  refine ⟨reach, ?_⟩
  show Step.orElse p (fun _ => q) s = _
  unfold Step.orElse
  rw [hread]

theorem Extends.orElse_of_fails {before : Text → Prop} {t t' : Tree} (hp : p.Fails before)
    (hq : q.Extends t text t' next) (hbefore : ∀ rest, next rest → before (text ++ rest)) :
    (p <|> q).Extends t text t' next := by
  intro s trees rest htrees hs hrest
  obtain ⟨reach, hfail⟩ := hp s (hs ▸ hbefore rest hrest)
  obtain ⟨reach', hread⟩ := hq (s.reached reach) trees rest htrees hs hrest
  refine ⟨reach', ?_⟩
  show Step.orElse p (fun _ => q) s = _
  unfold Step.orElse
  rw [hfail]
  exact hread

theorem Extends.choose {step : State → Step} {t t' : Tree}
    (h : ∀ s rest, s.rest = text ++ rest → next rest → (step s).Extends t text t' next) :
    (Step.choose step).Extends t text t' next :=
  fun s trees rest htrees hs hrest => h s rest hs hrest s trees rest htrees hs hrest

/-- What repeating a step makes of the latest tree and a text behind it. -/
def Continues (p : Step) (t : Tree) (text : Text) (t' : Tree) (next : Text → Prop) : Prop :=
  ∀ bound : Text, text.length ≤ bound.length → (manyUpTo p bound).Extends t text t' next

theorem Fails.continues (hp : p.Fails next) (t : Tree) : p.Continues t [] t next := by
  intro bound _ s trees rest htrees hs hrest
  obtain ⟨reach, hread⟩ := hp.manyUpTo bound s rest hs hrest
  exact ⟨reach, by rw [hread, ← htrees]; rfl⟩

theorem Extends.continues {before : Text → Prop} {t t' t'' : Tree} (hp : p.Extends t a t' before)
    (hrest : p.Continues t' b t'' next) (hbefore : ∀ rest, next rest → before (b ++ rest)) (ha : a ≠ []) :
    p.Continues t (a ++ b) t'' next := by
  intro bound hbound s trees rest htrees hs hnext
  have hpos := List.length_pos_iff.2 ha
  rw [List.length_append] at hbound
  cases bound with
  | nil =>
    rw [List.length_nil] at hbound
    omega
  | cons x bound =>
    rw [List.length_cons] at hbound
    rw [List.append_assoc] at hs
    -- the first piece is not empty, so the bound that is left suffices for the rest
    obtain ⟨reach, hfirst⟩ := hp s trees (b ++ rest) htrees hs (hbefore rest hnext)
    obtain ⟨reach', hmore⟩ := hrest bound (by omega) ⟨b ++ rest, t' :: trees, s.offset + a.length, reach⟩
      trees rest rfl rfl hnext
    refine ⟨reach', ?_⟩
    show Step.orElse (Step.andThen p fun _ => manyUpTo p bound) (fun _ => nothing) s = _
    unfold Step.orElse Step.andThen
    rw [hfirst]
    dsimp only
    rw [hmore]
    simp only [List.length_append, Nat.add_assoc]

/-- A step, and then another one as often as it can be made. -/
theorem Reads.thenMany {before : Text → Prop} {t t' : Tree} (hp : p.Reads a (ts ++ [t]) before)
    (hq : q.Continues t b t' next) (hbefore : ∀ rest, next rest → before (b ++ rest)) :
    (p >> many q).Reads (a ++ b) (ts ++ [t']) next := by
  intro s rest hs hrest
  rw [List.append_assoc] at hs
  obtain ⟨reach, hfirst⟩ := hp s (b ++ rest) hs (hbefore rest hrest)
  have htrees : (ts ++ [t]).reverse ++ s.trees = t :: (ts.reverse ++ s.trees) := by simp
  obtain ⟨reach', hmore⟩ := hq (b ++ rest) (by simp)
    ⟨b ++ rest, (ts ++ [t]).reverse ++ s.trees, s.offset + a.length, reach⟩ _ rest htrees rfl hrest
  refine ⟨reach', ?_⟩
  show Step.andThen p (fun _ => many q) s = _
  unfold Step.andThen
  rw [hfirst]
  show manyUpTo q (b ++ rest) _ = _
  rw [hmore]
  simp [Nat.add_assoc]

end Step

/-! ## 6. Words -/

/-- A word without escapes. -/
structure IsWord (w : Text) : Prop where
  ne_nil : w ≠ []
  wordChars : ∀ c ∈ w, isWordChar c
  /-- It does not begin like a number. -/
  head : w.head?.any isDecimal = false

def Breaks (rest : Text) : Prop := ∀ c ∈ rest.head?, isWordChar c = false ∧ c ≠ '\\'

theorem wordPart?_eq_none {rest : Text} (h : Breaks rest) : wordPart? rest = none := by
  cases rest with
  | nil => rfl
  | cons c rest =>
    obtain ⟨hchar, hslash⟩ := h c rfl
    unfold wordPart?
    dsimp only
    rw [hchar]
    unfold wordEscape?
    split <;> simp_all

theorem wordPartsUpTo_append {w rest : Text} (hw : ∀ c ∈ w, isWordChar c) (hrest : Breaks rest)
    {bound : Text} (hbound : w.length ≤ bound.length) : wordPartsUpTo bound (w ++ rest) = (w, rest) := by
  induction w generalizing bound with
  | nil =>
    cases bound with
    | nil => rfl
    | cons _ bound => rw [List.nil_append, wordPartsUpTo, wordPart?_eq_none hrest]
  | cons c w ih =>
    cases bound with
    | nil => cases hbound
    | cons _ bound =>
      have hchar : isWordChar c := hw c List.mem_cons_self
      have hmore := ih (fun d hd => hw d (List.mem_cons_of_mem _ hd)) (Nat.le_of_succ_le_succ hbound)
      have hpart : wordPart? (c :: w ++ rest) = some ([c], w ++ rest) := by
        simp [wordPart?, hchar]
      rw [wordPartsUpTo, hpart]
      dsimp only
      rw [hmore]
      rfl

theorem word?_append {w rest : Text} (hw : IsWord w) (hrest : Breaks rest) :
    word? (w ++ rest) = some (w, rest) := by
  obtain ⟨c, cs, rfl⟩ := List.exists_cons_of_ne_nil hw.ne_nil
  have hhead : isDecimal c = false := by simpa using hw.head
  unfold word?
  rw [wordPartsUpTo_append hw.wordChars hrest (by simp)]
  simp [hhead]

theorem word?_eq_none {s : Text} (h : Breaks s) : word? s = none := by
  unfold word?
  split
  · rfl
  · cases s with
    | nil => rfl
    | cons c s => rw [wordPartsUpTo, wordPart?_eq_none h]

theorem opens_of_isWordChar {c : Char} (h : isWordChar c) (rest : Text) : Step.opens (c :: rest) := by
  simp only [isWordChar, Bool.and_eq_true, Bool.not_eq_true', decide_eq_true_eq] at h
  obtain ⟨⟨-, hspace⟩, hsign⟩ := h
  have hne : ∀ d ∈ ['/', '<', '-'], c ≠ d := by
    rintro d hd rfl
    simp only [List.mem_cons, List.not_mem_nil, or_false] at hd
    rcases hd with rfl | rfl | rfl <;> revert hsign <;> decide
  simp [Step.opens, hspace, hne]

theorem IsWord.opens {w : Text} (hw : IsWord w) (rest : Text) : Step.opens (w ++ rest) := by
  obtain ⟨c, cs, rfl⟩ := List.exists_cons_of_ne_nil hw.ne_nil
  exact opens_of_isWordChar (hw.wordChars c List.mem_cons_self) _

def AtWord (w s : Text) : Prop := ∃ rest, Breaks rest ∧ s = w ++ rest

namespace Step

variable {w : Text} {next : Text → Prop} {gap : List Tree}

theorem exactWord_append {text : String} (hw : IsWord text.toList) {rest : Text} (hrest : Breaks rest) :
    exactWord text (text.toList ++ rest) = some (text.toList, rest) := by
  unfold exactWord
  rw [word?_append hw hrest]
  simp

theorem exactWord_eq_none {text : String} (hw : IsWord w) (hne : text.toList ≠ w) {s : Text}
    (hs : AtWord w s) : exactWord text s = none := by
  obtain ⟨rest, hrest, rfl⟩ := hs
  unfold exactWord
  rw [word?_append hw hrest]
  simp [Ne.symm hne]

theorem AtWord.opens (hw : IsWord w) {s : Text} (hs : AtWord w s) : Step.opens s := by
  obtain ⟨rest, -, rfl⟩ := hs
  exact hw.opens rest

theorem keyword_reads {k : String} (hw : IsWord k.toList) (hnext : ∀ rest, next rest → Breaks rest)
    (hgap : Gap gap) :
    (keyword k).Reads (Tree.textOfList gap ++ k.toList) (gap ++ [.token k.toList]) next :=
  Reads.spaced (Reads.immediateTree fun rest h => exactWord_append hw (hnext rest h))
    (fun rest _ => hw.opens rest) hgap

theorem keyword_fails {text : String} (hw : IsWord w) (hne : text.toList ≠ w) :
    (keyword text).Fails (Beyond (AtWord w)) :=
  Fails.spaced (fun _ hs => AtWord.opens hw hs) (Fails.immediateTree fun _ hs => exactWord_eq_none hw hne hs)

theorem keyword_fails_of_breaks {text : String} {P : Text → Prop} (hP : ∀ s, P s → opens s ∧ Breaks s) :
    (keyword text).Fails (Beyond P) := by
  refine Fails.spaced (fun s hs => (hP s hs).1) (Fails.immediateTree fun s hs => ?_)
  unfold exactWord
  rw [word?_eq_none (hP s hs).2]
  rfl

theorem AtWord.head_ne (hw : IsWord w) {s : Text} (hs : AtWord w s) {c : Char} (hc : isWordChar c = false) :
    s.head? ≠ some c := by
  obtain ⟨rest, -, rfl⟩ := hs
  obtain ⟨d, ds, rfl⟩ := List.exists_cons_of_ne_nil hw.ne_nil
  intro hhead
  cases hhead
  rw [hw.wordChars c List.mem_cons_self] at hc
  cases hc

theorem AtWord.opens_head_ne (hw : IsWord w) {c : Char} (hc : isWordChar c = false) :
    ∀ s, AtWord w s → Step.opens s ∧ s.head? ≠ some c :=
  fun _ hs => ⟨AtWord.opens hw hs, AtWord.head_ne hw hs hc⟩

end Step

namespace Grammar

open Step

variable {w : Text} {next : Text → Prop} {gap : List Tree} {kind : Kind} {excluded : List String}

theorem wordBut_reads (hw : IsWord w) (hexcluded : excluded.contains (String.ofList w) = false)
    (hnext : ∀ rest, next rest → Breaks rest) (hgap : Gap gap) :
    (wordBut kind excluded).Reads (Tree.textOfList gap ++ w) (gap ++ [.leaf kind w]) next := by
  refine lexeme_reads (fun rest h => ?_) (fun rest _ => hw.opens rest) hgap
  rw [word?_append hw (hnext rest h)]
  show (if excluded.contains (String.ofList w) then none else some (w, rest)) = _
  rw [hexcluded]
  rfl

theorem wordBut_fails {P : Text → Prop} (hP : ∀ s, P s → opens s ∧ Breaks s) :
    (wordBut kind excluded).Fails (Beyond P) := by
  refine lexeme_fails (fun s hs => (hP s hs).1) fun s hs => ?_
  rw [word?_eq_none (hP s hs).2]
  rfl

end Grammar

end AssetEmbed.Script
