import AssetEmbed.Proofs.Script.Lexing

/-!
# Formed trees — what the grammar ensures of the tree of a script

Every step of the grammar adds only trees whose leaves have characters, so a name in the tree of a script is never the
empty one.  A quoted literal has its quotes, a call begins and ends with one of its parts, and arguments end with a
parenthesis.  No step leaves out a character: the trees that have been read and the text that is left are the script.
Whether a step keeps all this follows from how it is put together: the instances below go along with the steps of the
grammar.
-/

namespace AssetEmbed.Script

/-! ## 1. Trees -/

/-- What the characters of a token have to be: those of a quoted literal stand in quotes, and none are empty. -/
def Kind.Spells : Kind → Text → Prop
  | .string, text => IsQuoted text
  | _, text => text ≠ []

/-- What the trees of a construct have to be: a call begins and ends with one of its parts, and arguments end with a
parenthesis. -/
def Kind.Joins : Kind → List Tree → Prop
  | .callExpression, children =>
    (∀ t ∈ children.head?, t.isTrivia = false) ∧ ∀ t ∈ children.getLast?, t.isTrivia = false
  | .arguments, children => children.getLast? = some (.token [')'])
  | _, _ => True

/-- Whether a kind stands for a part of a construct of which nothing in particular is known. -/
abbrev Kind.isOrdinary : Kind → Bool
  | .string | .callExpression | .arguments | .comment | .htmlComment => false
  | _ => true

/-- A test that comes out true; the instance finds this by evaluating it. -/
class Passes (test : Bool) : Prop where
  eq_true : test = true

instance : Passes true := ⟨rfl⟩

theorem Kind.Spells.ne_nil {kind : Kind} {text : Text} (h : kind.Spells text) : text ≠ [] := by
  unfold Kind.Spells at h
  split at h
  · exact h.ne_nil
  · exact h

theorem Kind.spells_of_isOrdinary {kind : Kind} (hkind : kind.isOrdinary = true) {text : Text} (h : text ≠ []) :
    kind.Spells text := by
  unfold Kind.Spells
  split
  · cases hkind
  · exact h

theorem Kind.joins_of_isOrdinary {kind : Kind} (hkind : kind.isOrdinary = true) (children : List Tree) :
    kind.Joins children := by
  unfold Kind.Joins
  split
  · cases hkind
  · cases hkind
  · trivial

namespace Tree

theorem textOfList_append (ts us : List Tree) :
    textOfList (ts ++ us) = textOfList ts ++ textOfList us := by
  induction ts with
  | nil => rfl
  | cons t ts ih =>
    simp only [List.cons_append, textOfList, ih, List.append_assoc]

mutual

/-- Whether all leaves of a tree have characters. -/
def Solid : Tree → Prop
  | .leaf _ text => text ≠ []
  | .node _ children => AllSolid children
  | _ => True

def AllSolid : List Tree → Prop
  | [] => True
  | t :: ts => t.Solid ∧ AllSolid ts

end

theorem allSolid_iff {ts : List Tree} : AllSolid ts ↔ ∀ t ∈ ts, t.Solid := by
  induction ts with
  | nil => simp [AllSolid]
  | cons t ts ih => simp [AllSolid, ih]

mutual

/-- Whether all tokens and constructs of a tree are what they have to be. -/
def Formed : Tree → Prop
  | .leaf kind text => kind.Spells text
  | .node kind children => kind.Joins children ∧ AllFormed children
  | _ => True

def AllFormed : List Tree → Prop
  | [] => True
  | t :: ts => t.Formed ∧ AllFormed ts

end

theorem allFormed_iff {ts : List Tree} : AllFormed ts ↔ ∀ t ∈ ts, t.Formed := by
  induction ts with
  | nil => simp [AllFormed]
  | cons t ts ih => simp [AllFormed, ih]

theorem allFormed_reverse {ts : List Tree} (h : AllFormed ts) : AllFormed ts.reverse := by
  rw [allFormed_iff] at h ⊢
  intro t ht
  exact h t (List.mem_reverse.1 ht)

theorem allFormed_append {ts us : List Tree} (ht : AllFormed ts) (hu : AllFormed us) : AllFormed (ts ++ us) := by
  rw [allFormed_iff] at ht hu ⊢
  intro t h
  exact (List.mem_append.1 h).elim (ht t) (hu t)

mutual

theorem Formed.solid {t : Tree} (h : t.Formed) : t.Solid := by
  match t with
  | .blank _ | .token _ => trivial
  | .leaf _ _ => exact Kind.Spells.ne_nil h
  | .node _ _ => exact AllFormed.solid h.2

theorem AllFormed.solid {ts : List Tree} (h : AllFormed ts) : AllSolid ts := by
  match ts with
  | [] => trivial
  | _ :: _ => exact ⟨h.1.solid, h.2.solid⟩

end

end Tree

open AssetEmbed.Script.Tree

/-! ## 2. Trivia -/

section

variable {markup : Bool} {s text rest : Text} {tree : Tree}

theorem trivium?_formed (h : trivium? markup s = some (tree, text, rest)) : tree.Formed := by
  unfold trivium? at h
  split at h
  · cases h
    trivial
  · split at h
    · rename_i hcomment
      cases h
      exact Lexeme.Consuming.ne_nil hcomment
    · split at h
      · obtain ⟨⟨a, b⟩, hcomment, hr⟩ := Option.map_eq_some_iff.1 h
        cases hr
        exact Lexeme.Consuming.ne_nil hcomment
      · cases h

/-- A piece of trivia and what follows it make up the text, and the piece is not empty. -/
theorem trivium?_eq_append (h : trivium? markup s = some (tree, text, rest)) :
    s = tree.text ++ rest ∧ tree.text ≠ [] := by
  unfold trivium? at h
  split at h
  next hblank =>
    cases h
    exact ⟨Lexeme.eq_append_of_takeWhile hblank rfl, List.cons_ne_nil _ _⟩
  next =>
    split at h
    next hcomment =>
      cases h
      exact ⟨Lexeme.Cutting.eq_append hcomment, Lexeme.Consuming.ne_nil hcomment⟩
    next =>
      split at h
      next =>
        obtain ⟨⟨a, b⟩, hcomment, hr⟩ := Option.map_eq_some_iff.1 h
        cases hr
        exact ⟨Lexeme.Cutting.eq_append hcomment, Lexeme.Consuming.ne_nil hcomment⟩
      next => cases h

/-- What follows a piece of trivia is shorter than what it stands in front of. -/
theorem trivium?_length (h : trivium? markup s = some (tree, text, rest)) : rest.length < s.length := by
  obtain ⟨hcut, hne⟩ := trivium?_eq_append h
  have hpos := List.length_pos_iff.2 hne
  rw [hcut, List.length_append]
  omega

end

namespace State

/-- The characters of the trees that have been read, and those that are left. -/
def text (s : State) : Text := textOfList s.trees.reverse ++ s.rest

theorem text_of_nil {s : State} (h : s.trees = []) : s.text = s.rest := by
  unfold State.text
  rw [h]
  rfl

theorem text_of_cons {s : State} {t : Tree} {ts : List Tree} (h : s.trees = t :: ts) :
    s.text = textOfList ts.reverse ++ (t.text ++ s.rest) := by
  unfold State.text
  rw [h, List.reverse_cons, textOfList_append, List.append_assoc]
  simp only [textOfList, List.append_nil]

/-- Trivia are read on top of the trees that there are. -/
theorem skipUpTo_trees (markup : Bool) (bound : Text) (s : State) :
    ∃ gap, (s.skipUpTo markup bound).trees = gap ++ s.trees ∧ AllFormed gap := by
  induction bound generalizing s with
  | nil => exact ⟨[], rfl, trivial⟩
  | cons _ bound ih =>
    unfold skipUpTo
    split
    next tree text rest hread =>
      obtain ⟨gap, hgap, hformed⟩ := ih (s.push tree text rest)
      refine ⟨gap ++ [tree], ?_, allFormed_append hformed ⟨trivium?_formed hread, trivial⟩⟩
      rw [hgap, List.append_assoc]
      rfl
    next => exact ⟨[], rfl, trivial⟩

/-- No character is left out where trivia are read. -/
theorem text_skipUpTo (markup : Bool) (bound : Text) (s : State) : (s.skipUpTo markup bound).text = s.text := by
  induction bound generalizing s with
  | nil => rfl
  | cons _ bound ih =>
    unfold skipUpTo
    split
    next tree text rest hread =>
      rw [ih, text_of_cons (s := s.push tree text rest) rfl]
      show textOfList s.trees.reverse ++ (tree.text ++ rest) = s.text
      rw [← (trivium?_eq_append hread).1]
      rfl
    next => rfl

theorem skipUpTo_of_none {markup : Bool} {s : State} (h : trivium? markup s.rest = none) (bound : Text) :
    s.skipUpTo markup bound = s := by
  cases bound with
  | nil => rfl
  | cons _ _ => rw [skipUpTo, h]

/-- No trivia are left once they have been read. -/
theorem trivium?_skipUpTo {markup : Bool} {bound : Text} {s : State} (h : s.rest.length ≤ bound.length) :
    trivium? markup (s.skipUpTo markup bound).rest = none := by
  induction bound generalizing s with
  | nil =>
    obtain hrest : s.rest = [] := List.eq_nil_of_length_eq_zero (Nat.le_zero.1 h)
    rw [skipUpTo, hrest]
    cases markup <;> rfl
  | cons _ bound ih =>
    unfold skipUpTo
    split
    next tree text rest hread =>
      have hlength := trivium?_length hread
      rw [List.length_cons] at h
      exact ih (s := s.push tree text rest) (show rest.length ≤ bound.length by omega)
    next hread => exact hread

theorem trivium?_skip (s : State) : trivium? true s.skip.rest = none := trivium?_skipUpTo (Nat.le_refl _)

end State

/-! ## 3. Trees on the way -/

/-- Trees that have been read, the latest first; `rooted` tells whether the earliest one is known to be a part of the
construct that is read. -/
structure Piled (rooted : Prop) (trees : List Tree) : Prop where
  formed : AllFormed trees
  root : rooted → ∃ t ∈ trees.getLast?, t.isTrivia = false

/-- Trees of which the latest one is a part of the construct that is read. -/
structure Stacked (rooted : Prop) (trees : List Tree) : Prop extends Piled rooted trees where
  landed : ∀ t ∈ trees.head?, t.isTrivia = false

section

variable {rooted : Prop} {trees : List Tree}

theorem stacked_nil : Stacked False [] := ⟨⟨trivial, False.elim⟩, nofun⟩

theorem stacked_singleton {t : Tree} (ht : t.Formed) (hpart : t.isTrivia = false) : Stacked rooted [t] :=
  ⟨⟨⟨ht, trivial⟩, fun _ => ⟨t, rfl, hpart⟩⟩, by rintro _ ⟨⟩; exact hpart⟩

theorem Piled.append (h : Piled rooted trees) {more : List Tree} (hmore : AllFormed more) :
    Piled rooted (more ++ trees) where
  formed := allFormed_append hmore h.formed
  root hrooted := by
    obtain ⟨t, ht, hpart⟩ := h.root hrooted
    refine ⟨t, ?_, hpart⟩
    rw [Option.mem_def] at ht ⊢
    rw [List.getLast?_append, ht]
    rfl

theorem Piled.push (h : Piled rooted trees) {t : Tree} (ht : t.Formed) (hpart : t.isTrivia = false) :
    Stacked rooted (t :: trees) where
  toPiled := h.append (show AllFormed [t] from ⟨ht, trivial⟩)
  landed := by
    rintro _ ⟨⟩
    exact hpart

theorem Stacked.replace {t u : Tree} (h : Stacked rooted (t :: trees)) (hu : u.Formed) (hpart : u.isTrivia = false) :
    Stacked rooted (u :: trees) := by
  cases trees with
  | nil => exact stacked_singleton hu hpart
  | cons v trees =>
    have hbelow : Piled rooted (v :: trees) := by
      refine ⟨h.formed.2, fun hrooted => ?_⟩
      have := h.root hrooted
      rwa [List.getLast?_cons_cons] at this
    exact hbelow.push hu hpart

theorem Piled.skipUpTo {s : State} (h : Piled rooted s.trees) (markup : Bool) (bound : Text) :
    Piled rooted (s.skipUpTo markup bound).trees := by
  obtain ⟨gap, htrees, hgap⟩ := s.skipUpTo_trees markup bound
  rw [htrees]
  exact h.append hgap

end

/-- A state on the way through a script: what has been read is what it has to be, and with what is left it is the
script. -/
structure Underway (rooted : Prop) (script : Text) (s : State) : Prop extends Stacked rooted s.trees where
  text_eq : s.text = script

theorem underway_of_nil {s : State} (h : s.trees = []) : Underway False s.rest s :=
  ⟨h ▸ stacked_nil, State.text_of_nil h⟩

theorem Underway.reached {rooted : Prop} {script : Text} {s : State} (h : Underway rooted script s) (reach : Nat) :
    Underway rooted script (s.reached reach) := ⟨h.toStacked, h.text_eq⟩

/-! ## 4. Steps -/

namespace Step

/-- Whether a step goes on through a script: it leaves out no character and adds only trees that are what they have to
be, the latest one a part of the construct that is read. -/
def KeepsFrom (rooted : Prop) (script : Text) (p : Step) : Prop :=
  ∀ ⦃s t : State⦄, Underway rooted script s → p s = .ok t → Underway rooted script t

/-- A step that goes on through a script, whatever has been read before. -/
class Keeps (p : Step) : Prop where
  /-- This holds whether or not the earliest tree is known to be a part of the construct that is read. -/
  keepsFrom : ∀ rooted script, p.KeepsFrom rooted script

/-- A step that reads one part of the construct that is read. -/
class Lands (p : Step) : Prop where
  /-- What is read is one part, on top of whatever has been read before. -/
  lands : ∀ {s t : State}, p s = .ok t → ∃ tree, t.trees = tree :: s.trees ∧ tree.Formed ∧ tree.isTrivia = false ∧
    s.rest = tree.text ++ t.rest

/-- A step that a construct can begin with. -/
class Starts (p : Step) : Prop where
  /-- Where no trivia come first, the earliest tree is a part of the construct. -/
  starts : ∀ {s t : State}, s.trees = [] → trivium? true s.rest = none → p s = .ok t → Underway True s.rest t

section

variable {rooted : Prop} {script : Text} {p : Step} {q : Unit → Step}

theorem Lands.underway [hp : Lands p] {s t : State} (hs : Piled rooted s.trees) (htext : s.text = script)
    (h : p s = .ok t) : Underway rooted script t := by
  obtain ⟨tree, htrees, hformed, hpart, hrest⟩ := hp.lands h
  refine ⟨?_, ?_⟩
  · rw [htrees]
    exact hs.push hformed hpart
  · rw [State.text_of_cons htrees, ← hrest]
    exact htext

/-! ### Sequences and choices -/

theorem exists_of_andThen {s t : State} (h : (p >> q ()) s = .ok t) : ∃ u, p s = .ok u ∧ q () u = .ok t := by
  change andThen p (fun _ => q ()) s = .ok t at h
  unfold andThen at h
  split at h
  next u hu => exact ⟨u, hu, h⟩
  next => cases h

instance : Keeps nothing where
  keepsFrom _ _ _ _ hs h := by
    cases h
    exact hs

instance : Keeps fail where
  keepsFrom _ _ _ _ _ h := by cases h

instance [hp : Keeps p] [hq : ∀ u, Keeps (q u)] : Keeps (HAndThen.hAndThen p q) where
  keepsFrom rooted script _ _ hs h := by
    obtain ⟨_, hu, h⟩ := exists_of_andThen h
    exact (hq ()).keepsFrom rooted script (hp.keepsFrom rooted script hs hu) h

instance [hp : Starts p] [hq : ∀ u, Keeps (q u)] : Starts (HAndThen.hAndThen p q) where
  starts hs hrest h := by
    obtain ⟨_, hu, h⟩ := exists_of_andThen h
    exact (hq ()).keepsFrom True _ (hp.starts hs hrest hu) h

theorem KeepsFrom.orElse (hp : p.KeepsFrom rooted script) (hq : ∀ u, (q u).KeepsFrom rooted script) :
    KeepsFrom rooted script (HOrElse.hOrElse p q) := by
  intro s t hs h
  change Step.orElse p q s = .ok t at h
  unfold Step.orElse at h
  split at h
  · rename_i u hu
    cases h
    exact hp hs hu
  · rename_i reach _
    exact hq () (hs.reached reach) h

instance [hp : Keeps p] [hq : ∀ u, Keeps (q u)] : Keeps (HOrElse.hOrElse p q) where
  keepsFrom rooted script := KeepsFrom.orElse (hp.keepsFrom rooted script) fun u => (hq u).keepsFrom rooted script

instance {c : Prop} [Decidable c] {p q : Step} [hp : Keeps p] [hq : Keeps q] :
    Keeps (if c then p else q) := by
  split
  · exact hp
  · exact hq

instance [Keeps p] : Keeps (optional p) := by
  unfold optional
  infer_instance

instance keeps_choose {next : State → Step} [h : ∀ s, Keeps (next s)] : Keeps (choose next) where
  keepsFrom rooted script s _ hs ht := (h s).keepsFrom rooted script hs ht

instance {test : State → Bool} [Keeps p] : Keeps (when test p) := by
  unfold when
  infer_instance

theorem keepsFrom_resume {t : State} (ht : Underway rooted script t) : (resume t).KeepsFrom rooted script := by
  intro _ _ _ h
  cases h
  exact ht

/-- A step after a trial may go on from the state that the trial has given. -/
theorem Keeps.afterTrial {next : Option State → Step} [hp : Keeps p] (hnone : Keeps (next none))
    (hsome : ∀ rooted script t, Underway rooted script t → (next (some t)).KeepsFrom rooted script) :
    Keeps (afterTrial p next) where
  keepsFrom rooted script s u hs h := by
    unfold Step.afterTrial at h
    split at h
    · rename_i t ht
      exact hsome rooted script t (hp.keepsFrom rooted script hs ht) hs h
    · rename_i reach _
      exact hnone.keepsFrom rooted script (hs.reached reach) h

instance {bound : Text} [hp : Keeps p] : Keeps (manyUpTo p bound) := by
  induction bound with
  | nil => unfold manyUpTo; infer_instance
  | cons _ bound ih => unfold manyUpTo; infer_instance

instance [Keeps p] : Keeps (many p) := by
  unfold many
  infer_instance

instance [Keeps p] : Keeps (many1 p) := by
  unfold many1
  infer_instance

instance {separator : Step} [Keeps separator] [Keeps p] : Keeps (sepBy1 separator p) := by
  unfold sepBy1
  infer_instance

/-! ### Trivia -/

instance [hp : Lands p] : Keeps (spaced p) where
  keepsFrom _ _ _ _ hs h :=
    hp.underway (hs.toPiled.skipUpTo _ _) ((State.text_skipUpTo _ _ _).trans hs.text_eq) h

instance [hp : Lands p] : Starts (spaced p) where
  starts {s t} hs hrest h := by
    unfold spaced State.skip at h
    rw [State.skipUpTo_of_none hrest] at h
    obtain ⟨tree, htrees, hformed, hpart, hcut⟩ := hp.lands h
    refine ⟨?_, ?_⟩
    · rw [htrees, hs]
      exact stacked_singleton hformed hpart
    · rw [State.text_of_cons htrees, hs, hcut]
      rfl

theorem Keeps.afterExpression [hp : Lands p] : Keeps fun s => p s.skipAfterExpression where
  keepsFrom _ _ _ _ hs h :=
    hp.underway (hs.toPiled.skipUpTo _ _) ((State.text_skipUpTo _ _ _).trans hs.text_eq) h

/-! ### Constructs -/

theorem Keeps.node {kind : Kind}
    (h : ∀ {s t : State}, s.trees = [] → trivium? true s.rest = none → p s = .ok t →
      (Tree.node kind t.trees.reverse).Formed ∧ t.text = s.rest) : Keeps (node kind p) where
  keepsFrom rooted script s t hs ht := by
    unfold Step.node at ht
    dsimp only at ht
    split at ht
    · rename_i u hu
      cases ht
      obtain ⟨hformed, htext⟩ := h (s := { s.skip with trees := [] }) rfl s.trivium?_skip hu
      refine ⟨Piled.push (hs.toPiled.skipUpTo _ _) hformed rfl, ?_⟩
      rw [State.text_of_cons rfl, ← hs.text_eq, ← State.text_skipUpTo true s.rest s]
      exact congrArg (textOfList s.skip.trees.reverse ++ ·) htext
    · cases ht

instance {kind : Kind} [hkind : Passes kind.isOrdinary] [hp : Keeps p] : Keeps (node kind p) :=
  Keeps.node fun hs _ h =>
    have hread := hp.keepsFrom False _ (underway_of_nil hs) h
    ⟨⟨Kind.joins_of_isOrdinary hkind.eq_true _, allFormed_reverse hread.formed⟩, hread.text_eq⟩

theorem joins_callExpression {trees : List Tree} (h : Stacked True trees) :
    Kind.Joins .callExpression trees.reverse := by
  refine ⟨fun t ht => ?_, fun t ht => ?_⟩
  · rw [List.head?_reverse] at ht
    obtain ⟨u, hu, hpart⟩ := h.root trivial
    rwa [Option.mem_unique ht hu]
  · rw [List.getLast?_reverse] at ht
    exact h.landed t ht

instance [hp : Starts p] : Keeps (node .callExpression p) :=
  Keeps.node fun hs hrest h =>
    have hread := hp.starts hs hrest h
    ⟨⟨joins_callExpression hread.toStacked, allFormed_reverse hread.formed⟩, hread.text_eq⟩

theorem Keeps.extend {kind : Kind} [hp : Keeps p]
    (hkind : ∀ {trees}, Stacked True trees → kind.Joins trees.reverse) : Keeps (extend kind p) where
  keepsFrom rooted script s t hs h := by
    unfold Step.extend at h
    split at h
    · cases h
    · rename_i tree trees htrees
      have hstacked : Stacked rooted (tree :: trees) := htrees ▸ hs.toStacked
      split at h
      · rename_i u hu
        cases h
        have hu : Underway True (tree.text ++ s.rest) u := by
          refine hp.keepsFrom True _ (s := { s with trees := [tree] }) ⟨?_, ?_⟩ hu
          · exact stacked_singleton hstacked.formed.1 (hstacked.landed tree rfl)
          · exact (State.text_of_cons rfl).trans (List.nil_append _)
        refine ⟨hstacked.replace ⟨hkind hu.toStacked, allFormed_reverse hu.formed⟩ rfl, ?_⟩
        rw [State.text_of_cons rfl, ← hs.text_eq, State.text_of_cons htrees, ← hu.text_eq]
        rfl
      · cases h

instance {kind : Kind} [hkind : Passes kind.isOrdinary] [Keeps p] : Keeps (extend kind p) :=
  Keeps.extend fun _ => Kind.joins_of_isOrdinary hkind.eq_true _

instance [Keeps p] : Keeps (extend .callExpression p) := Keeps.extend joins_callExpression

end

/-! ### Tokens -/

theorem Lands.immediateTree {tree : Text → Tree} {read : Lexeme} [hread : read.Cutting]
    (htree : ∀ text, (tree text).text = text)
    (h : ∀ {s text rest}, read s = some (text, rest) → (tree text).Formed ∧ (tree text).isTrivia = false) :
    Lands (immediateTree tree read) where
  lands {s t} ht := by
    unfold Step.immediateTree at ht
    split at ht
    · rename_i text rest hsome
      cases ht
      obtain ⟨hformed, hpart⟩ := h hsome
      refine ⟨_, rfl, hformed, hpart, ?_⟩
      rw [htree]
      exact hread.eq_append hsome
    · cases ht

theorem isTrivia_leaf {kind : Kind} (hkind : kind.isOrdinary = true) (text : Text) :
    (Tree.leaf kind text).isTrivia = false := by
  cases kind <;> first | rfl | cases hkind

instance {kind : Kind} {read : Lexeme} [hkind : Passes kind.isOrdinary] [hread : read.Consuming] :
    Lands (immediate kind read) :=
  Lands.immediateTree (fun _ => rfl) fun h =>
    ⟨Kind.spells_of_isOrdinary hkind.eq_true (hread.ne_nil h), isTrivia_leaf hkind.eq_true _⟩

instance {read : Lexeme} [hread : read.Quoting] : Lands (immediate .string read) :=
  Lands.immediateTree (fun _ => rfl) fun h => ⟨hread.isQuoted h, rfl⟩

instance {read : Lexeme} [read.Cutting] : Lands (immediateTree .token read) :=
  Lands.immediateTree (fun _ => rfl) fun _ => ⟨trivial, rfl⟩

instance {p : Step} [hp : Lands p] : Keeps p where
  keepsFrom _ _ _ _ hs h := hp.underway hs.toPiled hs.text_eq h

instance {kind : Kind} {read : Lexeme} [Lands (immediate kind read)] : Keeps (lexeme kind read) := by
  unfold lexeme
  infer_instance

instance {kind : Kind} {read : Lexeme} [Lands (immediate kind read)] : Starts (lexeme kind read) := by
  unfold lexeme
  infer_instance

instance {text : String} : Lands (immediateSign text) := by
  unfold immediateSign
  infer_instance

instance {text : String} : Keeps (sign text) := by
  unfold sign
  infer_instance

instance {text : String} : Starts (sign text) := by
  unfold sign
  infer_instance

instance {text : String} : Keeps (operator text) := Keeps.afterExpression

instance {text : String} : Keeps (keyword text) := by
  unfold keyword
  infer_instance

instance {texts : List String} : Keeps (keywordOf texts) := by
  unfold keywordOf
  induction texts with
  | nil => exact inferInstanceAs (Keeps fail)
  | cons text texts ih =>
    rw [List.foldr_cons]
    infer_instance

instance {kind : Kind} {text : String} [Passes kind.isOrdinary] : Keeps (keywordLeaf kind text) := by
  unfold keywordLeaf
  infer_instance

instance {kind : Kind} {text : String} [Passes kind.isOrdinary] : Starts (keywordLeaf kind text) := by
  unfold keywordLeaf
  infer_instance

instance {d : Dialect} {inExpression : Bool} : Keeps (semicolon d inExpression) where
  keepsFrom rooted script s t hs h := by
    unfold semicolon at h
    split at h
    · cases h
      exact hs
    · exact Keeps.keepsFrom (p := sign ";") rooted script hs h

theorem head?_of_sign {text : String} {s t : State} (h : sign text s = .ok t) :
    t.trees.head? = some (.token text.toList) := by
  unfold sign spaced immediateSign immediateTree at h
  split at h
  next hread =>
    cases h
    obtain ⟨_, _, hr⟩ := Option.map_eq_some_iff.1 hread
    cases hr
    rfl
  next => cases h

theorem head?_of_andThen_sign {q r : Step} {text : String} {s t : State} (h : (q >> r >> sign text) s = .ok t) :
    t.trees.head? = some (.token text.toList) := by
  obtain ⟨_, -, h⟩ := exists_of_andThen (q := fun _ => r >> sign text) h
  obtain ⟨_, -, h⟩ := exists_of_andThen (q := fun _ => sign text) h
  exact head?_of_sign h

instance keeps_arguments {q r : Step} [hkeeps : Keeps (q >> r >> sign ")")] :
    Keeps (node .arguments (q >> r >> sign ")")) :=
  Keeps.node fun hs _ h =>
    have hread := hkeeps.keepsFrom False _ (underway_of_nil hs) h
    ⟨⟨List.getLast?_reverse.trans (head?_of_andThen_sign h), allFormed_reverse hread.formed⟩, hread.text_eq⟩

end Step

end AssetEmbed.Script
