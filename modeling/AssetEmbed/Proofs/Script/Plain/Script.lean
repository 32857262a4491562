import AssetEmbed.Proofs.Script.Plain.Statement

/-!
# Plain scripts

A script whose statements are in plain form is well formed, and its tree is the one that it spells.
-/

namespace AssetEmbed.Script

open Step

/-! ## 1. Where lines end -/

variable {d : Dialect} {m : Source} {closed : Bool} {t : Tree} {ts : List Tree}

theorem Step.Gap.isTrivia {gap : List Tree} (h : Gap gap) : ∀ t ∈ gap, t.isTrivia = true := by
  induction h with
  | none => nofun
  | blank _ _ _ _ ih | block _ _ ih | line _ _ _ ih => exact List.forall_mem_cons.2 ⟨rfl, ih⟩

theorem Statement.isTrivia (h : Statement d m closed t) : t.isTrivia = false := by
  cases h with
  | declaration h => cases h; rfl
  | _ => rfl

theorem BeginsLine.isTrivia (h : BeginsLine m t) : t.isTrivia = false := by
  cases h <;> rfl

namespace Semicolon

/-- The signs with which what follows a line break is looked at more closely. -/
def otherSigns : List Char :=
  ['\x60', ',', ';', '*', '%', '>', '<', '=', '?', '^', '|', '&', '/', ':', '.', '(', '[', '+', '-', '!']

/-- Behind a line break, a word begins a statement if it cannot be the word `in`. -/
theorem beginsStatement_of_word {inExpression : Bool} {w rest : Text} (hw : IsWord w)
    (hhead : w.head? ≠ some 'i') :
    beginsStatement d inExpression (w ++ rest) = true := by
  obtain ⟨c, cs, rfl⟩ := List.exists_cons_of_ne_nil hw.ne_nil
  have hchar := hw.wordChars c List.mem_cons_self
  have hne : ∀ sign ∈ otherSigns, c ≠ sign := ne_of_forall_mem_eq_false hchar (by decide)
  have hi : c ≠ 'i' := by
    rintro rfl
    exact hhead rfl
  simp only [otherSigns, List.forall_mem_cons] at hne
  simp [beginsStatement, hne, hi]

end Semicolon

open Grammar

theorem lineEnds_of_spaces {gap : List Tree} (h : Spaces gap) : LineEnds d (Tree.textOfList gap) where
  mayMiss inExpression := by
    have hmiss : Semicolon.mayMiss d inExpression (Tree.textOfList gap ++ []) = _ :=
      Semicolon.mayMiss_spaces h.chars nofun
    rw [List.append_nil] at hmiss
    rw [hmiss]
    split <;> rfl
  halts := halts_of_gap h.isGap

theorem lineEnds_of_word {s w rest : Text} (hs : ∀ c ∈ s, c ∈ lineBlanks) (hbreak : '\n' ∈ s) (hw : IsWord w)
    (hjoint : String.ofList w ∉ jointWords) (hhead : w.head? ≠ some 'i') (hat : AtWord w rest) :
    LineEnds d (s ++ rest) where
  mayMiss inExpression := by
    obtain ⟨more, -, rfl⟩ := hat
    rw [Semicolon.mayMiss_spaces hs (Semicolon.bare_of_word hw), if_pos hbreak]
    exact Semicolon.beginsStatement_of_word hw hhead
  halts := by
    have hne : s ≠ [] := by
      rintro rfl
      cases hbreak
    have hblank : Gap [.blank s] := (Spaces.blank hne hs).isGap
    refine ⟨[.blank s], rest, hblank, quiet_of_atWord hw hjoint hat, nofun, ?_, ?_⟩
    · intro c hc hmem
      have hword : isWordChar c = false := by
        have hall : ∀ c ∈ [':', ','], isWordChar c = false := by decide
        exact hall c hmem
      exact AtWord.head_ne hw hat hword hc
    · simp [Tree.textOfList, Tree.text]

theorem Named.text {v : Tree} (h : Named m v) :
    ∃ w rest, IsName w ∧ w.head? ≠ some 'i' ∧ v.text = w ++ rest := by
  induction h with
  | @name w hw hhead => exact ⟨w, [], hw, hhead, (List.append_nil w).symm⟩
  | @follows kind t ts _ _ _ ih =>
    obtain ⟨w, rest, hw, hhead, htext⟩ := ih
    exact ⟨w, rest ++ Tree.textOfList ts, hw, hhead, by simp [Tree.text, Tree.textOfList, htext]⟩

theorem Named.primary {v : Tree} (h : Named m v) (hv : Value v) : Primary v := by
  cases hv with
  | primary hv => exact hv
  | arrow =>
    cases h with
    | follows hkind => exact absurd hkind (by decide)

theorem Named.atWord {v : Tree} (h : Named m v) (hv : Value v) {rest : Text} (hrest : Follows rest) :
    ∃ w, ValueWord w ∧ w.head? ≠ some 'i' ∧ AtWord w (v.text ++ rest) := by
  obtain ⟨w, more, hw, hhead, htext⟩ := h.text
  obtain ⟨c, cs, rfl⟩ := List.exists_cons_of_ne_nil hw.isWord.ne_nil
  rcases starts_of_primary (h.primary hv) (.inl hrest) with hsign | ⟨w', more', hw', hmore', heq⟩
  · obtain ⟨sign, hsign, s, heq⟩ := hsign
    rw [htext] at heq
    cases heq
    have hsigns : ∀ c ∈ startSigns, isWordChar c = false := by decide
    have hchar := hw.isWord.wordChars c List.mem_cons_self
    rw [hsigns c hsign] at hchar
    cases hchar
  · refine ⟨w', hw', ?_, more', hmore'.breaks, heq⟩
    obtain ⟨c', cs', rfl⟩ := List.exists_cons_of_ne_nil hw'.isWord.ne_nil
    rw [htext] at heq
    have hsame : c = c' := (List.cons.inj heq).1
    rw [← hsame]
    exact hhead

theorem BeginsLine.atWord (h : BeginsLine m t) (ht : Statement d m closed t) {rest : Text}
    (hrest : AfterStatement d closed rest) :
    ∃ w, IsWord w ∧ String.ofList w ∉ jointWords ∧ w.head? ≠ some 'i' ∧ AtWord w (t.text ++ rest) := by
  cases h with
  | @word kind word gap ts _ hword hgap =>
    have hwords : ∀ word ∈ "export" :: declarationWords, word ∈ "export" :: "default" :: declarationWords ∧
        word ∉ jointWords ∧ word.toList.head? ≠ some 'i' := by decide
    obtain ⟨hmem, hjoint, hhead⟩ := hwords word hword
    refine ⟨word.toList, isWord_of_declarationWords hmem, by rwa [String.ofList_toList], hhead,
      Tree.textOfList gap ++ (Tree.textOfList ts ++ rest), hgap.breaks _, ?_⟩
    simp [Tree.text, Tree.textOfList, Tree.textOfList_append]
  | @expression _ v ts hvalue hv hts =>
    have hhalts : Halts [':', ','] (Tree.textOfList ts ++ rest) := by
      cases hts with
      | semicolon hgap => exact Ending.halts (d := d) (.semicolon hgap) (afterStatement_closed _)
      | nothing =>
        -- without its semicolon, this is no statement that may be followed by anything
        cases ht with
        | expression _ _ hts => exact Ending.halts hts hrest
        | other _ hend => exact absurd rfl (hend rfl)
        | declaration ht => cases ht
    obtain ⟨w, hw, hhead, hat⟩ := hv.atWord hvalue (hhalts.mono (by simp))
    refine ⟨w, hw.isWord, hw.not_mem (by decide) (by decide), hhead, ?_⟩
    simpa [Tree.text, Tree.textOfList] using hat

theorem Module.lineEnds (h : Module d m ts) (hline : Line m ts) : LineEnds d (Tree.textOfList ts) := by
  have hstatement : ∀ {closed : Bool} {gap ts us : List Tree} {t : Tree}, Gap gap → Statement d m closed t →
      AfterStatement d closed (Tree.textOfList ts) → us = gap ++ t :: ts → Line m us →
      LineEnds d (Tree.textOfList us) := by
    intro closed gap ts us t hgap ht hrest heq hline
    cases hline with
    | done hspaces => exact lineEnds_of_spaces hspaces
    | @next s u us hs hbreak hu =>
      -- the line break is all that stands before the statement
      have hgap' := hgap.isTrivia
      rcases gap with _ | ⟨x, _ | ⟨y, more⟩⟩ <;> cases heq
      · exact absurd ht.isTrivia nofun
      · obtain ⟨w, hw, hjoint, hhead, hat⟩ := hu.atWord ht hrest
        exact lineEnds_of_word hs hbreak hw hjoint hhead hat
      · have hy := hgap' u (by simp)
        rw [hu.isTrivia] at hy
        cases hy
  induction h with
  | done hgap =>
    cases hline with
    | done hspaces => exact lineEnds_of_spaces hspaces
    | next hs hbreak ht =>
      have hy := hgap.isTrivia _ (List.mem_cons_of_mem _ List.mem_cons_self)
      rw [ht.isTrivia] at hy
      cases hy
  | closed hgap ht _ _ => exact hstatement hgap ht (afterStatement_closed _) rfl hline
  | opened hgap ht _ hnext ih => exact hstatement hgap ht (fun _ => ih hnext) rfl hline

/-! ## 2. Scripts -/

variable {n : Nat}

theorem Value.text_ne_nil {v : Tree} (hv : Value v) : v.text ≠ [] := by
  have hstarts := (readable (d := .plain) hv (Nat.le_refl _)).starts [] (halts_of_gap .none)
  intro hnil
  rw [hnil] at hstarts
  rcases hstarts with ⟨c, -, rest, heq⟩ | ⟨w, rest, hw, -, heq⟩
  · cases heq
  · exact hw.isWord.ne_nil (List.append_eq_nil_iff.1 heq.symm).1

theorem Statement.begins (h : Statement d m closed t) {rest : Text} (hrest : AfterStatement d closed rest) :
    t.text ≠ [] ∧ opens (t.text ++ rest) ∧ (t.text ++ rest).head? ≠ some '#' := by
  -- every statement begins with a word, but for values and for what stands alone
  have hword : ∀ {w rest : Text}, IsWord w → (∃ more, t.text ++ rest = w ++ more) → w ≠ [] →
      opens (t.text ++ rest) ∧ (t.text ++ rest).head? ≠ some '#' := by
    rintro w rest hw ⟨more, heq⟩ hne
    rw [heq]
    refine ⟨hw.opens more, ?_⟩
    obtain ⟨c, cs, rfl⟩ := List.exists_cons_of_ne_nil hne
    intro hhead
    cases hhead
    exact absurd (hw.wordChars '#' List.mem_cons_self) (by decide)
  have hexport : IsWord "export".toList := isWord_of_declarationWords (by decide)
  cases h with
  | declaration h =>
    obtain ⟨word, hmem, hat⟩ := Declaration.word h
    obtain ⟨more, -, heq⟩ := hat rest
    refine ⟨fun hnil => ?_, hword (isWord_of_mem hmem) ⟨more, heq⟩ (isWord_of_mem hmem).ne_nil⟩
    obtain ⟨more, -, heq⟩ := hat []
    rw [hnil] at heq
    exact (isWord_of_mem hmem).ne_nil (List.append_eq_nil_iff.1 heq.symm).1
  | exported hgap h =>
    exact ⟨List.cons_ne_nil _ _, hword hexport
      ⟨_, by simp only [Tree.text, Tree.textOfList, List.append_assoc]; rfl⟩ hexport.ne_nil⟩
  | default hgap₁ hgap₂ hv hts =>
    exact ⟨List.cons_ne_nil _ _, hword hexport
      ⟨_, by simp only [Tree.text, Tree.textOfList, List.append_assoc]; rfl⟩ hexport.ne_nil⟩
  | @expression _ v ts hv hblock hts =>
    -- a value begins with a word or with a sign that values begin with
    have hstarts := (readable (d := d) hv (Nat.le_refl _)).starts _ ((Ending.halts hts hrest).mono (by simp))
    have htext : (Tree.node .expressionStatement (v :: ts)).text ++ rest =
        v.text ++ (Tree.textOfList ts ++ rest) := by
      simp [Tree.text, Tree.textOfList]
    refine ⟨?_, ?_⟩
    · simp [Tree.text, Tree.textOfList, Value.text_ne_nil hv]
    · rw [htext]
      exact ⟨hstarts.opens, hstarts.head (by decide) (by decide)⟩
  | other halone =>
    obtain ⟨c, more, htext, hopens, hne⟩ := halone.opens
    rw [htext]
    refine ⟨List.cons_ne_nil _ _, hopens, ?_⟩
    intro hhead
    cases hhead
    exact hne rfl

/-- Whether statements are read one after the other, up to white space at the end. -/
def Runs (d : Dialect) (n : Nat) (ts : List Tree) : Prop :=
  ∀ bound : Text, (Tree.textOfList ts).length ≤ bound.length → ∃ us gap, ts = us ++ gap ∧ Gap gap ∧
    (manyUpTo (ofDepth d n).statementStep bound).Reads (Tree.textOfList us) us (· = Tree.textOfList gap)

theorem runs_gap {gap : List Tree} (hgap : Gap gap) : Runs d n gap := by
  refine fun bound _ => ⟨[], gap, rfl, hgap, Fails.manyUpTo (fun s hs => ?_) bound⟩
  have hahead : s.ahead = [] := hgap.ahead (by rw [hs, List.append_nil]) rfl
  simp only [statementStep, Step.choose, hahead]
  exact ⟨_, rfl⟩

theorem Runs.cons {gap : List Tree} (h : Runs d (n + 1) ts) (hgap : Gap gap) (ht : Statement d m closed t)
    (hrest : AfterStatement d closed (Tree.textOfList ts)) (hn : 8 * t.text.length + 2 ≤ n + 1) :
    Runs d (n + 1) (gap ++ t :: ts) := by
  intro bound hbound
  have hpos := List.length_pos_iff.2 (ht.begins hrest).1
  simp only [Tree.textOfList, Tree.textOfList_append, List.length_append] at hbound
  -- one statement takes one step of the repetition; the characters are enough for all steps
  cases bound with
  | nil =>
    rw [List.length_nil] at hbound
    omega
  | cons b bound =>
    rw [List.length_cons] at hbound
    obtain ⟨us, gap', rfl, hgap', hmore⟩ := h bound (by omega)
    refine ⟨gap ++ t :: us, gap', by simp, hgap', ?_⟩
    have hfirst := (statementStep_reads ht hn hgap).andThen hmore fun rest hrest' => by
      rw [hrest', ← Tree.textOfList_append]
      exact hrest
    have htext : Tree.textOfList (gap ++ t :: us) = Tree.textOfList gap ++ t.text ++ Tree.textOfList us := by
      simp [Tree.textOfList, Tree.textOfList_append]
    rw [htext, List.append_cons]
    exact Reads.orElse hfirst

theorem Module.runs (h : Module d m ts) (hn : 8 * (Tree.textOfList ts).length + 2 ≤ n + 1) :
    Runs d (n + 1) ts := by
  have hshorter : ∀ {gap ts : List Tree} {t : Tree}, 8 * (Tree.textOfList (gap ++ t :: ts)).length + 2 ≤ n + 1 →
      8 * t.text.length + 2 ≤ n + 1 ∧ 8 * (Tree.textOfList ts).length + 2 ≤ n + 1 := by
    intro gap ts t hn
    simp only [Tree.textOfList, Tree.textOfList_append, List.length_append] at hn
    omega
  induction h with
  | done hgap => exact runs_gap hgap
  | closed hgap ht hts ih => exact (ih (hshorter hn).2).cons hgap ht (afterStatement_closed _) (hshorter hn).1
  | opened hgap ht hts hline ih =>
    exact (ih (hshorter hn).2).cons hgap ht (fun _ => hts.lineEnds hline) (hshorter hn).1

theorem Module.hashBang_fails (h : Module d m ts) :
    (lexeme .hashBangLine interpreterLine?).Fails (· = Tree.textOfList ts) := by
  have hfails : (lexeme .hashBangLine interpreterLine?).Fails
      (Beyond fun s => opens s ∧ s.head? ≠ some '#') := by
    refine lexeme_fails (fun s hs => hs.1) fun s hs => ?_
    unfold interpreterLine?
    split
    · exact absurd rfl hs.2
    · rfl
  refine hfails.mono ?_
  rintro s rfl
  -- a module begins with a statement, after white space, or with nothing
  have hstatement : ∀ {closed : Bool} {gap ts : List Tree} {t : Tree}, Gap gap → Statement d m closed t →
      AfterStatement d closed (Tree.textOfList ts) →
      Beyond (fun s => opens s ∧ s.head? ≠ some '#') (Tree.textOfList (gap ++ t :: ts)) := by
    intro closed gap ts t hgap ht hrest
    rw [Tree.textOfList_append]
    exact hgap.beyond (ht.begins hrest).2
  cases h with
  | done hgap =>
    have hnone := hgap.beyond (P := fun s => opens s ∧ s.head? ≠ some '#') (s := []) ⟨rfl, by simp⟩
    rwa [List.append_nil] at hnone
  | closed hgap ht hts => exact hstatement hgap ht (afterStatement_closed _)
  | opened hgap ht hts hline => exact hstatement hgap ht fun _ => hts.lineEnds hline

theorem script_reads (h : Module d m ts) (hn : 8 * (Tree.textOfList ts).length + 2 ≤ n + 1) :
    (ofDepth d (n + 2)).script.Reads (Tree.textOfList ts) ts (· = []) := by
  obtain ⟨us, gap, rfl, hgap, hstatements⟩ := h.runs hn (Tree.textOfList ts) (Nat.le_refl _)
  have hmany : (many ((ofDepth d (n + 2)).read .statement)).Reads (Tree.textOfList us) us
      (· = Tree.textOfList gap) := by
    refine Reads.choose fun s rest hs hrest => ?_
    rw [hrest, ← Tree.textOfList_append] at hs
    rw [hs]
    exact hstatements
  have hblank : (spaced nothing).Reads (Tree.textOfList gap) gap (· = []) := by
    have hread : (spaced nothing).Reads (Tree.textOfList gap ++ []) (gap ++ []) (· = []) :=
      Reads.spaced nothing_reads (fun rest hrest => by rw [hrest]; rfl) hgap
    rwa [List.append_nil, List.append_nil] at hread
  have hall := h.hashBang_fails.optional.andThen (hmany.andThen hblank fun rest hrest => by
    rw [hrest, List.append_nil]) fun rest hrest => by
      rw [hrest, List.append_nil, Tree.textOfList_append]
  rw [Tree.textOfList_append]
  exact hall

/-! ## 3. Defaults -/

theorem defaultsOfList_iff {ts : List Tree} :
    Tree.defaultsOfListAreInPatterns ts ↔ ∀ t ∈ ts, t.defaultsAreInPatterns := by
  induction ts with
  | nil => exact ⟨fun _ => nofun, fun _ => rfl⟩
  | cons t ts ih => rw [Tree.defaultsOfListAreInPatterns, Bool.and_eq_true, ih, List.forall_mem_cons]

theorem defaults_of_isTrivia (h : t.isTrivia) : t.defaultsAreInPatterns := by
  cases t with
  | node => cases h
  | _ => rfl

def IsPart (P : Tree → Prop) (t : Tree) : Prop :=
  t.isTrivia ∨ (∃ s, t = .token s) ∨ P t

theorem Step.Gap.isPart {P : Tree → Prop} {gap : List Tree} (h : Gap gap) : ∀ t ∈ gap, IsPart P t :=
  fun t ht => .inl (h.isTrivia t ht)

theorem isPart_token {P : Tree → Prop} (s : Text) : IsPart P (.token s) :=
  .inr (.inl ⟨s, rfl⟩)

theorem Tail.isPart {P : Tree → Prop} (h : Tail P ts) : ∀ t ∈ ts, IsPart P t := by
  induction h with
  | nil => exact List.forall_mem_nil _
  | hole hgap _ ih =>
    simp only [List.forall_mem_append, List.forall_mem_cons]
    exact ⟨hgap.isPart, isPart_token _, ih⟩
  | entry hgap hgap' ht _ ih =>
    simp only [List.forall_mem_append, List.forall_mem_cons]
    exact ⟨hgap.isPart, isPart_token _, hgap'.isPart, .inr (.inr ht), ih⟩

theorem Entries.isPart {P : Tree → Prop} {close : Char} (h : Entries P close ts) : ∀ t ∈ ts, IsPart P t := by
  cases h with
  | none hts hgap =>
    simp only [List.forall_mem_append, List.forall_mem_singleton]
    exact ⟨hts.isPart, hgap.isPart, isPart_token _⟩
  | some hgap ht hts hgap' =>
    simp only [List.forall_mem_append, List.forall_mem_cons]
    exact ⟨hgap.isPart, .inr (.inr ht), hts.isPart, hgap'.isPart, isPart_token _, List.forall_mem_nil _⟩

@[simp] theorem defaultsOfList_nil : Tree.defaultsOfListAreInPatterns [] = true := rfl

@[simp] theorem defaultsOfList_cons :
    Tree.defaultsOfListAreInPatterns (t :: ts) =
      (t.defaultsAreInPatterns && Tree.defaultsOfListAreInPatterns ts) := rfl

@[simp] theorem defaultsOfList_append {us : List Tree} :
    Tree.defaultsOfListAreInPatterns (ts ++ us) =
      (Tree.defaultsOfListAreInPatterns ts && Tree.defaultsOfListAreInPatterns us) := by
  induction ts with
  | nil => rfl
  | cons t ts ih => simp [ih, Bool.and_assoc]

theorem Step.Gap.defaults {gap : List Tree} (h : Gap gap) : Tree.defaultsOfListAreInPatterns gap :=
  defaultsOfList_iff.2 fun t ht => defaults_of_isTrivia (h.isTrivia t ht)

theorem Entries.defaults {P : Tree → Prop} {close : Char} (h : Entries P close ts)
    (hP : ∀ t, P t → t.defaultsAreInPatterns) : Tree.defaultsOfListAreInPatterns ts := by
  refine defaultsOfList_iff.2 fun t ht => ?_
  rcases h.isPart t ht with ht | ⟨s, rfl⟩ | ht
  · exact defaults_of_isTrivia ht
  · rfl
  · exact hP t ht

theorem Item.defaults {P : Tree → Prop} (h : Item P t) (hP : ∀ t, P t → t.defaultsAreInPatterns) :
    t.defaultsAreInPatterns := by
  cases h with
  | value ht => exact hP _ ht
  | spread hgap ht =>
    simp [hgap.defaults, hP _ ht, Tree.defaultsAreInPatterns]

theorem Key.defaults {P : Tree → Prop} (h : Key P t) (hP : ∀ t, P t → t.defaultsAreInPatterns) :
    t.defaultsAreInPatterns := by
  cases h with
  | computed hgap ht hgap' =>
    simp [hgap.defaults, hgap'.defaults, hP _ ht, Tree.defaultsAreInPatterns]
  | _ => rfl

theorem Field.defaults {P : Tree → Prop} (h : Field P t) (hP : ∀ t, P t → t.defaultsAreInPatterns) :
    t.defaultsAreInPatterns := by
  cases h with
  | spread hgap ht =>
    simp [hgap.defaults, hP _ ht, Tree.defaultsAreInPatterns]
  | pair hkey hgap hgap' ht =>
    simp [hkey.defaults hP, hgap.defaults, hgap'.defaults, hP _ ht,
      Tree.defaultsAreInPatterns]
  | shorthand => rfl

theorem Field.isKind {P : Tree → Prop} (h : Field P t) : t.isKind .objectAssignmentPattern = false := by
  cases h <;> rfl

theorem Entries.defaults_object {P : Tree → Prop} {close : Char} (h : Entries (Field P) close ts)
    (hP : ∀ t, P t → t.defaultsAreInPatterns) :
    (Tree.node .object (.token ['\x7b'] :: ts)).defaultsAreInPatterns := by
  have hkinds : ∀ t ∈ ts, ¬ t.isKind .objectAssignmentPattern := by
    intro t ht
    rcases h.isPart t ht with ht | ⟨s, rfl⟩ | ht
    · cases t with
      | node => cases ht
      | leaf kind s => cases kind <;> first | exact Bool.false_ne_true | cases ht
      | _ => exact Bool.false_ne_true
    · exact Bool.false_ne_true
    · rw [ht.isKind]
      exact Bool.false_ne_true
  have hany : (Tree.token ['\x7b'] :: ts).any (·.isKind .objectAssignmentPattern) = false :=
    List.any_eq_false.2 (List.forall_mem_cons.2 ⟨Bool.false_ne_true, hkinds⟩)
  rw [Tree.defaultsAreInPatterns, hany]
  simpa [Tree.defaultsAreInPatterns] using h.defaults fun v hv => hv.defaults hP

theorem valueCases_defaults :
    ValueCases (fun t => t.defaultsAreInPatterns) (fun t => t.defaultsAreInPatterns) where
  string _ _ := rfl
  name _ _ := rfl
  constant _ _ _ := rfl
  array ts hts := by simp [hts.defaults fun v hv => hv.defaults fun _ hu => hu, Tree.defaultsAreInPatterns]
  object ts hts := hts.defaults_object fun _ hu => hu
  parenthesized gap t gap' hgap ht hgap' := by
    simp [inParentheses, hgap.defaults, hgap'.defaults, ht, Tree.defaultsAreInPatterns]
  member t w ht _ := by simp [ht, Tree.defaultsAreInPatterns]
  index t gap u gap' ht hgap hu hgap' := by
    simp [hgap.defaults, hgap'.defaults, ht, hu, Tree.defaultsAreInPatterns]
  call t ts ht hts := by
    simp [ht, hts.defaults fun v hv => hv.defaults fun _ hu => hu, Tree.defaultsAreInPatterns]
  primary _ ht := ht
  arrow head gap gap' body hhead hgap hgap' hbody _ := by
    cases hhead with
    | nothing hgap'' =>
      simp [hgap.defaults, hgap'.defaults, hgap''.defaults, hbody, Tree.defaultsAreInPatterns]
    | name => simp [hgap.defaults, hgap'.defaults, hbody, Tree.defaultsAreInPatterns]

theorem Value.defaults {t : Tree} (ht : Value t) : t.defaultsAreInPatterns :=
  valueCases_defaults.value ht

theorem Ending.defaults (h : Ending closed ts) : Tree.defaultsOfListAreInPatterns ts := by
  cases h with
  | semicolon hgap => simp [hgap.isGap.defaults, Tree.defaultsAreInPatterns]
  | nothing => rfl

theorem Declaration.defaults (h : Declaration closed t) : t.defaultsAreInPatterns := by
  cases h with
  | mk _ hgap₁ _ hgap₂ hgap₃ hv hts =>
    simp [hgap₁.spaces.isGap.defaults, hgap₂.defaults, hgap₃.defaults,
      Value.defaults hv, hts.defaults, Tree.defaultsAreInPatterns]

theorem Statement.defaults (h : Statement d m closed t) : t.defaultsAreInPatterns := by
  cases h with
  | declaration h => exact h.defaults
  | exported hgap h =>
    simp [hgap.spaces.isGap.defaults, h.defaults, Tree.defaultsAreInPatterns]
  | default hgap₁ hgap₂ hv hts =>
    simp [hgap₁.spaces.isGap.defaults, hgap₂.spaces.isGap.defaults,
      Value.defaults hv, hts.defaults, Tree.defaultsAreInPatterns]
  | expression hv _ hts =>
    simp [Value.defaults hv, hts.defaults, Tree.defaultsAreInPatterns]
  | other halone => exact halone.defaults

theorem Module.defaults (h : Module d m ts) : Tree.defaultsOfListAreInPatterns ts := by
  induction h with
  | done hgap => exact hgap.defaults
  | closed hgap ht _ ih | opened hgap ht _ _ ih => simp [hgap.defaults, ht.defaults, ih]

/-- A script in plain form is well formed, and its tree is the one that it spells. -/
theorem ofScript_eq_ok (h : Module d m ts) :
    Tree.ofScript d (Tree.textOfList ts) = .ok (.node .program ts) := by
  obtain ⟨reach, hread⟩ := script_reads (n := 8 * (Tree.textOfList ts).length + 6) h (by omega)
    (State.ofScript (Tree.textOfList ts)) [] (List.append_nil _).symm rfl
  have hdefaults : (Tree.node .program ts).defaultsAreInPatterns = true := by
    simp [Tree.defaultsAreInPatterns, h.defaults]
  unfold Tree.ofScript depthOf
  rw [hread]
  simp [State.ofScript, hdefaults]

end AssetEmbed.Script
