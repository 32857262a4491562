import AssetEmbed.Proofs.Script.Plain.Module

/-!
# Reading plain modules

The grammar reads a module in plain form as the tree it is.
-/

namespace AssetEmbed.Script

open Step

/-! ## 2. Semicolons -/

namespace Semicolon

/-- A text at which the rule of semicolons stops: it begins with no blank, no brace and no comment. -/
def Bare (s : Text) : Prop := ∀ c ∈ s.head?, isBlank c = false ∧ isSpace c = false ∧ c ≠ '\x7d' ∧ c ≠ '/'

variable {d : Dialect} {inExpression : Bool} {s rest : Text}

theorem isBlank_of_not_isSpace {c : Char} (h : isSpace c = false) : isBlank c = false := by
  simp only [isSpace, Bool.or_eq_false_iff, Bool.and_eq_false_iff, decide_eq_false_iff_not,
    beq_eq_false_iff_ne] at h
  simp only [isBlank, Bool.or_eq_false_iff, Bool.and_eq_false_iff, decide_eq_false_iff_not,
    beq_eq_false_iff_ne]
  omega

theorem bare_of_word {w : Text} (hw : IsWord w) : Bare (w ++ rest) := by
  obtain ⟨c, cs, rfl⟩ := List.exists_cons_of_ne_nil hw.ne_nil
  rintro d hd
  cases hd
  have hchar := hw.wordChars c List.mem_cons_self
  have hspace : isSpace c = false := by
    simp only [isWordChar, Bool.and_eq_true, Bool.not_eq_true'] at hchar
    exact hchar.1.2
  have hne : ∀ sign ∈ ['\x7d', '/'], c ≠ sign := ne_of_forall_mem_eq_false hchar (by decide)
  exact ⟨isBlank_of_not_isSpace hspace, hspace, hne _ (by decide), hne _ (by decide)⟩

theorem afterBreak_of_bare (hs : ∀ c ∈ s, c ∈ lineBlanks) (hrest : Bare rest) :
    afterBreak d inExpression (s ++ rest) = beginsStatement d inExpression rest := by
  have hdrop : (s ++ rest).dropWhile isBlank = rest := by
    rw [List.dropWhile_append_of_pos fun c hc => (of_lineBlanks (hs c hc)).2.1]
    cases rest with
    | nil => rfl
    | cons c rest => rw [List.dropWhile_cons, (hrest c rfl).1]; rfl
  unfold afterBreak skipUpTo
  rw [hdrop]
  cases rest with
  | nil => rfl
  | cons c rest =>
    have hslash := (hrest c rfl).2.2.2
    split <;> simp_all

theorem breaksLine_of_bare {c : Char} (h : isBlank c = false) : breaksLine d c = false := by
  have hline : c ≠ '\n' ∧ c ≠ '\u2028' ∧ c ≠ '\u2029' := by
    refine ⟨?_, ?_, ?_⟩ <;> rintro rfl <;> exact absurd h (by decide)
  simp [breaksLine, hline]

theorem typed_spaces (hs : ∀ c ∈ s, c ∈ lineBlanks) (hrest : Bare rest) :
    typed d inExpression (s ++ rest) =
      if '\n' ∈ s then beginsStatement d inExpression rest else rest.isEmpty := by
  induction s with
  | nil =>
    cases rest with
    | nil => rfl
    | cons c rest =>
      obtain ⟨hblank, -, hbrace, -⟩ := hrest c rfl
      simp [typed, hblank, hbrace]
  | cons c s ih =>
    obtain ⟨-, hblank, hbrace, -⟩ := of_lineBlanks (hs c List.mem_cons_self)
    have hmore := ih fun c hc => hs c (List.mem_cons_of_mem _ hc)
    by_cases hc : c = '\n'
    · subst hc
      simp [typed, afterBreak_of_bare (fun c hc => hs c (List.mem_cons_of_mem _ hc)) hrest, isBlank]
    · simp [typed, hblank, hbrace, hc, hmore, Ne.symm hc]

theorem plainUpTo_spaces {bound : Text} (hs : ∀ c ∈ s, c ∈ lineBlanks) (hrest : Bare rest)
    (hbound : (s ++ rest).length ≤ bound.length) :
    plainUpTo inExpression bound (s ++ rest) =
      if '\n' ∈ s then beginsStatement .plain inExpression rest else rest.isEmpty := by
  induction s generalizing bound with
  | nil =>
    cases rest with
    | nil => cases bound <;> rfl
    | cons c rest =>
      obtain ⟨hblank, -, hbrace, hslash⟩ := hrest c rfl
      cases bound with
      | nil => cases hbound
      | cons b bound => simp [plainUpTo, hblank, hbrace, hslash, breaksLine_of_bare]
  | cons c s ih =>
    obtain ⟨-, hblank, hbrace, hslash⟩ := of_lineBlanks (hs c List.mem_cons_self)
    cases bound with
    | nil => cases hbound
    | cons b bound =>
      -- a line break decides what is asked about the rest; before it, blanks are passed over
      have hmore := ih (fun c hc => hs c (List.mem_cons_of_mem _ hc)) (Nat.le_of_succ_le_succ hbound)
      by_cases hc : c = '\n'
      · subst hc
        simp [plainUpTo, breaksLine, afterBreak_of_bare (fun c hc => hs c (List.mem_cons_of_mem _ hc)) hrest]
      · have hline : breaksLine .plain c = false := by
          have hall : ∀ c ∈ lineBlanks, c ≠ '\n' → breaksLine .plain c = false := by decide
          exact hall c (hs c List.mem_cons_self) hc
        simp [plainUpTo, hblank, hbrace, hslash, hline, hmore, Ne.symm hc]

/-- Behind white space, a semicolon may be missing if a line break is in it and a statement begins behind
it, or if nothing is. -/
theorem mayMiss_spaces (hs : ∀ c ∈ s, c ∈ lineBlanks) (hrest : Bare rest) :
    mayMiss d inExpression (s ++ rest) =
      if '\n' ∈ s then beginsStatement d inExpression rest else rest.isEmpty := by
  have hhere : mayMissHere d inExpression (s ++ rest) =
      if '\n' ∈ s then beginsStatement d inExpression rest else rest.isEmpty := by
    unfold mayMissHere
    split
    · exact typed_spaces hs hrest
    next hplain =>
      have hd : d = .plain := by cases d <;> first | rfl | exact absurd rfl hplain
      rw [hd]
      exact plainUpTo_spaces hs hrest (Nat.le_refl _)
  -- no comment begins behind the blanks either, so there is no second place to look at
  have hcomment : comment? ((s ++ rest).dropWhile isSpace) = none := by
    rw [List.dropWhile_append_of_pos fun c hc => (of_lineBlanks (hs c hc)).1]
    cases rest with
    | nil => rfl
    | cons c rest =>
      obtain ⟨-, hspace, -, hslash⟩ := hrest c rfl
      rw [List.dropWhile_cons, hspace]
      unfold comment?
      split <;> simp_all
  unfold mayMiss
  cases hsrest : s ++ rest with
  | nil =>
    rw [← hhere, hsrest]
    rfl
  | cons b bound =>
    unfold mayMissUpTo
    rw [← hsrest, hcomment, hhere, Bool.or_false]

end Semicolon

namespace Grammar

/-! ## 3. The ends of statements -/

/-- Whether a statement without a semicolon ends in front of a text. -/
structure LineEnds (d : Dialect) (rest : Text) : Prop where
  mayMiss : ∀ inExpression, Semicolon.mayMiss d inExpression rest = true
  halts : Halts [':', ','] rest

/-- What may stand behind a statement with its semicolon, or behind one without it. -/
def AfterStatement (d : Dialect) (closed : Bool) (rest : Text) : Prop := closed = false → LineEnds d rest

variable {g : Grammar} {c : Context} {d : Dialect} {n : Nat} {text : Text} {trees gap : List Tree}
  {next : Text → Prop} {t : Tree} {m : Source}

theorem afterStatement_closed (rest : Text) : AfterStatement d true rest := fun h => by cases h

theorem Ending.halts {closed : Bool} {ts : List Tree} (h : Ending closed ts) {rest : Text}
    (hrest : AfterStatement d closed rest) : Halts [':', ','] (Tree.textOfList ts ++ rest) := by
  cases h with
  | semicolon hgap =>
    rw [Tree.textOfList_append, List.append_assoc]
    exact halts_of_beginsWith (l := [';']) (by decide) (by decide)
      (hgap.isGap.beyond (beginsWith_cons (by simp) _))
  | nothing => exact (hrest rfl).halts

theorem Ending.reads {closed : Bool} {ts : List Tree} (h : Ending closed ts) (inExpression : Bool) :
    (semicolon d inExpression).Reads (Tree.textOfList ts) ts (AfterStatement d closed) := by
  intro s rest hs hrest
  cases h with
  | @semicolon gap hgap =>
    -- the semicolon is there, so none may be missing before it
    have hmiss : Semicolon.mayMiss d inExpression s.rest = false := by
      have hbare : Semicolon.Bare (';' :: rest) := by
        rintro c hc
        cases hc
        decide
      rw [hs, Tree.textOfList_append, List.append_assoc]
      show Semicolon.mayMiss d inExpression (Tree.textOfList gap ++ ';' :: rest) = false
      rw [Semicolon.mayMiss_spaces hgap.chars hbare]
      split <;> rfl
    have hsign : (sign ";").Reads (Tree.textOfList gap ++ [';']) (gap ++ [.token [';']]) fun _ => True :=
      sign_reads rfl (by decide) hgap.isGap
    unfold semicolon
    rw [hmiss]
    simp only [Tree.textOfList_append] at hs ⊢
    exact hsign s rest hs trivial
  | nothing =>
    change s.rest = rest at hs
    subst hs
    unfold semicolon
    rw [(hrest rfl).mayMiss inExpression]
    exact ⟨s.reach, rfl⟩

/-! ## 4. Statements -/

@[simp]
theorem ofDepth_dialect (d : Dialect) (n : Nat) : (ofDepth d n).dialect = d := by
  cases n <;> rfl

theorem binding_reads {w : Text} (hw : IsName w) (hgap : Gap gap) :
    ((ofDepth d (n + 1)).read .binding).Reads (Tree.textOfList gap ++ w) (gap ++ [.leaf .identifier w])
      Breaks := by
  have hopens : ∀ s, AtWord w s → opens s := fun s hs => AtWord.opens hw.isWord hs
  have hsign : ∀ {sign : String} {c : Char}, sign.toList.head? = some c → isWordChar c = false →
      (Step.sign sign).Fails (Beyond (AtWord w)) := fun hsign hc =>
    sign_fails hsign fun s hs => ⟨hopens s hs, AtWord.head_ne hw.isWord hs hc⟩
  have hobject : (ofDepth d n).objectPattern.Fails (Beyond (AtWord w)) :=
    Fails.node_beyond hopens (hsign rfl (by decide)).andThen
  have harray : (ofDepth d n).arrayPattern.Fails (Beyond (AtWord w)) :=
    Fails.node_beyond hopens (hsign rfl (by decide)).andThen
  have hname : ((ofDepth d n).name []).Reads (Tree.textOfList gap ++ w) (gap ++ [.leaf .identifier w])
      Breaks := by
    refine wordBut_reads hw.isWord (hw.contains ?_) (fun _ h => h) hgap
    split <;> decide
  have hat : ∀ rest, Breaks rest → Beyond (AtWord w) (Tree.textOfList gap ++ w ++ rest) := by
    intro rest hrest
    rw [List.append_assoc]
    exact hgap.beyond ⟨rest, hrest, rfl⟩
  exact Reads.orElse_of_fails hobject (Reads.orElse_of_fails harray hname hat) hat

theorem declarator_reads {w : Text} {v : Tree} {gap₁ gap₂ gap₃ : List Tree} (hw : IsName w) (hgap₂ : Gap gap₂)
    (hgap₃ : Gap gap₃) (hv : Readable (ofDepth d (n + 1)) v) (hgap₁ : Gap gap₁) :
    ((ofDepth d (n + 1)).declarator .final).Reads
      (Tree.textOfList gap₁ ++ (Tree.node .variableDeclarator
        (.leaf .identifier w :: (gap₂ ++ .token ['='] :: (gap₃ ++ [v])))).text)
      (gap₁ ++ [.node .variableDeclarator (.leaf .identifier w :: (gap₂ ++ .token ['='] :: (gap₃ ++ [v])))])
      Follows := by
  have hequals : (sign "=").Reads (Tree.textOfList gap₂ ++ ['=']) (gap₂ ++ [.token ['=']]) fun _ => True :=
    sign_reads rfl (by decide) hgap₂
  have hvalue := hequals.andThen (hv.reads .final gap₃ hgap₃) fun _ _ => trivial
  have hat : ∀ rest, Beyond (BeginsWith ['=']) (Tree.textOfList gap₂ ++ ['='] ++ rest) := by
    intro rest
    rw [List.append_assoc]
    exact hgap₂.beyond (beginsWith_cons (by simp) _)
  -- without a type, the sign of equality comes next
  have hsign : ∀ {sign : String} {c : Char}, sign.toList.head? = some c → c ≠ '=' →
      (Step.sign sign).Fails (Beyond (BeginsWith ['='])) := fun hsign hc =>
    sign_fails hsign fun s hs => ⟨hs.opens (by decide), hs.head_ne (by simpa using hc)⟩
  have hascription : ((ofDepth d (n + 1)).ascription Context.final.mayEnd).Fails (Beyond (BeginsWith ['='])) :=
    Fails.node_beyond (fun s hs => hs.opens (by decide)) (hsign rfl (by decide)).andThen
  have htyped : ((ofDepth d (n + 1)).typedOptional
      ((sign "!" >> (ofDepth d (n + 1)).ascription Context.final.mayEnd) <|>
      (ofDepth d (n + 1)).ascription Context.final.mayEnd)).Reads [] [] (Beyond (BeginsWith ['='])) :=
    typedOptional_of_fails ((hsign rfl (by decide)).andThen.orElse hascription)
  have hinside := (binding_reads (d := d) (n := n) hw .none).andThen
    (htyped.andThen (Reads.optional hvalue) fun rest _ => by
      rw [List.append_assoc]
      exact hat _) fun rest _ => by
      rw [List.nil_append, List.append_assoc]
      exact Beyond.breaks (by decide) (hat _)
  have hall := hinside.node .variableDeclarator (fun rest _ => by
    rw [List.append_assoc, List.append_assoc]
    exact hw.isWord.opens _) hgap₁
  simpa [declarator, initializer, Tree.text, Tree.textOfList, Tree.textOfList_append] using hall

theorem isWord_of_declarationWords {word : String} (h : word ∈ "export" :: "default" :: declarationWords) :
    IsWord word.toList := by
  have hall : ∀ word ∈ "export" :: "default" :: declarationWords, word.toList ≠ [] ∧
      (∀ c ∈ word.toList, isWordChar c = true) ∧ word.toList.head?.any isDecimal = false := by decide
  obtain ⟨hne, hchars, hhead⟩ := hall word h
  exact ⟨hne, hchars, hhead⟩

theorem declarationWord_reads {word : String} {gap₁ : List Tree} {w : Text} (hword : word ∈ declarationWords)
    (hgap₁ : Inline gap₁) (hw : IsName w) (hgap : Gap gap) :
    (keyword "const" <|> (keyword "let" >> Step.choose fun s =>
        if Semicolon.mayMiss d true s.rest then fail else nothing)).Reads
      (Tree.textOfList gap ++ word.toList) (gap ++ [.token word.toList])
      fun rest => ∃ more, rest = Tree.textOfList gap₁ ++ (w ++ more) := by
  have hbreaks : ∀ rest, (∃ more, rest = Tree.textOfList gap₁ ++ (w ++ more)) → Breaks rest := by
    rintro rest ⟨more, rfl⟩
    exact hgap₁.breaks _
  simp only [declarationWords, List.mem_cons, List.not_mem_nil, or_false] at hword
  rcases hword with rfl | rfl
  · exact Reads.orElse (keyword_reads (isWord_of_declarationWords (by decide)) hbreaks hgap)
  · have hconst : (keyword "const").Fails (Beyond (AtWord "let".toList)) :=
      keyword_fails (isWord_of_declarationWords (by decide)) (by decide)
    have hlet := keyword_reads (k := "let") (isWord_of_declarationWords (by decide)) hbreaks hgap
    -- the word is followed by its name on the same line, so no semicolon may be missing between them
    refine Reads.orElse_of_fails hconst (hlet.thenNothing (Reads.choose fun s rest hs hrest => ?_)) ?_
    · obtain ⟨more, rfl⟩ := hrest
      have hbare : Semicolon.Bare (w ++ more) := Semicolon.bare_of_word hw.isWord
      rw [List.nil_append] at hs
      rw [hs, Semicolon.mayMiss_spaces hgap₁.spaces.chars hbare, if_neg hgap₁.no_break]
      obtain ⟨c, cs, rfl⟩ := List.exists_cons_of_ne_nil hw.isWord.ne_nil
      exact nothing_reads
    · intro rest hrest
      rw [List.append_assoc]
      exact hgap.beyond ⟨rest, hbreaks rest hrest, rfl⟩

theorem sign_fails_at_halts {sign : String} {c : Char} {excluded : List Char}
    (hsign : sign.toList.head? = some c) (hc : c ∈ excluded) : (Step.sign sign).Fails (Halts excluded) := by
  have hfails : (Step.sign sign).Fails (Beyond fun s => opens s ∧ s.head? ≠ some c) :=
    sign_fails hsign fun _ hs => hs
  refine hfails.mono ?_
  rintro s ⟨gap, rest, hgap, hrest, -, hhead, rfl⟩
  exact hgap.beyond ⟨hrest.opens, fun heq => hhead c heq hc⟩

theorem lexicalDeclaration_reads {closed : Bool} (ht : Declaration closed t)
    (hread : ∀ v, Value v → v.text.length < t.text.length → Readable (ofDepth d (n + 1)) v) (hgap : Gap gap) :
    (ofDepth d (n + 1)).lexicalDeclaration.Reads (Tree.textOfList gap ++ t.text) (gap ++ [t])
      (AfterStatement d closed) := by
  obtain ⟨hword, hgap₁, hw, hgap₂, hgap₃, hv, hts⟩ := ht
  rename_i word w v gap₁ gap₂ gap₃ ts
  -- the value is shorter than its declaration, so it is readable
  have hvalue : Readable (ofDepth d (n + 1)) v := hread v hv (by
    simp only [Tree.text, Tree.textOfList, Tree.textOfList_append, List.length_append, List.length_cons]
    omega)
  have hkeyword := declarationWord_reads (d := d) hword hgap₁ hw .none
  have hmore : (many (sign "," >> (ofDepth d (n + 1)).declarator .final)).Reads [] [] (Halts [':', ',']) :=
    (sign_fails_at_halts (c := ',') rfl (by simp)).andThen.many
  have hdeclarator := ((declarator_reads hw hgap₂ hgap₃ hvalue hgap₁.spaces.isGap).mono
    fun rest (hrest : Halts [':', ','] rest) => hrest.mono (by simp)).thenNothing hmore
  have hend : (Step.choose fun s => semicolon d (endsInValue s)).Reads (Tree.textOfList ts) ts
      (AfterStatement d closed) := Reads.choose fun s _ _ _ => Ending.reads hts _
  have hvalued := hdeclarator.andThen hend fun rest hrest => Ending.halts hts hrest
  have hinside := hkeyword.andThen hvalued fun rest _ => by
    refine ⟨Tree.textOfList (gap₂ ++ .token ['='] :: (gap₃ ++ [v])) ++ Tree.textOfList ts ++ rest, ?_⟩
    simp [Tree.text, Tree.textOfList]
  have hall := hinside.node .lexicalDeclaration (fun rest _ => by
    rw [List.append_assoc, List.append_assoc]
    exact (isWord_of_declarationWords (List.mem_cons_of_mem _ (List.mem_cons_of_mem _ hword))).opens _) hgap
  simpa [lexicalDeclaration, declarators, sepBy1, Tree.text, Tree.textOfList, Tree.textOfList_append] using hall

theorem keyword_fails_at_starts {word : String} (hspecial : word ∈ specialWords)
    (hconstant : ∀ constant ∈ constants, constant.2 ≠ word) : (keyword word).Fails (Beyond Starts) := by
  have hsign : (keyword word).Fails (Beyond (BeginsWith startSigns)) :=
    keyword_fails_of_breaks fun s hs => ⟨hs.opens (by decide), breaks_of_beginsWith (by decide) hs⟩
  rintro s ⟨gap, rest, hgap, hrest, hs⟩
  rcases hrest with hrest | ⟨w, more, hw, hmore, rfl⟩
  · exact hsign s ⟨gap, rest, hgap, hrest, hs⟩
  · have hne : word.toList ≠ w := by
      have hnot : String.ofList w ∉ [word] :=
        hw.not_mem (by simpa using hspecial) (by simpa using hconstant)
      rintro rfl
      rw [String.ofList_toList] at hnot
      exact hnot List.mem_cons_self
    exact keyword_fails hw.isWord hne s ⟨gap, _, hgap, ⟨more, hmore.breaks, rfl⟩, hs⟩

theorem colon_fails : (sign ":").Fails Unlabelled := by
  intro s hs
  rcases hs with (hs | hs) | hs
  · exact sign_fails_at_halts (c := ':') rfl (by simp) s hs
  · have hfails : (sign ":").Fails (Beyond (BeginsWith ['.', '[', '('])) :=
      sign_fails rfl (BeginsWith.opens_head_ne (by decide) (by decide))
    exact hfails s (beyond_of hs)
  · have hfails : (sign ":").Fails (Beyond (BeginsWith ['='])) :=
      sign_fails rfl (BeginsWith.opens_head_ne (by decide) (by decide))
    exact hfails s hs

theorem labeledStatement_fails : g.labeledStatement.Fails (Beyond Starts) := by
  refine Fails.node (fun s hs => hs.opens) ?_
  intro s hs
  rcases hs with hs | ⟨w, rest, hw, hrest, hs⟩
  -- a sign is no name that could be a label
  · have hbreaks : ∀ s, BeginsWith startSigns s → opens s ∧ Breaks s := fun s hs =>
      ⟨hs.opens (by decide), breaks_of_beginsWith (by decide) hs⟩
    have hundefined : (keywordLeaf .undefined "undefined").Fails (Beyond (BeginsWith startSigns)) := by
      refine lexeme_fails (fun s hs => (hbreaks s hs).1) fun s hs => ?_
      unfold exactWord
      rw [word?_eq_none (hbreaks s hs).2]
      rfl
    have hreference : g.reference.Fails (Beyond (BeginsWith startSigns)) :=
      hundefined.orElse (wordBut_fails hbreaks)
    exact hreference.andThen s (beyond_of hs)
  · cases hw with
    | name hw =>
      have hfails := (reference_reads (g := g) hw .none).thenFails
        (colon_fails.andThen (q := g.read .statement)) fun _ hs => hs.breaks
      exact hfails s ⟨rest, hrest, hs⟩
    | @constant kind w hw =>
      -- a constant is no label, since its word is reserved
      have hat : AtWord w.toList s.rest := ⟨rest, hrest.breaks, hs⟩
      have hword := isWord_of_constant hw
      have hundefined : (keywordLeaf .undefined "undefined").Fails (Beyond (AtWord w.toList)) := by
        refine lexeme_fails (fun s hs => AtWord.opens hword hs) fun s hs => exactWord_eq_none hword ?_ hs
        have hne : ∀ constant ∈ constants, "undefined".toList ≠ constant.2.toList := by decide
        exact hne _ hw
      have hreserved : (wordBut .identifier (if g.dialect.hasTypes then expressionWords
          else reservedWords.erase "export" ++ expressionWords)).Fails (Beyond (AtWord w.toList)) := by
        refine lexeme_fails (fun s hs => AtWord.opens hword hs) ?_
        rintro s ⟨more, hmore, rfl⟩
        rw [word?_append hword hmore]
        have hmem : ∀ constant ∈ constants, constant.2 ∈ expressionWords := by decide
        have hcontains : (if g.dialect.hasTypes then expressionWords
            else reservedWords.erase "export" ++ expressionWords).contains (String.ofList w.toList) = true := by
          rw [String.ofList_toList, List.contains_eq_mem, decide_eq_true_iff]
          split
          · exact hmem _ hw
          · exact List.mem_append_right _ (hmem _ hw)
        simp only [Option.bind_some, hcontains, if_true]
      exact (Fails.andThen (hundefined.orElse hreserved)) s (beyond_of hat)

theorem expressionStatement_reads {closed : Bool} {v : Tree} {ts : List Tree} (hv : Readable (ofDepth d n) v)
    (hts : Ending closed ts) (hgap : Gap gap) :
    (ofDepth d n).expressionStatement.Reads
      (Tree.textOfList gap ++ (Tree.node .expressionStatement (v :: ts)).text)
      (gap ++ [.node .expressionStatement (v :: ts)]) (AfterStatement d closed) := by
  have hend : (semicolon (ofDepth d n).dialect true).Reads (Tree.textOfList ts) ts
      (AfterStatement d closed) := by
    rw [ofDepth_dialect]
    exact Ending.reads hts true
  have hinside := (expressions_reads (c := .final) hv .none).andThen hend fun rest hrest =>
    Ending.halts hts hrest
  exact hinside.node _ (fun rest hrest => by
    rw [List.append_assoc]
    exact (hv.starts _ ((Ending.halts hts hrest).mono (by simp))).opens) hgap

/-- A statement that begins with a word is read in the way that the word decides. -/
theorem statementStep_reads_word {s : State} {rest : Text} {w : Text} (hw : IsWord w) (hgap : Gap gap)
    (hs : s.rest = Tree.textOfList gap ++ rest) (hat : AtWord w rest) :
    g.statementStep s = g.wordStatement (String.ofList w) s := by
  have hword := wordAt?_of_atWord hw hat
  have hne : ∀ sign ∈ [';', '\x7b', '@'], rest.head? ≠ some sign := by
    have hsigns : ∀ sign ∈ [';', '\x7b', '@'], isWordChar sign = false := by decide
    exact fun sign hsign => AtWord.head_ne hw hat (hsigns sign hsign)
  have hnil : rest ≠ [] := by
    rintro rfl
    obtain ⟨more, -, heq⟩ := hat
    exact hw.ne_nil (List.append_eq_nil_iff.1 heq.symm).1
  simp only [statementStep, Step.choose]
  rw [hgap.ahead hs (AtWord.opens hw hat)]
  split
  next => exact absurd rfl hnil
  next => exact absurd rfl (hne ';' (by simp))
  next => exact absurd rfl (hne '\x7b' (by simp))
  next => exact absurd rfl (hne '@' (by simp))
  next => rw [hword]

theorem wordStatement_value {w : Text} (hw : ValueWord w) :
    g.wordStatement (String.ofList w) = g.otherStatement := by
  have hwords : ∀ word ∈ ["var", "let", "const", "using", "await", "function", "async", "class", "if", "switch",
      "for", "while", "do", "try", "with", "break", "continue", "return", "throw", "debugger", "import",
      "export", "enum", "interface", "abstract", "type", "namespace", "module", "declare"], String.ofList w ≠ word := by
    rintro word hmem rfl
    exact hw.not_mem (by decide) (by decide) hmem
  unfold wordStatement
  split <;> first
    | rfl
    | (next heq => exact absurd heq (hwords _ (by decide)))

theorem statementStep_reads_expression {closed : Bool} {v : Tree} {ts : List Tree}
    (hv : Readable (ofDepth d n) v) (hvalue : Value v) (hblock : NoBlock v) (hts : Ending closed ts)
    (hgap : Gap gap) :
    (ofDepth d n).statementStep.Reads
      (Tree.textOfList gap ++ (Tree.node .expressionStatement (v :: ts)).text)
      (gap ++ [.node .expressionStatement (v :: ts)]) (AfterStatement d closed) := by
  have hstatement := expressionStatement_reads hv hts hgap
  intro s rest hs hrest
  have htext : (Tree.node .expressionStatement (v :: ts)).text ++ rest =
      v.text ++ (Tree.textOfList ts ++ rest) := by
    simp [Tree.text, Tree.textOfList]
  have hstarts := hv.starts _ ((Ending.halts hts hrest).mono (by simp))
  -- no label comes first, so what is left is an expression
  have hother : (ofDepth d n).otherStatement.Reads
      (Tree.textOfList gap ++ (Tree.node .expressionStatement (v :: ts)).text)
      (gap ++ [.node .expressionStatement (v :: ts)]) (AfterStatement d closed) := by
    refine Reads.orElse_of_fails labeledStatement_fails hstatement fun rest hrest => ?_
    rw [List.append_assoc]
    refine hgap.beyond ?_
    have hstarts := hv.starts _ ((Ending.halts hts hrest).mono (by simp))
    simpa [Tree.text, Tree.textOfList] using hstarts
  have hahead : s.rest = Tree.textOfList gap ++ (v.text ++ (Tree.textOfList ts ++ rest)) := by
    rw [hs, List.append_assoc, htext]
  rcases hstarts with hsign | ⟨w, more, hw, hmore, heq⟩
  -- a value that begins with a sign: with a brace a block is tried, and fails
  · have hword : wordAt? (v.text ++ (Tree.textOfList ts ++ rest)) = none :=
      wordAt?_eq_none (breaks_of_beginsWith (by decide) hsign)
    have heither : ((ofDepth d n).eitherStatement (ofDepth d n).block).Reads
        (Tree.textOfList gap ++ (Tree.node .expressionStatement (v :: ts)).text)
        (gap ++ [.node .expressionStatement (v :: ts)]) (AfterStatement d closed) := by
      refine Reads.afterTrial_of_fails (block_fails hblock hvalue) (fun rest hrest => ?_) hother
      rw [List.append_assoc]
      refine hgap.beyond ⟨?_, Tree.textOfList ts ++ rest, by simp [Tree.text, Tree.textOfList]⟩
      have hstarts := hv.starts _ ((Ending.halts hts hrest).mono (by simp))
      simpa [Tree.text, Tree.textOfList] using hstarts.opens
    simp only [statementStep, Step.choose]
    rw [hgap.ahead hahead (hsign.opens (by decide))]
    obtain ⟨c, hc, more, heq⟩ := hsign
    rw [heq] at hword ⊢
    simp only [startSigns, List.mem_cons, List.not_mem_nil, or_false] at hc
    rcases hc with rfl | rfl | rfl | rfl | rfl
    · simpa [hword] using hstatement s rest hs hrest
    · simpa [hword] using hstatement s rest hs hrest
    · simpa [hword] using hstatement s rest hs hrest
    · simpa [hword] using hstatement s rest hs hrest
    · exact heither s rest hs hrest
  · rw [statementStep_reads_word hw.isWord hgap hahead ⟨more, hmore.breaks, heq⟩, wordStatement_value hw]
    exact hother s rest hs hrest

/-! ## 5. Declarations -/

/-- Whether a text begins with the word of a declaration and a name. -/
def BeginsDeclaration (s : Text) : Prop :=
  ∃ word gap w more, word ∈ declarationWords ∧ Inline gap ∧ IsName w ∧ Breaks more ∧
    s = word.toList ++ (Tree.textOfList gap ++ (w ++ more))

theorem BeginsDeclaration.atWord {s : Text} (h : BeginsDeclaration s) :
    ∃ word ∈ declarationWords, AtWord word.toList s := by
  obtain ⟨word, gap, w, more, hword, hgap, -, -, rfl⟩ := h
  exact ⟨word, hword, _, hgap.breaks _, rfl⟩

theorem isWord_of_mem {word : String} (h : word ∈ declarationWords) : IsWord word.toList :=
  isWord_of_declarationWords (List.mem_cons_of_mem _ (List.mem_cons_of_mem _ h))

theorem BeginsDeclaration.opens {s : Text} (h : BeginsDeclaration s) : Step.opens s := by
  obtain ⟨word, hword, hat⟩ := h.atWord
  exact AtWord.opens (isWord_of_mem hword) hat

theorem Declaration.word {closed : Bool} (ht : Declaration closed t) :
    ∃ word ∈ declarationWords, ∀ rest, AtWord word.toList (t.text ++ rest) := by
  obtain ⟨hword, hgap₁, hw, hgap₂, hgap₃, hv, hts⟩ := ht
  rename_i word w v gap₁ gap₂ gap₃ ts
  refine ⟨word, hword, fun rest => ⟨_, hgap₁.breaks (Tree.textOfList (.node .variableDeclarator
    (.leaf .identifier w :: (gap₂ ++ .token ['='] :: (gap₃ ++ [v]))) :: ts) ++ rest), ?_⟩⟩
  simp [Tree.text, Tree.textOfList, Tree.textOfList_append]

theorem Declaration.begins {closed : Bool} (ht : Declaration closed t) (rest : Text) :
    BeginsDeclaration (t.text ++ rest) := by
  obtain ⟨hword, hgap₁, hw, hgap₂, hgap₃, hv, hts⟩ := ht
  rename_i word w v gap₁ gap₂ gap₃ ts
  have hequals : Beyond (BeginsWith ['=']) (Tree.textOfList gap₂ ++
      '=' :: (Tree.textOfList (gap₃ ++ [v]) ++ Tree.textOfList ts ++ rest)) :=
    hgap₂.beyond (beginsWith_cons (by simp) _)
  refine ⟨word, gap₁, w, _, hword, hgap₁, hw, Beyond.breaks (by decide) hequals, ?_⟩
  simp [Tree.text, Tree.textOfList, Tree.textOfList_append]

theorem keyword_fails_at_declaration {word : String} (hword : word ∉ declarationWords) :
    (keyword word).Fails (Beyond BeginsDeclaration) := by
  rintro s ⟨gap, rest, hgap, hrest, hs⟩
  obtain ⟨begin, hbegin, hat⟩ := hrest.atWord
  refine keyword_fails (isWord_of_mem hbegin) ?_ s ⟨gap, rest, hgap, hat, hs⟩
  intro heq
  rw [String.toList_inj] at heq
  exact hword (heq ▸ hbegin)

theorem enumDeclaration_fails : g.enumDeclaration.Fails (Beyond BeginsDeclaration) := by
  refine Fails.node (fun s hs => hs.opens) ?_
  rintro s ⟨word, gap, w, more, hword, hgap, hw, hmore, hs⟩
  have henum : (keyword "enum").Fails (Beyond (AtWord w)) := by
    refine keyword_fails hw.isWord ?_
    rintro rfl
    exact hw.not_special (by decide)
  have hat : Beyond (AtWord w) (Tree.textOfList gap ++ (w ++ more)) :=
    hgap.spaces.isGap.beyond ⟨more, hmore, rfl⟩
  -- the word const may begin an enumeration, though here a name follows it
  by_cases hconst : word = "const"
  · subst hconst
    have hread : (optional (keyword "const")).Reads "const".toList [.token "const".toList] Breaks :=
      Reads.optional (keyword_reads (isWord_of_mem hword) (fun _ h => h) .none)
    have hafter : (keyword "enum").Fails fun s => Breaks s ∧ Beyond (AtWord w) s := henum.mono fun _ hs => hs.2
    exact hread.thenFails hafter.andThen (fun _ hs => hs.1) s ⟨_, ⟨hgap.breaks _, hat⟩, hs⟩
  · have hstart : Beyond (AtWord word.toList) s.rest := by
      rw [hs]
      exact beyond_of ⟨_, hgap.breaks _, rfl⟩
    have hnone : (keyword "const").Fails (Beyond (AtWord word.toList)) :=
      keyword_fails (isWord_of_mem hword) fun heq => hconst (String.toList_inj.1 heq).symm
    have henum' : (keyword "enum").Fails (Beyond (AtWord word.toList)) := by
      refine keyword_fails (isWord_of_mem hword) fun heq => ?_
      rw [String.toList_inj] at heq
      subst heq
      exact absurd hword (by decide)
    exact (Fails.after hnone.optional henum'.andThen) s hstart

theorem variableDeclaration_fails : g.variableDeclaration.Fails (Beyond BeginsDeclaration) :=
  Fails.node_beyond (fun s hs => hs.opens) (keyword_fails_at_declaration (by decide)).andThen

theorem declaration_reads {closed : Bool} (ht : Declaration closed t)
    (hread : ∀ v, Value v → v.text.length < t.text.length → Readable (ofDepth d (n + 1)) v) (hgap : Gap gap) :
    (ofDepth d (n + 1)).declaration.Reads (Tree.textOfList gap ++ t.text) (gap ++ [t])
      (AfterStatement d closed) := by
  have hbegins : ∀ rest, AfterStatement d closed rest →
      Beyond BeginsDeclaration (Tree.textOfList gap ++ t.text ++ rest) := by
    intro rest _
    rw [List.append_assoc]
    exact hgap.beyond (Declaration.begins ht rest)
  have hlexical := lexicalDeclaration_reads ht hread hgap
  exact Reads.orElse (Reads.orElse_of_fails (typed_fails enumDeclaration_fails)
    (Reads.orElse_of_fails variableDeclaration_fails (Reads.orElse hlexical) hbegins) hbegins)

theorem statementStep_reads_declaration {closed : Bool} (ht : Declaration closed t)
    (hread : ∀ v, Value v → v.text.length < t.text.length → Readable (ofDepth d (n + 1)) v) (hgap : Gap gap) :
    (ofDepth d (n + 1)).statementStep.Reads (Tree.textOfList gap ++ t.text) (gap ++ [t])
      (AfterStatement d closed) := by
  have hlexical := lexicalDeclaration_reads ht hread hgap
  intro s rest hs hrest
  have hbegins := Declaration.begins ht rest
  have hahead : s.rest = Tree.textOfList gap ++ (t.text ++ rest) := by rw [hs, List.append_assoc]
  obtain ⟨word, hword, hat⟩ := hbegins.atWord
  rw [statementStep_reads_word (isWord_of_mem hword) hgap hahead hat, String.ofList_toList]
  simp only [declarationWords, List.mem_cons, List.not_mem_nil, or_false] at hword
  rcases hword with rfl | rfl
  · have hconst : ((ofDepth d (n + 1)).wordStatement "const").Reads (Tree.textOfList gap ++ t.text) (gap ++ [t])
        (AfterStatement d closed) :=
      Reads.orElse_of_fails (typed_fails enumDeclaration_fails) hlexical fun rest hrest => by
        rw [List.append_assoc]
        exact hgap.beyond (Declaration.begins ht rest)
    exact hconst s rest hs hrest
  · have hlet : ((ofDepth d (n + 1)).wordStatement "let").Reads (Tree.textOfList gap ++ t.text) (gap ++ [t])
        (AfterStatement d closed) := Reads.orElse hlexical
    exact hlet s rest hs hrest

/-! ## 6. Exports -/

def exportedWords : List String := "default" :: declarationWords

theorem isWord_of_exported {word : String} (h : word ∈ exportedWords) : IsWord word.toList :=
  isWord_of_declarationWords (List.mem_cons_of_mem _ h)

section Exports

variable {word : String} (hword : word ∈ exportedWords)

include hword

theorem sign_fails_at_exported {sign : String} {c : Char} (hsign : sign.toList.head? = some c)
    (hc : isWordChar c = false) : (Step.sign sign).Fails (Beyond (AtWord word.toList)) :=
  sign_fails hsign fun _ hs => ⟨AtWord.opens (isWord_of_exported hword) hs,
    AtWord.head_ne (isWord_of_exported hword) hs hc⟩

theorem keyword_fails_at_exported {other : String} (hother : other ∉ exportedWords) :
    (keyword other).Fails (Beyond (AtWord word.toList)) := by
  refine keyword_fails (isWord_of_exported hword) fun heq => ?_
  rw [String.toList_inj] at heq
  exact hother (heq ▸ hword)

theorem exportedNames_fails : g.exportedNames.Fails (Beyond (AtWord word.toList)) := by
  have hopens : ∀ s, AtWord word.toList s → opens s := fun s hs =>
    AtWord.opens (isWord_of_exported hword) hs
  have hnames : (specifiers g.exportSpecifier).Fails (Beyond (AtWord word.toList)) :=
    Fails.node_beyond hopens (sign_fails_at_exported hword rfl (by decide)).andThen
  exact ((sign_fails_at_exported hword rfl (by decide)).andThen.orElse hnames.andThen).andThen

theorem typedExport_fails : g.typedExport.Fails (Beyond (AtWord word.toList)) := by
  have hopens : ∀ s, AtWord word.toList s → opens s := fun s hs =>
    AtWord.opens (isWord_of_exported hword) hs
  have halias : g.importAlias.Fails (Beyond (AtWord word.toList)) :=
    Fails.node_beyond hopens (keyword_fails_at_exported hword (by decide)).andThen
  exact (keyword_fails_at_exported hword (by decide)).andThen.orElse (halias.orElse
    ((sign_fails_at_exported hword rfl (by decide)).andThen.orElse
      (keyword_fails_at_exported hword (by decide)).andThen))

/-- An export whose declaration is read; the two forms of exports without a declaration fail before it. -/
theorem exportStatement_reads {gap₁ : List Tree} {body : Text} (hgap₁ : Inline gap₁)
    (hat : ∀ rest, next rest → AtWord word.toList (body ++ rest))
    (hdeclared : ((keyword "default" >>
      (g.declaration <|> (g.expression .final >> semicolon g.dialect true))) <|> g.declaration).Reads
        (Tree.textOfList gap₁ ++ body) trees next) (hgap : Gap gap) :
    g.exportStatement.Reads (Tree.textOfList gap ++ ("export".toList ++ (Tree.textOfList gap₁ ++ body)))
      (gap ++ [.node .exportStatement (.token "export".toList :: trees)]) next := by
  have hexport : IsWord "export".toList := isWord_of_declarationWords (by decide)
  have hfollows : ∀ rest, next rest → Beyond (AtWord word.toList) (Tree.textOfList gap₁ ++ body ++ rest) := by
    intro rest hrest
    rw [List.append_assoc]
    exact hgap₁.spaces.isGap.beyond (hat rest hrest)
  have hbreaks : ∀ rest, Breaks (Tree.textOfList gap₁ ++ body ++ rest) := by
    intro rest
    rw [List.append_assoc]
    exact hgap₁.breaks _
  have hopens : ∀ rest, next rest → opens ("export".toList ++ (Tree.textOfList gap₁ ++ body) ++ rest) := by
    intro rest _
    rw [List.append_assoc]
    exact hexport.opens _
  have hkeyword := keyword_reads (k := "export") hexport (fun _ h => h) .none
  have hinside := Reads.orElse_of_fails (exportedNames_fails (g := g) hword) (Reads.orElse_of_fails
    (typed_fails (typedExport_fails (g := g) hword) (g := g)) hdeclared hfollows) hfollows
  exact (Reads.orElse (hkeyword.andThen hinside fun rest _ => hbreaks rest)).node _ hopens hgap

theorem statementStep_reads_export {gap₁ : List Tree} {body : Text} (hgap₁ : Inline gap₁)
    (hat : ∀ rest, next rest → AtWord word.toList (body ++ rest))
    (hdeclared : ((keyword "default" >>
      (g.declaration <|> (g.expression .final >> semicolon g.dialect true))) <|> g.declaration).Reads
        (Tree.textOfList gap₁ ++ body) trees next) (hgap : Gap gap) :
    g.statementStep.Reads (Tree.textOfList gap ++ ("export".toList ++ (Tree.textOfList gap₁ ++ body)))
      (gap ++ [.node .exportStatement (.token "export".toList :: trees)]) next := by
  have hexport : IsWord "export".toList := isWord_of_declarationWords (by decide)
  have hstatement := exportStatement_reads hword hgap₁ hat hdeclared hgap
  have hread : (g.wordStatement "export").Reads
      ((Tree.textOfList gap ++ "export".toList) ++ (Tree.textOfList gap₁ ++ body))
      (gap ++ [.node .exportStatement (.token "export".toList :: trees)]) next := by
    simp only [wordStatement]
    refine Reads.afterTrial (keyword_reads hexport (fun _ h => h) hgap) (fun rest _ => ?_) ?_
    · rw [List.append_assoc]
      exact hgap₁.breaks _
    rintro t ⟨rest, hrest, ht⟩
    -- nothing but blanks of the same line stands before the next word
    have hmiss : Semicolon.mayMiss g.dialect true t.rest = false := by
      obtain ⟨more, -, heq⟩ := hat rest hrest
      rw [ht, List.append_assoc, heq, Semicolon.mayMiss_spaces hgap₁.spaces.chars
        (Semicolon.bare_of_word (isWord_of_exported hword)), if_neg hgap₁.no_break]
      obtain ⟨c, cs, hcons⟩ := List.exists_cons_of_ne_nil (isWord_of_exported hword).ne_nil
      rw [hcons]
      rfl
    dsimp only
    rw [hmiss, if_neg Bool.false_ne_true, List.append_assoc]
    split
    · exact hstatement
    · exact Reads.orElse hstatement
  intro s rest hs hrest
  have hahead : s.rest =
      Tree.textOfList gap ++ ("export".toList ++ (Tree.textOfList gap₁ ++ (body ++ rest))) := by
    rw [hs]
    simp only [List.append_assoc]
  -- the word decides how the statement is read
  rw [statementStep_reads_word hexport hgap hahead ⟨_, hgap₁.breaks _, rfl⟩, String.ofList_toList]
  rw [List.append_assoc] at hread
  exact hread s rest hs hrest

end Exports

theorem classTail_fails {named : Bool} : (g.classTail named).Fails (Beyond Starts) :=
  (keyword_fails_at_starts (by decide) (by decide)).andThen

theorem declaration_fails : g.declaration.Fails (Beyond Starts) := by
  have hopens : ∀ s, Starts s → opens s := fun s hs => hs.opens
  -- every declaration begins with a word of its own, which no value begins with
  have hkeyword : ∀ {word : String}, word ∈ specialWords → (∀ constant ∈ constants, constant.2 ≠ word) →
      (keyword word).Fails (Beyond Starts) := fun hspecial hconstant =>
    keyword_fails_at_starts hspecial hconstant
  have henum : g.enumDeclaration.Fails (Beyond Starts) :=
    Fails.node_beyond hopens (.after (hkeyword (by decide) (by decide)).optional
      (hkeyword (by decide) (by decide)).andThen)
  have hvariable : g.variableDeclaration.Fails (Beyond Starts) :=
    Fails.node_beyond hopens (hkeyword (by decide) (by decide)).andThen
  have hlexical : g.lexicalDeclaration.Fails (Beyond Starts) :=
    Fails.node_beyond hopens ((hkeyword (by decide) (by decide)).orElse
      (hkeyword (by decide) (by decide)).andThen).andThen
  have hhead : (optional (keyword "async") >> keyword "function").Fails (Beyond Starts) :=
    .after (hkeyword (by decide) (by decide)).optional (hkeyword (by decide) (by decide))
  have hfunction : g.functionDeclaration.Fails (Beyond Starts) :=
    (Fails.node_beyond hopens hhead.andThen).orElse ((Fails.node_beyond hopens hhead.andThen).orElse
      (typed_fails (Fails.node_beyond hopens hhead.andThen)))
  have hdecorators : (many g.decorator).Reads [] [] (Beyond Starts) :=
    (decorator_fails fun s hs => ⟨hs.opens, hs.head (by decide) (by decide)⟩).many
  have hclass : g.classDeclaration.Fails (Beyond Starts) :=
    (Fails.node_beyond hopens (.after hdecorators classTail_fails)).orElse
      (typed_fails (Fails.node_beyond hopens
        (.after hdecorators (hkeyword (by decide) (by decide)).andThen)))
  have husing : g.usingDeclaration.Fails (Beyond Starts) :=
    Fails.node_beyond hopens (.after (hkeyword (by decide) (by decide)).optional
      (hkeyword (by decide) (by decide)).andThen)
  have hinterface : g.interfaceDeclaration.Fails (Beyond Starts) :=
    Fails.node_beyond hopens (hkeyword (by decide) (by decide)).andThen
  have hleading : ∀ {word : String}, word ∈ specialWords → (∀ constant ∈ constants, constant.2 ≠ word) →
      (g.leadingWord word).Fails (Beyond Starts) := fun hspecial hconstant =>
    (hkeyword hspecial hconstant).andThen
  have halias : g.typeAlias.Fails (Beyond Starts) :=
    Fails.node_beyond hopens (hleading (by decide) (by decide)).andThen
  have hmodule : g.moduleDeclaration.Fails (Beyond Starts) :=
    (Fails.node_beyond hopens (hleading (by decide) (by decide)).andThen).orElse
      (Fails.node_beyond hopens (hleading (by decide) (by decide)).andThen)
  have himport : g.importAlias.Fails (Beyond Starts) :=
    Fails.node_beyond hopens (hkeyword (by decide) (by decide)).andThen
  -- the declarations in the order in which they are tried
  have hplain : g.plainDeclaration.Fails (Beyond Starts) :=
    (typed_fails henum).orElse (hvariable.orElse (hlexical.orElse (hfunction.orElse (hclass.orElse
      (husing.orElse (typed_fails (hinterface.orElse (halias.orElse (hmodule.orElse himport)))))))))
  have hambient : g.ambientDeclaration.Fails (Beyond Starts) :=
    Fails.node_beyond hopens (hleading (by decide) (by decide)).andThen
  exact hplain.orElse (typed_fails hambient)

/-! ## 7. Modules -/

theorem statementStep_reads_exported {closed : Bool} {gap₁ : List Tree} (hgap₁ : Inline gap₁)
    (ht : Declaration closed t)
    (hread : ∀ v, Value v → v.text.length < t.text.length → Readable (ofDepth d (n + 1)) v) (hgap : Gap gap) :
    (ofDepth d (n + 1)).statementStep.Reads
      (Tree.textOfList gap ++ (Tree.node .exportStatement (.token "export".toList :: (gap₁ ++ [t]))).text)
      (gap ++ [.node .exportStatement (.token "export".toList :: (gap₁ ++ [t]))]) (AfterStatement d closed) := by
  obtain ⟨word, hword, hat⟩ := Declaration.word ht
  have hdefault : (keyword "default").Fails (Beyond BeginsDeclaration) :=
    keyword_fails_at_declaration (by decide)
  have hdeclared := Reads.orElse_of_fails
    (hdefault.andThen (q := (ofDepth d (n + 1)).declaration <|>
      ((ofDepth d (n + 1)).expression .final >> semicolon (ofDepth d (n + 1)).dialect true)))
    (declaration_reads ht hread hgap₁.spaces.isGap) fun rest _ => by
      rw [List.append_assoc]
      exact hgap₁.spaces.isGap.beyond (Declaration.begins ht rest)
  have hstatement := statementStep_reads_export (List.mem_cons_of_mem _ hword) hgap₁ (fun rest _ => hat rest)
    hdeclared hgap
  simpa [Tree.text, Tree.textOfList, Tree.textOfList_append] using hstatement

theorem statementStep_reads_default {closed : Bool} {gap₁ gap₂ ts : List Tree} (hgap₁ : Inline gap₁)
    (hgap₂ : Inline gap₂) (ht : Readable (ofDepth d (n + 1)) t) (hts : Ending closed ts) (hgap : Gap gap) :
    (ofDepth d (n + 1)).statementStep.Reads
      (Tree.textOfList gap ++ (Tree.node .exportStatement
        (.token "export".toList :: (gap₁ ++ .token "default".toList :: (gap₂ ++ t :: ts)))).text)
      (gap ++ [.node .exportStatement
        (.token "export".toList :: (gap₁ ++ .token "default".toList :: (gap₂ ++ t :: ts)))])
      (AfterStatement d closed) := by
  have hdefault : IsWord "default".toList := isWord_of_declarationWords (by decide)
  -- the value is no declaration, so the second way to read it is taken
  have hend : (semicolon (ofDepth d (n + 1)).dialect true).Reads (Tree.textOfList ts) ts
      (AfterStatement d closed) := by
    rw [ofDepth_dialect]
    exact Ending.reads hts true
  have hexpression := ((ht.reads .final gap₂ hgap₂.spaces.isGap).mono
    fun rest (hrest : Halts [':', ','] rest) => hrest.mono (by simp)).andThen hend
      fun rest hrest => Ending.halts hts hrest
  have hnone := Reads.orElse_of_fails (declaration_fails (g := ofDepth d (n + 1))) hexpression
    fun rest hrest => by
      rw [List.append_assoc, List.append_assoc]
      exact hgap₂.spaces.isGap.beyond (ht.starts _ ((Ending.halts hts hrest).mono (by simp)))
  have hdeclared := Reads.orElse (q := (ofDepth d (n + 1)).declaration)
    ((keyword_reads hdefault (fun _ h => h) hgap₁.spaces.isGap).andThen hnone fun rest _ => by
      rw [List.append_assoc, List.append_assoc]
      exact hgap₂.breaks _)
  have hat : ∀ rest, AfterStatement d closed rest → AtWord "default".toList
      ("default".toList ++ (Tree.textOfList gap₂ ++ t.text ++ Tree.textOfList ts) ++ rest) := by
    intro rest _
    refine ⟨_, hgap₂.breaks (t.text ++ Tree.textOfList ts ++ rest), ?_⟩
    simp only [List.append_assoc]
  rw [List.append_assoc] at hdeclared
  have hstatement := statementStep_reads_export (by decide : "default" ∈ exportedWords) hgap₁ hat hdeclared hgap
  simpa [Tree.text, Tree.textOfList, Tree.textOfList_append] using hstatement

theorem statementStep_reads {closed : Bool} (ht : Statement d m closed t) (hn : 8 * t.text.length + 2 ≤ n + 1)
    (hgap : Gap gap) :
    (ofDepth d (n + 1)).statementStep.Reads (Tree.textOfList gap ++ t.text) (gap ++ [t])
      (AfterStatement d closed) := by
  -- eight goals for each character are more than the two that its values need
  have hread : ∀ v, Value v → v.text.length ≤ t.text.length → Readable (ofDepth d (n + 1)) v := by
    intro v hv hle
    obtain ⟨k, hk⟩ : ∃ k, n + 1 = k + 2 := ⟨n - 1, by omega⟩
    rw [hk]
    exact readable hv (by omega)
  cases ht with
  | declaration ht =>
    exact statementStep_reads_declaration ht (fun v hv hlt => hread v hv (Nat.le_of_lt hlt)) hgap
  | exported hgap₁ hu =>
    refine statementStep_reads_exported hgap₁ hu (fun v hv hlt => hread v hv ?_) hgap
    simp only [Tree.text, Tree.textOfList, Tree.textOfList_append, List.length_append]
    omega
  | default hgap₁ hgap₂ hv hts =>
    refine statementStep_reads_default hgap₁ hgap₂ (hread _ hv ?_) hts hgap
    simp only [Tree.text, Tree.textOfList, Tree.textOfList_append, List.length_append]
    omega
  | @expression _ v ts hv hblock hts =>
    refine statementStep_reads_expression (hread v hv ?_) hv hblock hts hgap
    simp only [Tree.text, Tree.textOfList, List.length_append]
    omega
  | other halone =>
    exact (halone.reads (n + 1) gap (by omega) hgap).mono fun _ _ => trivial

end Grammar

end AssetEmbed.Script
