import AssetEmbed.Proofs.Script.Plain.Reading

namespace AssetEmbed.Script

open Step

namespace Grammar

variable {g : Grammar} {c : Context} {d : Dialect} {n : Nat} {text : Text} {trees gap : List Tree}
  {next : Text → Prop} {excluded : List Char} {t : Tree}

/-! ## 8. Blocks -/

theorem expression_fails_shallow {P : Text → Prop} (hn : n < 2) : ((ofDepth d n).expression c).Fails P := by
  match n, hn with
  | 0, _ => exact fail_fails
  | 1, _ => exact Fails.andThen fail_fails

theorem halts_of_colon {s : Text} (h : BeginsWith [':'] s) : Halts [] s := by
  obtain ⟨ch, hch, rest, rfl⟩ := h
  obtain rfl := List.mem_singleton.1 hch
  have hbreaks : Breaks (':' :: rest) :=
    breaks_of_beginsWith (l := [':']) (by decide) (beginsWith_cons (by simp) _)
  refine ⟨[], ':' :: rest, .none, ⟨rfl, ?_, ?_⟩, fun _ => hbreaks, nofun, rfl⟩
  · rintro c hc
    cases hc
    decide
  · intro d stopsAtIn o ho
    rw [wordAt?_eq_none hbreaks] at ho
    cases ho

theorem beginsWith_quote {q : Text} (hq : quotedLiteral? q = some (q, [])) (rest : Text) :
    BeginsWith ['"', '\''] (q ++ rest) := by
  obtain ⟨ch, more, rfl, hch⟩ := quotedLiteral?_head hq
  exact beginsWith_cons hch _

theorem expressions_reads_quoted {q : Text} (hq : quotedLiteral? q = some (q, [])) :
    ((ofDepth d (n + 2)).expressions .final).Reads q [.leaf .string q] (BeginsWith [':']) := by
  have hsuffix : ((ofDepth d n).suffix .final).Fails (Halts []) := suffix_fails
  have hchain : ((ofDepth d n).simple .final >> many ((ofDepth d n).suffix .final)).Reads q [.leaf .string q]
      (BeginsWith [':']) :=
    (simple_reads_string hq .none).thenNothing (hsuffix.many.mono fun _ hs => halts_of_colon hs)
  have hstarts : ∀ rest, BeginsWith [':'] rest → Starts (q ++ rest) := fun rest _ =>
    .inl ((beginsWith_quote hq rest).mono (by decide))
  have hoperand : ((ofDepth d n).operandStep .final).Reads q [.leaf .string q] (BeginsWith [':']) :=
    operandStep_reads_chain hchain hstarts .none fun _ hs => halts_of_colon hs
  refine (expression_reads hoperand fun _ hs => halts_of_colon hs).thenNothing
    (Reads.choose fun s rest hs hrest => ?_)
  rw [List.nil_append] at hs
  subst hs
  have hcomma : s.operatorIs "," = false := by
    refine startsWith_of_head (c := ',') rfl ?_
    rw [Gap.aheadOfExpression .none rfl (hrest.opens (by decide))]
    exact hrest.head_ne (by decide)
  rw [hcomma]
  exact nothing_reads

theorem semicolon_fails_at_colon : (semicolon d true).Fails (BeginsWith [':']) := by
  intro s hs
  have hmiss : Semicolon.mayMiss d true s.rest = false := by
    obtain ⟨c, hc, rest, heq⟩ := hs
    obtain rfl := List.mem_singleton.1 hc
    rw [heq]
    refine mayMiss_eq_false (by decide) (fun d => ?_) (by decide) (by decide) (by decide) rest
    cases d <;> decide
  have hsign : (sign ";").Fails (Beyond (BeginsWith [':'])) :=
    sign_fails rfl (BeginsWith.opens_head_ne (by decide) (by decide))
  unfold semicolon
  rw [hmiss]
  exact hsign s (beyond_of hs)

theorem expressionStatement_fails_at_quoted {q : Text} (hq : quotedLiteral? q = some (q, [])) :
    ((ofDepth d n).expressionStatement).Fails (Beyond fun s => ∃ rest, s = q ++ ':' :: rest) := by
  refine Fails.node ?_ ?_
  · rintro s ⟨rest, rfl⟩
    exact (beginsWith_quote hq _).opens (by decide)
  by_cases hn : n < 2
  · exact ((expression_fails_shallow hn).andThen).andThen
  obtain ⟨n, rfl⟩ : ∃ m, n = m + 2 := ⟨n - 2, by omega⟩
  refine ((expressions_reads_quoted hq).thenFails semicolon_fails_at_colon fun _ hs => hs).mono ?_
  rintro s ⟨rest, rfl⟩
  exact ⟨':' :: rest, beginsWith_cons (by simp) _, rfl⟩

theorem statement_fails_at_quoted {q : Text} (hq : quotedLiteral? q = some (q, [])) :
    ((ofDepth d n).read .statement).Fails (Beyond fun s => ∃ rest, s = q ++ ':' :: rest) := by
  cases n with
  | zero => exact fail_fails
  | succ n =>
    show (ofDepth d n).statementStep.Fails _
    refine Fails.choose fun s hs => ?_
    obtain ⟨gap, _, hgap, ⟨rest, rfl⟩, heq⟩ := hs
    have hbegins := beginsWith_quote hq (':' :: rest)
    rw [hgap.ahead heq (hbegins.opens (by decide))]
    have hword : wordAt? (q ++ ':' :: rest) = none := wordAt?_eq_none (breaks_of_beginsWith (by decide) hbegins)
    obtain ⟨ch, hch, more, htext⟩ := hbegins
    rw [htext] at hword ⊢
    simp only [List.mem_cons, List.not_mem_nil, or_false] at hch
    rcases hch with rfl | rfl <;> simpa [hword] using expressionStatement_fails_at_quoted hq

/-- How a value begins that cannot be taken for a block. -/
theorem NoBlock.begins {t : Tree} (h : NoBlock t) (ht : Value t) :
    (∃ ch more, t.text = ch :: more ∧ ch ≠ '\x7b') ∨
      ∃ gap q more, Gap gap ∧ quotedLiteral? q = some (q, []) ∧
        t.text = '\x7b' :: (Tree.textOfList gap ++ (q ++ ':' :: more)) := by
  induction h with
  | @quoted gap ts us q hgap hq =>
    refine .inr ⟨gap, q, Tree.textOfList ts ++ Tree.textOfList us, hgap, hq, ?_⟩
    simp [Tree.text, Tree.textOfList, Tree.textOfList_append]
  -- members and calls begin with what stands before them
  | @follows kind t ts hkind hnoblock ih =>
    have hfirst : Value t := by
      simp only [List.mem_cons, List.not_mem_nil, or_false] at hkind
      cases ht with
      | primary ht =>
        cases ht with
        | member hu => exact .primary hu
        | index hu => exact .primary hu
        | call hu => exact .primary hu
        | _ => rcases hkind with h | h | h <;> cases h
      | arrow => rcases hkind with h | h | h <;> cases h
    rcases ih hfirst with ⟨ch, more, heq, hch⟩ | ⟨gap, q, more, hgap, hq, heq⟩
    · exact .inl ⟨ch, more ++ Tree.textOfList ts, by rw [Tree.text, Tree.textOfList, heq]; rfl, hch⟩
    · refine .inr ⟨gap, q, more ++ Tree.textOfList ts, hgap, hq, ?_⟩
      rw [Tree.text, Tree.textOfList, heq]
      simp
  | @other t hother =>
    left
    -- no other value begins with a brace
    have hword : ∀ {w : Text}, IsWord w → ∃ ch more, w = ch :: more ∧ ch ≠ '\x7b' := by
      intro w hw
      obtain ⟨ch, more, rfl⟩ := List.exists_cons_of_ne_nil hw.ne_nil
      refine ⟨ch, more, rfl, ?_⟩
      rintro rfl
      exact absurd (hw.wordChars _ List.mem_cons_self) (by decide)
    cases ht with
    | primary ht =>
      cases ht with
      | string hq =>
        obtain ⟨ch, more, heq, hch⟩ := quotedLiteral?_head hq
        have hquotes : ∀ ch ∈ ['"', '\''], ch ≠ '\x7b' := by decide
        exact ⟨ch, more, heq, hquotes ch hch⟩
      | name hw => exact hword hw.isWord
      | constant hw => exact hword (isWord_of_constant hw)
      | array => exact ⟨'[', _, rfl, by decide⟩
      | parenthesized => exact ⟨'(', _, rfl, by decide⟩
      | object => exact absurd (hother .object (by decide)) (by simp [Tree.isKind, Tree.kind?])
      | member => exact absurd (hother .memberExpression (by decide)) (by simp [Tree.isKind, Tree.kind?])
      | index => exact absurd (hother .subscriptExpression (by decide)) (by simp [Tree.isKind, Tree.kind?])
      | call => exact absurd (hother .callExpression (by decide)) (by simp [Tree.isKind, Tree.kind?])
    | arrow hhead =>
      cases hhead with
      | nothing => exact ⟨'(', _, rfl, by decide⟩
      | @name w hw =>
        obtain ⟨ch, more, rfl, hch⟩ := hword hw.isWord
        exact ⟨ch, _, rfl, hch⟩

theorem block_fails {t : Tree} (hnoblock : NoBlock t) (ht : Value t) :
    (ofDepth d n).block.Fails (Beyond fun s => opens s ∧ ∃ rest, s = t.text ++ rest) := by
  refine Fails.node (fun s hs => hs.1) ?_
  rcases NoBlock.begins hnoblock ht with ⟨ch, more, heq, hch⟩ | ⟨gap, q, more, hgap, hq, heq⟩
  · have hsign : (sign "\x7b").Fails (Beyond fun s => opens s ∧ s.head? ≠ some '\x7b') :=
      sign_fails rfl fun _ hs => hs
    refine (hsign.andThen).mono ?_
    rintro s ⟨hopens, rest, rfl⟩
    refine beyond_of ⟨hopens, ?_⟩
    rw [heq]
    exact fun hhead => hch (Option.some.inj hhead)
  -- the brace opens an object, in which the colon behind the first name is no part of a statement
  · have hopen : (sign "\x7b").Reads ['\x7b'] [.token ['\x7b']] fun _ => True :=
      sign_reads rfl (by decide) .none
    have hclose : (sign "\x7d").Fails (Beyond fun s => ∃ rest, s = q ++ ':' :: rest) := by
      refine sign_fails rfl ?_
      rintro s ⟨rest, rfl⟩
      obtain ⟨ch, more, rfl, hch⟩ := quotedLiteral?_head hq
      have hquote : BeginsWith ['"', '\''] (ch :: more ++ ':' :: rest) := beginsWith_cons hch _
      exact ⟨hquote.opens (by decide), hquote.head_ne (by decide)⟩
    have hinside := Fails.after (statement_fails_at_quoted (d := d) (n := n) hq).many hclose
    refine (hopen.thenFails hinside fun _ _ => trivial).mono ?_
    rintro s ⟨-, rest, rfl⟩
    refine ⟨_, hgap.beyond ⟨more ++ rest, rfl⟩, ?_⟩
    rw [heq]
    simp

/-! ## 9. Arrow functions -/

theorem typeParameters_fails {P : Text → Prop} (hP : ∀ s, P s → opens s ∧ s.head? ≠ some '<') :
    g.typeParameters.Fails (Beyond P) :=
  Fails.node_beyond (fun s hs => (hP s hs).1) (sign_fails rfl hP).andThen

theorem arrowBody_reads {body : Tree} {gap₁ gap₂ : List Tree} (hgap₁ : Gap gap₁) (hgap₂ : Gap gap₂)
    (hread : Readable (ofDepth d n) body) (hbody : Value body) (hblock : NoBlock body) :
    ((ofDepth d n).arrowBody c).Reads
      (Tree.textOfList (gap₁ ++ .token ['=', '>'] :: (gap₂ ++ [body])))
      (gap₁ ++ .token ['=', '>'] :: (gap₂ ++ [body])) Follows := by
  have harrow : (operator "=>").Reads (Tree.textOfList gap₁ ++ ['=', '>']) (gap₁ ++ [.token ['=', '>']])
      fun _ => True := operator_reads rfl (by decide) hgap₁
  have hexpression := hread.reads c gap₂ hgap₂
  have hvalue : (Step.choose fun s => if s.nextIs "\x7b" then (ofDepth d n).block <|> (ofDepth d n).expression c
      else (ofDepth d n).expression c).Reads (Tree.textOfList gap₂ ++ body.text) (gap₂ ++ [body]) Follows := by
    refine Reads.choose fun s rest _ _ => ?_
    split
    · refine Reads.orElse_of_fails (block_fails hblock hbody) hexpression fun rest hrest => ?_
      rw [List.append_assoc]
      exact hgap₂.beyond ⟨(hread.starts rest hrest).opens, rest, rfl⟩
    · exact hexpression
  have hall := harrow.andThen hvalue fun _ _ => trivial
  simpa [arrowBody, Tree.text, Tree.textOfList, Tree.textOfList_append] using hall

theorem bareParameter_reads {w : Text} (hw : IsName w) (hgap : Gap gap) :
    g.bareParameter.Reads (Tree.textOfList gap ++ w) (gap ++ [.leaf .identifier w]) Breaks := by
  refine wordBut_reads hw.isWord (hw.contains ?_) (fun _ h => h) hgap
  cases g.dialect <;> decide

theorem parameter_fails : (ofDepth d n).parameter.Fails (Beyond (BeginsWith [')'])) := by
  have hopens : ∀ s, BeginsWith [')'] s → opens s := fun s hs => hs.opens (by decide)
  have hbreaks : ∀ s, BeginsWith [')'] s → opens s ∧ Breaks s := fun s hs =>
    ⟨hopens s hs, breaks_of_beginsWith (by decide) hs⟩
  have hsign : ∀ {sign : String} {c : Char}, sign.toList.head? = some c → c ≠ ')' →
      (Step.sign sign).Fails (Beyond (BeginsWith [')'])) := fun hsign hc =>
    sign_fails hsign fun s hs => ⟨hopens s hs, hs.head_ne (by simpa using hc)⟩
  -- at the closing parenthesis, each way in which a parameter begins fails
  have hbinding : ∀ n, ((ofDepth d n).read .binding).Fails (Beyond (BeginsWith [')'])) := by
    intro n
    cases n with
    | zero => exact fail_fails
    | succ n =>
      exact Fails.orElse (Fails.node_beyond hopens (hsign rfl (by decide)).andThen)
        (Fails.orElse (Fails.node_beyond hopens (hsign rfl (by decide)).andThen) (wordBut_fails hbreaks))
  have hrest : (ofDepth d n).restPattern.Fails (Beyond (BeginsWith [')'])) :=
    Fails.node_beyond hopens (hsign rfl (by decide)).andThen
  have hplace : (ofDepth d n).place.Fails (Beyond (BeginsWith [')'])) := (hbinding n).andThen
  unfold parameter
  split
  · have hmark : parameterMark.Fails (Beyond (BeginsWith [')'])) := by
      refine Fails.choose fun s hs => ?_
      obtain ⟨gap, rest, hgap, hclose, heq⟩ := hs
      rw [hgap.ahead heq (hopens rest hclose), word?_eq_none (hbreaks rest hclose).2]
      exact fail_fails
    have hthis : (keywordLeaf .thisKeyword "this").Fails (Beyond (BeginsWith [')'])) := by
      refine lexeme_fails hopens fun s hs => ?_
      unfold exactWord
      rw [word?_eq_none (hbreaks s hs).2]
      rfl
    have hdecorator : (ofDepth d n).decorator.Fails (Beyond (BeginsWith [')'])) :=
      decorator_fails (BeginsWith.opens_head_ne (by decide) (by decide))
    exact Fails.node_beyond hopens
      (.after hdecorator.many (.after hmark.many (hthis.orElse (hrest.orElse hplace)).andThen))
  · exact (hrest.orElse hplace).andThen

theorem parameters_reads {gap₁ : List Tree} (hgap₁ : Gap gap₁) (hgap : Gap gap) :
    ((ofDepth d n).typedOptional (ofDepth d n).typeParameters >> (ofDepth d n).parameters).Reads
      (Tree.textOfList gap ++ (Tree.node .formalParameters (.token ['('] :: (gap₁ ++ [.token [')']]))).text)
      (gap ++ [.node .formalParameters (.token ['('] :: (gap₁ ++ [.token [')']]))]) next := by
  have hopen : (sign "(").Reads ['('] [.token ['(']] fun _ => True := sign_reads rfl (by decide) .none
  have hclose : (sign ")").Reads (Tree.textOfList gap₁ ++ [')']) (gap₁ ++ [.token [')']]) next :=
    sign_reads rfl (by decide) hgap₁
  have hnone : (optional (sepBy1 (sign ",") (ofDepth d n).parameter >> optional (sign ","))).Reads [] []
      (Beyond (BeginsWith [')'])) := (parameter_fails.andThen.andThen).optional
  have hinside := hopen.andThen (hnone.andThen hclose fun rest _ => by
    rw [List.append_assoc]
    exact hgap₁.beyond (beginsWith_cons (by simp) _)) fun _ _ => trivial
  have hall := hinside.node .formalParameters (fun _ _ => rfl) hgap
  have htypes : ((ofDepth d n).typedOptional (ofDepth d n).typeParameters).Reads [] []
      (Beyond (BeginsWith ['('])) :=
    typedOptional_of_fails (typeParameters_fails (BeginsWith.opens_head_ne (by decide) (by decide)))
  have hboth := htypes.andThen hall fun rest _ => by
    rw [List.append_assoc]
    exact hgap.beyond (beginsWith_cons (by simp) _)
  simpa [parameters, Tree.text, Tree.textOfList, Tree.textOfList_append] using hboth

theorem arrow_begins {ts : List Tree} {gap₁ : List Tree} (hgap₁ : Gap gap₁) (rest : Text) :
    Beyond (BeginsWith ['=']) (Tree.textOfList (gap₁ ++ .token ['=', '>'] :: ts) ++ rest) := by
  rw [Tree.textOfList_append, List.append_assoc]
  exact hgap₁.beyond (beginsWith_cons (by simp) _)

section

variable {ts gap₁ : List Tree}

theorem arrowFunction_reads_parameters {head : Tree}
    (hstart : ∀ next, ((ofDepth d n).typedOptional (ofDepth d n).typeParameters >> (ofDepth d n).parameters).Reads
      head.text [head] next)
    (hparen : ∀ rest, BeginsWith ['('] (head.text ++ rest)) (hgap₁ : Gap gap₁)
    (hafter : ((ofDepth d n).arrowBody c).Reads (Tree.textOfList (gap₁ ++ .token ['=', '>'] :: ts))
      (gap₁ ++ .token ['=', '>'] :: ts) Follows) (hgap : Gap gap) :
    ((ofDepth d n).arrowFunction c).Reads
      (Tree.textOfList gap ++ (Tree.node .arrowFunction (head :: (gap₁ ++ .token ['=', '>'] :: ts))).text)
      (gap ++ [.node .arrowFunction (head :: (gap₁ ++ .token ['=', '>'] :: ts))]) Follows := by
  have hbefore : ∀ s, Before head.text (Beyond (BeginsWith ['='])) s → BeginsWith ['('] s := by
    rintro s ⟨rest, -, rfl⟩
    exact hparen rest
  have hopens : ∀ s, Before head.text (Beyond (BeginsWith ['='])) s → opens s := fun s hs =>
    (hbefore s hs).opens (by decide)
  have hasync : (keyword "async").Fails (Before head.text (Beyond (BeginsWith ['=']))) :=
    (keyword_fails_of_breaks fun s hs => ⟨hopens s hs, breaks_of_beginsWith (by decide) (hbefore s hs)⟩).mono
      fun s hs => beyond_of hs
  -- the reading with types asks for the type of the result, which the arrow does not begin
  have hresult : ((ofDepth d n).resultAscription false).Fails (Beyond (BeginsWith ['='])) :=
    Fails.node_beyond (fun s hs => hs.opens (by decide))
      (sign_fails rfl (BeginsWith.opens_head_ne (by decide) (by decide))).andThen
  have htyped := (hstart _).thenFails (hresult.andThen (q := (ofDepth d n).arrowBody c)) fun _ hs => hs
  have hbegins : ∀ rest, Follows rest → Beyond (Before head.text (Beyond (BeginsWith ['='])))
      (Tree.textOfList gap ++ (head.text ++ Tree.textOfList (gap₁ ++ .token ['=', '>'] :: ts)) ++ rest) := by
    intro rest _
    rw [List.append_assoc, List.append_assoc]
    exact hgap.beyond ⟨_, arrow_begins hgap₁ rest, rfl⟩
  have hhead := Reads.orElse (q := (ofDepth d n).bareParameter) (hstart fun _ => True)
  have hall := (hhead.andThen hafter fun _ _ => trivial).node .arrowFunction (fun rest _ => by
    rw [List.append_assoc]
    exact (hparen _).opens (by decide)) hgap
  exact Reads.orElse_of_fails (typed_fails (Fails.node hopens (.after hasync.optional htyped)).andThen)
    (Reads.orElse_of_fails (Fails.node hopens hasync.andThen) hall hbegins) hbegins

theorem arrowFunction_reads_name {w : Text} (hw : IsName w) (hgap₁ : Gap gap₁)
    (hafter : ((ofDepth d n).arrowBody c).Reads (Tree.textOfList (gap₁ ++ .token ['=', '>'] :: ts))
      (gap₁ ++ .token ['=', '>'] :: ts) Follows) (hgap : Gap gap) :
    ((ofDepth d n).arrowFunction c).Reads
      (Tree.textOfList gap ++ (Tree.node .arrowFunction
        (.leaf .identifier w :: (gap₁ ++ .token ['=', '>'] :: ts))).text)
      (gap ++ [.node .arrowFunction (.leaf .identifier w :: (gap₁ ++ .token ['=', '>'] :: ts))]) Follows := by
  have hword : ∀ s, AtWord w s → opens s := fun s hs => AtWord.opens hw.isWord hs
  have hasync : (keyword "async").Fails (Beyond (AtWord w)) := by
    refine keyword_fails hw.isWord ?_
    rintro rfl
    exact hw.not_special (by decide)
  -- a name has no parentheses, so that the first two readings fail
  have hstart : ((ofDepth d n).typedOptional (ofDepth d n).typeParameters >>
      (ofDepth d n).parameters).Fails (Beyond (AtWord w)) :=
    .after (typedOptional_of_fails (typeParameters_fails fun s hs =>
        ⟨hword s hs, AtWord.head_ne hw.isWord hs (by decide)⟩))
      (parameters_fails fun s hs => ⟨hword s hs, AtWord.head_ne hw.isWord hs (by decide)⟩)
  have hbreaks : ∀ rest, Breaks (Tree.textOfList (gap₁ ++ .token ['=', '>'] :: ts) ++ rest) := fun rest =>
    Beyond.breaks (by decide) (arrow_begins hgap₁ rest)
  have hbegins : ∀ rest, Follows rest → Beyond (AtWord w) (Tree.textOfList gap ++
      (w ++ Tree.textOfList (gap₁ ++ .token ['=', '>'] :: ts)) ++ rest) := by
    intro rest _
    rw [List.append_assoc, List.append_assoc]
    exact hgap.beyond ⟨_, hbreaks rest, rfl⟩
  have hhead := Reads.orElse_of_fails hstart (bareParameter_reads (g := ofDepth d n) hw .none)
    fun rest hrest => beyond_of ⟨rest, hrest, rfl⟩
  have hparts := hhead.andThen hafter fun rest _ => hbreaks rest
  have hall := hparts.node .arrowFunction (fun rest _ => hword _ ⟨_, hbreaks rest, by
    simp [Tree.textOfList]⟩) hgap
  exact Reads.orElse_of_fails
    (typed_fails (Fails.node_beyond hword (.after hasync.optional hstart.andThen)).andThen)
    (Reads.orElse_of_fails (Fails.node_beyond hword hasync.andThen) hall hbegins) hbegins

end

theorem arrowFunction_reads {head body : Tree} {gap₁ gap₂ : List Tree} (hhead : ArrowHead head)
    (hgap₁ : Gap gap₁) (hgap₂ : Gap gap₂) (hread : Readable (ofDepth d n) body) (hbody : Value body)
    (hblock : NoBlock body) (hgap : Gap gap) :
    ((ofDepth d n).arrowFunction c).Reads
      (Tree.textOfList gap ++ (Tree.node .arrowFunction
        (head :: (gap₁ ++ .token ['=', '>'] :: (gap₂ ++ [body])))).text)
      (gap ++ [.node .arrowFunction (head :: (gap₁ ++ .token ['=', '>'] :: (gap₂ ++ [body])))]) Follows := by
  have hafter := arrowBody_reads (c := c) hgap₁ hgap₂ hread hbody hblock
  cases hhead with
  | nothing hgap₃ =>
    exact arrowFunction_reads_parameters (fun _ => parameters_reads hgap₃ .none)
      (fun _ => beginsWith_cons (by simp) _) hgap₁ hafter hgap
  | name hw => exact arrowFunction_reads_name hw hgap₁ hafter hgap

theorem arrow_follows {body : Tree} {gap₁ gap₂ : List Tree} (hgap₁ : Gap gap₁) (rest : Text) :
    Breaks (Tree.textOfList (gap₁ ++ .token ['=', '>'] :: (gap₂ ++ [body])) ++ rest) ∧
      ∀ s : State, s.rest = Tree.textOfList (gap₁ ++ .token ['=', '>'] :: (gap₂ ++ [body])) ++ rest →
        s.operatorIs "=>" = true := by
  refine ⟨Beyond.breaks (by decide) (arrow_begins hgap₁ rest), fun s hs => ?_⟩
  have htext : Tree.textOfList (gap₁ ++ .token ['=', '>'] :: (gap₂ ++ [body])) ++ rest =
      Tree.textOfList gap₁ ++ '=' :: '>' :: (Tree.textOfList (gap₂ ++ [body]) ++ rest) := by
    simp [Tree.textOfList, Tree.text, Tree.textOfList_append]
  rw [htext] at hs
  unfold State.operatorIs
  rw [hgap₁.aheadOfExpression hs rfl]
  rfl

theorem simple_reads_arrow {head body : Tree} {gap₁ gap₂ : List Tree} (hhead : ArrowHead head)
    (hgap₁ : Gap gap₁)
    (h : ((ofDepth d n).arrowFunction c).Reads
      (Tree.textOfList gap ++ (Tree.node .arrowFunction
        (head :: (gap₁ ++ .token ['=', '>'] :: (gap₂ ++ [body])))).text) trees next) (hgap : Gap gap) :
    ((ofDepth d n).simple c).Reads
      (Tree.textOfList gap ++ (Tree.node .arrowFunction
        (head :: (gap₁ ++ .token ['=', '>'] :: (gap₂ ++ [body])))).text) trees next := by
  cases hhead with
  | @nothing gap₃ hgap₃ =>
    -- the parentheses hold no expression
    have hparenthesized : (ofDepth d n).parenthesized.Fails (Beyond (Before ['('] (Beyond (BeginsWith [')'])))) := by
      have hopen : (sign "(").Reads ['('] [.token ['(']] fun _ => True := sign_reads rfl (by decide) .none
      have hinside : ((ofDepth d n).expressions .bracketed).Fails (Beyond (BeginsWith [')'])) :=
        (expression_fails.mono fun _ hs => hs.mono fun _ h => h.mono (by decide)).andThen
      refine Fails.node ?_ (hopen.thenFails hinside.andThen fun _ _ => trivial)
      rintro s ⟨rest, -, rfl⟩
      rfl
    have htext : ∀ rest, (Tree.node .arrowFunction
        (.node .formalParameters (.token ['('] :: (gap₃ ++ [.token [')']])) ::
          (gap₁ ++ .token ['=', '>'] :: (gap₂ ++ [body])))).text ++ rest =
        '(' :: (Tree.textOfList gap₃ ++ ')' :: (Tree.textOfList
          (gap₁ ++ .token ['=', '>'] :: (gap₂ ++ [body])) ++ rest)) := by
      intro rest
      simp [Tree.text, Tree.textOfList, Tree.textOfList_append]
    have hread : ((ofDepth d n).parenthesizedOrArrow c).Reads _ trees next :=
      Reads.afterTrial_of_fails hparenthesized (fun rest _ => by
        rw [List.append_assoc, htext]
        exact hgap.beyond ⟨_, hgap₃.beyond (beginsWith_cons (by simp) _), rfl⟩) h
    refine Reads.choose fun s rest hs _ => ?_
    rw [List.append_assoc] at hs
    have hahead := hgap.ahead hs (by rw [htext]; rfl)
    rw [htext] at hahead
    rw [hahead]
    simpa using hread
  | @name w hw =>
    refine simple_reads_word hw.isWord ?_ (fun rest _ => ⟨_, (arrow_follows hgap₁ rest).1, by
      simp only [Tree.text, Tree.textOfList, List.append_assoc]; rfl⟩) hgap
    rw [wordOperand_name hw]
    have htext : Tree.textOfList gap ++ (Tree.node .arrowFunction
        (.leaf .identifier w :: (gap₁ ++ .token ['=', '>'] :: (gap₂ ++ [body])))).text =
        (Tree.textOfList gap ++ w) ++ Tree.textOfList (gap₁ ++ .token ['=', '>'] :: (gap₂ ++ [body])) := by
      simp [Tree.text, Tree.textOfList]
    rw [htext] at h ⊢
    refine Reads.afterTrial (reference_reads hw hgap) (fun rest _ => (arrow_follows hgap₁ rest).1) ?_
    rintro t ⟨rest, -, hrest⟩
    dsimp only
    rw [(arrow_follows hgap₁ rest).2 t hrest]
    exact h

theorem starts_of_arrow {head body : Tree} {gap₁ gap₂ : List Tree} (hhead : ArrowHead head)
    (hgap₁ : Gap gap₁) (rest : Text) :
    Starts ((Tree.node .arrowFunction
      (head :: (gap₁ ++ .token ['=', '>'] :: (gap₂ ++ [body])))).text ++ rest) := by
  cases hhead with
  | nothing => exact .inl (beginsWith_cons (by decide) _)
  | @name w hw =>
    refine .inr ⟨w, Tree.textOfList (gap₁ ++ .token ['=', '>'] :: (gap₂ ++ [body])) ++ rest, .name hw,
      .inr (arrow_begins hgap₁ rest), ?_⟩
    simp [Tree.text, Tree.textOfList]

/-! ## 10. Values -/

/-- The grammar reads a value in plain form, if goals may be nested as deeply as the text of the value
is long, twice over. -/
theorem readable {t : Tree} (ht : Value t) {n : Nat} (hn : 2 * t.text.length ≤ n) :
    Readable (ofDepth d (n + 2)) t := by
  -- a value within this one is shorter, and so it is read at a lower depth
  have hread : ∀ u, Value u → u.text.length < t.text.length → Readable (ofDepth d n) u := by
    intro u hu hlt
    obtain ⟨m, rfl⟩ : ∃ m, n = m + 2 := ⟨n - 2, by omega⟩
    exact readable hu (by omega)
  have hfollows : ∀ rest, Follows rest → Halts [] rest := fun rest hrest => Halts.mono (by simp) hrest
  cases ht with
  | primary ht =>
    have hstarts : ∀ rest, Follows rest → Starts (t.text ++ rest) := fun rest hrest =>
      starts_of_primary ht (.inl hrest)
    refine ⟨fun c gap hgap => expression_reads ?_ hfollows, hstarts⟩
    have hchain := chain_reads (c := c) ht hread (suffix_fails.continues t) (fun rest hrest => .inl hrest) hgap
    rw [List.append_nil] at hchain
    exact operandStep_reads_chain hchain hstarts hgap hfollows
  | @arrow head body gap₁ gap₂ hhead hgap₁ hgap₂ hbody hblock =>
    have hlt : body.text.length < (Tree.node .arrowFunction
        (head :: (gap₁ ++ .token ['=', '>'] :: (gap₂ ++ [body])))).text.length := by
      simp only [Tree.text, Tree.textOfList, Tree.textOfList_append, List.length_append, List.length_cons]
      omega
    have hstarts : ∀ rest, Follows rest → Starts ((Tree.node .arrowFunction
        (head :: (gap₁ ++ .token ['=', '>'] :: (gap₂ ++ [body])))).text ++ rest) := fun rest _ =>
      starts_of_arrow hhead hgap₁ rest
    refine ⟨fun c gap hgap => expression_reads ?_ hfollows, hstarts⟩
    have harrow := arrowFunction_reads (c := c) hhead hgap₁ hgap₂ (hread body hbody hlt) hbody hblock hgap
    have hsimple := simple_reads_arrow hhead hgap₁ harrow hgap
    exact operandStep_reads_chain (hsimple.thenNothing suffix_fails.many) hstarts hgap hfollows
termination_by t.text.length

end Grammar

end AssetEmbed.Script
