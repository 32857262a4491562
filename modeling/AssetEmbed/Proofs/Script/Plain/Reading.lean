import AssetEmbed.Proofs.Script.Plain

/-!
# Reading plain trees

The grammar of every dialect reads a value in plain form as the tree it is, wherever no expression goes on
behind it.
-/

namespace AssetEmbed.Script

open Step

namespace Grammar

/-! ## 1. Lists -/

section Lists

variable {p : Step} {P : Tree → Prop} {close : Char} {ts : List Tree} {next : Text → Prop}

theorem Tail.begins (h : Tail P ts) {rest : Text} (hrest : Beyond (BeginsWith [close]) rest) :
    Beyond (BeginsWith [',', close]) (Tree.textOfList ts ++ rest) := by
  have hclose : ∀ c ∈ [close], c ∈ [',', close] := by simp
  cases h with
  | nil => exact hrest.mono fun _ hs => hs.mono hclose
  | hole hgap hts =>
    rw [Tree.textOfList_append, List.append_assoc]
    exact hgap.beyond (beginsWith_cons List.mem_cons_self _)
  | entry hgap hgap' ht hts =>
    rw [Tree.textOfList_append, List.append_assoc]
    exact hgap.beyond (beginsWith_cons List.mem_cons_self _)

variable (hclose : opens [close]) (hcomma : close ≠ ',')
  (hp : ∀ t gap, P t → Gap gap →
    p.Reads (Tree.textOfList gap ++ t.text) (gap ++ [t]) (Beyond (BeginsWith [',', close])))
  (hfails : p.Fails (Beyond (BeginsWith [',', close])))

include hclose hcomma hp hfails

theorem tail_reads (h : Tail P ts) :
    (many (sign "," >> optional p)).Reads (Tree.textOfList ts) ts (Beyond (BeginsWith [close])) := by
  have hopens : opens [','] := by decide
  -- comma by comma, each with the entry behind it
  obtain ⟨parts, rfl, hparts⟩ := h.parts
  have hstart : ∀ part ∈ parts, ∃ gap more, Gap gap ∧
      Tree.textOfList part = Tree.textOfList gap ++ ',' :: more := by
    intro part hpart
    obtain ⟨gap, hgap, rfl | ⟨gap', t, -, -, rfl⟩⟩ := hparts part hpart <;>
    · rw [Tree.textOfList_append]
      exact ⟨gap, _, hgap, rfl⟩
  refine many_reads (Beyond (BeginsWith [',', close])) ?_ ?_ ?_ ?_ ?_
  · intro part hpart
    obtain ⟨gap, hgap, rfl | ⟨gap', t, hgap', ht, rfl⟩⟩ := hparts part hpart
    · -- a comma without an entry behind it
      have hsign : (sign ",").Reads (Tree.textOfList gap ++ [',']) (gap ++ [.token [',']])
          (Beyond (BeginsWith [',', close])) := sign_reads rfl hopens hgap
      rw [Tree.textOfList_append]
      exact hsign.thenNothing hfails.optional
    · have hsign : (sign ",").Reads (Tree.textOfList gap ++ [',']) (gap ++ [.token [',']])
          fun _ => True := sign_reads rfl hopens hgap
      have hboth := hsign.andThen (hp t gap' ht hgap').optional fun _ _ => trivial
      simpa [Tree.textOfList_append, Tree.textOfList, Tree.text] using hboth
  · intro part hpart rest
    obtain ⟨gap, more, hgap, htext⟩ := hstart part hpart
    rw [htext, List.append_assoc]
    exact hgap.beyond (beginsWith_cons List.mem_cons_self _)
  · intro part hpart
    obtain ⟨gap, more, -, htext⟩ := hstart part hpart
    rw [htext]
    simp
  · exact fun rest hrest => hrest.mono fun _ hs => hs.mono (by simp)
  · refine Fails.andThen (sign_fails (c := ',') rfl ?_)
    rintro s ⟨c, hc, rest, rfl⟩
    obtain rfl := List.mem_singleton.1 hc
    exact ⟨hclose, fun heq => hcomma (Option.some.inj heq)⟩

theorem entries_reads {stop : String} (hstop : stop.toList = [close]) (h : Entries P close ts) :
    (items p >> sign stop).Reads (Tree.textOfList ts) ts next := by
  have hsign : ∀ gap, Gap gap →
      (sign stop).Reads (Tree.textOfList gap ++ [close]) (gap ++ [.token [close]]) next :=
    fun gap hgap => sign_reads hstop hclose hgap
  have hbegins : ∀ gap rest, Gap gap →
      Beyond (BeginsWith [close]) (Tree.textOfList gap ++ [close] ++ rest) := by
    intro gap rest hgap
    rw [List.append_assoc]
    exact hgap.beyond (beginsWith_cons List.mem_cons_self _)
  unfold items
  rw [andThen_assoc]
  cases h with
  | @none gap ts hts hgap =>
    have htail := (tail_reads hclose hcomma hp hfails hts).andThen (hsign gap hgap) fun rest _ =>
      hbegins gap rest hgap
    have hnone : (optional p).Reads [] [] (Beyond (BeginsWith [',', close])) := hfails.optional
    have hall := hnone.andThen htail ?_
    · simpa [Tree.textOfList_append, Tree.textOfList, Tree.text] using hall
    · intro rest _
      rw [List.append_assoc]
      exact Tail.begins hts (hbegins gap rest hgap)
  | @some gap gap' ts t hgap ht hts hgap' =>
    have htail := (tail_reads hclose hcomma hp hfails hts).andThen (hsign gap' hgap') fun rest _ =>
      hbegins gap' rest hgap'
    have hall := (hp t gap ht hgap).optional.andThen htail ?_
    · simpa [Tree.textOfList_append, Tree.textOfList, Tree.text] using hall
    · intro rest _
      rw [List.append_assoc]
      exact Tail.begins hts (hbegins gap' rest hgap')

theorem list_reads {kind : Kind} {start stop : String} {a : Char} {gap : List Tree}
    (hstart : start.toList = [a])
    (ha : opens [a]) (hstop : stop.toList = [close]) (h : Entries P close ts) (hgap : Gap gap) :
    (node kind (sign start >> items p >> sign stop)).Reads
      (Tree.textOfList gap ++ (Tree.node kind (.token [a] :: ts)).text)
      (gap ++ [.node kind (.token [a] :: ts)]) next := by
  have hsign : (sign start).Reads [a] [.token [a]] fun _ => True := sign_reads hstart ha .none
  have hall : (sign start >> items p >> sign stop).Reads _ _ next :=
    hsign.andThen (entries_reads hclose hcomma hp hfails hstop h) fun _ _ => trivial
  exact hall.node _ (fun _ _ => ha) hgap

end Lists

/-! ## 2. What follows a value -/

def stops : List Char := [',', '\x7d', ']', ')', ';']

/-- The characters at which an expression may go on. -/
def goings : List Char := "><.=!*&|?+-/^%[(`".toList

structure Quiet (s : Text) : Prop where
  opens : Step.opens s
  head : ∀ c ∈ s.head?, c ∉ goings
  joint : ∀ d stopsAtIn o, wordAt? s = some o → strength? d stopsAtIn o = none

/-- Whether no expression goes on with what comes behind white space, which begins with none of some
characters, and no word goes on with the text at once. -/
def Halts (excluded : List Char) (s : Text) : Prop :=
  ∃ gap rest, Gap gap ∧ Quiet rest ∧ (gap = [] → Breaks rest) ∧ (∀ c ∈ rest.head?, c ∉ excluded) ∧
    s = Tree.textOfList gap ++ rest

/-- Whether a value ends in front of a text. -/
def Follows : Text → Prop := Halts [':']

/-- Whether a value ends in front of a text, or a member or a call follows. -/
def Goes (s : Text) : Prop := Follows s ∨ BeginsWith ['.', '[', '('] s

theorem wordAt?_eq_none {s : Text} (h : Breaks s) : wordAt? s = none := by
  unfold wordAt?
  rw [word?_eq_none h]
  rfl

theorem breaks_of_beginsWith {l : List Char} (hl : ∀ c ∈ l, isWordChar c = false ∧ c ≠ '\\') {s : Text}
    (h : BeginsWith l s) : Breaks s := by
  obtain ⟨c, hc, rest, rfl⟩ := h
  rintro d hd
  cases hd
  exact hl c hc

theorem quiet_nil : Quiet [] where
  opens := rfl
  head c hc := by cases hc
  joint d stopsAtIn o ho := by cases ho

theorem quiet_of_stops {s : Text} (h : BeginsWith stops s) : Quiet s where
  opens := h.opens (by decide)
  head := by
    obtain ⟨c, hc, rest, rfl⟩ := h
    rintro d hd
    cases hd
    revert c
    decide
  joint d stopsAtIn o ho := by
    rw [wordAt?_eq_none (breaks_of_beginsWith (by decide) h)] at ho
    cases ho

theorem wordAt?_of_atWord {w s : Text} (hw : IsWord w) (h : AtWord w s) :
    wordAt? s = some (String.ofList w) := by
  obtain ⟨rest, hrest, rfl⟩ := h
  unfold wordAt?
  rw [word?_append hw hrest]
  rfl

/-- The operators that are no words, in the order of their strength. -/
def jointSigns : List String := [
  "||", "??", "&&", "|", "^", "&", "===", "!==", "==", "!=", "<", ">", "<=", ">=", "<<", ">>", ">>>",
  "+", "-", "*", "/", "%", "**"]

theorem strength?_eq_none {w : Text} (hw : IsWord w) (hjoint : String.ofList w ∉ jointWords) {d : Dialect}
    {stopsAtIn : Bool} : strength? d stopsAtIn (String.ofList w) = none := by
  have hsigns : ∀ o ∈ jointSigns, o.toList.head?.any (!isWordChar ·) = true := by decide
  have hsign : ∀ o ∈ jointSigns, String.ofList w ≠ o := by
    rintro o ho rfl
    obtain ⟨c, hc, hchar⟩ := (Option.any_eq_true _ _).1 (hsigns _ ho)
    rw [String.toList_ofList] at hc
    rw [hw.wordChars c (List.mem_of_mem_head? hc)] at hchar
    cases hchar
  simp only [jointWords, List.mem_cons, List.not_mem_nil, or_false, not_or] at hjoint
  simp only [jointSigns, List.forall_mem_cons] at hsign
  simp [strength?, hjoint, hsign]

theorem quiet_of_atWord {w s : Text} (hw : IsWord w) (hjoint : String.ofList w ∉ jointWords) (h : AtWord w s) :
    Quiet s where
  opens := AtWord.opens hw h
  head := by
    obtain ⟨rest, -, rfl⟩ := h
    obtain ⟨c, cs, rfl⟩ := List.exists_cons_of_ne_nil hw.ne_nil
    rintro d hd hgoing
    cases hd
    have hchar := hw.wordChars c List.mem_cons_self
    have hsigns : ∀ c ∈ goings, isWordChar c = false := by decide
    rw [hsigns c hgoing] at hchar
    cases hchar
  joint d stopsAtIn o ho := by
    rw [wordAt?_of_atWord hw h] at ho
    cases ho
    exact strength?_eq_none hw hjoint

theorem Gap.breaks {gap : List Tree} (hgap : Gap gap) (hne : gap ≠ []) (rest : Text) :
    Breaks (Tree.textOfList gap ++ rest) := by
  -- neither white space nor a slash is a character of a word
  have hspace : ∀ c, isSpace c = true → isWordChar c = false ∧ c ≠ '\\' := by
    intro c hc
    refine ⟨by simp [isWordChar, hc], ?_⟩
    rintro rfl
    exact absurd hc (by decide)
  cases hgap with
  | none => exact absurd rfl hne
  | @blank s more hs hall =>
    obtain ⟨c, cs, rfl⟩ := List.exists_cons_of_ne_nil hs
    rintro d hd
    cases hd
    exact hspace c (hall c List.mem_cons_self)
  | block =>
    rintro d hd
    cases hd
    decide
  | line =>
    rintro d hd
    cases hd
    decide

theorem Beyond.breaks {l : List Char} (hl : ∀ c ∈ l, isWordChar c = false ∧ c ≠ '\\') {s : Text}
    (h : Beyond (BeginsWith l) s) : Breaks s := by
  obtain ⟨gap, rest, hgap, hrest, rfl⟩ := h
  cases gap with
  | nil => exact breaks_of_beginsWith hl hrest
  | cons t gap => exact Gap.breaks hgap (List.cons_ne_nil _ _) rest

variable {excluded : List Char}

theorem Halts.mono {excluded' : List Char} (h : excluded' ⊆ excluded) {s : Text} (hs : Halts excluded s) :
    Halts excluded' s := by
  obtain ⟨gap, rest, hgap, hrest, hbreaks, hhead, heq⟩ := hs
  exact ⟨gap, rest, hgap, hrest, hbreaks, fun c hc hmem => hhead c hc (h hmem), heq⟩

theorem Halts.breaks {s : Text} (h : Halts excluded s) : Breaks s := by
  obtain ⟨gap, rest, hgap, hrest, hbreaks, -, rfl⟩ := h
  cases gap with
  | nil => exact hbreaks rfl
  | cons t gap => exact Gap.breaks hgap (List.cons_ne_nil _ _) rest

theorem halts_of_beginsWith {l : List Char} (hl : l ⊆ stops) (hexcluded : ∀ c ∈ l, c ∉ excluded) {s : Text}
    (h : Beyond (BeginsWith l) s) : Halts excluded s := by
  obtain ⟨gap, rest, hgap, hrest, rfl⟩ := h
  have hstops : BeginsWith stops rest := hrest.mono hl
  refine ⟨gap, rest, hgap, quiet_of_stops hstops, fun _ => breaks_of_beginsWith (by decide) hstops, ?_, rfl⟩
  obtain ⟨c, hc, rest, rfl⟩ := hrest
  rintro d hd
  cases hd
  exact hexcluded c hc

theorem halts_of_gap {gap : List Tree} (hgap : Gap gap) : Halts excluded (Tree.textOfList gap) :=
  ⟨gap, [], hgap, quiet_nil, (fun _ c hc => by cases hc), nofun, (List.append_nil _).symm⟩

theorem Goes.breaks {s : Text} (h : Goes s) : Breaks s := by
  rcases h with h | h
  · exact Halts.breaks h
  · exact breaks_of_beginsWith (by decide) h

theorem Halts.ahead {s : State} (h : Halts excluded s.rest) :
    Quiet s.aheadOfExpression ∧ ∀ c ∈ s.aheadOfExpression.head?, c ∉ excluded := by
  obtain ⟨gap, rest, hgap, hrest, -, hhead, hs⟩ := h
  rw [hgap.aheadOfExpression hs hrest.opens]
  exact ⟨hrest, hhead⟩

theorem startsWith_of_head {s : Text} {sign : String} {c : Char} (hsign : sign.toList.head? = some c)
    (h : s.head? ≠ some c) : s.startsWith sign.toList = false := by
  obtain ⟨more, hmore⟩ : ∃ more, sign.toList = c :: more := List.head?_eq_some_iff.1 hsign
  unfold Text.startsWith
  rw [hmore]
  cases s with
  | nil => rfl
  | cons d s =>
    have hne : (c == d) = false := by
      rw [beq_eq_false_iff_ne]
      rintro rfl
      exact h rfl
    simp [List.isPrefixOf, hne]

theorem Quiet.operatorSign? {s : Text} (h : Quiet s) : Grammar.operatorSign? s = none := by
  have hsigns : ∀ o ∈ operatorSigns, o.toList.head?.any (goings.contains ·) = true := by decide
  unfold Grammar.operatorSign?
  rw [List.find?_eq_none]
  intro o ho
  obtain ⟨c, hc, hgoing⟩ := (Option.any_eq_true _ _).1 (hsigns o ho)
  rw [startsWith_of_head hc fun hhead => h.head c hhead (List.contains_iff_mem.1 hgoing)]
  exact Bool.false_ne_true

variable {g : Grammar} {c : Context}

theorem Halts.operatorIs {s : State} (h : Halts excluded s.rest) {sign : String} {c : Char}
    (hsign : sign.toList.head? = some c) (hc : c ∈ goings ∨ c ∈ excluded) : s.operatorIs sign = false := by
  refine startsWith_of_head hsign fun hhead => ?_
  rcases hc with hc | hc
  · exact h.ahead.1.head c hhead hc
  · exact h.ahead.2 c hhead hc

theorem suffix_fails : (g.suffix c).Fails (Halts excluded) := by
  refine Fails.choose fun s hs => ?_
  have hquiet := hs.ahead.1
  have hhead : ∀ ch rest, s.aheadOfExpression = ch :: rest → ch ∉ goings := by
    intro ch rest heq
    exact hquiet.head ch (by rw [heq]; rfl)
  split
  · exact fail_fails
  · dsimp only
    split <;> first
      | exact fail_fails
      | (next heq => exact absurd (by decide) (hhead _ _ heq))

theorem assignmentTail_reads : (g.assignmentTail c).Reads [] [] (Halts excluded) := by
  refine Reads.choose fun s rest hs hrest => ?_
  rw [List.nil_append] at hs
  subst hs
  rw [hrest.ahead.1.operatorSign?]
  cases s.last? <;> exact nothing_reads

theorem joint?_eq_none {s : State} (hs : Halts excluded s.rest) : g.joint? c s = none := by
  have hquiet := hs.ahead.1
  unfold joint?
  split
  · rfl
  · dsimp only
    rw [hquiet.operatorSign?]
    cases hword : wordAt? s.aheadOfExpression with
    | none => rfl
    | some o =>
      show (strength? g.dialect c.stopsAtIn o).map _ = none
      rw [hquiet.joint _ _ o hword]
      rfl

theorem jointsUpTo_reads (bound : Text) (least : Nat) :
    (g.jointsUpTo c bound least).Reads [] [] (Halts excluded) := by
  cases bound with
  | nil => exact nothing_reads
  | cons _ bound =>
    refine Reads.choose fun s rest hs hrest => ?_
    rw [List.nil_append] at hs
    subst hs
    rw [joint?_eq_none hrest]
    exact nothing_reads

theorem conditional_reads : (g.conditional c).Reads [] [] (Halts excluded) := by
  refine Reads.choose fun s rest hs hrest => ?_
  rw [List.nil_append] at hs
  subst hs
  have hhead : ∀ rest, s.aheadOfExpression ≠ '?' :: rest := by
    intro rest heq
    exact hrest.ahead.1.head '?' (by rw [heq]; rfl) (by decide)
  have hasks : g.asksCondition s = false := by
    unfold asksCondition
    split
    next heq => exact absurd heq (hhead _)
    next heq => exact absurd heq (hhead _)
    next heq => exact absurd heq (hhead _)
    next => rfl
  rw [hasks]
  exact nothing_reads

/-! ## 3. Operands -/

def startSigns : List Char := ['"', '\'', '(', '[', '\x7b']

def operandWords : List String := ["typeof", "void", "delete", "await", "yield", "new"]

/-- Whether what follows a name shows that the name is no label. -/
def Unlabelled (s : Text) : Prop := Goes s ∨ Beyond (BeginsWith ['=']) s

theorem Unlabelled.breaks {s : Text} (h : Unlabelled s) : Breaks s := by
  rcases h with h | h
  · exact h.breaks
  · exact Beyond.breaks (by decide) h

/-- Whether a value in plain form may begin where a text does. -/
def Starts (s : Text) : Prop :=
  BeginsWith startSigns s ∨ ∃ w rest, ValueWord w ∧ Unlabelled rest ∧ s = w ++ rest

theorem Starts.opens {s : Text} (h : Starts s) : Step.opens s := by
  rcases h with h | ⟨w, rest, hw, -, rfl⟩
  · exact h.opens (by decide)
  · exact hw.isWord.opens rest

theorem Starts.head {s : Text} (h : Starts s) {c : Char} (hc : c ∉ startSigns) (hword : isWordChar c = false) :
    s.head? ≠ some c := by
  rcases h with h | ⟨w, rest, hw, hrest, rfl⟩
  · exact h.head_ne hc
  · exact AtWord.head_ne hw.isWord ⟨rest, hrest.breaks, rfl⟩ hword

variable {d : Dialect} {n : Nat} {text : Text} {trees gap : List Tree} {next : Text → Prop}

theorem operandStep_reads (h : (g.chain (g.simple c) c).Reads (Tree.textOfList gap ++ text) trees next)
    (hstarts : ∀ rest, next rest → Starts (text ++ rest)) (hgap : Gap gap) :
    (g.operandStep c).Reads (Tree.textOfList gap ++ text) trees next := by
  refine Reads.choose fun s rest hs hrest => ?_
  have hstart := hstarts rest hrest
  rw [List.append_assoc] at hs
  rw [hgap.ahead hs hstart.opens]
  generalize text ++ rest = ahead at hstart
  -- what comes next is one of a few signs, or a word that is none of those before an operand
  rcases hstart with ⟨ch, hch, more, rfl⟩ | ⟨w, more, hword, hmore, rfl⟩
  · have hword : wordAt? (ch :: more) = none :=
      wordAt?_eq_none (breaks_of_beginsWith (by decide) (beginsWith_cons hch more))
    simp only [startSigns, List.mem_cons, List.not_mem_nil, or_false] at hch
    rcases hch with rfl | rfl | rfl | rfl | rfl <;> simpa [hword] using h
  · have hw := hword.isWord
    have hwords : String.ofList w ∉ operandWords := hword.not_mem (by decide) (by decide)
    have hword := wordAt?_of_atWord hw ⟨more, hmore.breaks, rfl⟩
    obtain ⟨ch, chs, rfl⟩ := List.exists_cons_of_ne_nil hw.ne_nil
    have hchar : isWordChar ch := hw.wordChars ch List.mem_cons_self
    -- no sign stands at the start of a word
    have hne : ∀ sign ∈ ['+', '-', '#', '!', '~', '<'], ch ≠ sign := ne_of_forall_mem_eq_false hchar (by decide)
    simp only [List.forall_mem_cons, List.not_mem_nil, false_implies, implies_true, and_true] at hne
    simp only [operandWords, List.mem_cons, List.not_mem_nil, or_false, not_or] at hwords
    rw [List.cons_append] at hword ⊢
    generalize String.ofList (ch :: chs) = word at hword hwords
    split
    next heq => cases heq
    next heq => exact absurd (List.cons.inj heq).1 hne.1
    next heq => exact absurd (List.cons.inj heq).1 hne.2.1
    next heq => exact absurd (List.cons.inj heq).1 hne.2.2.1
    next heq =>
      cases heq
      rw [hword]
      simpa [hne, hwords] using h

theorem expression_reads (h : ((ofDepth d n).operandStep c).Reads text trees next)
    (hnext : ∀ rest, next rest → Halts excluded rest) :
    ((ofDepth d (n + 2)).expression c).Reads text trees next := by
  have hjoints : (Step.choose fun s => (ofDepth d (n + 1)).jointsUpTo c s.rest 0).Reads [] [] next :=
    Reads.choose fun s _ _ _ => (jointsUpTo_reads s.rest 0).mono hnext
  have hconditional : ((ofDepth d (n + 1)).conditional c).Reads [] [] next := conditional_reads.mono hnext
  have hoperand : ((ofDepth d (n + 1)).read (.operand c)).Reads text trees next := h
  show ((ofDepth d (n + 1)).expressionStep c).Reads text trees next
  unfold expressionStep
  exact hoperand.thenNothing (hjoints.thenNothing hconditional)

theorem operandStep_reads_chain
    (h : (g.simple c >> many (g.suffix c)).Reads (Tree.textOfList gap ++ text) trees next)
    (hstarts : ∀ rest, next rest → Starts (text ++ rest)) (hgap : Gap gap)
    (hnext : ∀ rest, next rest → Halts excluded rest) :
    (g.operandStep c).Reads (Tree.textOfList gap ++ text) trees next := by
  refine operandStep_reads ?_ hstarts hgap
  unfold chain
  rw [← andThen_assoc]
  exact h.thenNothing (assignmentTail_reads.mono hnext)

/-! ## 4. Items and entries -/

/-- Whether the grammar reads a tree as an expression wherever a value ends behind it. -/
structure Readable (g : Grammar) (t : Tree) : Prop where
  reads : ∀ c gap, Gap gap → (g.expression c).Reads (Tree.textOfList gap ++ t.text) (gap ++ [t]) Follows
  starts : ∀ rest, Follows rest → Starts (t.text ++ rest)

variable {t : Tree}

theorem expressions_reads (ht : Readable g t) (hgap : Gap gap) :
    (g.expressions c).Reads (Tree.textOfList gap ++ t.text) (gap ++ [t]) (Halts [':', ',']) := by
  have hfollows : ∀ rest, Halts [':', ','] rest → Follows rest := fun rest hrest =>
    hrest.mono (by simp)
  refine ((ht.reads c gap hgap).mono hfollows).thenNothing (Reads.choose fun s rest hs hrest => ?_)
  rw [List.nil_append] at hs
  subst hs
  rw [hrest.operatorIs (c := ',') rfl (.inr (by simp))]
  exact nothing_reads

theorem spread_fails {P : Text → Prop} (hP : ∀ s, P s → opens s ∧ s.head? ≠ some '.') :
    g.spread.Fails (Beyond P) :=
  Fails.node_beyond (fun s hs => (hP s hs).1) (sign_fails rfl hP).andThen

theorem spread_reads {gap' : List Tree} (ht : Readable g t) (hgap : Gap gap) (hgap' : Gap gap') :
    g.spread.Reads
      (Tree.textOfList gap ++ (Tree.node .spreadElement (.token ['.', '.', '.'] :: (gap' ++ [t]))).text)
      (gap ++ [.node .spreadElement (.token ['.', '.', '.'] :: (gap' ++ [t]))]) Follows := by
  have hsign : (sign "...").Reads ['.', '.', '.'] [.token ['.', '.', '.']] fun _ => True :=
    sign_reads rfl (by decide) .none
  have hparts := hsign.andThen (ht.reads .bracketed gap' hgap') fun _ _ => trivial
  have hall := hparts.node .spreadElement (fun _ _ => rfl) hgap
  simpa [spread, Tree.text, Tree.textOfList, Tree.textOfList_append] using hall

theorem item_reads (ht : Item (Readable g) t) (hgap : Gap gap) :
    (g.spread <|> g.expression .bracketed).Reads (Tree.textOfList gap ++ t.text) (gap ++ [t]) Follows := by
  cases ht with
  | value ht =>
    have hfails : g.spread.Fails (Beyond Starts) :=
      spread_fails fun s hs => ⟨hs.opens, hs.head (by decide) (by decide)⟩
    refine Reads.orElse_of_fails hfails (ht.reads .bracketed gap hgap) fun rest hrest => ?_
    rw [List.append_assoc]
    exact hgap.beyond (ht.starts rest hrest)
  | spread hgap' ht => exact (spread_reads ht hgap hgap').orElse

theorem simple_fails : (g.simple c).Fails (Beyond (BeginsWith stops)) := by
  refine Fails.choose fun s hs => ?_
  obtain ⟨gap, rest, hgap, hrest, heq⟩ := hs
  rw [hgap.ahead heq (hrest.opens (by decide))]
  have hword : wordAt? rest = none := wordAt?_eq_none (breaks_of_beginsWith (by decide) hrest)
  obtain ⟨ch, hch, more, rfl⟩ := hrest
  have hdecimal : ∀ ch ∈ stops, isDecimal ch = false := by decide
  have hnumber := hdecimal ch hch
  simp only [stops, List.mem_cons, List.not_mem_nil, or_false] at hch
  rcases hch with rfl | rfl | rfl | rfl | rfl <;> simpa [hword, hnumber] using fail_fails

theorem operandStep_fails : (g.operandStep c).Fails (Beyond (BeginsWith stops)) := by
  refine Fails.choose fun s hs => ?_
  have hchain : (g.chain (g.simple c) c).Fails (Beyond (BeginsWith stops)) := simple_fails.andThen
  obtain ⟨gap, rest, hgap, hrest, heq⟩ := hs
  rw [hgap.ahead heq (hrest.opens (by decide))]
  have hword : wordAt? rest = none := wordAt?_eq_none (breaks_of_beginsWith (by decide) hrest)
  obtain ⟨ch, hch, more, rfl⟩ := hrest
  simp only [stops, List.mem_cons, List.not_mem_nil, or_false] at hch
  rcases hch with rfl | rfl | rfl | rfl | rfl <;> simpa [hword] using hchain

theorem expression_fails : ((ofDepth d n).expression c).Fails (Beyond (BeginsWith stops)) := by
  match n with
  | 0 => exact fail_fails
  | 1 => exact Fails.andThen fail_fails
  | n + 2 => exact Fails.andThen (operandStep_fails (g := ofDepth d n))

theorem item_fails {cs : List Char} (hcs : cs ⊆ stops) :
    ((ofDepth d n).spread <|> (ofDepth d n).expression .bracketed).Fails (Beyond (BeginsWith cs)) := by
  have hspread : (ofDepth d n).spread.Fails (Beyond (BeginsWith stops)) :=
    spread_fails (BeginsWith.opens_head_ne (by decide) (by decide))
  exact (hspread.orElse expression_fails).mono fun s hs => hs.mono fun _ h => h.mono hcs

theorem array_reads {ts : List Tree} (hts : Entries (Item (Readable (ofDepth d n))) ']' ts) (hgap : Gap gap) :
    (ofDepth d n).array.Reads (Tree.textOfList gap ++ (Tree.node .array (.token ['['] :: ts)).text)
      (gap ++ [.node .array (.token ['['] :: ts)]) next := by
  refine list_reads (by decide) (by decide) (fun t gap ht hgap => ?_) (item_fails (by decide)) rfl (by decide)
    rfl hts hgap
  exact (item_reads ht hgap).mono fun rest hrest => halts_of_beginsWith (by decide) (by decide) hrest

theorem arguments_reads {ts : List Tree} (hts : Entries (Item (Readable (ofDepth d n))) ')' ts)
    (hgap : Gap gap) :
    (ofDepth d n).arguments.Reads (Tree.textOfList gap ++ (Tree.node .arguments (.token ['('] :: ts)).text)
      (gap ++ [.node .arguments (.token ['('] :: ts)]) next := by
  refine list_reads (p := (ofDepth d n).spread <|> (ofDepth d n).expression .bracketed) (by decide)
    (by decide) (fun t gap ht hgap => ?_) (item_fails (by decide)) rfl (by decide) rfl hts hgap
  exact (item_reads ht hgap).mono fun rest hrest => halts_of_beginsWith (by decide) (by decide) hrest

/-! ## 5. Objects -/

theorem quotedLiteral?_head {q : Text} (hq : quotedLiteral? q = some (q, [])) :
    ∃ c more, q = c :: more ∧ c ∈ ['"', '\''] := by
  unfold quotedLiteral? at hq
  split at hq
  next c s =>
    split at hq
    next hquote =>
      refine ⟨c, s, rfl, ?_⟩
      simp only [Bool.or_eq_true, decide_eq_true_eq] at hquote
      simp only [List.mem_cons, List.not_mem_nil, or_false]
      exact hquote.symm
    next => cases hq
  next => cases hq

theorem string_reads {q : Text} (hq : quotedLiteral? q = some (q, [])) (hgap : Gap gap) :
    string.Reads (Tree.textOfList gap ++ q) (gap ++ [.leaf .string q]) next := by
  refine lexeme_reads (fun rest _ => quotedLiteral?_append hq rest) (fun rest _ => ?_) hgap
  obtain ⟨c, more, rfl, hc⟩ := quotedLiteral?_head hq
  have hopens : ∀ c ∈ ['"', '\''], opens [c] := by decide
  exact hopens c hc

theorem number?_eq_none {c : Char} (hc : isDecimal c = false ∧ c ≠ '.') (s : Text) :
    number? (c :: s) = none := by
  have hzero : c ≠ '0' := by
    rintro rfl
    exact absurd hc.1 (by decide)
  simp [number?, longest, basedNumber?, thenRead, oneChar, digits?, wholePart?, hc, hzero]

theorem privateName_fails {P : Text → Prop} (hP : ∀ s, P s → opens s ∧ s.head? ≠ some '#') :
    privateName.Fails (Beyond P) := by
  refine lexeme_fails (fun s hs => (hP s hs).1) fun s hs => ?_
  split
  next s => exact absurd rfl (hP _ hs).2
  next => rfl

theorem string_fails {l : List Char} (hopens : ∀ s, BeginsWith l s → opens s)
    (hl : ∀ c ∈ l, c ∉ ['"', '\'']) : string.Fails (Beyond (BeginsWith l)) := by
  refine lexeme_fails hopens ?_
  rintro s ⟨c, hc, rest, rfl⟩
  have hquote := hl c hc
  simp only [List.mem_cons, List.not_mem_nil, or_false, not_or] at hquote
  simp [quotedLiteral?, hquote]

theorem number_fails {l : List Char} (hopens : ∀ s, BeginsWith l s → opens s)
    (hl : ∀ c ∈ l, isDecimal c = false ∧ c ≠ '.') :
    (lexeme .number number?).Fails (Beyond (BeginsWith l)) := by
  refine lexeme_fails hopens ?_
  rintro s ⟨c, hc, rest, rfl⟩
  exact number?_eq_none (hl c hc) rest

theorem key_reads {key : Tree} (hkey : Key (Readable g) key) (hgap : Gap gap) :
    g.propertyName.Reads (Tree.textOfList gap ++ key.text) (gap ++ [key]) Breaks := by
  unfold propertyName
  cases hkey with
  | @word w hw => exact Reads.orElse (wordBut_reads hw rfl (fun _ h => h) hgap)
  | @string q hq =>
    obtain ⟨c, more, hcons, hc⟩ := quotedLiteral?_head hq
    have hquote : BeginsWith ['"', '\''] q := ⟨c, hc, more, hcons⟩
    have hbegins : ∀ rest, Breaks rest →
        Beyond (BeginsWith ['"', '\'']) (Tree.textOfList gap ++ q ++ rest) := by
      intro rest _
      rw [List.append_assoc, hcons]
      exact hgap.beyond (beginsWith_cons hc _)
    have hopens : ∀ s, BeginsWith ['"', '\''] s → opens s := fun s hs => hs.opens (by decide)
    have hword : propertyWord.Fails (Beyond (BeginsWith ['"', '\''])) :=
      wordBut_fails fun s hs => ⟨hopens s hs, breaks_of_beginsWith (by decide) hs⟩
    have hprivate : privateName.Fails (Beyond (BeginsWith ['"', '\''])) :=
      privateName_fails (BeginsWith.opens_head_ne (by decide) (by decide))
    exact Reads.orElse_of_fails hword
      (Reads.orElse_of_fails hprivate (Reads.orElse (string_reads hq hgap)) hbegins) hbegins
  -- the readings before the one in brackets all fail at the opening bracket
  | @computed gap₁ gap₂ t hgap₁ ht hgap₂ =>
    have hopens : ∀ s, BeginsWith ['['] s → opens s := fun s hs => hs.opens (by decide)
    have hword : propertyWord.Fails (Beyond (BeginsWith ['['])) :=
      wordBut_fails fun s hs => ⟨hopens s hs, breaks_of_beginsWith (by decide) hs⟩
    have hprivate : privateName.Fails (Beyond (BeginsWith ['['])) :=
      privateName_fails (BeginsWith.opens_head_ne (by decide) (by decide))
    have hstring : string.Fails (Beyond (BeginsWith ['['])) := string_fails hopens (by decide)
    have hnumber : (lexeme .number number?).Fails (Beyond (BeginsWith ['['])) := number_fails hopens (by decide)
    have hopen : (sign "[").Reads ['['] [.token ['[']] fun _ => True := sign_reads rfl (by decide) .none
    have hclose : (sign "]").Reads (Tree.textOfList gap₂ ++ [']']) (gap₂ ++ [.token [']']]) Breaks :=
      sign_reads rfl (by decide) hgap₂
    have hinside := (ht.reads .bracketed gap₁ hgap₁).andThen hclose fun rest _ => by
      rw [List.append_assoc]
      exact halts_of_beginsWith (l := [']']) (by decide) (by decide)
        (hgap₂.beyond (beginsWith_cons (by simp) _))
    have hall := (hopen.andThen hinside fun _ _ => trivial).node .computedPropertyName
      (fun _ _ => rfl) hgap
    have hbegins : ∀ rest, Breaks rest → Beyond (BeginsWith ['['])
        (Tree.textOfList gap ++ (['['] ++ (Tree.textOfList gap₁ ++ t.text ++ (Tree.textOfList gap₂ ++ [']']))) ++
          rest) := by
      intro rest _
      rw [List.append_assoc]
      exact hgap.beyond (beginsWith_cons (by simp) _)
    have hread := Reads.orElse_of_fails hword (Reads.orElse_of_fails hprivate
      (Reads.orElse_of_fails hstring (Reads.orElse_of_fails hnumber hall hbegins) hbegins) hbegins) hbegins
    simpa [Tree.text, Tree.textOfList, Tree.textOfList_append] using hread

theorem mark_fails_at_word {words : List String} {w : Text} (hw : IsWord w)
    (hwords : words.contains (String.ofList w) = false) : (g.mark words).Fails (Beyond (AtWord w)) := by
  refine Fails.choose fun s hs => ?_
  obtain ⟨gap, rest, hgap, hat, heq⟩ := hs
  rw [hgap.ahead heq (AtWord.opens hw hat)]
  obtain ⟨more, hmore, rfl⟩ := hat
  rw [word?_append hw hmore]
  simp only [hwords, Bool.false_and, Bool.false_eq_true, if_false]
  exact fail_fails

theorem mark_fails {words : List String} {P : Text → Prop} (hP : ∀ s, P s → opens s ∧ Breaks s) :
    (g.mark words).Fails (Beyond P) := by
  refine Fails.choose fun s hs => ?_
  obtain ⟨gap, rest, hgap, hrest, heq⟩ := hs
  rw [hgap.ahead heq (hP rest hrest).1, word?_eq_none (hP rest hrest).2]
  exact fail_fails

theorem decorator_fails {P : Text → Prop} (hP : ∀ s, P s → opens s ∧ s.head? ≠ some '@') :
    g.decorator.Fails (Beyond P) :=
  Fails.node_beyond (fun s hs => (hP s hs).1) (sign_fails rfl hP).andThen

theorem propertyName_fails : g.propertyName.Fails (Beyond (BeginsWith [',', '\x7d'])) := by
  have hopens : ∀ s, BeginsWith [',', '\x7d'] s → opens s := fun s hs => hs.opens (by decide)
  have hbreaks : ∀ s, BeginsWith [',', '\x7d'] s → opens s ∧ Breaks s :=
    fun s hs => ⟨hopens s hs, breaks_of_beginsWith (by decide) hs⟩
  have hprivate : privateName.Fails (Beyond (BeginsWith [',', '\x7d'])) :=
    privateName_fails (BeginsWith.opens_head_ne (by decide) (by decide))
  have hstring : string.Fails (Beyond (BeginsWith [',', '\x7d'])) := string_fails hopens (by decide)
  have hnumber : (lexeme .number number?).Fails (Beyond (BeginsWith [',', '\x7d'])) :=
    number_fails hopens (by decide)
  have hcomputed : (node .computedPropertyName (sign "[" >> g.expression .bracketed >> sign "]")).Fails
      (Beyond (BeginsWith [',', '\x7d'])) :=
    Fails.node_beyond hopens (sign_fails rfl (BeginsWith.opens_head_ne (by decide) (by decide))).andThen
  exact (wordBut_fails hbreaks).orElse (hprivate.orElse (hstring.orElse (hnumber.orElse hcomputed)))

theorem method_fails : g.method.Fails (Beyond (BeginsWith [',', '\x7d'])) := by
  have hopens : ∀ s, BeginsWith [',', '\x7d'] s → opens s := fun s hs => hs.opens (by decide)
  have hdecorators : (many g.decorator).Reads [] [] (Beyond (BeginsWith [',', '\x7d'])) :=
    (decorator_fails (BeginsWith.opens_head_ne (by decide) (by decide))).many
  have hmarks : (many (g.mark (memberMarks g.dialect))).Reads [] [] (Beyond (BeginsWith [',', '\x7d'])) :=
    (mark_fails fun s hs => ⟨hopens s hs, breaks_of_beginsWith (by decide) hs⟩).many
  have hstar : (optional (sign "*")).Reads [] [] (Beyond (BeginsWith [',', '\x7d'])) :=
    (sign_fails rfl (BeginsWith.opens_head_ne (by decide) (by decide))).optional
  exact Fails.node_beyond hopens (.after hdecorators (.after hmarks (.after hstar propertyName_fails.andThen)))

theorem objectEntry_fails : g.objectEntry.Fails (Beyond (BeginsWith [',', '\x7d'])) := by
  have hopens : ∀ s, BeginsWith [',', '\x7d'] s → opens s := fun s hs => hs.opens (by decide)
  have hspread : g.spread.Fails (Beyond (BeginsWith [',', '\x7d'])) :=
    spread_fails (BeginsWith.opens_head_ne (by decide) (by decide))
  have hpair : (node .pair (g.propertyName >> sign ":" >> g.expression .bracketed)).Fails
      (Beyond (BeginsWith [',', '\x7d'])) := Fails.node_beyond hopens propertyName_fails.andThen
  have hword : (wordBut .shorthandPropertyIdentifier (if g.dialect.hasTypes then [] else reservedWords)).Fails
      (Beyond (BeginsWith [',', '\x7d'])) :=
    wordBut_fails fun s hs => ⟨hopens s hs, breaks_of_beginsWith (by decide) hs⟩
  exact hspread.orElse (hpair.orElse (method_fails.orElse hword.andThen))

theorem typedOptional_of_fails {p : Step} {P : Text → Prop} (hp : p.Fails P) :
    (g.typedOptional p).Reads [] [] P := by
  unfold typedOptional
  split
  · exact hp.optional
  · exact nothing_reads

theorem typed_fails {p : Step} {P : Text → Prop} (hp : p.Fails P) : (g.typed p).Fails P := by
  unfold typed
  split
  · exact hp
  · exact fail_fails

theorem parameters_fails {P : Text → Prop} (hP : ∀ s, P s → opens s ∧ s.head? ≠ some '(') :
    g.parameters.Fails (Beyond P) :=
  Fails.node_beyond (fun s hs => (hP s hs).1) (sign_fails rfl hP).andThen

theorem signature_fails {mayEnd : Bool} {P : Text → Prop}
    (hP : ∀ s, P s → opens s ∧ s.head? ≠ some '(' ∧ s.head? ≠ some '<') :
    (g.signature mayEnd).Fails (Beyond P) := by
  have htypes : g.typeParameters.Fails (Beyond P) :=
    Fails.node_beyond (fun s hs => (hP s hs).1)
      (sign_fails rfl fun s hs => ⟨(hP s hs).1, (hP s hs).2.2⟩).andThen
  exact .after (typedOptional_of_fails htypes)
    (parameters_fails fun s hs => ⟨(hP s hs).1, (hP s hs).2.1⟩).andThen

/-- Whether a word stands in front of a comma or a closing brace. -/
def AtShorthand (w : Text) : Text → Prop := Before w (Beyond (BeginsWith [',', '\x7d']))

theorem AtShorthand.atWord {w s : Text} (hs : AtShorthand w s) : AtWord w s := by
  obtain ⟨rest, hrest, rfl⟩ := hs
  exact ⟨rest, Beyond.breaks (by decide) hrest, rfl⟩

theorem propertyName_reads_word {w : Text} (hw : IsWord w) :
    g.propertyName.Reads w [.leaf .propertyIdentifier w] Breaks :=
  key_reads (.word hw : Key (Readable g) (.leaf .propertyIdentifier w)) .none

-- A property that is told by its name alone is read as such after all else has failed: what follows the name is no
-- colon, and no parameters.

theorem pair_fails_at_shorthand {w : Text} (hw : IsName w) :
    (node .pair (g.propertyName >> sign ":" >> g.expression .bracketed)).Fails (Beyond (AtShorthand w)) := by
  have hcolon : (sign ":").Fails (Beyond (BeginsWith [',', '\x7d'])) :=
    sign_fails rfl (BeginsWith.opens_head_ne (by decide) (by decide))
  exact Fails.node (fun s hs => AtWord.opens hw.isWord hs.atWord)
    ((propertyName_reads_word hw.isWord).thenFails hcolon.andThen fun _ hrest => Beyond.breaks (by decide) hrest)

theorem method_fails_at_shorthand {w : Text} (hw : IsName w) : g.method.Fails (Beyond (AtShorthand w)) := by
  have hword : ∀ s, AtShorthand w s → Beyond (AtWord w) s := fun s hs => beyond_of hs.atWord
  have hquestion : (g.typedOptional (sign "?")).Reads [] [] (Beyond (BeginsWith [',', '\x7d'])) :=
    typedOptional_of_fails (sign_fails rfl (BeginsWith.opens_head_ne (by decide) (by decide)))
  have hsignature : (g.signature false).Fails (Beyond (BeginsWith [',', '\x7d'])) :=
    signature_fails fun s hs => ⟨hs.opens (by decide), hs.head_ne (by decide), hs.head_ne (by decide)⟩
  have htail := (propertyName_reads_word (g := g) hw.isWord).thenFails
    (Fails.after hquestion hsignature.andThen (q := g.signature false >> g.block))
    fun _ hrest => Beyond.breaks (by decide) hrest
  have hdecorator : g.decorator.Fails (Beyond (AtWord w)) :=
    decorator_fails (AtWord.opens_head_ne hw.isWord (by decide))
  have hmark : (g.mark (memberMarks g.dialect)).Fails (Beyond (AtWord w)) := by
    refine mark_fails_at_word hw.isWord (hw.contains ?_)
    cases g.dialect <;> decide
  have hstar : (sign "*").Fails (Beyond (AtWord w)) :=
    sign_fails rfl (AtWord.opens_head_ne hw.isWord (by decide))
  exact Fails.node (fun s hs => AtWord.opens hw.isWord hs.atWord) (.after (hdecorator.many.mono hword)
    (.after (hmark.many.mono hword) (.after (hstar.optional.mono hword) htail)))

theorem shorthand_reads {w : Text} (hw : IsName w) (hgap : Gap gap) :
    g.objectEntry.Reads (Tree.textOfList gap ++ w) (gap ++ [.leaf .shorthandPropertyIdentifier w])
      (Beyond (BeginsWith [',', '\x7d'])) := by
  have hspread : g.spread.Fails (Beyond (AtShorthand w)) :=
    (spread_fails (AtWord.opens_head_ne hw.isWord (by decide))).mono fun s hs => hs.mono fun _ hs => hs.atWord
  have hshorthand : (wordBut .shorthandPropertyIdentifier
      (if g.dialect.hasTypes then [] else reservedWords)).Reads (Tree.textOfList gap ++ w)
        (gap ++ [.leaf .shorthandPropertyIdentifier w]) (Beyond (BeginsWith [',', '\x7d'])) := by
    refine wordBut_reads hw.isWord (hw.contains ?_) (fun rest hrest => Beyond.breaks (by decide) hrest) hgap
    cases g.dialect <;> decide
  have hdefault : (optional (extend .objectAssignmentPattern (g.initializer .bracketed))).Reads [] []
      (Beyond (BeginsWith [',', '\x7d'])) := by
    have hequals : (sign "=").Fails (Beyond (BeginsWith [',', '\x7d'])) :=
      sign_fails rfl (BeginsWith.opens_head_ne (by decide) (by decide))
    exact (Fails.extend hequals.andThen).optional
  have hbegins : ∀ rest, Beyond (BeginsWith [',', '\x7d']) rest →
      Beyond (AtShorthand w) (Tree.textOfList gap ++ w ++ rest) := by
    intro rest hrest
    rw [List.append_assoc]
    exact hgap.beyond ⟨rest, hrest, rfl⟩
  exact Reads.orElse_of_fails hspread (Reads.orElse_of_fails (pair_fails_at_shorthand hw)
    (Reads.orElse_of_fails (method_fails_at_shorthand hw) (hshorthand.thenNothing hdefault) hbegins) hbegins) hbegins

theorem Key.head {P : Tree → Prop} {key : Tree} (hkey : Key P key) {rest : Text} (hrest : Breaks rest) :
    opens (key.text ++ rest) ∧ (key.text ++ rest).head? ≠ some '.' := by
  cases hkey with
  | @word w hw =>
    have hat : AtWord w (w ++ rest) := ⟨rest, hrest, rfl⟩
    exact ⟨AtWord.opens hw hat, AtWord.head_ne hw hat (by decide)⟩
  | string hq =>
    obtain ⟨c, more, rfl, hc⟩ := quotedLiteral?_head hq
    have hquote : BeginsWith ['"', '\''] (c :: more ++ rest) := beginsWith_cons hc _
    exact ⟨hquote.opens (by decide), hquote.head_ne (by decide)⟩
  | computed => exact ⟨rfl, nofun⟩

theorem pair_reads {key : Tree} {gap₁ gap₂ : List Tree} (hkey : Key (Readable g) key) (hgap₁ : Gap gap₁)
    (hgap₂ : Gap gap₂) (ht : Readable g t) (hgap : Gap gap) :
    g.objectEntry.Reads
      (Tree.textOfList gap ++ (Tree.node .pair (key :: (gap₁ ++ .token [':'] :: (gap₂ ++ [t])))).text)
      (gap ++ [.node .pair (key :: (gap₁ ++ .token [':'] :: (gap₂ ++ [t])))]) Follows := by
  have hname := key_reads hkey .none
  have hcolon : (sign ":").Reads (Tree.textOfList gap₁ ++ [':']) (gap₁ ++ [.token [':']]) fun _ => True :=
    sign_reads rfl (by decide) hgap₁
  have hbreaks : ∀ rest, Breaks (Tree.textOfList gap₁ ++ [':'] ++ rest) := by
    intro rest
    rw [List.append_assoc]
    exact Beyond.breaks (l := [':']) (by decide) (hgap₁.beyond (beginsWith_cons (by simp) _))
  have hvalue := hcolon.andThen (ht.reads .bracketed gap₂ hgap₂) fun _ _ => trivial
  have hparts := hname.andThen hvalue fun rest _ => by
    rw [List.append_assoc]
    exact hbreaks _
  -- a key begins with no dots, so it is not taken for a spread
  have hhead : ∀ rest, opens (key.text ++ (Tree.textOfList gap₁ ++ [':'] ++ rest)) ∧
      (key.text ++ (Tree.textOfList gap₁ ++ [':'] ++ rest)).head? ≠ some '.' :=
    fun rest => Key.head hkey (hbreaks rest)
  have hall := hparts.node .pair (fun rest _ => by
    simpa [Tree.textOfList] using (hhead (Tree.textOfList gap₂ ++ t.text ++ rest)).1) hgap
  have hspread : g.spread.Fails (Beyond fun s => opens s ∧ s.head? ≠ some '.') := spread_fails fun _ hs => hs
  have hread : g.objectEntry.Reads _ _ Follows := Reads.orElse_of_fails hspread hall.orElse fun rest _ => by
    rw [List.append_assoc]
    refine hgap.beyond ?_
    simpa [Tree.textOfList] using hhead (Tree.textOfList gap₂ ++ t.text ++ rest)
  simpa [Tree.text, Tree.textOfList, Tree.textOfList_append] using hread

theorem object_reads {ts : List Tree} (hts : Entries (Field (Readable g)) '\x7d' ts) (hgap : Gap gap) :
    g.object.Reads (Tree.textOfList gap ++ (Tree.node .object (.token ['\x7b'] :: ts)).text)
      (gap ++ [.node .object (.token ['\x7b'] :: ts)]) next := by
  refine list_reads (by decide) (by decide) (fun t gap ht hgap => ?_) objectEntry_fails rfl (by decide) rfl
    hts hgap
  have hfollows : ∀ rest, Beyond (BeginsWith [',', '\x7d']) rest → Follows rest := fun rest hrest =>
    halts_of_beginsWith (by decide) (by decide) hrest
  cases ht with
  | spread hgap' ht => exact (Reads.orElse (spread_reads ht hgap hgap')).mono hfollows
  | pair hkey hgap₁ hgap₂ ht => exact (pair_reads hkey hgap₁ hgap₂ ht hgap).mono hfollows
  | shorthand hw => exact shorthand_reads hw hgap

/-! ## 6. Simple expressions -/

theorem Goes.operatorIs {s : State} (h : Goes s.rest) (sign : String) {c : Char}
    (hsign : sign.toList.head? = some c) (hc : c ∈ goings ∨ c ∈ [':']) (hne : c ∉ ['.', '[', '(']) :
    s.operatorIs sign = false := by
  rcases h with h | h
  · exact Halts.operatorIs h hsign hc
  · refine startsWith_of_head hsign ?_
    rw [Gap.aheadOfExpression .none rfl (h.opens (by decide))]
    exact h.head_ne hne

theorem simple_reads_string {q : Text} (hq : quotedLiteral? q = some (q, [])) (hgap : Gap gap) :
    (g.simple c).Reads (Tree.textOfList gap ++ q) (gap ++ [.leaf .string q]) next := by
  have hread : string.Reads (Tree.textOfList gap ++ q) (gap ++ [.leaf .string q]) next := string_reads hq hgap
  obtain ⟨ch, more, rfl, hch⟩ := quotedLiteral?_head hq
  refine Reads.choose fun s rest hs _ => ?_
  rw [List.append_assoc] at hs
  have hopens : ∀ ch ∈ ['"', '\''], opens [ch] := by decide
  have hahead : s.ahead = ch :: (more ++ rest) := hgap.ahead hs (hopens ch hch)
  rw [hahead]
  simp only [List.mem_cons, List.not_mem_nil, or_false] at hch
  rcases hch with rfl | rfl <;> simpa using hread

theorem simple_reads_array {ts : List Tree}
    (h : g.array.Reads (Tree.textOfList gap ++ (Tree.node .array (.token ['['] :: ts)).text) trees next)
    (hgap : Gap gap) :
    (g.simple c).Reads (Tree.textOfList gap ++ (Tree.node .array (.token ['['] :: ts)).text) trees next := by
  refine Reads.choose fun s rest hs _ => ?_
  rw [List.append_assoc] at hs
  have hahead : s.ahead = '[' :: (Tree.textOfList ts ++ rest) := hgap.ahead hs rfl
  rw [hahead]
  simpa using h

theorem simple_reads_object {ts : List Tree}
    (h : g.object.Reads (Tree.textOfList gap ++ (Tree.node .object (.token ['\x7b'] :: ts)).text) trees next)
    (hgap : Gap gap) :
    (g.simple c).Reads (Tree.textOfList gap ++ (Tree.node .object (.token ['\x7b'] :: ts)).text) trees next := by
  refine Reads.choose fun s rest hs _ => ?_
  rw [List.append_assoc] at hs
  have hahead : s.ahead = '\x7b' :: (Tree.textOfList ts ++ rest) := hgap.ahead hs rfl
  rw [hahead]
  simpa using h

theorem parenthesized_reads {gap₁ gap₂ : List Tree} (hgap₁ : Gap gap₁) (ht : Readable g t) (hgap₂ : Gap gap₂)
    (hgap : Gap gap) :
    g.parenthesized.Reads (Tree.textOfList gap ++ (inParentheses gap₁ t gap₂).text)
      (gap ++ [inParentheses gap₁ t gap₂]) next := by
  have hopen : (sign "(").Reads ['('] [.token ['(']] fun _ => True := sign_reads rfl (by decide) .none
  have hclose : (sign ")").Reads (Tree.textOfList gap₂ ++ [')']) (gap₂ ++ [.token [')']]) next :=
    sign_reads rfl (by decide) hgap₂
  -- no type follows the value in its parentheses
  have hascription : (Step.choose fun s =>
      if s.lastKind? = some .sequenceExpression then nothing
      else g.typedOptional (g.ascription false)).Reads [] [] (Beyond (BeginsWith [')'])) := by
    have hcolon : (g.ascription false).Fails (Beyond (BeginsWith [')'])) :=
      Fails.node_beyond (fun s hs => hs.opens (by decide))
        (sign_fails rfl (BeginsWith.opens_head_ne (by decide) (by decide))).andThen
    refine Reads.choose fun s _ _ _ => ?_
    split
    · exact nothing_reads
    · exact typedOptional_of_fails hcolon
  have hbegins : ∀ rest, next rest → Beyond (BeginsWith [')']) (Tree.textOfList gap₂ ++ [')'] ++ rest) := by
    intro rest _
    rw [List.append_assoc]
    exact hgap₂.beyond (beginsWith_cons (by simp) _)
  have hend := (hascription.andThen hclose hbegins)
  have hinside := (expressions_reads (c := .bracketed) ht hgap₁).andThen hend fun rest hrest =>
    halts_of_beginsWith (l := [')']) (by decide) (by decide) (hbegins rest hrest)
  have hall := (hopen.andThen hinside fun _ _ => trivial).node .parenthesizedExpression
    (fun _ _ => rfl) hgap
  simpa [parenthesized, inParentheses, Tree.text, Tree.textOfList, Tree.textOfList_append] using hall

theorem simple_reads_parenthesized {gap₁ gap₂ : List Tree} (hgap₁ : Gap gap₁) (ht : Readable g t)
    (hgap₂ : Gap gap₂) (hgap : Gap gap) :
    (g.simple c).Reads (Tree.textOfList gap ++ (inParentheses gap₁ t gap₂).text)
      (gap ++ [inParentheses gap₁ t gap₂]) Goes := by
  have hread : (g.parenthesizedOrArrow c).Reads (Tree.textOfList gap ++ (inParentheses gap₁ t gap₂).text)
      (gap ++ [inParentheses gap₁ t gap₂]) Goes := by
    intro s rest hs hrest
    obtain ⟨reach, hok⟩ := parenthesized_reads hgap₁ ht hgap₂ hgap s rest hs hrest
    refine ⟨reach, ?_⟩
    unfold parenthesizedOrArrow Step.afterTrial
    rw [hok]
    dsimp only
    rw [Goes.operatorIs (s := ⟨rest, _, _, _⟩) hrest "=>" (c := '=') rfl (by decide) (by decide),
      Goes.operatorIs (s := ⟨rest, _, _, _⟩) hrest ":" (c := ':') rfl (by decide) (by decide),
      Bool.and_false]
    rfl
  refine Reads.choose fun s rest hs _ => ?_
  rw [List.append_assoc] at hs
  have hahead : s.ahead = '(' ::
      (Tree.textOfList (gap₁ ++ t :: (gap₂ ++ [.token [')']])) ++ rest) := hgap.ahead hs rfl
  rw [hahead]
  simpa using hread

theorem simple_reads_word {w : Text} (hw : IsWord w)
    (h : (g.wordOperand c (String.ofList w)).Reads (Tree.textOfList gap ++ text) trees next)
    (hat : ∀ rest, next rest → AtWord w (text ++ rest)) (hgap : Gap gap) :
    (g.simple c).Reads (Tree.textOfList gap ++ text) trees next := by
  refine Reads.choose fun s rest hs hrest => ?_
  rw [List.append_assoc] at hs
  have hword := wordAt?_of_atWord hw (hat rest hrest)
  rw [hgap.ahead hs (AtWord.opens hw (hat rest hrest))]
  obtain ⟨more, -, heq⟩ := hat rest hrest
  rw [heq] at hword ⊢
  obtain ⟨ch, chs, rfl⟩ := List.exists_cons_of_ne_nil hw.ne_nil
  have hchar : isWordChar ch := hw.wordChars ch List.mem_cons_self
  have hdecimal : isDecimal ch = false := by simpa using hw.head
  -- no sign stands at the start of a word
  have hne : ∀ sign ∈ ['(', '\x7b', '[', '\x60', '\'', '"', '/', '@', '.', '<'], ch ≠ sign :=
    ne_of_forall_mem_eq_false hchar (by decide)
  simp only [List.forall_mem_cons, List.not_mem_nil, false_implies, implies_true, and_true] at hne
  rw [List.cons_append] at hword ⊢
  simp only [hne, if_false, hdecimal, decide_false, Bool.false_and, Bool.or_self,
    Bool.false_eq_true, hword]
  exact h

theorem reference_reads {w : Text} (hw : IsName w) (hgap : Gap gap) :
    g.reference.Reads (Tree.textOfList gap ++ w) (gap ++ [.leaf .identifier w]) Breaks := by
  have hundefined : (keywordLeaf .undefined "undefined").Fails (Beyond (AtWord w)) := by
    refine lexeme_fails (fun s hs => AtWord.opens hw.isWord hs) fun s hs => exactWord_eq_none hw.isWord ?_ hs
    rintro rfl
    exact hw.not_special (by decide)
  refine Reads.orElse_of_fails hundefined (wordBut_reads hw.isWord (hw.contains ?_) (fun _ h => h) hgap)
    fun rest hrest => ?_
  · cases g.dialect <;> decide
  · rw [List.append_assoc]
    exact hgap.beyond ⟨rest, hrest, rfl⟩

theorem wordOperand_name {w : Text} (hw : IsName w) : g.wordOperand c (String.ofList w) = g.nameOrArrow c := by
  have hne : ∀ v ∈ ["function", "async", "class", "this", "super", "true", "false", "null", "import"],
      String.ofList w ≠ v := by
    have hspecial : ∀ v ∈ ["function", "async", "class", "this", "super", "true", "false", "null", "import"],
        v ∈ specialWords := by decide
    rintro v hv rfl
    exact hw.not_special (hspecial _ hv)
  simp only [List.forall_mem_cons, List.not_mem_nil, false_implies, implies_true, and_true] at hne
  simp [wordOperand, hne]

theorem simple_reads_name {w : Text} (hw : IsName w) (hgap : Gap gap) :
    (g.simple c).Reads (Tree.textOfList gap ++ w) (gap ++ [.leaf .identifier w]) Goes := by
  refine simple_reads_word hw.isWord ?_ (fun rest hrest => ⟨rest, hrest.breaks, rfl⟩) hgap
  rw [wordOperand_name hw]
  have htrial := (reference_reads (g := g) hw hgap).mono fun _ (h : Goes _) => h.breaks
  intro s rest hs hrest
  obtain ⟨reach, hok⟩ := htrial s rest hs hrest
  refine ⟨reach, ?_⟩
  unfold nameOrArrow Step.afterTrial
  rw [hok]
  dsimp only
  rw [Goes.operatorIs (s := ⟨rest, _, _, _⟩) hrest "=>" (c := '=') rfl (by decide) (by decide)]
  exact hok

theorem simple_reads_constant {kind : Kind} {w : String} (hw : (kind, w) ∈ constants) (hgap : Gap gap) :
    (g.simple c).Reads (Tree.textOfList gap ++ w.toList) (gap ++ [.leaf kind w.toList]) Breaks := by
  have hword := isWord_of_constant hw
  have hread : (keywordLeaf kind w).Reads (Tree.textOfList gap ++ w.toList) (gap ++ [.leaf kind w.toList])
      Breaks :=
    lexeme_reads (fun rest hrest => exactWord_append hword hrest) (fun rest _ => hword.opens rest) hgap
  refine simple_reads_word hword ?_ (fun rest hrest => ⟨rest, hrest, rfl⟩) hgap
  rw [String.ofList_toList]
  simp only [constants, List.mem_cons, Prod.mk.injEq, List.not_mem_nil, or_false] at hw
  rcases hw with ⟨rfl, rfl⟩ | ⟨rfl, rfl⟩ | ⟨rfl, rfl⟩ | ⟨rfl, rfl⟩ <;> simpa [wordOperand] using hread

/-! ## 7. Chains of members and calls -/

theorem mayMiss_eq_false {inExpression : Bool} {ch : Char} (hblank : Semicolon.isBlank ch = false)
    (hbreak : ∀ d, Semicolon.breaksLine d ch = false) (hspace : isSpace ch = false) (hbrace : ch ≠ '\x7d')
    (hslash : ch ≠ '/')
    (s : Text) : Semicolon.mayMiss d inExpression (ch :: s) = false := by
  have hcomment : comment? ((ch :: s).dropWhile isSpace) = none := by
    rw [List.dropWhile_cons, hspace]
    unfold comment?
    split <;> simp_all
  have hnewline : ch ≠ '\n' := by
    rintro rfl
    exact absurd (hbreak .plain) (by decide)
  have hhere : Semicolon.mayMissHere d inExpression (ch :: s) = false := by
    unfold Semicolon.mayMissHere
    split
    · simp [Semicolon.typed, hbrace, hblank]
    · simp [Semicolon.plainUpTo, hslash, hbrace, hbreak, hblank]
  unfold Semicolon.mayMiss Semicolon.mayMissUpTo
  rw [hhere, hcomment]
  rfl

theorem ends_eq_false {s : State} (h : BeginsWith ['.', '[', '('] s.rest) : g.ends c s = false := by
  obtain ⟨ch, hch, rest, heq⟩ := h
  have hall : ∀ ch ∈ ['.', '[', '('], Semicolon.isBlank ch = false ∧ (∀ d, Semicolon.breaksLine d ch = false) ∧
      isSpace ch = false ∧ ch ≠ '\x7d' ∧ ch ≠ '/' := by
    have hbreak : ∀ ch ∈ ['.', '[', '('], ∀ d, Semicolon.breaksLine d ch = false := by
      intro ch hch d
      simp only [List.mem_cons, List.not_mem_nil, or_false] at hch
      cases d <;> rcases hch with rfl | rfl | rfl <;> decide
    intro ch hch
    refine ⟨?_, hbreak ch hch, ?_⟩ <;> revert ch <;> decide
  obtain ⟨hblank, hbreak, hspace, hbrace, hslash⟩ := hall ch hch
  unfold ends
  rw [heq, mayMiss_eq_false hblank hbreak hspace hbrace hslash, Bool.and_false]

theorem suffix_extends_member {w : Text} (hw : IsWord w) :
    (g.suffix c).Extends t ('.' :: w) (.node .memberExpression [t, .token ['.'], .leaf .propertyIdentifier w])
      Breaks := by
  refine Extends.choose fun s rest hs hrest => ?_
  have hbegins : BeginsWith ['.', '[', '('] s.rest := ⟨'.', by simp, w ++ rest, hs⟩
  have hahead : s.aheadOfExpression = '.' :: (w ++ rest) := Gap.aheadOfExpression .none hs rfl
  rw [ends_eq_false hbegins, hahead]
  have hdot : (operator ".").Reads ['.'] [.token ['.']] fun _ => True := operator_reads rfl (by decide) .none
  have hat : ∀ rest, Breaks rest → Beyond (AtWord w) (w ++ rest) := fun rest hrest =>
    beyond_of ⟨rest, hrest, rfl⟩
  have hprivate : privateName.Fails (Beyond (AtWord w)) :=
    privateName_fails fun s hs => ⟨AtWord.opens hw hs, AtWord.head_ne hw hs (by decide)⟩
  have hname : propertyWord.Reads w [.leaf .propertyIdentifier w] Breaks :=
    wordBut_reads hw rfl (fun _ h => h) .none
  have hparts := hdot.andThen (Reads.orElse_of_fails hprivate hname hat) fun _ _ => trivial
  have hmember : g.memberAfter.Extends t ('.' :: w)
      (.node .memberExpression [t, .token ['.'], .leaf .propertyIdentifier w]) Breaks :=
    (Reads.extend _ hparts).orElse
  simpa using hmember

theorem suffix_extends_index {u : Tree} {gap₁ gap₂ : List Tree} (hgap₁ : Gap gap₁) (hu : Readable g u)
    (hgap₂ : Gap gap₂) :
    (g.suffix c).Extends t ('[' :: Tree.textOfList (gap₁ ++ u :: (gap₂ ++ [.token [']']])))
      (.node .subscriptExpression (t :: .token ['['] :: (gap₁ ++ u :: (gap₂ ++ [.token [']']])))) next := by
  refine Extends.choose fun s rest hs hrest => ?_
  have hbegins : BeginsWith ['.', '[', '('] s.rest := ⟨'[', by simp, _, hs⟩
  have hahead : s.aheadOfExpression =
      '[' :: (Tree.textOfList (gap₁ ++ u :: (gap₂ ++ [.token [']']])) ++ rest) :=
    Gap.aheadOfExpression .none hs rfl
  rw [ends_eq_false hbegins, hahead]
  have hopen : (operator "[").Reads ['['] [.token ['[']] fun _ => True := operator_reads rfl (by decide) .none
  have hclose : (sign "]").Reads (Tree.textOfList gap₂ ++ [']']) (gap₂ ++ [.token [']']]) next :=
    sign_reads rfl (by decide) hgap₂
  have hinside := (expressions_reads (c := .bracketed) hu hgap₁).andThen hclose fun rest _ => by
    rw [List.append_assoc]
    exact halts_of_beginsWith (l := [']']) (by decide) (by decide)
      (hgap₂.beyond (beginsWith_cons (by simp) _))
  have hparts := hopen.andThen hinside fun _ _ => trivial
  -- a bracket is no dot, so the member is read by its value
  have hdot : (extend .memberExpression (operator "." >> (privateName <|> propertyWord))).Fails
      (BeginsWith ['[']) := by
    refine Fails.extend (Fails.andThen fun s hs => ?_)
    obtain ⟨ch, hch, rest, heq⟩ := hs
    obtain rfl := List.mem_singleton.1 hch
    unfold operator State.skipAfterExpression
    rw [skipUpTo_of_opens (by rw [heq]; rfl)]
    unfold immediateSign Step.immediateTree
    rw [heq]
    exact ⟨_, rfl⟩
  have hmember : g.memberAfter.Extends t ('[' :: Tree.textOfList (gap₁ ++ u :: (gap₂ ++ [.token [']']])))
      (.node .subscriptExpression (t :: .token ['['] :: (gap₁ ++ u :: (gap₂ ++ [.token [']']])))) next := by
    have hextends := Reads.extend .subscriptExpression (t := t) hparts
    refine Extends.orElse_of_fails hdot ?_ fun rest _ => beginsWith_cons (by simp) _
    simpa [Tree.text, Tree.textOfList, Tree.textOfList_append] using hextends
  simpa using hmember

theorem suffix_extends_call {ts : List Tree}
    (h : g.arguments.Reads (Tree.node .arguments (.token ['('] :: ts)).text
      [.node .arguments (.token ['('] :: ts)] next) :
    (g.suffix c).Extends t (Tree.node .arguments (.token ['('] :: ts)).text
      (.node .callExpression [t, .node .arguments (.token ['('] :: ts)]) next := by
  refine Extends.choose fun s rest hs hrest => ?_
  have hbegins : BeginsWith ['.', '[', '('] s.rest := ⟨'(', by simp, _, hs⟩
  have hahead : s.aheadOfExpression = '(' :: (Tree.textOfList ts ++ rest) := Gap.aheadOfExpression .none hs rfl
  rw [ends_eq_false hbegins, hahead]
  simpa using Reads.extend .callExpression (t := t) h

theorem goes_of_sign {c : Char} (hc : c ∈ ['.', '[', '(']) (rest : Text) : Goes (c :: rest) :=
  .inr (beginsWith_cons hc rest)

theorem starts_of_primary {t : Tree} (ht : Primary t) {rest : Text} (hrest : Goes rest) :
    Starts (t.text ++ rest) := by
  cases ht with
  | string hq =>
    obtain ⟨c, more, rfl, hc⟩ := quotedLiteral?_head hq
    have hsigns : ∀ c ∈ ['"', '\''], c ∈ startSigns := by decide
    exact .inl (beginsWith_cons (hsigns c hc) _)
  | @name w hw => exact .inr ⟨w, rest, .name hw, .inl hrest, rfl⟩
  | constant hw => exact .inr ⟨_, rest, .constant hw, .inl hrest, rfl⟩
  | array => exact .inl (beginsWith_cons (by decide) _)
  | object => exact .inl (beginsWith_cons (by decide) _)
  | parenthesized => exact .inl (beginsWith_cons (by decide) _)
  -- members and calls begin where what stands before them begins
  | @member u w hu hw =>
    have hstarts := starts_of_primary hu (goes_of_sign (c := '.') (by decide) (w ++ rest))
    simpa [Tree.text, Tree.textOfList] using hstarts
  | @index gap gap' u v hu hgap hv hgap' =>
    have hstarts := starts_of_primary hu
      (goes_of_sign (c := '[') (by decide) (Tree.textOfList (gap ++ v :: (gap' ++ [.token [']']])) ++ rest))
    simpa [Tree.text, Tree.textOfList] using hstarts
  | @call u ts hu hts =>
    have hstarts := starts_of_primary hu (goes_of_sign (c := '(') (by decide) (Tree.textOfList ts ++ rest))
    simpa [Tree.text, Tree.textOfList] using hstarts

theorem readable_items {close : Char} {ts : List Tree} (hts : Entries (Item Value) close ts) {length : Nat}
    (hread : ∀ u, Value u → u.text.length < length → Readable g u)
    (hlength : (Tree.textOfList ts).length ≤ length) : Entries (Item (Readable g)) close ts :=
  hts.mono fun t ht hlt => ht.mono fun u hu hle => hread u hu (by omega)

theorem chain_reads {t : Tree} (ht : Primary t)
    (hread : ∀ u, Value u → u.text.length < t.text.length → Readable (ofDepth d n) u) {text : Text} {t' : Tree}
    {next : Text → Prop} (hmore : ((ofDepth d n).suffix c).Continues t text t' next)
    (hgoes : ∀ rest, next rest → Goes (text ++ rest)) (hgap : Gap gap) :
    ((ofDepth d n).simple c >> many ((ofDepth d n).suffix c)).Reads
      (Tree.textOfList gap ++ t.text ++ text) (gap ++ [t']) next := by
  -- along the chain from its end: what is read so far of the suffixes goes into `hmore`, until the first value
  -- is reached
  cases ht with
  | string hq => exact (simple_reads_string hq hgap).thenMany hmore hgoes
  | name hw => exact (simple_reads_name hw hgap).thenMany hmore hgoes
  | constant hw =>
    exact (simple_reads_constant hw hgap).thenMany hmore fun rest hrest => (hgoes rest hrest).breaks
  | array hts =>
    have hentries := readable_items hts hread (by simp [Tree.text, Tree.textOfList])
    exact (simple_reads_array (array_reads hentries hgap) hgap).thenMany hmore hgoes
  | @object ts hts =>
    have hentries : Entries (Field (Readable (ofDepth d n))) '\x7d' ts :=
      hts.mono fun t ht hlt => ht.mono fun u hu hle => hread u hu (by
        simp only [Tree.text, Tree.textOfList, List.length_append]
        omega)
    exact (simple_reads_object (object_reads hentries hgap) hgap).thenMany hmore hgoes
  | @parenthesized gap₁ gap₂ u hgap₁ hu hgap₂ =>
    have hvalue := hread u hu (by
      simp only [inParentheses, Tree.text, Tree.textOfList, Tree.textOfList_append, List.length_append,
        List.length_cons]
      omega)
    exact (simple_reads_parenthesized hgap₁ hvalue hgap₂ hgap).thenMany hmore hgoes
  | @member u w hu hw =>
    have hstep := suffix_extends_member (g := ofDepth d n) (c := c) (t := u) hw
    have hchain := chain_reads hu (fun v hv hlt => hread v hv (by
      simp only [Tree.text, Tree.textOfList, List.length_append]
      omega)) (hstep.continues hmore (fun rest hrest => (hgoes rest hrest).breaks) (List.cons_ne_nil _ _))
      (fun rest _ => goes_of_sign (by decide) _) hgap
    simpa [Tree.text, Tree.textOfList] using hchain
  | @index gap₁ gap₂ u v hu hgap₁ hv hgap₂ =>
    have hvalue := hread v hv (by
      simp only [Tree.text, Tree.textOfList, Tree.textOfList_append, List.length_append, List.length_cons]
      omega)
    have hstep := (suffix_extends_index (c := c) (t := u) hgap₁ hvalue hgap₂).continues hmore hgoes
      (List.cons_ne_nil _ _)
    have hchain := chain_reads hu (fun v hv hlt => hread v hv (by
      simp only [Tree.text, Tree.textOfList, List.length_append]
      omega)) hstep (fun rest _ => goes_of_sign (by decide) _) hgap
    simpa [Tree.text, Tree.textOfList] using hchain
  | @call u ts hu hts =>
    have hentries : Entries (Item (Readable (ofDepth d n))) ')' ts := readable_items hts hread (by
      simp only [Tree.text, Tree.textOfList, List.length_append, List.length_cons]
      omega)
    have hstep := (suffix_extends_call (c := c) (t := u) (arguments_reads hentries .none)).continues hmore
      hgoes (List.cons_ne_nil _ _)
    have hchain := chain_reads hu (fun v hv hlt => hread v hv (by
      simp only [Tree.text, Tree.textOfList, List.length_append]
      omega)) hstep (fun rest _ => goes_of_sign (by decide) _) hgap
    simpa [Tree.text, Tree.textOfList] using hchain

end Grammar

end AssetEmbed.Script
