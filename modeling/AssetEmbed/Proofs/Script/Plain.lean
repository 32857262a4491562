import AssetEmbed.Proofs.Script.Reading

/-!
# Plain trees

The values of a module in plain form are made of names, quoted literals, arrays, objects, parentheses,
members, calls and arrow functions, to any depth and with any white space and comments within brackets.
Whether a tree is in plain form depends on the tree alone, not on how it is read.
-/

namespace AssetEmbed.Script

open Step

/-! ## 1. Words and lists -/

/-- The words that join two operands. -/
def jointWords : List String := ["as", "satisfies", "in", "instanceof"]

/-- The words that are something other than a name somewhere in a script. -/
def specialWords : List String :=
  Grammar.reservedWords ++ Grammar.expressionWords ++ jointWords ++ Grammar.memberMarks .typed ++
    ["enum", "from", "global", "interface", "let", "module", "namespace", "type", "undefined", "using"]

/-- A word that can only be a name. -/
structure IsName (w : Text) : Prop where
  isWord : IsWord w
  not_special : String.ofList w ∉ specialWords

theorem IsName.contains {w : Text} (hw : IsName w) {words : List String} (hwords : words ⊆ specialWords) :
    words.contains (String.ofList w) = false := by
  rw [List.contains_eq_mem, decide_eq_false_iff_not]
  exact fun hmem => hw.not_special (hwords hmem)

def constants : List (Kind × String) :=
  [(.thisKeyword, "this"), (.trueLiteral, "true"), (.falseLiteral, "false"), (.nullLiteral, "null")]

theorem isWord_of_constant {kind : Kind} {w : String} (hw : (kind, w) ∈ constants) : IsWord w.toList := by
  have hall : ∀ constant ∈ constants, constant.2.toList ≠ [] ∧
      (∀ ch ∈ constant.2.toList, isWordChar ch = true) ∧ constant.2.toList.head?.any isDecimal = false := by
    decide
  obtain ⟨hne, hchars, hhead⟩ := hall _ hw
  exact ⟨hne, hchars, hhead⟩

/-- A word that is a value: a name or a constant. -/
inductive ValueWord : Text → Prop where
  | name {w : Text} (hw : IsName w) : ValueWord w
  | constant {kind : Kind} {w : String} (hw : (kind, w) ∈ constants) : ValueWord w.toList

theorem ValueWord.isWord {w : Text} (hw : ValueWord w) : IsWord w := by
  cases hw with
  | name hw => exact hw.isWord
  | constant hw => exact isWord_of_constant hw

theorem ValueWord.not_mem {w : Text} (hw : ValueWord w) {words : List String} (hspecial : words ⊆ specialWords)
    (hconstant : ∀ constant ∈ constants, constant.2 ∉ words) : String.ofList w ∉ words := by
  cases hw with
  | name hw => exact fun hmem => hw.not_special (hspecial hmem)
  | constant hw =>
    rw [String.ofList_toList]
    exact hconstant _ hw

/-- What stands behind the first entry of a list: commas, each with an entry behind it or with none. -/
inductive Tail (P : Tree → Prop) : List Tree → Prop where
  | nil : Tail P []
  | hole {gap ts : List Tree} (hgap : Gap gap) (hts : Tail P ts) : Tail P (gap ++ .token [','] :: ts)
  | entry {gap gap' ts : List Tree} {t : Tree} (hgap : Gap gap) (hgap' : Gap gap') (ht : P t)
      (hts : Tail P ts) : Tail P (gap ++ .token [','] :: (gap' ++ t :: ts))

/-- What stands behind the opening sign of a list of entries, with its closing sign. -/
inductive Entries (P : Tree → Prop) (close : Char) : List Tree → Prop where
  | none {gap ts : List Tree} (hts : Tail P ts) (hgap : Gap gap) :
      Entries P close (ts ++ (gap ++ [.token [close]]))
  | some {gap gap' ts : List Tree} {t : Tree} (hgap : Gap gap) (ht : P t) (hts : Tail P ts)
      (hgap' : Gap gap') : Entries P close (gap ++ t :: (ts ++ (gap' ++ [.token [close]])))

inductive Item (P : Tree → Prop) : Tree → Prop where
  | value {t : Tree} (ht : P t) : Item P t
  | spread {gap : List Tree} {t : Tree} (hgap : Gap gap) (ht : P t) :
      Item P (.node .spreadElement (.token ['.', '.', '.'] :: (gap ++ [t])))

inductive Key (P : Tree → Prop) : Tree → Prop where
  | word {w : Text} (hw : IsWord w) : Key P (.leaf .propertyIdentifier w)
  | string {q : Text} (hq : quotedLiteral? q = some (q, [])) : Key P (.leaf .string q)
  | computed {gap gap' : List Tree} {t : Tree} (hgap : Gap gap) (ht : P t) (hgap' : Gap gap') :
      Key P (.node .computedPropertyName (.token ['['] :: (gap ++ t :: (gap' ++ [.token [']']]))))

inductive Field (P : Tree → Prop) : Tree → Prop where
  | spread {gap : List Tree} {t : Tree} (hgap : Gap gap) (ht : P t) :
      Field P (.node .spreadElement (.token ['.', '.', '.'] :: (gap ++ [t])))
  | pair {key t : Tree} {gap gap' : List Tree} (hkey : Key P key) (hgap : Gap gap) (hgap' : Gap gap')
      (ht : P t) : Field P (.node .pair (key :: (gap ++ .token [':'] :: (gap' ++ [t]))))
  | shorthand {w : Text} (hw : IsName w) : Field P (.leaf .shorthandPropertyIdentifier w)

/-! ## 2. Values -/

/-- A value that cannot be taken for a block of statements: if it begins with an object, the first entry of
that object has a quoted name, with its colon right behind it. -/
inductive NoBlock : Tree → Prop where
  | quoted {gap ts us : List Tree} {q : Text} (hgap : Gap gap) (hq : quotedLiteral? q = some (q, [])) :
      NoBlock (.node .object (.token ['\x7b'] ::
        (gap ++ .node .pair (.leaf .string q :: .token [':'] :: ts) :: us)))
  | follows {kind : Kind} {t : Tree} {ts : List Tree}
      (hkind : kind ∈ [.memberExpression, .subscriptExpression, .callExpression]) (ht : NoBlock t) :
      NoBlock (.node kind (t :: ts))
  | other {t : Tree}
      (ht : ∀ kind ∈ [.object, .memberExpression, .subscriptExpression, .callExpression],
        t.isKind kind = false) : NoBlock t

/-- What stands before the arrow of a function. -/
inductive ArrowHead : Tree → Prop where
  | nothing {gap : List Tree} (hgap : Gap gap) :
      ArrowHead (.node .formalParameters (.token ['('] :: (gap ++ [.token [')']])))
  | name {w : Text} (hw : IsName w) : ArrowHead (.leaf .identifier w)

def inParentheses (gap : List Tree) (t : Tree) (gap' : List Tree) : Tree :=
  .node .parenthesizedExpression (.token ['('] :: (gap ++ t :: (gap' ++ [.token [')']])))

mutual

/-- A value in plain form that a member or a call may follow. -/
inductive Primary : Tree → Prop where
  | string {q : Text} (hq : quotedLiteral? q = some (q, [])) : Primary (.leaf .string q)
  | name {w : Text} (hw : IsName w) : Primary (.leaf .identifier w)
  | constant {kind : Kind} {w : String} (hw : (kind, w) ∈ constants) : Primary (.leaf kind w.toList)
  | array {ts : List Tree} (hts : Entries (Item Value) ']' ts) : Primary (.node .array (.token ['['] :: ts))
  | object {ts : List Tree} (hts : Entries (Field Value) '\x7d' ts) :
      Primary (.node .object (.token ['\x7b'] :: ts))
  | parenthesized {gap gap' : List Tree} {t : Tree} (hgap : Gap gap) (ht : Value t) (hgap' : Gap gap') :
      Primary (inParentheses gap t gap')
  | member {t : Tree} {w : Text} (ht : Primary t) (hw : IsWord w) :
      Primary (.node .memberExpression [t, .token ['.'], .leaf .propertyIdentifier w])
  | index {gap gap' : List Tree} {t u : Tree} (ht : Primary t) (hgap : Gap gap) (hu : Value u)
      (hgap' : Gap gap') :
      Primary (.node .subscriptExpression (t :: .token ['['] :: (gap ++ u :: (gap' ++ [.token [']']]))))
  | call {t : Tree} {ts : List Tree} (ht : Primary t) (hts : Entries (Item Value) ')' ts) :
      Primary (.node .callExpression [t, .node .arguments (.token ['('] :: ts)])

/-- A value in plain form. -/
inductive Value : Tree → Prop where
  | primary {t : Tree} (ht : Primary t) : Value t
  | arrow {head body : Tree} {gap gap' : List Tree} (hhead : ArrowHead head) (hgap : Gap gap)
      (hgap' : Gap gap') (hbody : Value body) (hblock : NoBlock body) :
      Value (.node .arrowFunction (head :: (gap ++ .token ['=', '>'] :: (gap' ++ [body]))))

end

/-! ## 3. Parts of lists -/

variable {P Q : Tree → Prop} {close : Char} {t : Tree} {ts : List Tree}

/-- What stands behind the first entry falls into parts that begin with a comma each. -/
theorem Tail.parts (h : Tail P ts) : ∃ parts : List (List Tree), ts = parts.flatten ∧
    ∀ part ∈ parts, ∃ gap, Gap gap ∧ (part = gap ++ [.token [',']] ∨
      ∃ gap' t, Gap gap' ∧ P t ∧ part = gap ++ .token [','] :: (gap' ++ [t])) := by
  induction h with
  | nil => exact ⟨[], rfl, fun part hpart => by cases hpart⟩
  | @hole gap ts hgap hts ih =>
    obtain ⟨parts, hparts, hall⟩ := ih
    refine ⟨(gap ++ [.token [',']]) :: parts, by simp [hparts], ?_⟩
    intro part hpart
    rcases List.mem_cons.1 hpart with rfl | hpart
    · exact ⟨gap, hgap, .inl rfl⟩
    · exact hall part hpart
  | @entry gap gap' ts t hgap hgap' ht hts ih =>
    obtain ⟨parts, hparts, hall⟩ := ih
    refine ⟨(gap ++ .token [','] :: (gap' ++ [t])) :: parts, by simp [hparts], ?_⟩
    intro part hpart
    rcases List.mem_cons.1 hpart with rfl | hpart
    · exact ⟨gap, hgap, .inr ⟨gap', t, hgap', ht, rfl⟩⟩
    · exact hall part hpart

theorem Tail.mono (h : Tail P ts)
    (hmono : ∀ t, P t → t.text.length ≤ (Tree.textOfList ts).length → Q t) : Tail Q ts := by
  induction h with
  | nil => exact .nil
  | hole hgap hts ih =>
    refine .hole hgap (ih fun t ht hle => hmono t ht (Nat.le_trans hle ?_))
    simp only [Tree.textOfList_append, Tree.textOfList, List.length_append]
    omega
  | entry hgap hgap' ht hts ih =>
    refine .entry hgap hgap' (hmono _ ht ?_) (ih fun t ht hle => hmono t ht (Nat.le_trans hle ?_)) <;>
    · simp only [Tree.textOfList_append, Tree.textOfList, List.length_append]
      omega

theorem Entries.mono (h : Entries P close ts)
    (hmono : ∀ t, P t → t.text.length < (Tree.textOfList ts).length → Q t) : Entries Q close ts := by
  cases h with
  | none hts hgap =>
    refine .none (hts.mono fun t ht hle => hmono t ht ?_) hgap
    simp only [Tree.textOfList_append, Tree.textOfList, Tree.text, List.length_append, List.length_cons]
    omega
  | some hgap ht hts hgap' =>
    refine .some hgap (hmono _ ht ?_) (hts.mono fun t ht hle => hmono t ht ?_) hgap' <;>
    · simp only [Tree.textOfList_append, Tree.textOfList, Tree.text, List.length_append, List.length_cons]
      omega

theorem Item.mono (h : Item P t) (hmono : ∀ u, P u → u.text.length ≤ t.text.length → Q u) : Item Q t := by
  cases h with
  | value ht => exact .value (hmono _ ht (Nat.le_refl _))
  | spread hgap ht =>
    refine .spread hgap (hmono _ ht ?_)
    simp only [Tree.text, Tree.textOfList_append, Tree.textOfList, List.length_append]
    omega

theorem Key.mono (h : Key P t) (hmono : ∀ u, P u → u.text.length ≤ t.text.length → Q u) : Key Q t := by
  cases h with
  | word hw => exact .word hw
  | string hq => exact .string hq
  | computed hgap ht hgap' =>
    refine .computed hgap (hmono _ ht ?_) hgap'
    simp only [Tree.text, Tree.textOfList_append, Tree.textOfList, List.length_append]
    omega

theorem Field.mono (h : Field P t) (hmono : ∀ u, P u → u.text.length ≤ t.text.length → Q u) : Field Q t := by
  cases h with
  | spread hgap ht =>
    refine .spread hgap (hmono _ ht ?_)
    simp only [Tree.text, Tree.textOfList_append, Tree.textOfList, List.length_append]
    omega
  | pair hkey hgap hgap' ht =>
    refine .pair (hkey.mono fun u hu hle => hmono u hu (Nat.le_trans hle ?_)) hgap hgap' (hmono _ ht ?_) <;>
    · simp only [Tree.text, Tree.textOfList_append, Tree.textOfList, List.length_append]
      omega
  | shorthand hw => exact .shorthand hw

/-! ## 4. Induction -/

/-- The cases of an induction over values in plain form, with a property `P` of those that a member or a call
may follow and a property `Q` of all of them. -/
structure ValueCases (P Q : Tree → Prop) : Prop where
  string : ∀ q, quotedLiteral? q = some (q, []) → P (.leaf .string q)
  name : ∀ w, IsName w → P (.leaf .identifier w)
  constant : ∀ kind w, (kind, w) ∈ constants → P (.leaf kind w.toList)
  array : ∀ ts, Entries (Item Q) ']' ts → P (.node .array (.token ['['] :: ts))
  object : ∀ ts, Entries (Field Q) '\x7d' ts → P (.node .object (.token ['\x7b'] :: ts))
  parenthesized : ∀ gap t gap', Gap gap → Q t → Gap gap' → P (inParentheses gap t gap')
  member : ∀ t w, P t → IsWord w → P (.node .memberExpression [t, .token ['.'], .leaf .propertyIdentifier w])
  index : ∀ t gap u gap', P t → Gap gap → Q u → Gap gap' →
    P (.node .subscriptExpression (t :: .token ['['] :: (gap ++ u :: (gap' ++ [.token [']']]))))
  call : ∀ t ts, P t → Entries (Item Q) ')' ts →
    P (.node .callExpression [t, .node .arguments (.token ['('] :: ts)])
  primary : ∀ t, P t → Q t
  arrow : ∀ head gap gap' body, ArrowHead head → Gap gap → Gap gap' → Q body → NoBlock body →
    Q (.node .arrowFunction (head :: (gap ++ .token ['=', '>'] :: (gap' ++ [body]))))

/-- A value has the property if the values in it, whose texts are shorter, have theirs. -/
theorem ValueCases.primary_of (cases : ValueCases P Q) {t : Tree} (ht : Primary t)
    (hvalue : ∀ u, Value u → u.text.length < t.text.length → Q u) : P t := by
  have hitems : ∀ {close : Char} {ts : List Tree}, Entries (Item Value) close ts →
      (Tree.textOfList ts).length ≤ t.text.length → Entries (Item Q) close ts :=
    fun hts hlength => hts.mono fun v hv hlt => hv.mono fun u hu hle => hvalue u hu (by omega)
  -- along the chain of members and calls; the values in brackets and arguments are shorter than the whole
  cases ht with
  | string hq => exact cases.string _ hq
  | name hw => exact cases.name _ hw
  | constant hw => exact cases.constant _ _ hw
  | array hts => exact cases.array _ (hitems hts (by simp [Tree.text, Tree.textOfList]))
  | object hts =>
    refine cases.object _ (hts.mono fun v hv hlt => hv.mono fun u hu hle => hvalue u hu ?_)
    simp only [Tree.text, Tree.textOfList, List.length_append]
    omega
  | parenthesized hgap hu hgap' =>
    refine cases.parenthesized _ _ _ hgap (hvalue _ hu ?_) hgap'
    simp only [inParentheses, Tree.text, Tree.textOfList, Tree.textOfList_append, List.length_append,
      List.length_cons]
    omega
  | member hu hw =>
    refine cases.member _ _ (cases.primary_of hu fun v hv hlt => hvalue v hv ?_) hw
    simp only [Tree.text, Tree.textOfList, List.length_append]
    omega
  | index hu hgap hv hgap' =>
    refine cases.index _ _ _ _ (cases.primary_of hu fun v hv hlt => hvalue v hv ?_) hgap (hvalue _ hv ?_)
      hgap' <;>
    · simp only [Tree.text, Tree.textOfList, Tree.textOfList_append, List.length_append, List.length_cons]
      omega
  | call hu hts =>
    refine cases.call _ _ (cases.primary_of hu fun v hv hlt => hvalue v hv ?_) (hitems hts ?_) <;>
    · simp only [Tree.text, Tree.textOfList, List.length_append]
      omega

/-- Induction over values in plain form. -/
theorem ValueCases.value (cases : ValueCases P Q) {t : Tree} (ht : Value t) : Q t := by
  have hvalue : ∀ u, Value u → u.text.length < t.text.length → Q u := fun u hu _ => cases.value hu
  cases ht with
  | primary ht => exact cases.primary _ (cases.primary_of ht hvalue)
  | arrow hhead hgap hgap' hbody hblock =>
    refine cases.arrow _ _ _ _ hhead hgap hgap' (hvalue _ hbody ?_) hblock
    simp only [Tree.text, Tree.textOfList, Tree.textOfList_append, List.length_append, List.length_cons]
    omega
termination_by t.text.length

end AssetEmbed.Script
