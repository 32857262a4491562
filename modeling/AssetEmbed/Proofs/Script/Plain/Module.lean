import AssetEmbed.Proofs.Script.Plain.Value

/-!
# Plain modules

A module in plain form is a list of declarations, exports and expressions with values in plain form, and of
other statements that are read in the same way whatever follows them.  A semicolon may be missing at the
end, and before a line break behind which a word begins the next statement.
-/

namespace AssetEmbed.Script

open Step

/-! ## 1. The ends of statements -/

def lineBlanks : List Char := [' ', '\t', '\r', '\n']

inductive Inline : List Tree → Prop where
  | blank {s : Text} (hne : s ≠ []) (hs : ∀ c ∈ s, c ∈ [' ', '\t']) : Inline [.blank s]

inductive Spaces : List Tree → Prop where
  | none : Spaces []
  | blank {s : Text} (hne : s ≠ []) (hs : ∀ c ∈ s, c ∈ lineBlanks) : Spaces [.blank s]

inductive Ending : Bool → List Tree → Prop where
  | semicolon {gap : List Tree} (hgap : Spaces gap) : Ending true (gap ++ [.token [';']])
  | nothing : Ending false []

theorem of_lineBlanks {c : Char} (hc : c ∈ lineBlanks) :
    isSpace c = true ∧ Semicolon.isBlank c = true ∧ c ≠ '\x7d' ∧ c ≠ '/' := by
  revert c
  decide

theorem Spaces.isGap {gap : List Tree} (h : Spaces gap) : Gap gap := by
  cases h with
  | none => exact .none
  | blank hne hs => exact .blank hne (fun c hc => (of_lineBlanks (hs c hc)).1) nofun .none

theorem Spaces.chars {gap : List Tree} (h : Spaces gap) : ∀ c ∈ Tree.textOfList gap, c ∈ lineBlanks := by
  cases h with
  | none => nofun
  | blank hne hs => simpa [Tree.textOfList, Tree.text] using hs

theorem Inline.spaces {gap : List Tree} (h : Inline gap) : Spaces gap := by
  cases h with
  | blank hne hs =>
    have hall : ∀ c ∈ [' ', '\t'], c ∈ lineBlanks := by decide
    exact .blank hne fun c hc => hall c (hs c hc)

theorem Inline.breaks {gap : List Tree} (h : Inline gap) (rest : Text) :
    Breaks (Tree.textOfList gap ++ rest) := by
  refine Grammar.Gap.breaks h.spaces.isGap ?_ rest
  cases h with
  | blank => exact List.cons_ne_nil _ _

theorem Inline.no_break {gap : List Tree} (h : Inline gap) : '\n' ∉ Tree.textOfList gap := by
  cases h with
  | blank hne hs =>
    intro hmem
    have hchar := hs '\n' (by simpa [Tree.textOfList, Tree.text] using hmem)
    exact absurd hchar (by decide)

/-! ## 2. Statements -/

def declarationWords : List String := ["const", "let"]

inductive Declaration : Bool → Tree → Prop where
  | mk {closed : Bool} {word : String} {w : Text} {v : Tree} {gap₁ gap₂ gap₃ ts : List Tree}
      (hword : word ∈ declarationWords) (hgap₁ : Inline gap₁) (hw : IsName w) (hgap₂ : Gap gap₂)
      (hgap₃ : Gap gap₃) (hv : Value v) (hts : Ending closed ts) :
      Declaration closed (.node .lexicalDeclaration (.token word.toList :: (gap₁ ++
        .node .variableDeclarator (.leaf .identifier w :: (gap₂ ++ .token ['='] :: (gap₃ ++ [v]))) :: ts)))

/-- A statement that is read in the same way whatever follows it. -/
structure Standalone (d : Dialect) (t : Tree) : Prop where
  reads : ∀ n gap, 8 * t.text.length ≤ n → Gap gap →
    (Grammar.ofDepth d n).statementStep.Reads (Tree.textOfList gap ++ t.text) (gap ++ [t]) fun _ => True
  opens : ∃ c rest, t.text = c :: rest ∧ Step.opens [c] ∧ c ≠ '#'
  defaults : t.defaultsAreInPatterns

/-- A statement of a module in plain form, with its semicolon or without one. -/
inductive Statement (d : Dialect) (m : Source) : Bool → Tree → Prop where
  | declaration {closed : Bool} {t : Tree} (ht : Declaration closed t) : Statement d m closed t
  | exported {closed : Bool} {gap : List Tree} {t : Tree} (hgap : Inline gap) (ht : Declaration closed t) :
      Statement d m closed (.node .exportStatement (.token "export".toList :: (gap ++ [t])))
  | default {closed : Bool} {gap₁ gap₂ ts : List Tree} {v : Tree} (hgap₁ : Inline gap₁) (hgap₂ : Inline gap₂)
      (hv : Value v) (hts : Ending closed ts) :
      Statement d m closed (.node .exportStatement
        (.token "export".toList :: (gap₁ ++ .token "default".toList :: (gap₂ ++ v :: ts))))
  | expression {closed : Bool} {v : Tree} {ts : List Tree} (hv : Value v) (hblock : NoBlock v)
      (hts : Ending closed ts) : Statement d m closed (.node .expressionStatement (v :: ts))
  | other {kind : Kind} {ts : List Tree} (hts : Standalone d (.node kind ts))
      (hend : kind = .expressionStatement → ts.length ≠ 1)
      (hmarker : ∀ p ∈ Tree.descend 0 (.node kind ts), m.isMarkerCall p.tree = false) :
      Statement d m true (.node kind ts)

/-! ## 3. Modules -/

/-- A value that begins with a name, which is not called as a marker.  The name does not begin like the word
`in`, with which an expression could go on. -/
inductive Named (m : Source) : Tree → Prop where
  | name {w : Text} (hw : IsName w) (hhead : w.head? ≠ some 'i') : Named m (.leaf .identifier w)
  | follows {kind : Kind} {t : Tree} {ts : List Tree}
      (hkind : kind ∈ [.memberExpression, .subscriptExpression, .callExpression]) (ht : Named m t)
      (hmarker : m.isMarkerCall (.node kind (t :: ts)) = false) : Named m (.node kind (t :: ts))

inductive BeginsLine (m : Source) : Tree → Prop where
  | word {kind : Kind} {word : String} {gap ts : List Tree} (hkind : kind ≠ .callExpression)
      (hword : word ∈ "export" :: declarationWords) (hgap : Inline gap) :
      BeginsLine m (.node kind (.token word.toList :: (gap ++ ts)))
  | expression {closed : Bool} {v : Tree} {ts : List Tree} (hvalue : Value v) (hv : Named m v)
      (hts : Ending closed ts) : BeginsLine m (.node .expressionStatement (v :: ts))

/-- What may follow a statement without a semicolon: white space up to the end, or a line break and a
statement that begins with a word. -/
inductive Line (m : Source) : List Tree → Prop where
  | done {gap : List Tree} (hgap : Spaces gap) : Line m gap
  | next {s : Text} {t : Tree} {ts : List Tree} (hs : ∀ c ∈ s, c ∈ lineBlanks) (hbreak : '\n' ∈ s)
      (ht : BeginsLine m t) : Line m (.blank s :: t :: ts)

/-- The statements of a module in plain form, with what stands between them. -/
inductive Module (d : Dialect) (m : Source) : List Tree → Prop where
  | done {gap : List Tree} (hgap : Gap gap) : Module d m gap
  | closed {gap ts : List Tree} {t : Tree} (hgap : Gap gap) (ht : Statement d m true t)
      (hts : Module d m ts) : Module d m (gap ++ t :: ts)
  | opened {gap ts : List Tree} {t : Tree} (hgap : Gap gap) (ht : Statement d m false t)
      (hts : Module d m ts) (hline : Line m ts) : Module d m (gap ++ t :: ts)

end AssetEmbed.Script
