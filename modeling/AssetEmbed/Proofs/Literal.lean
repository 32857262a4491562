import AssetEmbed.Embedding
import AssetEmbed.Proofs.Script.Plain

/-!
# Literals — the trees of the literals that take the place of calls

The literal of a file is an object with three quoted fields; the literal of a pattern is an array of these.
As trees they are values in plain form, and no literal can be taken for a block.
-/

namespace AssetEmbed

open Script

/-! ## 1. Trees of literals -/

def FileRecord.fields (r : FileRecord) : List (Text × Text) :=
  [("content".toList, r.content), ("filePath".toList, r.filePath), ("fileName".toList, r.fileName)]

def fieldTree (field : Text × Text) : Tree :=
  .node .pair [.leaf .string (Json.quote field.1), .token [':'], .leaf .string (Json.quote field.2)]

def listTree (kind : Kind) (start stop : Char) (ts : List Tree) : Tree :=
  .node kind (.token [start] :: (ts.intersperse (.token [',']) ++ [.token [stop]]))

def FileRecord.tree (r : FileRecord) : Tree := listTree .object '\x7b' '\x7d' (r.fields.map fieldTree)

/-- The tree of the literal that takes the place of a call. -/
def Embedding.tree : Embedding → Tree
  | .one r => r.tree
  | .many rs => listTree .array '[' ']' (rs.map (·.tree))

/-! ## 2. What the trees spell -/

theorem fieldTree_text (field : Text × Text) :
    (fieldTree field).text = Json.quote field.1 ++ ':' :: Json.quote field.2 := by
  simp [fieldTree, Tree.text, Tree.textOfList]

theorem listTree_text (kind : Kind) (start stop : Char) (ts : List Tree) :
    (listTree kind start stop ts).text =
      start :: Tree.textOfList (ts.intersperse (.token [','])) ++ [stop] := by
  simp [listTree, Tree.text, Tree.textOfList, Tree.textOfList_append]

theorem FileRecord.tree_text (r : FileRecord) : r.tree.text = r.toJson.render := by
  simp [tree, listTree_text, toJson, fields, Json.render, Json.renderFields, Tree.text, Tree.textOfList,
    fieldTree_text]

theorem textOfList_map_tree (rs : List FileRecord) :
    Tree.textOfList ((rs.map (·.tree)).intersperse (.token [','])) =
      Json.renderItems (rs.map (·.toJson)) := by
  induction rs with
  | nil => rfl
  | cons r rs ih =>
    cases rs with
    | nil => simp [Tree.textOfList, Json.renderItems, FileRecord.tree_text]
    | cons r' rs =>
      have hrest : Tree.textOfList (((r' :: rs).map (·.tree)).intersperse (.token [','])) =
          Json.renderItems ((r' :: rs).map (·.toJson)) := ih
      simp only [List.map_cons] at hrest
      simp only [List.map_cons, List.intersperse_cons_cons, Tree.textOfList, hrest, Json.renderItems,
        FileRecord.tree_text, Tree.text]
      rfl

theorem Embedding.tree_text (e : Embedding) : e.tree.text = e.literal := by
  cases e with
  | one r => exact r.tree_text
  | many rs => simp [tree, listTree_text, literal, toJson, Json.render, textOfList_map_tree]

/-! ## 3. Literals as values -/

theorem entries_intersperse {P : Tree → Prop} {ts : List Tree} (close : Char) (hts : ∀ t ∈ ts, P t) :
    Entries P close (ts.intersperse (.token [',']) ++ [.token [close]]) := by
  have htail : ∀ us : List Tree, (∀ u ∈ us, P u) →
      Tail P (us.flatMap fun u => [.token [','], u]) := by
    intro us hus
    induction us with
    | nil => exact .nil
    | cons u us ih =>
      obtain ⟨hu, hus⟩ := List.forall_mem_cons.1 hus
      exact .entry .none .none hu (ih hus)
  -- each entry but the first has a comma before it
  have hsplit : ∀ (t : Tree) (us : List Tree), (t :: us).intersperse (.token [',']) =
      t :: us.flatMap fun u => [.token [','], u] := by
    intro t us
    induction us generalizing t with
    | nil => rfl
    | cons u us ih =>
      rw [List.intersperse_cons_cons, ih u, List.flatMap_cons]
      rfl
  cases ts with
  | nil => exact .none .nil .none
  | cons t us =>
    obtain ⟨ht, hus⟩ := List.forall_mem_cons.1 hts
    rw [hsplit]
    exact .some .none ht (htail us hus) .none

theorem FileRecord.tree_primary (r : FileRecord) : Primary r.tree := by
  refine .object (entries_intersperse '\x7d' fun t ht => ?_)
  obtain ⟨field, -, rfl⟩ := List.mem_map.1 ht
  exact .pair (.string (quotedLiteral?_quote field.1)) .none .none
    (.primary (.string (quotedLiteral?_quote field.2)))

/-- The literal of a file begins with a quoted name, so that it cannot be taken for a block. -/
theorem FileRecord.tree_noBlock (r : FileRecord) : NoBlock r.tree :=
  .quoted .none (quotedLiteral?_quote _)

/-- The literal that takes the place of a call is a value in plain form. -/
theorem Embedding.tree_primary (e : Embedding) : Primary e.tree := by
  cases e with
  | one r => exact r.tree_primary
  | many rs =>
    refine .array (entries_intersperse ']' fun t ht => ?_)
    obtain ⟨r, -, rfl⟩ := List.mem_map.1 ht
    exact .value (.primary r.tree_primary)

theorem Embedding.tree_noBlock (e : Embedding) : NoBlock e.tree := by
  cases e with
  | one r => exact r.tree_noBlock
  | many rs =>
    refine .other fun kind hkind => ?_
    simp only [tree, listTree, Tree.isKind, Tree.kind?]
    revert kind
    decide

end AssetEmbed
