import AssetEmbed.Proofs.Script.Within

/-!
# Walking — the order in which a script is gone through

The address of a tree within another one tells the way down to it: which child, which child of that child, and so on.
A cursor that goes down to the first child, or else on to the next sibling, or else back up, comes to every address
once; the addresses it comes to are in order, which is that of the script.
-/

namespace AssetEmbed.Script.Tree

/-! ## 1. Addresses -/

def Placed.at? : Placed → List Nat → Option Placed
  | p, [] => some p
  | p, i :: address => p.children[i]?.bind (·.at? address)

/-- Whether places are those within a tree of which something holds, each of them once and in order. -/
def Placed.Enumerates (root : Placed) (P : Placed → Prop) (places : List Placed) : Prop :=
  ∃ addresses : List (List Nat), addresses.Pairwise (· < ·) ∧ addresses.map root.at? = places.map some ∧
    ∀ address p, root.at? address = some p → (address ∈ addresses ↔ P p)

mutual

/-- The addresses within a tree, in order. -/
def addresses : Tree → List (List Nat)
  | .node _ children => [] :: addressesFrom 0 children
  | _ => [[]]

/-- The addresses within trees that are children of a construct from one of them on, in order. -/
def addressesFrom (i : Nat) : List Tree → List (List Nat)
  | [] => []
  | t :: ts => t.addresses.map (i :: ·) ++ addressesFrom (i + 1) ts

end

theorem Placed.at?_cons {p q : Placed} {i : Nat} (h : p.children[i]? = some q) (address : List Nat) :
    p.at? (i :: address) = q.at? address := by
  rw [at?, h, Option.bind_some]

mutual

theorem map_at?_addresses (offset : Nat) (t : Tree) :
    t.addresses.map (Placed.at? ⟨offset, t⟩) = (descend offset t).map some := by
  match t with
  | .blank _ | .token _ | .leaf _ _ => rfl
  | .node kind children =>
    have hchildren := map_at?_addressesFrom ⟨offset, .node kind children⟩ [] offset children rfl
    rw [addresses, descend, List.map_cons, List.map_cons]
    exact congrArg (some _ :: ·) hchildren

-- `ts` are the last children of `p`, after those in `before`: their addresses begin with later numbers.
theorem map_at?_addressesFrom (p : Placed) (before : List Placed) (offset : Nat) (ts : List Tree)
    (h : p.children = before ++ placeList offset ts) :
    (addressesFrom before.length ts).map p.at? = (descendList offset ts).map some := by
  match ts with
  | [] => rfl
  | t :: ts =>
    have hfirst : p.children[before.length]? = some ⟨offset, t⟩ := by
      rw [h, List.getElem?_append_right (Nat.le_refl _), Nat.sub_self]
      rfl
    have hlater := map_at?_addressesFrom p (before ++ [⟨offset, t⟩]) (offset + t.text.length) ts
      (by rw [h, List.append_assoc]; rfl)
    rw [List.length_append, List.length_singleton] at hlater
    rw [addressesFrom, descendList, List.map_append, List.map_append, List.map_map, hlater]
    congr 1
    rw [← map_at?_addresses offset t]
    exact List.map_congr_left fun address _ => Placed.at?_cons hfirst address

end

mutual

theorem mem_addresses (offset : Nat) (t : Tree) {address : List Nat} {q : Placed}
    (h : Placed.at? ⟨offset, t⟩ address = some q) : address ∈ t.addresses := by
  match t, address with
  | .blank _, [] | .token _, [] | .leaf _ _, [] => exact List.mem_singleton.2 rfl
  | .blank _, i :: _ | .token _, i :: _ | .leaf _ _, i :: _ =>
    simp [Placed.at?, Placed.children, Tree.children, placeList] at h
  | .node _ _, [] => exact List.mem_cons_self
  | .node kind children, i :: address =>
    obtain ⟨r, hr, hq⟩ := Option.bind_eq_some_iff.1 h
    refine List.mem_cons_of_mem _ ?_
    have := mem_addressesFrom 0 offset children hr hq
    rwa [Nat.zero_add] at this

theorem mem_addressesFrom (i offset : Nat) (ts : List Tree) {j : Nat} {address : List Nat} {r q : Placed}
    (hr : (placeList offset ts)[j]? = some r) (hq : r.at? address = some q) :
    (i + j) :: address ∈ addressesFrom i ts := by
  match ts, j with
  | [], _ => cases hr
  | t :: ts, 0 =>
    cases hr
    exact List.mem_append_left _ (List.mem_map_of_mem (mem_addresses offset t hq))
  | t :: ts, j + 1 =>
    have := mem_addressesFrom (i + 1) (offset + t.text.length) ts (j := j) hr hq
    rw [Nat.add_right_comm i 1 j] at this
    exact List.mem_append_right _ this

end

theorem exists_of_mem_addressesFrom {i : Nat} {ts : List Tree} {address : List Nat}
    (h : address ∈ addressesFrom i ts) : ∃ j rest, address = j :: rest ∧ i ≤ j := by
  induction ts generalizing i with
  | nil => cases h
  | cons t ts ih =>
    rcases List.mem_append.1 h with h | h
    · obtain ⟨rest, -, rfl⟩ := List.mem_map.1 h
      exact ⟨i, rest, rfl, Nat.le_refl i⟩
    · obtain ⟨j, rest, rfl, hj⟩ := ih h
      exact ⟨j, rest, rfl, Nat.le_of_succ_le hj⟩

mutual

theorem addresses_ascend (t : Tree) : t.addresses.Pairwise (· < ·) := by
  match t with
  | .blank _ | .token _ | .leaf _ _ => exact List.pairwise_singleton _ _
  | .node kind children =>
    refine List.pairwise_cons.2 ⟨?_, addressesFrom_ascend 0 children⟩
    intro address h
    obtain ⟨j, rest, rfl, -⟩ := exists_of_mem_addressesFrom h
    exact List.nil_lt_cons j rest

theorem addressesFrom_ascend (i : Nat) (ts : List Tree) : (addressesFrom i ts).Pairwise (· < ·) := by
  match ts with
  | [] => exact List.Pairwise.nil
  | t :: ts =>
    refine List.pairwise_append.2 ⟨?_, addressesFrom_ascend (i + 1) ts, ?_⟩
    · refine List.pairwise_map.2 ((addresses_ascend t).imp ?_)
      exact fun h => List.cons_lt_cons_iff.2 (.inr ⟨rfl, h⟩)
    · intro address h later hlater
      obtain ⟨rest, -, rfl⟩ := List.mem_map.1 h
      obtain ⟨j, rest', rfl, hj⟩ := exists_of_mem_addressesFrom hlater
      exact List.cons_lt_cons_iff.2 (.inl hj)

end

theorem Placed.enumerates_descend (root : Placed) :
    root.Enumerates (fun _ => True) (descend root.offset root.tree) :=
  ⟨root.tree.addresses, addresses_ascend _, map_at?_addresses _ _,
    fun _ _ h => ⟨fun _ => trivial, fun _ => mem_addresses _ _ h⟩⟩

theorem Placed.Enumerates.filter {root : Placed} {P : Placed → Prop} {places : List Placed}
    (h : root.Enumerates P places) (Q : Placed → Bool) :
    root.Enumerates (fun p => P p ∧ Q p) (places.filter Q) := by
  obtain ⟨addresses, hascend, hmap, hmem⟩ := h
  -- an address stays if what it leads to does
  refine ⟨addresses.filter ((·.any Q) ∘ root.at?), hascend.filter _, ?_, ?_⟩
  · calc (addresses.filter ((·.any Q) ∘ root.at?)).map root.at?
        = (addresses.map root.at?).filter (·.any Q) := (List.filter_map).symm
      _ = (places.map some).filter (·.any Q) := by rw [hmap]
      _ = (places.filter Q).map some := List.filter_map
  · intro address p hp
    rw [List.mem_filter, hmem address p hp, Function.comp_apply, hp, Option.any_some]

theorem Placed.Enumerates.congr {root : Placed} {P Q : Placed → Prop} {places : List Placed}
    (h : root.Enumerates P places) (hiff : ∀ p, P p ↔ Q p) : root.Enumerates Q places := by
  obtain ⟨addresses, hascend, hmap, hmem⟩ := h
  exact ⟨addresses, hascend, hmap, fun address p hp => (hmem address p hp).trans (hiff p)⟩

/-! ## 2. The way of a cursor -/

/-- A place in a script, with the constructs around it, each with its children that come after the one that the place
is in. -/
structure Cursor where
  place : Placed
  around : List (Placed × List Placed)

namespace Cursor

def firstChild? (c : Cursor) : Option Cursor :=
  match c.place.children with
  | [] => none
  | q :: later => some ⟨q, (c.place, later) :: c.around⟩

def nextSibling? (c : Cursor) : Option Cursor :=
  match c.around with
  | (parent, q :: later) :: around => some ⟨q, (parent, later) :: around⟩
  | _ => none

def parent? (c : Cursor) : Option Cursor :=
  match c.around with
  | (parent, _) :: around => some ⟨parent, around⟩
  | [] => none

/-- What a cursor comes to on its way, up to the end: from a tree that it has just come to, or from one that it is
through with (`done`). -/
inductive Walks : (done : Bool) → Cursor → List Placed → Prop where
  | down {c d : Cursor} {places : List Placed} : c.firstChild? = some d → Walks false d places →
      Walks false c (c.place :: places)
  | turn {c : Cursor} {places : List Placed} : c.firstChild? = none → Walks true c places →
      Walks false c (c.place :: places)
  | next {c d : Cursor} {places : List Placed} : c.nextSibling? = some d → Walks false d places →
      Walks true c places
  | up {c d : Cursor} {places : List Placed} : c.nextSibling? = none → c.parent? = some d → Walks true d places →
      Walks true c places
  | stop {c : Cursor} : c.nextSibling? = none → c.parent? = none → Walks true c []

mutual

theorem walks_descend (offset : Nat) (t : Tree) {around : List (Placed × List Placed)} {places : List Placed}
    (h : Walks true ⟨⟨offset, t⟩, around⟩ places) :
    Walks false ⟨⟨offset, t⟩, around⟩ (descend offset t ++ places) := by
  match t with
  | .blank _ | .token _ | .leaf _ _ => exact .turn rfl h
  | .node _ [] => exact .turn rfl h
  | .node kind (t :: ts) =>
    -- down to the first child; once through with it, the cursor goes on with its siblings
    have hfirst := walks_descend offset t (walks_descendList (offset + t.text.length) ts h ⟨offset, t⟩)
    rw [← List.append_assoc] at hfirst
    exact .down rfl hfirst

theorem walks_descendList (offset : Nat) (ts : List Tree) {parent : Placed}
    {around : List (Placed × List Placed)} {places : List Placed} (h : Walks true ⟨parent, around⟩ places)
    (q : Placed) : Walks true ⟨q, (parent, placeList offset ts) :: around⟩ (descendList offset ts ++ places) := by
  match ts with
  | [] => exact .up rfl rfl h
  | t :: ts =>
    have hfirst := walks_descend offset t (walks_descendList (offset + t.text.length) ts h ⟨offset, t⟩)
    rw [← List.append_assoc] at hfirst
    exact .next rfl hfirst

end

theorem walks_root (root : Placed) : Walks false ⟨root, []⟩ (descend root.offset root.tree) := by
  have hstop : Walks true ⟨root, []⟩ [] := .stop rfl rfl
  have h := walks_descend root.offset root.tree hstop
  rwa [List.append_nil] at h

end Cursor

end AssetEmbed.Script.Tree
