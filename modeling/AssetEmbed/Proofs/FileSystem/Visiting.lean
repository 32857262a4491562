import AssetEmbed.FileSystem.Walk
import AssetEmbed.Proofs.FileSystem.Tree
import AssetEmbed.Proofs.Sorting
import Mathlib.Data.List.Nodup

/-!
# Visiting — what a walk comes to

A walk visits the directories below an entry to which every directory on the way is entered, and finds in each of
them the entries that are not directories.
-/

namespace AssetEmbed

/-! ## 1. Going through a tree -/

theorem Listing.get?_eq_some_iff {l : Listing} {name : Text} {entry : Entry} (h : (l.map (·.1)).Nodup) :
    l.get? name = some entry ↔ (name, entry) ∈ l := by
  refine ⟨mem_of_get?_eq_some, fun hmem => ?_⟩
  cases hget : l.get? name with
  | none => exact absurd (List.mem_map_of_mem hmem) (get?_eq_none_iff.1 hget)
  | some e =>
    cases List.inj_on_of_nodup_map h (mem_of_get?_eq_some hget) hmem rfl
    rfl

theorem Listing.mem_names_filter {l : Listing} {name : Text} {p : Text × Entry → Bool} (h : (l.map (·.1)).Nodup) :
    name ∈ (List.filter p l).map (·.1) ↔ ∃ e, l.get? name = some e ∧ p (name, e) = true := by
  rw [List.mem_map]
  constructor
  · rintro ⟨⟨n, e⟩, hmem, rfl⟩
    obtain ⟨hmem, hp⟩ := List.mem_filter.1 hmem
    exact ⟨e, (get?_eq_some_iff h).2 hmem, hp⟩
  · rintro ⟨e, hget, hp⟩
    exact ⟨(name, e), List.mem_filter.2 ⟨mem_of_get?_eq_some hget, hp⟩, rfl⟩

theorem Entry.induction {P : Entry → Prop} (hfile : ∀ bytes, P (.file bytes))
    (hlink : ∀ target, P (.link target))
    (hdirectory : ∀ l : Listing, (∀ x ∈ l, P x.2) → P (.directory l)) : ∀ e, P e
  | .file bytes => hfile bytes
  | .link target => hlink target
  | .directory l => hdirectory l fun x hx =>
    have : sizeOf x < sizeOf l := List.sizeOf_lt_of_mem hx
    induction hfile hlink hdirectory x.2
termination_by e => sizeOf e
decreasing_by
  obtain ⟨name, e⟩ := x
  simp only [Prod.mk.sizeOf_spec, Entry.directory.sizeOf_spec] at this ⊢
  omega

/-! ## 2. Branches -/

variable {rule : WalkRule} {here : List Text} {l : Listing}

theorem WalkRule.isFile_eq_of_node (rule : WalkRule) (names : List Text) {e e' : Entry} (h : e.node = e'.node) :
    rule.isFile names e = rule.isFile names e' := by
  cases e <;> cases e' <;> cases h <;> rfl

theorem Listing.mem_branches {name : Text} {visits : List Visit} :
    (name, visits) ∈ Listing.branches rule here l ↔
      ∃ e, (name, e) ∈ l ∧ rule.enters (here ++ [name]) = true ∧ e.visits rule (here ++ [name]) = visits := by
  induction l with
  | nil => simp [Listing.branches]
  | cons x l ih =>
    obtain ⟨n, e⟩ := x
    rw [Listing.branches]
    split
    · rename_i henters
      rw [List.mem_cons, ih]
      constructor
      · rintro (heq | ⟨e', hmem, hrest⟩)
        · cases heq
          exact ⟨e, List.mem_cons_self, henters, rfl⟩
        · exact ⟨e', List.mem_cons_of_mem _ hmem, hrest⟩
      · rintro ⟨e', hmem, henters, hvisits⟩
        rcases List.mem_cons.1 hmem with heq | hmem
        · cases heq
          exact .inl (by rw [hvisits])
        · exact .inr ⟨e', hmem, henters, hvisits⟩
    -- an entry that is not entered has no branch
    · rename_i henters
      rw [ih]
      constructor
      · rintro ⟨e', hmem, hrest⟩
        exact ⟨e', List.mem_cons_of_mem _ hmem, hrest⟩
      · rintro ⟨e', hmem, henters', hvisits⟩
        rcases List.mem_cons.1 hmem with heq | hmem
        · cases heq
          exact absurd henters' henters
        · exact ⟨e', hmem, henters', hvisits⟩

theorem Listing.nodup_branches (rule : WalkRule) (here : List Text) (h : (l.map (·.1)).Nodup) :
    ((Listing.branches rule here l).map (·.1)).Nodup := by
  refine h.sublist ?_
  clear h
  induction l with
  | nil => exact List.Sublist.slnil
  | cons x l ih =>
    obtain ⟨n, e⟩ := x
    rw [Listing.branches]
    split
    · exact ih.cons_cons _
    · exact ih.cons _

/-! ## 3. Visits -/

/-- Whether every directory on a way is entered. -/
def WalkRule.EntersAlong (rule : WalkRule) (here way : List Text) : Prop :=
  ∀ q, q <+: way → q ≠ [] → rule.enters (here ++ q) = true

theorem WalkRule.entersAlong_cons {name : Text} {way : List Text} :
    rule.EntersAlong here (name :: way) ↔
      rule.enters (here ++ [name]) = true ∧ rule.EntersAlong (here ++ [name]) way := by
  constructor
  · intro h
    refine ⟨h [name] ⟨way, rfl⟩ (List.cons_ne_nil _ _), fun q hq hne => ?_⟩
    rw [List.append_assoc]
    exact h (name :: q) (List.cons_prefix_cons.2 ⟨rfl, hq⟩) (List.cons_ne_nil _ _)
  · rintro ⟨hname, hway⟩ q hq hne
    cases q with
    | nil => exact absurd rfl hne
    | cons n q =>
      obtain ⟨rfl, hbelow⟩ := List.cons_prefix_cons.1 hq
      cases q with
      | nil => exact hname
      | cons m q =>
        have henters := hway (m :: q) hbelow (List.cons_ne_nil _ _)
        rwa [List.append_assoc] at henters

/-- A walk visits the directories to which every directory on the way is entered. -/
theorem Entry.mem_visits {e : Entry} (he : e.IsSound) {v : Visit} :
    v ∈ e.visits rule here ↔ ∃ way l, e.at? way = some (.directory l) ∧ rule.EntersAlong here way ∧
      v = ⟨here ++ way, rule.files (here ++ way) l⟩ := by
  induction e using Entry.induction generalizing here with
  | hfile bytes =>
    rw [visits]
    refine ⟨nofun, ?_⟩
    rintro ⟨way, l, hway, -⟩
    cases way <;> cases hway
  | hlink target =>
    rw [visits]
    refine ⟨nofun, ?_⟩
    rintro ⟨way, l, hway, -⟩
    cases way <;> cases hway
  | hdirectory listing ih =>
    rw [IsSound] at he
    rw [visits, List.mem_cons, List.mem_flatMap]
    constructor
    -- the directory itself comes first, by the way of no names, and then what lies below its entries
    · rintro (rfl | ⟨⟨name, below⟩, hbranch, hv⟩)
      · refine ⟨[], listing, at?_nil _, ?_, by rw [List.append_nil]⟩
        exact fun q hq hne => absurd (List.prefix_nil.1 hq) hne
      · obtain ⟨e, hmem, henters, rfl⟩ := Listing.mem_branches.1 (List.mem_mergeSort.1 hbranch)
        obtain ⟨way, l, hway, halong, rfl⟩ := (ih _ hmem (he.of_mem hmem).2).1 hv
        refine ⟨name :: way, l, ?_, WalkRule.entersAlong_cons.2 ⟨henters, halong⟩, by simp⟩
        rw [at?_directory, at?_cons, (Listing.get?_eq_some_iff he.nodup).2 hmem]
        exact hway
    · rintro ⟨way, l, hway, halong, rfl⟩
      cases way with
      | nil =>
        rw [at?_nil] at hway
        cases hway
        exact .inl (by rw [List.append_nil])
      | cons name way =>
        rw [at?_directory, at?_cons] at hway
        obtain ⟨e, hget, hway⟩ := Option.bind_eq_some_iff.1 hway
        have hmem := Listing.mem_of_get?_eq_some hget
        obtain ⟨henters, halong⟩ := WalkRule.entersAlong_cons.1 halong
        refine .inr ⟨(name, e.visits rule (here ++ [name])),
          List.mem_mergeSort.2 (Listing.mem_branches.2 ⟨e, hmem, henters, rfl⟩), ?_⟩
        exact (ih _ hmem (he.of_mem hmem).2).2 ⟨way, l, hway, halong, by simp⟩

/-! ## 4. The files of visits -/

/-- The ways to the files with names of some kind that a walk finds. -/
def Visit.ways (keeps : Text → Bool) (v : Visit) : List (List Text) :=
  (v.files.filter keeps).map fun n => v.directory ++ [n]

/-- A walk finds the files of the directories to which every directory on the way is entered. -/
theorem Entry.mem_flatMap_ways {keeps : Text → Bool} {e : Entry} (he : e.IsSound) {names : List Text} :
    names ∈ (e.visits rule here).flatMap (Visit.ways keeps) ↔
      ∃ way name l, names = here ++ (way ++ [name]) ∧ e.at? way = some (.directory l) ∧
        rule.EntersAlong here way ∧ name ∈ rule.files (here ++ way) l ∧ keeps name = true := by
  rw [List.mem_flatMap]
  constructor
  · rintro ⟨v, hv, hnames⟩
    obtain ⟨way, l, hway, halong, rfl⟩ := (mem_visits he).1 hv
    obtain ⟨name, hname, rfl⟩ := List.mem_map.1 hnames
    obtain ⟨hname, hkeeps⟩ := List.mem_filter.1 hname
    exact ⟨way, name, l, List.append_assoc _ _ _, hway, halong, hname, hkeeps⟩
  · rintro ⟨way, name, l, rfl, hway, halong, hname, hkeeps⟩
    refine ⟨_, (mem_visits he).2 ⟨way, l, hway, halong, rfl⟩, ?_⟩
    exact List.mem_map.2 ⟨name, List.mem_filter.2 ⟨hname, hkeeps⟩, List.append_assoc _ _ _⟩

theorem WalkRule.mem_files (hl : (l.map (·.1)).Nodup) {name : Text} :
    name ∈ rule.files here l ↔ ∃ e, l.get? name = some e ∧ rule.isFile (here ++ [name]) e = true := by
  rw [files, Text.mem_sort, Listing.mem_names_filter hl]

end AssetEmbed
