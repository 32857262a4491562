import AssetEmbed.Edit
import Mathlib.Data.List.Basic

/-!
# Splicing — where the characters of an edited text come from

An edited text is described position by position: at each position of the text stand the replacements of
the ranges that start there, and then the character of the text unless a range covers it.  Weaving the
replacements into the text, from a cursor on, gives exactly this as long as no range starts before the one
before it has ended.
-/

namespace AssetEmbed

/-! ## 1. Origins -/

/-- Where a character of an edited text comes from. -/
inductive Origin where
  | kept (position : Nat)
  | inserted (edit : Edit)
  deriving DecidableEq, Repr

def Range.covers (r : Range) (k : Nat) : Bool := decide (r.start ≤ k) && decide ((k : Int) < r.stop)

def Edit.characters (e : Edit) : List (Char × Origin) := e.replacement.map fun c => (c, .inserted e)

/-- The replacements of the ranges that start at a position. -/
def insertedAt (edits : List Edit) (k : Nat) : List (Char × Origin) :=
  (edits.filter fun e => e.range.start = (k : Int)).flatMap Edit.characters

/-- The character at a position of a text. -/
def characterAt (text : Text) (k : Nat) : List (Char × Origin) :=
  (text[k]?.map fun c => (c, Origin.kept k)).toList

/-- The character at a position of a text, unless a range covers it. -/
def keptAt (text : Text) (edits : List Edit) (k : Nat) : List (Char × Origin) :=
  if edits.any fun e => e.range.covers k then [] else characterAt text k

def provenance (text : Text) (edits : List Edit) : List (Char × Origin) :=
  (List.range (text.length + 1)).flatMap fun k => insertedAt edits k ++ keptAt text edits k

def spliced (text : Text) (edits : List Edit) : Text := (provenance text edits).map (·.1)

/-! ## 2. Weaving -/

def keptBetween (text : Text) (i j : Nat) : List (Char × Origin) :=
  (List.range' i (j - i)).flatMap (characterAt text)

/-- The characters of a text from a position on, with the ranges of the given replacements replaced. -/
def weaveOrigins (text : Text) : (cursor : Int) → List Edit → List (Char × Origin)
  | cursor, [] => keptBetween text cursor.toNat text.length
  | cursor, e :: es =>
    keptBetween text cursor.toNat e.range.start.toNat ++ e.characters ++
      weaveOrigins text e.range.stop es

/-- Whether replacements lie in a text from a position on, each after the end of the one before it. -/
def Ordered (text : Text) : (cursor : Int) → List Edit → Prop
  | cursor, [] => 0 ≤ cursor ∧ cursor ≤ text.length
  | cursor, e :: es => 0 ≤ cursor ∧ cursor ≤ e.range.start ∧ Ordered text e.range.stop es

theorem Ordered.bounds {text : Text} {cursor : Int} {es : List Edit} (h : Ordered text cursor es) :
    0 ≤ cursor ∧ cursor ≤ text.length := by
  induction es generalizing cursor with
  | nil => exact h
  | cons e es ih =>
    have hstop := ih h.2.2
    have hle := e.range.start_le_stop
    have hstart := h.2.1
    exact ⟨h.1, by omega⟩

theorem Ordered.le_start {text : Text} {cursor : Int} {es : List Edit} (h : Ordered text cursor es) :
    ∀ e ∈ es, cursor ≤ e.range.start := by
  induction es generalizing cursor with
  | nil => simp
  | cons d es ih =>
    intro e he
    have hle := d.range.start_le_stop
    have hstart := h.2.1
    rcases List.mem_cons.1 he with rfl | he
    · exact hstart
    · have := ih h.2.2 e he
      omega

/-- Replacements that fit a text and of which each ends before the next one starts are ordered. -/
theorem ordered_of_isChain {text : Text} {cursor : Int} {es : List Edit} (h0 : 0 ≤ cursor)
    (hcursor : cursor ≤ text.length) (hstart : ∀ e ∈ es, cursor ≤ e.range.start)
    (hstop : ∀ e ∈ es, e.range.stop ≤ text.length)
    (hchain : es.Pairwise fun a b => a.range.stop ≤ b.range.start) : Ordered text cursor es := by
  induction es generalizing cursor with
  | nil => exact ⟨h0, hcursor⟩
  | cons e es ih =>
    have hle := e.range.start_le_stop
    have hfirst := hstart e List.mem_cons_self
    rw [List.pairwise_cons] at hchain
    refine ⟨h0, hfirst, ih (by omega) (hstop e List.mem_cons_self) hchain.1 ?_ hchain.2⟩
    intro d hd
    exact hstop d (List.mem_cons_of_mem _ hd)

/-! ## 3. Slices -/

theorem place_eq_toNat {text : Text} {i : Int} (h0 : 0 ≤ i) (h : i ≤ text.length) :
    text.place i = i.toNat := by
  unfold Text.place
  rw [if_neg (by omega)]
  omega

theorem characterAt_map_fst (text : Text) (k : Nat) :
    (characterAt text k).map (·.1) = text[k]?.toList := by
  unfold characterAt
  cases text[k]? <;> rfl

theorem range'_flatMap_getElem? (text : Text) (i n : Nat) :
    ((List.range' i n).flatMap fun k => text[k]?.toList) = (text.drop i).take n := by
  induction n generalizing i with
  | zero => simp
  | succ n ih =>
    rw [List.range'_succ, List.flatMap_cons, ih]
    by_cases hi : i < text.length
    · rw [List.drop_eq_getElem_cons hi, List.getElem?_eq_getElem hi]
      rfl
    · rw [List.getElem?_eq_none (by omega), List.drop_eq_nil_of_le (by omega),
        List.drop_eq_nil_of_le (by omega)]
      simp

theorem slice_eq_take_drop {text : Text} {i j : Int} (h0 : 0 ≤ i) (hij : i ≤ j)
    (hj : j ≤ text.length) :
    text.slice i j = (text.drop i.toNat).take (j.toNat - i.toNat) := by
  unfold Text.slice
  rw [place_eq_toNat h0 (by omega), place_eq_toNat (by omega) hj, List.drop_take]

theorem slice_eq_nil {text : Text} {i j : Int} (h0 : 0 ≤ j) (hji : j ≤ i) (hi : i ≤ text.length) : text.slice i j = [] := by
  unfold Text.slice
  rw [place_eq_toNat h0 (by omega), place_eq_toNat (by omega) hi]
  apply List.drop_eq_nil_of_le
  rw [List.length_take]
  omega

theorem length_slice {text : Text} {i j : Int} (h0 : 0 ≤ i) (hij : i ≤ j) (hj : j ≤ text.length) :
    ((text.slice i j).length : Int) = j - i := by
  rw [slice_eq_take_drop h0 hij hj, List.length_take, List.length_drop]
  omega

theorem keptBetween_map_fst {text : Text} {i j : Int} (h0 : 0 ≤ i) (hij : i ≤ j)
    (hj : j ≤ text.length) :
    (keptBetween text i.toNat j.toNat).map (·.1) = text.slice i j := by
  unfold keptBetween
  rw [List.map_flatMap, slice_eq_take_drop h0 hij hj]
  simp only [characterAt_map_fst]
  exact range'_flatMap_getElem? text i.toNat (j.toNat - i.toNat)

theorem Edit.characters_map_fst (e : Edit) : e.characters.map (·.1) = e.replacement := by
  unfold characters
  rw [List.map_map]
  exact List.map_id' e.replacement

theorem weaveOrigins_map_fst {text : Text} {cursor : Int} {es : List Edit}
    (h : Ordered text cursor es) :
    (weaveOrigins text cursor es).map (·.1) = weave text cursor es := by
  induction es generalizing cursor with
  | nil =>
    have hkept := keptBetween_map_fst h.1 h.2 (Int.le_refl _)
    rwa [Int.toNat_natCast] at hkept
  | cons e es ih =>
    have hbounds := h.2.2.bounds
    have hle := e.range.start_le_stop
    unfold weaveOrigins weave
    rw [List.map_append, List.map_append, ih h.2.2, e.characters_map_fst,
      keptBetween_map_fst h.1 h.2.1 (by omega)]

/-! ## 4. Weaving is splicing -/

theorem insertedAt_cons (e : Edit) (es : List Edit) (k : Nat) :
    insertedAt (e :: es) k =
      (if e.range.start = (k : Int) then e.characters else []) ++ insertedAt es k := by
  unfold insertedAt
  rw [List.filter_cons]
  by_cases h : e.range.start = (k : Int) <;> simp [h]

theorem insertedAt_eq_nil {es : List Edit} {k : Nat} (h : ∀ e ∈ es, (k : Int) < e.range.start) :
    insertedAt es k = [] := by
  unfold insertedAt
  rw [List.filter_eq_nil_iff.2]
  · rfl
  · intro e he
    have := h e he
    simp only [decide_eq_true_eq]
    omega

theorem keptAt_eq_characterAt {text : Text} {es : List Edit} {k : Nat}
    (h : ∀ e ∈ es, (k : Int) < e.range.start) : keptAt text es k = characterAt text k := by
  unfold keptAt
  rw [if_neg]
  simp only [List.any_eq_true, not_exists, not_and, Bool.not_eq_true]
  intro e he
  have := h e he
  simp only [Range.covers, Bool.and_eq_false_iff, decide_eq_false_iff_not]
  omega

theorem keptAt_cons_of_covers {text : Text} {e : Edit} {es : List Edit} {k : Nat}
    (h : e.range.covers k) : keptAt text (e :: es) k = [] := by
  simp [keptAt, h]

theorem keptAt_cons_of_not_covers {text : Text} {e : Edit} {es : List Edit} {k : Nat}
    (h : ¬ e.range.covers k) : keptAt text (e :: es) k = keptAt text es k := by
  simp [keptAt, h]

theorem range'_split {i j n : Nat} (hij : i ≤ j) (hjn : j ≤ n) :
    List.range' i (n - i) = List.range' i (j - i) ++ List.range' j (n - j) := by
  have hj : j = i + (j - i) := by omega
  have hn : n - i = (j - i) + (n - j) := by omega
  conv_rhs => rw [hj, Nat.add_sub_cancel_left]
  rw [hn, ← List.range'_append_1, ← hj]

theorem flatMap_insertedAt_cons {e : Edit} {s n : Nat} (hs : e.range.start = (s : Int)) (hn : 0 < n)
    (es : List Edit) (f : Nat → List (Char × Origin)) :
    ((List.range' s n).flatMap fun k => insertedAt (e :: es) k ++ f k) =
      e.characters ++ (List.range' s n).flatMap fun k => insertedAt es k ++ f k := by
  obtain ⟨m, rfl⟩ : ∃ m, n = m + 1 := ⟨n - 1, by omega⟩
  have hrest : ∀ k ∈ List.range' (s + 1) m,
      insertedAt (e :: es) k ++ f k = insertedAt es k ++ f k := by
    intro k hk
    rw [List.mem_range'_1] at hk
    rw [insertedAt_cons, if_neg (by omega), List.nil_append]
  rw [List.range'_succ, List.flatMap_cons, List.flatMap_cons, List.flatMap_congr hrest,
    insertedAt_cons, if_pos hs]
  simp only [List.append_assoc]

theorem insertedAt_append_keptAt_of_lt {text : Text} {es : List Edit} {k : Nat}
    (h : ∀ e ∈ es, (k : Int) < e.range.start) : insertedAt es k ++ keptAt text es k = characterAt text k := by
  rw [insertedAt_eq_nil h, keptAt_eq_characterAt h, List.nil_append]

/-- From the start of the first range on stands its replacement, and then, behind the range, what the later ones
leave. -/
theorem flatMap_from_start {text : Text} {e : Edit} {es : List Edit} {s t : Nat} (hs : e.range.start = (s : Int))
    (ht : e.range.stop = (t : Int)) (htn : t ≤ text.length) (hlater : ∀ d ∈ es, (t : Int) ≤ d.range.start) :
    ((List.range' s (text.length + 1 - s)).flatMap fun k => insertedAt (e :: es) k ++ keptAt text (e :: es) k) =
      e.characters ++
        (List.range' t (text.length + 1 - t)).flatMap fun k => insertedAt es k ++ keptAt text es k := by
  have hst : s ≤ t := by have := e.range.start_le_stop; omega
  have hwithin : ∀ k ∈ List.range' s (t - s), insertedAt es k ++ keptAt text (e :: es) k = [] := by
    intro k hk
    rw [List.mem_range'_1] at hk
    have hcovers : e.range.covers k := by
      simp only [Range.covers, hs, ht, Bool.and_eq_true, decide_eq_true_eq]
      omega
    rw [keptAt_cons_of_covers hcovers, insertedAt_eq_nil]
    · rfl
    · intro d hd
      have := hlater d hd
      omega
  have hrest : ∀ k ∈ List.range' t (text.length + 1 - t),
      insertedAt es k ++ keptAt text (e :: es) k = insertedAt es k ++ keptAt text es k := by
    intro k hk
    rw [List.mem_range'_1] at hk
    rw [keptAt_cons_of_not_covers]
    simp only [Range.covers, hs, ht, Bool.and_eq_true, decide_eq_true_eq]
    omega
  rw [flatMap_insertedAt_cons hs (by omega), range'_split hst (by omega), List.flatMap_append,
    List.flatMap_congr hrest, List.flatMap_eq_nil_iff.2 hwithin, List.nil_append]

theorem weaveOrigins_eq_flatMap {text : Text} {cursor : Int} {es : List Edit}
    (h : Ordered text cursor es) :
    weaveOrigins text cursor es =
      (List.range' cursor.toNat (text.length + 1 - cursor.toNat)).flatMap fun k =>
        insertedAt es k ++ keptAt text es k := by
  induction es generalizing cursor with
  | nil =>
    have hbounds := h.bounds
    -- there is no character at the position after the last one
    rw [range'_split (j := text.length) (by omega) (by omega), List.flatMap_append]
    have hlast : text.length + 1 - text.length = 1 := by omega
    rw [hlast]
    have hend : characterAt text text.length = [] := by simp [characterAt]
    simp [weaveOrigins, keptBetween, insertedAt, keptAt, hend]
  | cons e es ih =>
    obtain ⟨hcursor, hstart, hrest⟩ := h
    obtain ⟨s, hs⟩ := Int.eq_ofNat_of_zero_le (show 0 ≤ e.range.start by omega)
    obtain ⟨t, ht⟩ := Int.eq_ofNat_of_zero_le hrest.bounds.1
    have hcs : cursor.toNat ≤ s := by omega
    have hst : s ≤ t := by have := e.range.start_le_stop; omega
    have htn : t ≤ text.length := by have := hrest.bounds.2; omega
    have hlater : ∀ d ∈ es, (t : Int) ≤ d.range.start := by
      rw [← ht]; exact hrest.le_start
    have hwoven := ih hrest
    rw [ht, Int.toNat_natCast] at hwoven
    have hbefore : ∀ k ∈ List.range' cursor.toNat (s - cursor.toNat),
        insertedAt (e :: es) k ++ keptAt text (e :: es) k = characterAt text k := by
      intro k hk
      rw [List.mem_range'_1] at hk
      refine insertedAt_append_keptAt_of_lt fun d hd => ?_
      rcases List.mem_cons.1 hd with rfl | hd
      · omega
      · have := hlater d hd
        omega
    -- the positions before the range are characters of the text, and the others are woven behind it
    rw [range'_split hcs (by omega), List.flatMap_append, flatMap_from_start hs ht htn hlater, ← hwoven,
      List.flatMap_congr hbefore, weaveOrigins, hs, ht, Int.toNat_natCast, List.append_assoc]
    rfl

/-- Replacements that are in order are spliced by weaving. -/
theorem weave_eq_spliced {text : Text} {es : List Edit} (h : Ordered text 0 es) :
    weave text 0 es = spliced text es := by
  rw [← weaveOrigins_map_fst h, weaveOrigins_eq_flatMap h]
  unfold spliced provenance
  rw [List.range_eq_range']
  rfl

/-! ## 5. Applying an editor -/

def Edit.Fits (text : Text) (e : Edit) : Prop := 0 ≤ e.range.start ∧ e.range.stop ≤ text.length

/-- Whether each of some replacements, by ascending start, ends before the next one starts. -/
def Editor.InOrder (ed : Editor) : Prop :=
  ed.sorted.Pairwise fun a b => a.range.stop ≤ b.range.start

theorem Editor.sorted_perm (ed : Editor) : ed.sorted.Perm ed.edits := List.mergeSort_perm _ _

theorem Edit.start_le_trans (a b c : Edit) (hab : decide (a.range.start ≤ b.range.start) = true)
    (hbc : decide (b.range.start ≤ c.range.start) = true) : decide (a.range.start ≤ c.range.start) = true := by
  simp only [decide_eq_true_eq] at hab hbc ⊢
  omega

theorem Edit.start_le_total (a b : Edit) :
    (decide (a.range.start ≤ b.range.start) || decide (b.range.start ≤ a.range.start)) = true := by
  simp only [Bool.or_eq_true, decide_eq_true_eq]
  omega

theorem Editor.sorted_pairwise (ed : Editor) : ed.sorted.Pairwise fun a b => a.range.start ≤ b.range.start :=
  (List.pairwise_mergeSort Edit.start_le_trans Edit.start_le_total ed.edits).imp of_decide_eq_true

theorem Editor.mem_sorted {ed : Editor} {e : Edit} : e ∈ ed.sorted ↔ e ∈ ed.edits :=
  ed.sorted_perm.mem_iff

theorem Editor.filter_sorted (ed : Editor) (k : Int) :
    (ed.sorted.filter fun e => e.range.start = k) = ed.edits.filter fun e => e.range.start = k := by
  have hsub : (ed.edits.filter fun e => e.range.start = k).Sublist ed.sorted := by
    -- replacements with the same start are in order already, so sorting leaves them as they are
    refine List.sublist_mergeSort Edit.start_le_trans Edit.start_le_total ?_ List.filter_sublist
    refine List.Pairwise.imp_of_mem ?_ (List.pairwise_of_forall fun _ _ => trivial)
    intro a b ha hb _
    simp only [List.mem_filter, decide_eq_true_eq] at ha hb ⊢
    omega
  have hfilter := hsub.filter fun e => decide (e.range.start = k)
  rw [List.filter_filter] at hfilter
  simp only [Bool.and_self] at hfilter
  exact (hfilter.eq_of_length (ed.sorted_perm.filter _).length_eq.symm).symm

/-- An edited text depends only on which replacements start at each position, and in which order. -/
theorem provenance_congr {text : Text} {es fs : List Edit}
    (h : ∀ k : Int, (es.filter fun e => e.range.start = k) = fs.filter fun e => e.range.start = k) :
    provenance text es = provenance text fs := by
  have hmem : ∀ e, e ∈ es ↔ e ∈ fs := by
    intro e
    have hstart : ∀ ds : List Edit, e ∈ ds ↔ e ∈ ds.filter fun d => d.range.start = e.range.start := by
      simp
    rw [hstart es, hstart fs, h]
  have hany : ∀ k, (es.any fun e => e.range.covers k) = fs.any fun e => e.range.covers k := by
    intro k
    rw [Bool.eq_iff_iff]
    simp only [List.any_eq_true, hmem]
  unfold provenance insertedAt keptAt
  simp only [h, hany]

theorem Editor.provenance_sorted (ed : Editor) (text : Text) :
    provenance text ed.sorted = provenance text ed.edits :=
  provenance_congr ed.filter_sorted

theorem Editor.ordered_sorted {ed : Editor} (hfits : ∀ e ∈ ed.edits, e.Fits ed.text)
    (horder : ed.InOrder) : Ordered ed.text 0 ed.sorted := by
  refine ordered_of_isChain (Int.le_refl _) (by omega) ?_ ?_ horder
  · intro e he
    exact (hfits e (mem_sorted.1 he)).1
  · intro e he
    exact (hfits e (mem_sorted.1 he)).2

theorem Editor.misfits_eq_nil {ed : Editor} (hfits : ∀ e ∈ ed.edits, e.Fits ed.text) :
    ed.misfits = [] := by
  unfold misfits
  rw [List.flatten_eq_nil_iff]
  intro ms hms
  obtain ⟨⟨e, i⟩, hmem, rfl⟩ := List.mem_map.1 hms
  have hfit := hfits e (List.fst_mem_of_mem_zipIdx hmem)
  simp only [Edit.misfits]
  rw [if_neg (by have := hfit.1; omega), if_neg (by have := hfit.2; omega)]
  rfl

theorem Editor.apply_eq_spliced {ed : Editor} (hfits : ∀ e ∈ ed.edits, e.Fits ed.text)
    (horder : ed.InOrder) :
    ∃ edited, ed.apply = .ok edited ∧ edited.text = spliced ed.text ed.edits ∧
      edited.applied = ed.edits.length := by
  unfold apply
  rw [misfits_eq_nil hfits]
  refine ⟨_, rfl, ?_, rfl⟩
  rw [weave_eq_spliced (ordered_sorted hfits horder)]
  unfold spliced
  rw [ed.provenance_sorted]

end AssetEmbed
