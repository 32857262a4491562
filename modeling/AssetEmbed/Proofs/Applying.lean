import AssetEmbed.Proofs.Proposing
import Mathlib.Algebra.Order.BigOperators.Group.List
import Mathlib.Algebra.Order.Ring.Int

/-!
# Applying — what any accepted replacements make of a text

Replacements that fit a text never overlap once they are accepted, but several of them may start at one position: any
number of insertions, and one replacement of a range that is not empty.  They are applied in the order in which they
were accepted.  An insertion that was accepted after the replacement of the range behind it brings back what that one
has taken out; in all other cases the text is the spliced one.
-/

namespace AssetEmbed

/-! ## 1. Replacements that start at one position -/

/-- The replacement without taking anything out. -/
def Edit.emptied (e : Edit) : Edit := ⟨⟨e.range.start, e.range.start, Int.le_refl _⟩, e.replacement⟩

/-- What replacements come to when they are applied: one that another one follows at its start takes nothing out. -/
def settled : List Edit → List Edit
  | [] => []
  | e :: es => (if es.any fun d => d.range.start = e.range.start then e.emptied else e) :: settled es

/-- Whether insertions come before the replacement of the range that starts at their position. -/
def InsertsFirst (es : List Edit) : Prop :=
  es.Pairwise fun a b => a.range.start = b.range.start → a.range.width = 0

variable {text : Text} {e : Edit} {es : List Edit} {cursor : Int}

theorem Edit.emptied_eq_self (h : e.range.width = 0) : e.emptied = e := by
  obtain ⟨⟨start, stop, hle⟩, replacement⟩ := e
  have hstop : stop = start := by
    unfold Range.width at h
    dsimp only at h
    omega
  subst hstop
  rfl

theorem settled_eq_self (h : InsertsFirst es) : settled es = es := by
  induction es with
  | nil => rfl
  | cons e es ih =>
    obtain ⟨hfirst, hrest⟩ := List.pairwise_cons.1 h
    rw [settled, ih hrest]
    split
    · rename_i hlater
      obtain ⟨d, hd, hstart⟩ := List.any_eq_true.1 hlater
      rw [Edit.emptied_eq_self (hfirst d hd (of_decide_eq_true hstart).symm)]
    · rfl

theorem mem_settled (h : e ∈ settled es) :
    ∃ d ∈ es, e.range.start = d.range.start ∧ e.range.stop ≤ d.range.stop := by
  induction es with
  | nil => cases h
  | cons d es ih =>
    rw [settled] at h
    rcases List.mem_cons.1 h with rfl | h
    · refine ⟨d, List.mem_cons_self, ?_⟩
      split
      · exact ⟨rfl, d.range.start_le_stop⟩
      · exact ⟨rfl, Int.le_refl _⟩
    · obtain ⟨d, hd, hrange⟩ := ih h
      exact ⟨d, List.mem_cons_of_mem _ hd, hrange⟩

theorem filter_settled (es : List Edit) (k : Int) :
    ((settled es).filter fun e => e.range.start = k) = settled (es.filter fun e => e.range.start = k) := by
  induction es with
  | nil => rfl
  | cons e es ih =>
    have hstart : (if es.any fun d => d.range.start = e.range.start then e.emptied else e).range.start =
        e.range.start := by
      split <;> rfl
    rw [settled, List.filter_cons, List.filter_cons, hstart, ih]
    by_cases hk : e.range.start = k
    · have hany : (es.filter fun d => d.range.start = k).any (fun d => d.range.start = e.range.start) =
          es.any fun d => d.range.start = e.range.start := by
        rw [hk, List.any_filter]
        simp
      rw [if_pos (decide_eq_true hk), if_pos (decide_eq_true hk), settled, hany]
    · rw [if_neg (by simpa using hk), if_neg (by simpa using hk)]

theorem map_replacement_settled (es : List Edit) :
    (settled es).map (·.replacement) = es.map (·.replacement) := by
  induction es with
  | nil => rfl
  | cons e es ih =>
    rw [settled, List.map_cons, List.map_cons, ih]
    split <;> rfl

/-- What the ranges of settled replacements lose in width is what later ones at their starts bring back. -/
theorem width_settled (es : List Edit) :
    ((settled es).map (·.range.width)).sum ≤ (es.map (·.range.width)).sum ∧
      (((settled es).map (·.range.width)).sum = (es.map (·.range.width)).sum ↔ InsertsFirst es) := by
  induction es with
  | nil => exact ⟨Int.le_refl _, by simp [settled, InsertsFirst]⟩
  | cons e es ih =>
    -- a width is never negative, so that emptying a range can only lose
    have hwidth : 0 ≤ e.range.width := by
      have := e.range.start_le_stop
      unfold Range.width
      omega
    have hemptied : e.emptied.range.width = 0 := Int.sub_self _
    obtain ⟨hle, hiff⟩ := ih
    rw [settled, List.map_cons, List.map_cons, List.sum_cons, List.sum_cons, InsertsFirst, List.pairwise_cons,
      ← InsertsFirst, ← hiff]
    split
    -- a later range starts here: that is only no loss if this one was empty to begin with
    · rename_i hlater
      obtain ⟨d, hd, hstart⟩ := List.any_eq_true.1 hlater
      rw [hemptied]
      constructor
      · omega
      · constructor
        · intro heq
          exact ⟨fun _ _ _ => by omega, by omega⟩
        · intro h
          have := h.1 d hd (of_decide_eq_true hstart).symm
          omega
    -- no later range starts here, so that nothing is lost at the first one
    · rename_i hlater
      constructor
      · omega
      · constructor
        · intro heq
          refine ⟨fun d hd hstart => absurd ?_ hlater, by omega⟩
          exact List.any_eq_true.2 ⟨d, hd, decide_eq_true hstart.symm⟩
        · intro h
          omega

/-! ## 2. Weaving settled replacements -/

theorem length_weave (h : Ordered text cursor es) :
    ((weave text cursor es).length : Int) =
      text.length - cursor - (es.map (·.range.width)).sum + ((es.map (·.replacement)).map List.length).sum := by
  induction es generalizing cursor with
  | nil =>
    rw [weave, length_slice h.1 h.2 (Int.le_refl _)]
    simp
  | cons e es ih =>
    have hbounds := h.2.2.bounds
    have hle := e.range.start_le_stop
    rw [weave, List.length_append, List.length_append, Int.natCast_add, Int.natCast_add, ih h.2.2,
      length_slice h.1 h.2.1 (by omega)]
    simp only [List.map_cons, List.sum_cons, Range.width]
    omega

/-- Weaving goes back to the start of a range if the next one starts there too. -/
theorem weave_settled (hfits : ∀ e ∈ es, e.Fits text)
    (hsorted : es.Pairwise fun a b => a.range.start ≤ b.range.start) :
    weave text cursor (settled es) = weave text cursor es := by
  induction es generalizing cursor with
  | nil => rfl
  | cons e es ih =>
    obtain ⟨hfit, hfits⟩ := List.forall_mem_cons.1 hfits
    obtain ⟨hfirst, hsorted⟩ := List.pairwise_cons.1 hsorted
    have ih := fun cursor => @ih cursor hfits hsorted
    rw [settled, weave, weave]
    split
    · rename_i hlater
      obtain ⟨d, hd, hstart⟩ := List.any_eq_true.1 hlater
      have hstart := of_decide_eq_true hstart
      -- the next range starts where this one does, so that nothing is copied before it
      have hnext : weave text e.range.start es = weave text e.range.stop es := by
        cases es with
        | nil => cases hd
        | cons next es =>
          have hle := e.range.start_le_stop
          have hnextStart : next.range.start = e.range.start := by
            have hnextLe := hfirst next List.mem_cons_self
            rcases List.mem_cons.1 hd with rfl | hd
            · exact hstart
            · have := (List.pairwise_cons.1 hsorted).1 d hd
              omega
          have hstop := hfit.2
          rw [weave, weave, hnextStart, slice_eq_nil hfit.1 (Int.le_refl _) (by omega),
            slice_eq_nil hfit.1 hle hstop]
      rw [ih]
      show _ ++ _ ++ weave text e.range.start es = _
      rw [hnext]
      rfl
    · rw [ih]

/-- Settled replacements that do not overlap each end before the next one starts. -/
theorem isChain_settled (hsorted : es.Pairwise fun a b => a.range.start ≤ b.range.start)
    (hapart : es.Pairwise fun a b => a.range.overlaps b.range = false) :
    (settled es).Pairwise fun a b => a.range.stop ≤ b.range.start := by
  induction es with
  | nil => exact List.Pairwise.nil
  | cons e es ih =>
    obtain ⟨hfirst, hsorted⟩ := List.pairwise_cons.1 hsorted
    obtain ⟨hfirstApart, hapart⟩ := List.pairwise_cons.1 hapart
    rw [settled, List.pairwise_cons]
    refine ⟨?_, ih hsorted hapart⟩
    intro d' hd'
    obtain ⟨d, hd, hstart, -⟩ := mem_settled hd'
    have hle := hfirst d hd
    rw [hstart]
    split
    · exact hle
    -- a range that keeps its width is apart from the later ones, none of which starts where it does
    · rename_i hlater
      have hne : d.range.start ≠ e.range.start := by
        intro heq
        exact hlater (List.any_eq_true.2 ⟨d, hd, decide_eq_true heq⟩)
      have hoverlaps := Range.overlaps_eq_false_iff.1 (hfirstApart d hd)
      have := d.range.start_le_stop
      omega

/-! ## 3. Applying an editor -/

namespace Editor

variable {ed : Editor}

theorem offers_text (ed : Editor) (es : List Edit) : (ed.offers es).text = ed.text := by
  induction es generalizing ed with
  | nil => rfl
  | cons e es ih =>
    show ((ed.add e).1.offers es).text = _
    rw [ih, add_text]

theorem IsApart.add (h : ed.IsApart) (e : Edit) : (ed.add e).1.IsApart := by
  unfold Editor.add
  rcases ed.offer_cases e with ⟨b, -, -, -, hoffer⟩ | ⟨-, hoffer⟩
  · rw [hoffer]
    exact h
  · rw [hoffer]
    exact apart_accepted h e

theorem IsApart.offers (h : ed.IsApart) (es : List Edit) : (ed.offers es).IsApart := by
  induction es generalizing ed with
  | nil => exact h
  | cons e es ih => exact ih (h.add e)

theorem mem_add {d : Edit} (h : d ∈ (ed.add e).1.edits) : d ∈ ed.edits ∨ d = e := by
  unfold add at h
  rcases ed.offer_cases e with ⟨b, -, -, -, hoffer⟩ | ⟨-, hoffer⟩
  · rw [hoffer] at h
    exact .inl h
  · rw [hoffer] at h
    rcases List.mem_append.1 h with h | h
    · exact .inl (List.mem_filter.1 h).1
    · exact .inr (List.mem_singleton.1 h)

theorem mem_offers {d : Edit} (h : d ∈ (ed.offers es).edits) : d ∈ ed.edits ∨ d ∈ es := by
  induction es generalizing ed with
  | nil => exact .inl h
  | cons e es ih =>
    rcases ih h with h | h
    · rcases mem_add h with h | rfl
      · exact .inl h
      · exact .inr List.mem_cons_self
    · exact .inr (List.mem_cons_of_mem _ h)

theorem IsApart.sorted (h : ed.IsApart) : ed.sorted.Pairwise fun a b => a.range.overlaps b.range = false :=
  ed.sorted_perm.symm.pairwise h fun hab => by rw [Range.overlaps_comm]; exact hab

theorem filter_settled_sorted (ed : Editor) (k : Int) :
    ((settled ed.sorted).filter fun e => e.range.start = k) =
      (settled ed.edits).filter fun e => e.range.start = k := by
  rw [filter_settled, filter_settled, ed.filter_sorted]

theorem perm_settled_sorted (ed : Editor) : (settled ed.sorted).Perm (settled ed.edits) := by
  rw [List.perm_iff_count]
  intro e
  have hcount : ∀ es : List Edit, (es.filter fun d => d.range.start = e.range.start).count e = es.count e := by
    intro es
    apply List.count_filter
    exact decide_eq_true rfl
  rw [← hcount (settled ed.sorted), ← hcount (settled ed.edits), filter_settled_sorted]

/-- Replacements that fit and do not overlap are ordered once they are sorted and settled. -/
theorem IsApart.ordered_settled (h : ed.IsApart) (hfits : ∀ e ∈ ed.edits, e.Fits ed.text) :
    Ordered ed.text 0 (settled ed.sorted) := by
  refine ordered_of_isChain (Int.le_refl _) (by omega) ?_ ?_ (isChain_settled ed.sorted_pairwise h.sorted)
  · intro e he
    obtain ⟨d, hd, hstart, -⟩ := mem_settled he
    have := (hfits d (mem_sorted.1 hd)).1
    omega
  · intro e he
    obtain ⟨d, hd, -, hstop⟩ := mem_settled he
    have := (hfits d (mem_sorted.1 hd)).2
    omega

theorem removed_eq_sum (es : List Edit) :
    es.foldr (fun e n => e.range.width + n) 0 = (es.map (·.range.width)).sum := by
  rw [List.sum_eq_foldr, List.foldr_map]

theorem added_eq_sum (es : List Edit) :
    es.foldr (fun e n => e.replacement.length + n) 0 = ((es.map (·.replacement)).map List.length).sum := by
  rw [List.sum_eq_foldr, List.foldr_map, List.foldr_map]

theorem IsApart.length_weave_sorted (h : ed.IsApart) (hfits : ∀ e ∈ ed.edits, e.Fits ed.text) :
    ((weave ed.text 0 ed.sorted).length : Int) = ed.text.length - ((settled ed.edits).map (·.range.width)).sum +
      ((ed.edits.map (·.replacement)).map List.length).sum := by
  have hwidth := ((ed.perm_settled_sorted.map (·.range.width)).sum_eq)
  have hreplacement := (((ed.sorted_perm.map (·.replacement)).map List.length).sum_eq)
  rw [← weave_settled (fun e he => hfits e (mem_sorted.1 he)) ed.sorted_pairwise,
    length_weave (h.ordered_settled hfits), map_replacement_settled, hwidth, hreplacement]
  omega

/-- Offering replacements that fit a text and applying what is accepted gives the text with the settled replacements.
It has the length that the numbers of removed and added characters tell exactly if insertions were accepted before the
replacement of the range that starts at their position; then the text is the one in which all that is accepted is
spliced. -/
theorem apply_offers (text : Text) {es : List Edit} (hfits : ∀ e ∈ es, e.Fits text) :
    let ed := (ofText text).offers es
    ∃ edited, ed.apply = .ok edited ∧ edited.text = spliced text (settled ed.edits) ∧
      (InsertsFirst ed.edits → edited.text = spliced text ed.edits) ∧
      ((edited.text.length : Int) = text.length - edited.removed + edited.added ↔ InsertsFirst ed.edits) := by
  intro ed
  have htext : ed.text = text := offers_text _ es
  have hempty : (ofText text).IsApart := List.Pairwise.nil
  have hapart : ed.IsApart := hempty.offers es
  have hstored : ∀ e ∈ ed.edits, e.Fits ed.text := by
    intro e he
    rw [htext]
    rcases mem_offers he with he | he
    · cases he
    · exact hfits e he
  -- what is woven is settled first, and then spliced: settling keeps what is inserted at each position
  have hspliced : weave ed.text 0 ed.sorted = spliced text (settled ed.edits) := by
    rw [← weave_settled (fun e he => hstored e (mem_sorted.1 he)) ed.sorted_pairwise,
      weave_eq_spliced (hapart.ordered_settled hstored), htext]
    unfold spliced
    rw [provenance_congr ed.filter_settled_sorted]
  have hlength := hapart.length_weave_sorted hstored
  obtain ⟨-, hwidth⟩ := width_settled ed.edits
  unfold apply
  rw [misfits_eq_nil hstored]
  refine ⟨_, rfl, hspliced, ?_, ?_⟩
  · intro hfirst
    rw [settled_eq_self hfirst] at hspliced
    exact hspliced
  · dsimp only
    -- the numbers of removed and added characters are sums, so the length is off by the width that settling
    -- loses
    rw [hlength, htext, removed_eq_sum, added_eq_sum, ← hwidth]
    omega

theorem apply_offers_touchingEdits :
    let es : List Edit := [⟨⟨2, 2, by decide⟩, ['x']⟩, ⟨⟨2, 5, by decide⟩, ['y']⟩, ⟨⟨5, 5, by decide⟩, ['z']⟩]
    let ed := (ofText "abcdef".toList).offers es
    (∀ e ∈ es, e.Fits "abcdef".toList) ∧ InsertsFirst ed.edits ∧
      ∃ edited, ed.apply = .ok edited ∧ edited.text = "abxyzf".toList ∧
        (edited.text.length : Int) = 6 - edited.removed + edited.added := by
  intro es ed
  have hfits : ∀ e ∈ es, e.Fits "abcdef".toList := by
    unfold Edit.Fits
    decide
  have hfirst : InsertsFirst ed.edits := by
    unfold InsertsFirst
    decide
  obtain ⟨edited, happly, -, hspliced, hlength⟩ := apply_offers "abcdef".toList hfits
  refine ⟨hfits, hfirst, edited, happly, ?_, hlength.2 hfirst⟩
  rw [hspliced hfirst]
  decide

/-- An insertion at the start of a range that has been taken out brings back what stood there. -/
theorem apply_restores_removed :
    let ed := (ofText "abcdef".toList).offers [⟨⟨2, 5, by decide⟩, []⟩, ⟨⟨2, 2, by decide⟩, ['x']⟩]
    ed.apply = .ok ⟨"abxcdef".toList, 2, 3, 1⟩ ∧
      ¬ (("abxcdef".toList.length : Int) = "abcdef".toList.length - 3 + 1) := by
  intro ed
  refine ⟨?_, by decide⟩
  have hsorted : ed.sorted = ed.edits := List.mergeSort_of_pairwise (by decide)
  unfold apply
  rw [hsorted]
  decide

end Editor

end AssetEmbed
