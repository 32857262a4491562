import AssetEmbed.Proofs.Splice
import Mathlib.Data.List.Pairwise
import Mathlib.Data.List.Perm.Basic

/-!
# Outermost ranges — what is left of the replacements that were offered

Ranges of which any two are apart or nested may be offered in any order: an editor is left with the
outermost ones.  Of several replacements for one range it keeps the first.
-/

namespace AssetEmbed

/-! ## 1. Nested ranges -/

/-- Whether a range lies within another one, both ends counting. -/
def Range.contains (r s : Range) : Bool := decide (r.start ≤ s.start) && decide (s.stop ≤ r.stop)

/-- Whether a range lies within another one that is wider. -/
def Range.isInside (r s : Range) : Bool := s.contains r && decide (r ≠ s)

/-- Whether two ranges are apart or one lies within the other. -/
def Range.Nests (r s : Range) : Prop := r.overlaps s = false ∨ r.contains s ∨ s.contains r

namespace Range

variable {r s t : Range}

theorem contains_iff : r.contains s ↔ r.start ≤ s.start ∧ s.stop ≤ r.stop := by
  simp [contains]

theorem contains_refl (r : Range) : r.contains r :=
  contains_iff.2 ⟨Int.le_refl _, Int.le_refl _⟩

theorem contains_trans (hrs : r.contains s) (hst : s.contains t) : r.contains t := by
  rw [contains_iff] at *
  omega

theorem overlaps_iff : r.overlaps s ↔ s.start < r.stop ∧ r.start < s.stop := by
  simp [overlaps]

theorem overlaps_eq_false_iff : r.overlaps s = false ↔ r.stop ≤ s.start ∨ s.stop ≤ r.start := by
  rw [← Bool.not_eq_true, overlaps_iff]
  omega

theorem ext_iff_ends : r = s ↔ r.start = s.start ∧ r.stop = s.stop := by
  cases r; cases s; simp

theorem eq_of_contains (hrs : r.contains s) (hsr : s.contains r) : r = s := by
  rw [contains_iff] at *
  rw [ext_iff_ends]
  omega

theorem overlaps_of_contains (hs : s.start < s.stop) (h : r.contains s) : s.overlaps r := by
  rw [contains_iff] at h
  rw [overlaps_iff]
  omega

theorem width_le_of_contains (h : r.contains s) : s.width ≤ r.width := by
  rw [contains_iff] at h
  unfold width
  omega

theorem contains_of_width_le (hnests : r.Nests s) (hoverlaps : r.overlaps s)
    (hwidth : r.width ≤ s.width) : s.contains r := by
  rcases hnests with h | h | h
  · rw [hoverlaps] at h
    exact absurd h (by decide)
  · rw [contains_iff] at *
    unfold width at hwidth
    omega
  · exact h

end Range

/-! ## 2. The invariant of an editor -/

/-- What an editor holds after replacements for nested ranges were offered: the outermost ranges of them,
each with the replacement that was offered first for it. -/
structure Editor.Outermost (offered : List Edit) (ed : Editor) : Prop where
  apart : ed.edits.Pairwise fun a b => a.range.overlaps b.range = false
  covered : ∀ e ∈ offered, ∃ d ∈ ed.edits, d.range.contains e.range
  first : ∀ d ∈ ed.edits, (offered.find? fun e => e.range = d.range) = some d

/-- The editor after several offers. -/
def Editor.offers (ed : Editor) (edits : List Edit) : Editor :=
  edits.foldl (fun ed e => (ed.add e).1) ed

/-- Whether the ranges of replacements are not empty, and apart or nested. -/
structure Laminar (offered : List Edit) : Prop where
  nonempty : ∀ e ∈ offered, e.range.start < e.range.stop
  nests : ∀ a ∈ offered, ∀ b ∈ offered, a.range.Nests b.range

theorem Laminar.of_append {as bs : List Edit} (h : Laminar (as ++ bs)) : Laminar as where
  nonempty e he := h.nonempty e (List.mem_append_left _ he)
  nests a ha b hb := h.nests a (List.mem_append_left _ ha) b (List.mem_append_left _ hb)

theorem Laminar.perm {es fs : List Edit} (hl : Laminar es) (hperm : es.Perm fs) : Laminar fs where
  nonempty e he := hl.nonempty e (hperm.mem_iff.2 he)
  nests a ha b hb := hl.nests a (hperm.mem_iff.2 ha) b (hperm.mem_iff.2 hb)

namespace Editor

variable {offered : List Edit} {ed : Editor}

theorem Outermost.mem_offered (h : Outermost offered ed) {d : Edit} (hd : d ∈ ed.edits) :
    d ∈ offered :=
  List.mem_of_find?_eq_some (h.first d hd)

theorem outermost_ofText (text : Text) : Outermost [] (ofText text) where
  apart := List.Pairwise.nil
  covered _ he := absurd he List.not_mem_nil
  first _ hd := absurd hd List.not_mem_nil

/-- What becomes of an offer: something at least as wide stands in the way of it, or everything it overlaps
is narrower and makes place for it. -/
theorem offer_cases (ed : Editor) (e : Edit) :
    (∃ b ∈ ed.edits, e.range.overlaps b.range ∧ e.range.width ≤ b.range.width ∧
      ed.offer e = .refused b) ∨
    ((∀ d ∈ ed.edits, e.range.overlaps d.range → d.range.width < e.range.width) ∧
      ed.offer e = .accepted
        { ed with edits := ed.edits.filter (fun d => !e.range.overlaps d.range) ++ [e] }
        (ed.edits.filter fun d => e.range.overlaps d.range)) := by
  unfold offer
  cases hblocker : ed.edits.find? fun d =>
      e.range.overlaps d.range && decide (e.range.width ≤ d.range.width) with
  | some b =>
    have hb := List.find?_some hblocker
    rw [Bool.and_eq_true, decide_eq_true_eq] at hb
    exact .inl ⟨b, List.mem_of_find?_eq_some hblocker, hb.1, hb.2, rfl⟩
  | none =>
    refine .inr ⟨?_, rfl⟩
    intro d hd hoverlaps
    have hfree := List.find?_eq_none.1 hblocker d hd
    rw [Bool.and_eq_true, decide_eq_true_eq, not_and] at hfree
    have := hfree hoverlaps
    omega

theorem add_text (ed : Editor) (e : Edit) : (ed.add e).1.text = ed.text := by
  unfold add
  rcases ed.offer_cases e with ⟨b, -, -, -, hoffer⟩ | ⟨-, hoffer⟩ <;> rw [hoffer]

theorem apart_accepted {edits : List Edit} (h : edits.Pairwise fun a b => a.range.overlaps b.range = false)
    (e : Edit) :
    (edits.filter (fun d => !e.range.overlaps d.range) ++ [e]).Pairwise fun a b =>
      a.range.overlaps b.range = false := by
  rw [List.pairwise_append]
  refine ⟨h.filter _, List.pairwise_singleton _ _, ?_⟩
  intro d hd x hx
  obtain rfl := List.mem_singleton.1 hx
  have hapart := (List.mem_filter.1 hd).2
  rwa [Bool.not_eq_true', Range.overlaps_comm] at hapart

theorem Outermost.refused (h : Outermost offered ed) {e b : Edit} (hl : Laminar (offered ++ [e]))
    (hb : b ∈ ed.edits) (hoverlaps : e.range.overlaps b.range)
    (hwidth : e.range.width ≤ b.range.width) : Outermost (offered ++ [e]) ed where
  apart := h.apart
  covered := by
    intro x hx
    rcases List.mem_append.1 hx with hx | hx
    · exact h.covered x hx
    · obtain rfl := List.mem_singleton.1 hx
      have hnests := hl.nests x (by simp) b (List.mem_append_left _ (h.mem_offered hb))
      exact ⟨b, hb, Range.contains_of_width_le hnests hoverlaps hwidth⟩
  first := by
    intro d hd
    rw [List.find?_append, h.first d hd]
    rfl

/-- A replacement that is accepted takes the place of all that lies within it. -/
theorem Outermost.accepted (h : Outermost offered ed) {e : Edit} (hl : Laminar (offered ++ [e]))
    (hfree : ∀ d ∈ ed.edits, e.range.overlaps d.range → d.range.width < e.range.width) :
    Outermost (offered ++ [e])
      { ed with edits := ed.edits.filter (fun d => !e.range.overlaps d.range) ++ [e] } := by
  have hmem : ∀ d ∈ ed.edits, d ∈ offered ++ [e] :=
    fun d hd => List.mem_append_left _ (h.mem_offered hd)
  -- what goes lies within the new range
  have hgone : ∀ d ∈ ed.edits, e.range.overlaps d.range → e.range.contains d.range := by
    intro d hd hoverlaps
    have hnests := hl.nests d (hmem d hd) e (by simp)
    rw [Range.overlaps_comm] at hoverlaps
    refine Range.contains_of_width_le hnests hoverlaps (Int.le_of_lt ?_)
    exact hfree d hd (by rw [Range.overlaps_comm]; exact hoverlaps)
  refine ⟨apart_accepted h.apart e, ?_, ?_⟩
  · intro x hx
    rcases List.mem_append.1 hx with hx | hx
    · obtain ⟨d, hd, hcontains⟩ := h.covered x hx
      by_cases hoverlaps : e.range.overlaps d.range
      · exact ⟨e, by simp, Range.contains_trans (hgone d hd hoverlaps) hcontains⟩
      · refine ⟨d, List.mem_append_left _ (List.mem_filter.2 ⟨hd, ?_⟩), hcontains⟩
        simpa using hoverlaps
    · obtain rfl := List.mem_singleton.1 hx
      exact ⟨x, by simp, Range.contains_refl _⟩
  · intro d hd
    rcases List.mem_append.1 hd with hd | hd
    · rw [List.find?_append, h.first d (List.mem_filter.1 hd).1]
      rfl
    · obtain rfl := List.mem_singleton.1 hd
      -- an earlier offer for this range would lie within one that stands in the way
      have hnone : (offered.find? fun x => x.range = d.range) = none := by
        rw [List.find?_eq_none]
        intro x hx hrange
        have hrange : x.range = d.range := of_decide_eq_true hrange
        obtain ⟨c, hc, hcontains⟩ := h.covered x hx
        rw [hrange] at hcontains
        have hnonempty := hl.nonempty d (by simp)
        have hlt := hfree c hc (Range.overlaps_of_contains hnonempty hcontains)
        have hle := Range.width_le_of_contains hcontains
        omega
      rw [List.find?_append, hnone]
      simp

theorem Outermost.add (h : Outermost offered ed) {e : Edit} (hl : Laminar (offered ++ [e])) :
    Outermost (offered ++ [e]) (ed.add e).1 := by
  unfold Editor.add
  rcases ed.offer_cases e with ⟨b, hb, hoverlaps, hwidth, hoffer⟩ | ⟨hfree, hoffer⟩
  · rw [hoffer]
    exact h.refused hl hb hoverlaps hwidth
  · rw [hoffer]
    exact h.accepted hl hfree

theorem Outermost.offers (h : Outermost offered ed) {es : List Edit} (hl : Laminar (offered ++ es)) :
    Outermost (offered ++ es) (ed.offers es) := by
  induction es generalizing offered ed with
  | nil => simpa [Editor.offers] using h
  | cons e es ih =>
    rw [List.append_cons] at hl
    have hstep := h.add hl.of_append
    have hrest := ih hstep hl
    rw [← List.append_cons] at hrest
    exact hrest

/-! ## 3. What is left -/

instance : Std.Symm fun a b : Edit => a.range.overlaps b.range = false where
  symm _ _ h := by rw [Range.overlaps_comm]; exact h

theorem Outermost.eq_of_overlaps (h : Outermost offered ed) {c d : Edit} (hc : c ∈ ed.edits)
    (hd : d ∈ ed.edits) (hoverlaps : c.range.overlaps d.range) : c = d := by
  by_contra hne
  have hapart := h.apart.forall hc hd hne
  rw [hoverlaps] at hapart
  exact absurd hapart (by decide)

theorem Outermost.not_isInside (h : Outermost offered ed) (hl : Laminar offered) {d e : Edit}
    (hd : d ∈ ed.edits) (he : e ∈ offered) : d.range.isInside e.range = false := by
  by_contra hinside
  rw [Bool.not_eq_false, Range.isInside, Bool.and_eq_true, decide_eq_true_eq] at hinside
  obtain ⟨hcontains, hne⟩ := hinside
  obtain ⟨c, hc, hcovers⟩ := h.covered e he
  have hnonempty := hl.nonempty d (h.mem_offered hd)
  have hoverlaps := Range.overlaps_of_contains hnonempty (Range.contains_trans hcovers hcontains)
  obtain rfl := h.eq_of_overlaps hd hc hoverlaps
  exact hne (Range.eq_of_contains hcovers hcontains)

theorem Outermost.exists_of_not_isInside (h : Outermost offered ed) {e : Edit} (he : e ∈ offered)
    (houter : ∀ x ∈ offered, e.range.isInside x.range = false) :
    ∃ d ∈ ed.edits, d.range = e.range := by
  obtain ⟨d, hd, hcovers⟩ := h.covered e he
  refine ⟨d, hd, ?_⟩
  have hinside := houter d (h.mem_offered hd)
  rw [Range.isInside, hcovers, Bool.true_and, decide_eq_false_iff_not, Decidable.not_not] at hinside
  exact hinside.symm

theorem Outermost.starts_ne (h : Outermost offered ed) (hl : Laminar offered) :
    ed.edits.Pairwise fun a b => a.range.start ≠ b.range.start := by
  refine List.Pairwise.imp_of_mem ?_ h.apart
  intro a b ha hb hapart
  have ha := hl.nonempty a (h.mem_offered ha)
  have hb := hl.nonempty b (h.mem_offered hb)
  rw [Range.overlaps_eq_false_iff] at hapart
  omega

/-- The replacements for ranges that are not within wider ones. -/
def outermost (offered : List Edit) : List Edit :=
  offered.filter fun e => offered.all fun x => !e.range.isInside x.range

theorem mem_outermost {e : Edit} :
    e ∈ outermost offered ↔ e ∈ offered ∧ ∀ x ∈ offered, e.range.isInside x.range = false := by
  simp [outermost]

/-- When all ranges differ, the outermost replacements are left. -/
theorem Outermost.perm (h : Outermost offered ed) (hl : Laminar offered)
    (hdistinct : offered.Pairwise fun a b => a.range ≠ b.range) :
    ed.edits.Perm (outermost offered) := by
  have hnodup : offered.Nodup := hdistinct.imp fun hne heq => hne (congrArg Edit.range heq)
  have houter : (outermost offered).Nodup := hnodup.filter _
  rw [List.perm_ext_iff_of_nodup ?_ houter]
  · intro e
    rw [mem_outermost]
    constructor
    · intro he
      exact ⟨h.mem_offered he, fun x hx => h.not_isInside hl he hx⟩
    · rintro ⟨he, houter⟩
      -- what is left for an outermost range was offered for that very range, and so it is the same replacement
      obtain ⟨d, hd, hrange⟩ := h.exists_of_not_isInside he houter
      have hfirst := h.first d hd
      by_cases hde : d = e
      · exact hde ▸ hd
      · have hsymm : Std.Symm fun a b : Edit => a.range ≠ b.range := ⟨fun _ _ h => h.symm⟩
        exact absurd hrange (hdistinct.forall (h.mem_offered hd) he hde)
  · refine (h.starts_ne hl).imp ?_
    rintro a b hne rfl
    exact hne rfl

/-! ## 4. Applying what is left -/

theorem Outermost.inOrder (h : Outermost offered ed) (hl : Laminar offered) : ed.InOrder := by
  have hapart : ed.sorted.Pairwise fun a b => a.range.overlaps b.range = false :=
    ed.sorted_perm.symm.pairwise h.apart fun hab => by rw [Range.overlaps_comm]; exact hab
  refine List.Pairwise.imp_of_mem ?_ (ed.sorted_pairwise.and hapart)
  rintro a b ha hb ⟨hle, hapart⟩
  have hnonempty := hl.nonempty b (h.mem_offered (mem_sorted.1 hb))
  rw [Range.overlaps_eq_false_iff] at hapart
  omega

/-- Of replacements that start at different positions the order does not matter. -/
theorem provenance_perm {text : Text} {es fs : List Edit} (hperm : es.Perm fs)
    (hstarts : es.Pairwise fun a b => a.range.start ≠ b.range.start) :
    provenance text es = provenance text fs := by
  refine provenance_congr fun k => ?_
  have hperm := hperm.filter fun e => e.range.start = k
  -- at most one replacement starts at a position, so that there is no order to change
  cases hone : es.filter fun e => e.range.start = k with
  | nil => rw [hone] at hperm; exact hperm.nil_eq
  | cons a rest =>
    have hpair := hstarts.filter fun e => e.range.start = k
    have hrest : rest = [] := by
      rw [List.eq_nil_iff_forall_not_mem]
      intro b hb
      have hstart : ∀ c ∈ es.filter fun e => e.range.start = k, c.range.start = k :=
        fun c hc => of_decide_eq_true (List.mem_filter.1 hc).2
      rw [hone] at hpair hstart
      have hne := (List.pairwise_cons.1 hpair).1 b hb
      rw [hstart a List.mem_cons_self, hstart b (List.mem_cons_of_mem _ hb)] at hne
      exact hne rfl
    rw [hone, hrest] at hperm
    rw [hrest]
    exact (List.perm_singleton.1 hperm.symm).symm

/-- Applying what is left of nested replacements for different ranges makes the text in which the outermost
ones are spliced. -/
theorem Outermost.apply_eq (h : Outermost offered ed) (hl : Laminar offered)
    (hdistinct : offered.Pairwise fun a b => a.range ≠ b.range)
    (hfits : ∀ e ∈ offered, e.Fits ed.text) :
    ∃ edited, ed.apply = .ok edited ∧ edited.text = spliced ed.text (outermost offered) ∧
      edited.applied = (outermost offered).length := by
  have hperm := h.perm hl hdistinct
  obtain ⟨edited, hok, htext, happlied⟩ :=
    apply_eq_spliced (fun e he => hfits e (h.mem_offered he)) (h.inOrder hl)
  refine ⟨edited, hok, ?_, ?_⟩
  · rw [htext]
    unfold spliced
    rw [provenance_perm hperm (h.starts_ne hl)]
  · rw [happlied, hperm.length_eq]

end Editor

end AssetEmbed
