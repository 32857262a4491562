import AssetEmbed.Proofs.Outermost
import AssetEmbed.Proofs.Script.Nesting

/-!
# Substitution — a tree with other trees in the place of some constructs

Substituting in a tree changes its text in the same way as splicing the texts of the new trees over the
ranges of the constructs they take the place of.  Constructs within one that is replaced are gone with it,
so the ranges are the outermost ones.
-/

namespace AssetEmbed

/-! ## 1. Weaving piece by piece -/

theorem Text.slice_append_slice {s : Text} {i j k : Int} (h0 : 0 ≤ i) (hij : i ≤ j) (hjk : j ≤ k)
    (hk : k ≤ s.length) : s.slice i k = s.slice i j ++ s.slice j k := by
  rw [slice_eq_take_drop h0 (by omega) hk, slice_eq_take_drop h0 hij (by omega),
    slice_eq_take_drop (by omega) hjk hk]
  have hsplit : k.toNat - i.toNat = (j.toNat - i.toNat) + (k.toNat - j.toNat) := by omega
  have hdrop : i.toNat + (j.toNat - i.toNat) = j.toNat := by omega
  rw [hsplit, List.take_add, List.drop_drop, hdrop]

theorem Text.slice_middle (before s after : Text) :
    (before ++ s ++ after).slice before.length (before.length + s.length : Nat) = s := by
  have hlength : before.length + s.length ≤ (before ++ s ++ after).length := by
    simp only [List.length_append]
    omega
  have htake : ((before.length + s.length : Nat) : Int).toNat - ((before.length : Nat) : Int).toNat =
      s.length := by
    omega
  rw [slice_eq_take_drop (by omega) (by omega) (by omega), htake, Int.toNat_natCast, List.append_assoc,
    List.drop_left, List.take_left]

theorem Ordered.le {text : Text} {i j : Int} {es : List Edit} (h0 : 0 ≤ i) (hij : i ≤ j)
    (h : Ordered text j es) : Ordered text i es := by
  cases es with
  | nil => exact ⟨h0, Int.le_trans hij h.2⟩
  | cons e es => exact ⟨h0, Int.le_trans hij h.2.1, h.2.2⟩

theorem weave_from {text : Text} {i j : Int} {es : List Edit} (h0 : 0 ≤ i) (hij : i ≤ j)
    (h : Ordered text j es) : weave text i es = text.slice i j ++ weave text j es := by
  have hj := h.bounds
  cases es with
  | nil =>
    unfold weave
    exact Text.slice_append_slice h0 hij hj.2 (Int.le_refl _)
  | cons e es =>
    have hstop := h.2.2.bounds
    have hle := e.range.start_le_stop
    unfold weave
    rw [Text.slice_append_slice h0 hij h.2.1 (by omega), List.append_assoc, List.append_assoc,
      List.append_assoc]

namespace Script.Tree

/-! ## 2. Substitution -/

def Placed.editTo (p : Placed) (t : Tree) : Edit := ⟨p.range, t.text⟩

section

variable (f : Placed → Option Tree)

mutual

def substitute (offset : Nat) : Tree → Tree
  | .node kind children =>
    match f ⟨offset, .node kind children⟩ with
    | some t => t
    | none => .node kind (substituteList offset children)
  | t => t

def substituteList (offset : Nat) : List Tree → List Tree
  | [] => []
  | t :: ts => substitute offset t :: substituteList (offset + t.text.length) ts

end

mutual

/-- The replacements that a substitution makes. -/
def substitutions (offset : Nat) : Tree → List Edit
  | .node kind children =>
    match f ⟨offset, .node kind children⟩ with
    | some t => [Placed.editTo ⟨offset, .node kind children⟩ t]
    | none => substitutionsList offset children
  | _ => []

def substitutionsList (offset : Nat) : List Tree → List Edit
  | [] => []
  | t :: ts => substitutions offset t ++ substitutionsList (offset + t.text.length) ts

end

/-! ## 3. The text of a substitution -/

/-- A piece of a text and what is woven behind it, as one. -/
structure Weaves (text : Text) (offset : Nat) (old : Text) (edits : List Edit) (new : Text) : Prop where
  ordered : ∀ {later}, Ordered text (offset + old.length : Nat) later → Ordered text offset (edits ++ later)
  weave : ∀ {later}, Ordered text (offset + old.length : Nat) later →
    weave text offset (edits ++ later) = new ++ weave text (offset + old.length : Nat) later

theorem weaves_kept (before s after : Text) :
    Weaves (before ++ s ++ after) before.length s [] s where
  ordered h := h.le (by omega) (by omega)
  weave h := by
    rw [List.nil_append, weave_from (by omega) (by omega) h, Text.slice_middle]

theorem weaves_replaced (before s after new : Text) {e : Edit} (hstart : e.range.start = before.length)
    (hstop : e.range.stop = (before.length + s.length : Nat)) (hnew : e.replacement = new) :
    Weaves (before ++ s ++ after) before.length s [e] new where
  ordered h := by
    rw [← hstop] at h
    exact ⟨by omega, by omega, h⟩
  weave {later} h := by
    have hlength : before.length ≤ (before ++ s ++ after).length := by
      simp only [List.length_append]
      omega
    have hempty : (before ++ s ++ after).slice before.length before.length = [] := by
      rw [slice_eq_take_drop (by omega) (by omega) (by omega), Nat.sub_self, List.take_zero]
    show (before ++ s ++ after).slice before.length e.range.start ++ e.replacement ++
      AssetEmbed.weave _ e.range.stop later = _
    rw [hstart, hstop, hnew, hempty, List.nil_append]

theorem Weaves.append {text old old' new new' : Text} {offset : Nat} {es es' : List Edit}
    (h : Weaves text offset old es new) (h' : Weaves text (offset + old.length) old' es' new') :
    Weaves text offset (old ++ old') (es ++ es') (new ++ new') where
  ordered {later} hlater := by
    rw [List.length_append, ← Nat.add_assoc] at hlater
    rw [List.append_assoc]
    exact h.ordered (h'.ordered hlater)
  weave {later} hlater := by
    rw [List.length_append, ← Nat.add_assoc] at hlater ⊢
    rw [List.append_assoc, h.weave (h'.ordered hlater), h'.weave hlater, List.append_assoc]

mutual

theorem substitute_weaves (t : Tree) (before after : Text) :
    Weaves (before ++ t.text ++ after) before.length t.text (substitutions f before.length t)
      (substitute f before.length t).text := by
  match t with
  | .blank _ | .token _ | .leaf _ _ => exact weaves_kept before _ after
  | .node kind children =>
    unfold substitutions substitute
    split
    next t _ => exact weaves_replaced before _ after t.text rfl rfl rfl
    next => exact substituteList_weaves children before after

theorem substituteList_weaves (ts : List Tree) (before after : Text) :
    Weaves (before ++ textOfList ts ++ after) before.length (textOfList ts)
      (substitutionsList f before.length ts) (textOfList (substituteList f before.length ts)) := by
  match ts with
  | [] => exact weaves_kept before [] after
  | t :: ts =>
    have hfirst := substitute_weaves t before (textOfList ts ++ after)
    have hrest := substituteList_weaves ts (before ++ t.text) after
    rw [List.length_append, List.append_assoc before] at hrest
    rw [← List.append_assoc, List.append_assoc before] at hfirst
    exact hfirst.append hrest

end

/-- A substitution makes the text in which its replacements are spliced. -/
theorem substitute_text (t : Tree) :
    (substitute f 0 t).text = spliced t.text (substitutions f 0 t) := by
  have hweaves := substitute_weaves f t [] []
  simp only [List.nil_append, List.append_nil, List.length_nil] at hweaves
  have hend : Ordered t.text (0 + t.text.length : Nat) [] := ⟨by omega, by omega⟩
  have hordered := hweaves.ordered hend
  have hwoven := hweaves.weave hend
  have hlast : weave t.text (0 + t.text.length : Nat) [] = [] := by
    unfold AssetEmbed.weave
    rw [slice_eq_take_drop (by omega) (by omega) (by omega)]
    simp
  rw [List.append_nil] at hordered hwoven
  rw [hlast, List.append_nil] at hwoven
  rw [← hwoven]
  exact weave_eq_spliced hordered

/-! ## 4. Replacements of everything, and the outermost ones -/

def replacements (offset : Nat) (t : Tree) : List Edit :=
  (descend offset t).filterMap fun p => (f p).map p.editTo

def replacementsList (offset : Nat) (ts : List Tree) : List Edit :=
  (descendList offset ts).filterMap fun p => (f p).map p.editTo

/-- The replacements among some that are not within a wider one of others. -/
def outerAmong (others edits : List Edit) : List Edit :=
  edits.filter fun e => others.all fun x => !e.range.isInside x.range

theorem replacementsList_cons (offset : Nat) (t : Tree) (ts : List Tree) :
    replacementsList f offset (t :: ts) =
      replacements f offset t ++ replacementsList f (offset + t.text.length) ts := by
  unfold replacementsList replacements
  rw [descendList, List.filterMap_append]

variable {f}

theorem replacements_bounds {offset : Nat} {t : Tree} {e : Edit} (h : e ∈ replacements f offset t) :
    (offset : Int) ≤ e.range.start ∧ e.range.stop ≤ (offset + t.text.length : Nat) := by
  obtain ⟨p, hp, hedit⟩ := List.mem_filterMap.1 h
  obtain ⟨u, -, rfl⟩ := Option.map_eq_some_iff.1 hedit
  have hbounds := descend_bounds offset t p hp
  exact ⟨Int.ofNat_le.2 hbounds.1, Int.ofNat_le.2 hbounds.2⟩

theorem replacementsList_bounds {offset : Nat} {ts : List Tree} {e : Edit}
    (h : e ∈ replacementsList f offset ts) :
    (offset : Int) ≤ e.range.start ∧ e.range.stop ≤ (offset + (textOfList ts).length : Nat) := by
  obtain ⟨p, hp, hedit⟩ := List.mem_filterMap.1 h
  obtain ⟨u, -, rfl⟩ := Option.map_eq_some_iff.1 hedit
  have hbounds := descendList_bounds offset ts p hp
  exact ⟨Int.ofNat_le.2 hbounds.1, Int.ofNat_le.2 hbounds.2⟩

/-- No range between two positions is within one of some replacements. -/
def Clear (others : List Edit) (i j : Nat) : Prop :=
  ∀ x ∈ others, ∀ r : Range, r.start < r.stop → (i : Int) ≤ r.start → r.stop ≤ j →
    r.isInside x.range = false

theorem Clear.mono {others : List Edit} {i j i' j' : Nat} (h : Clear others i j) (hi : i ≤ i')
    (hj : j' ≤ j) : Clear others i' j' := by
  intro x hx r hr hstart hstop
  exact h x hx r hr (by omega) (by omega)

theorem Clear.append {xs ys : List Edit} {i j : Nat} (hx : Clear xs i j) (hy : Clear ys i j) :
    Clear (xs ++ ys) i j := by
  intro x h
  rcases List.mem_append.1 h with h | h
  · exact hx x h
  · exact hy x h

theorem clear_of_apart {others : List Edit} {i j : Nat}
    (h : ∀ x ∈ others, (j : Int) ≤ x.range.start ∨ x.range.stop ≤ i) : Clear others i j := by
  intro x hx r hr hstart hstop
  rw [Range.isInside, Bool.and_eq_false_iff]
  left
  rw [← Bool.not_eq_true, Range.contains_iff]
  have := h x hx
  omega

theorem outerAmong_congr {xs ys : List Edit} (h : ∀ x, x ∈ xs ↔ x ∈ ys) (es : List Edit) :
    outerAmong xs es = outerAmong ys es := by
  unfold outerAmong
  congr 1
  funext e
  rw [Bool.eq_iff_iff, List.all_eq_true, List.all_eq_true]
  exact ⟨fun hx x hmem => hx x ((h x).2 hmem), fun hy x hmem => hy x ((h x).1 hmem)⟩

/-- A replacement that nothing else is around hides all those within it. -/
theorem outerAmong_cons {others es : List Edit} {e : Edit}
    (hfree : ∀ x ∈ others, e.range.isInside x.range = false)
    (hwithin : ∀ x ∈ es, e.range.start < x.range.start ∧ x.range.stop ≤ e.range.stop) :
    outerAmong (others ++ e :: es) (e :: es) = [e] := by
  have hself : e.range.isInside e.range = false := by simp [Range.isInside]
  have hinner : ∀ x ∈ es, e.range.isInside x.range = false := by
    intro x hx
    rw [Range.isInside, Bool.and_eq_false_iff]
    left
    rw [← Bool.not_eq_true, Range.contains_iff]
    have := hwithin x hx
    omega
  have hhidden : ∀ x ∈ es, x.range.isInside e.range = true := by
    intro x hx
    have := hwithin x hx
    rw [Range.isInside, Bool.and_eq_true, Range.contains_iff, decide_eq_true_eq]
    refine ⟨by omega, fun heq => ?_⟩
    rw [heq] at this
    omega
  -- the first one stays, since none of them is around it; it is around each of the others
  unfold outerAmong
  rw [List.filter_cons_of_pos, List.filter_eq_nil_iff.2]
  · intro x hx hall
    have hout := List.all_eq_true.1 hall e (by simp)
    rw [hhidden x hx] at hout
    cases hout
  · rw [List.all_eq_true]
    intro x hx
    rcases List.mem_append.1 hx with hx | hx
    · rw [hfree x hx]
      rfl
    · rcases List.mem_cons.1 hx with rfl | hx
      · rw [hself]
        rfl
      · rw [hinner x hx]
        rfl

variable {m : Source}

theorem eq_none_of_not_node (hf : ∀ p t, f p = some t → m.isMarkerCall p.tree) {p : Placed}
    (hp : ∀ kind children, p.tree ≠ .node kind children) : f p = none := by
  by_contra hne
  obtain ⟨t, ht⟩ := Option.ne_none_iff_exists'.1 hne
  obtain ⟨before, rest, heq, -⟩ := Source.isMarkerCall_shape (hf p t ht)
  exact hp _ _ heq

theorem start_lt_of_mem_replacementsList (hf : ∀ p t, f p = some t → m.isMarkerCall p.tree)
    {kind : Kind} {children : List Tree} {offset : Nat} (hmarker : m.isMarkerCall (.node kind children))
    (hsolid : AllSolid children) {e : Edit} (h : e ∈ replacementsList f offset children) :
    (offset : Int) < e.range.start := by
  obtain ⟨p, hp, hedit⟩ := List.mem_filterMap.1 h
  obtain ⟨u, hu, rfl⟩ := Option.map_eq_some_iff.1 hedit
  have hmem : p ∈ (descendList offset children).filter fun p => m.isMarkerCall p.tree :=
    List.mem_filter.2 ⟨hp, hf p u hu⟩
  exact Int.ofNat_lt.2 (Source.lt_offset_of_mem hmarker hsolid p hmem)

mutual

/-- The replacements of a substitution are the outermost ones of those it could make. -/
theorem outerAmong_replacements (hf : ∀ p t, f p = some t → m.isMarkerCall p.tree) (t : Tree)
    (hsolid : t.Solid) (offset : Nat) (others : List Edit)
    (hclear : Clear others offset (offset + t.text.length)) :
    outerAmong (others ++ replacements f offset t) (replacements f offset t) =
      substitutions f offset t := by
  match t with
  | .blank _ | .token _ | .leaf _ _ =>
    unfold replacements descend substitutions
    rw [List.filterMap_cons_none (by rw [eq_none_of_not_node hf (by simp)]; rfl)]
    rfl
  | .node kind children =>
    have hlist : replacements f offset (.node kind children) =
        ((f ⟨offset, .node kind children⟩).map (Placed.editTo ⟨offset, .node kind children⟩)).toList ++
          replacementsList f offset children := by
      unfold replacements replacementsList
      rw [descend, List.filterMap_cons]
      cases f ⟨offset, .node kind children⟩ <;> rfl
    rw [hlist]
    unfold substitutions
    split
    next u hu =>
      -- the construct itself is replaced, and everything else that could be lies within it
      have hmarker := hf _ _ hu
      have hlength : 0 < (Tree.node kind children).text.length :=
        Nat.lt_of_lt_of_le (Source.isMarkerCall_text hmarker hsolid).2
          (Source.isMarkerCall_text hmarker hsolid).1.length_le
      rw [hu]
      refine outerAmong_cons ?_ ?_
      · intro x hx
        refine hclear x hx _ ?_ (Int.le_refl _) (Int.le_refl _)
        exact Int.ofNat_lt.2 (Nat.lt_add_of_pos_right hlength)
      · intro x hx
        exact ⟨start_lt_of_mem_replacementsList hf hmarker hsolid hx, (replacementsList_bounds hx).2⟩
    next hnone =>
      rw [hnone]
      exact outerAmong_replacementsList hf children hsolid offset others hclear

theorem outerAmong_replacementsList (hf : ∀ p t, f p = some t → m.isMarkerCall p.tree) (ts : List Tree)
    (hsolid : AllSolid ts) (offset : Nat) (others : List Edit)
    (hclear : Clear others offset (offset + (textOfList ts).length)) :
    outerAmong (others ++ replacementsList f offset ts) (replacementsList f offset ts) =
      substitutionsList f offset ts := by
  match ts with
  | [] => rfl
  | t :: ts =>
    rw [textOfList, List.length_append] at hclear
    have hfirst : Clear (others ++ replacementsList f (offset + t.text.length) ts) offset
        (offset + t.text.length) := by
      refine (hclear.mono (by omega) (by omega)).append (clear_of_apart fun x hx => .inl ?_)
      exact (replacementsList_bounds hx).1
    have hrest : Clear (others ++ replacements f offset t) (offset + t.text.length)
        (offset + t.text.length + (textOfList ts).length) := by
      refine (hclear.mono (by omega) (by omega)).append (clear_of_apart fun x hx => .inr ?_)
      exact (replacements_bounds hx).2
    have hfirst := outerAmong_replacements hf t hsolid.1 offset _ hfirst
    have hrest := outerAmong_replacementsList hf ts hsolid.2 (offset + t.text.length) _ hrest
    rw [replacementsList_cons, substitutionsList, ← hfirst, ← hrest]
    -- both parts have the same replacements around them
    have hsame : ∀ es, outerAmong (others ++ replacementsList f (offset + t.text.length) ts ++
        replacements f offset t) es = outerAmong (others ++ (replacements f offset t ++
        replacementsList f (offset + t.text.length) ts)) es := by
      refine outerAmong_congr fun x => ?_
      simp only [List.mem_append]
      tauto
    rw [hsame, List.append_assoc]
    exact List.filter_append ..

end

/-- Substituting for marker calls makes the text in which the outermost replacements are spliced. -/
theorem substitute_text_eq_spliced (hf : ∀ p t, f p = some t → m.isMarkerCall p.tree) {t : Tree}
    (hsolid : t.Solid) :
    (substitute f 0 t).text = spliced t.text (Editor.outermost (replacements f 0 t)) := by
  have hclear : Clear [] 0 (0 + t.text.length) := by
    intro x hx
    cases hx
  have houter := outerAmong_replacements hf t hsolid 0 [] hclear
  rw [substitute_text, ← houter]
  rfl

end

end Script.Tree

end AssetEmbed
