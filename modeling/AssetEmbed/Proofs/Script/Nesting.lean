import AssetEmbed.Edit
import AssetEmbed.Proofs.Script.FormedScript
import AssetEmbed.Script.Match

/-!
# Nesting — how the calls of a script lie in it

Every tree within a script covers a range of it.  Of two marker calls the later one lies behind the earlier
one or strictly within it: a call begins with the name that is called, and its arguments come after that.
-/

namespace AssetEmbed.Script

namespace Tree

/-! ## 1. Bounds -/

def Placed.range (p : Placed) : Range := ⟨p.offset, p.stop, Int.ofNat_le.2 p.offset_le_stop⟩

mutual

theorem descend_bounds (offset : Nat) (t : Tree) :
    ∀ q ∈ descend offset t, offset ≤ q.offset ∧ q.stop ≤ offset + t.text.length := by
  intro q hq
  match t with
  | .blank _ | .token _ | .leaf _ _ =>
    simp only [descend, List.mem_singleton] at hq
    subst hq
    exact ⟨Nat.le_refl _, Nat.le_refl _⟩
  | .node kind children =>
    simp only [descend, List.mem_cons] at hq
    rcases hq with rfl | hq
    · exact ⟨Nat.le_refl _, Nat.le_refl _⟩
    · exact descendList_bounds offset children q hq

theorem descendList_bounds (offset : Nat) (ts : List Tree) :
    ∀ q ∈ descendList offset ts,
      offset ≤ q.offset ∧ q.stop ≤ offset + (textOfList ts).length := by
  intro q hq
  match ts with
  | [] => simp [descendList] at hq
  | t :: ts =>
    simp only [descendList, List.mem_append] at hq
    simp only [textOfList, List.length_append]
    rcases hq with hq | hq
    · have := descend_bounds offset t q hq
      omega
    · have := descendList_bounds (offset + t.text.length) ts q hq
      omega

end

mutual

theorem descend_isInfix (offset : Nat) (t : Tree) :
    ∀ q ∈ descend offset t, q.tree.text <:+: t.text := by
  intro q hq
  match t with
  | .blank _ | .token _ | .leaf _ _ =>
    simp only [descend, List.mem_singleton] at hq
    subst hq
    exact List.infix_rfl
  | .node kind children =>
    simp only [descend, List.mem_cons] at hq
    rcases hq with rfl | hq
    · exact List.infix_rfl
    · exact descendList_isInfix offset children q hq

theorem descendList_isInfix (offset : Nat) (ts : List Tree) :
    ∀ q ∈ descendList offset ts, q.tree.text <:+: textOfList ts := by
  intro q hq
  match ts with
  | [] => simp [descendList] at hq
  | t :: ts =>
    simp only [descendList, List.mem_append] at hq
    rcases hq with hq | hq
    · exact (descend_isInfix offset t q hq).trans (List.prefix_append _ _).isInfix
    · exact (descendList_isInfix _ ts q hq).trans (List.suffix_append _ _).isInfix

end

theorem descendList_append (offset : Nat) (ts us : List Tree) :
    descendList offset (ts ++ us) = descendList offset ts ++ descendList (offset + (textOfList ts).length) us := by
  induction ts generalizing offset with
  | nil => rfl
  | cons t ts ih =>
    rw [List.cons_append, descendList, descendList, ih, List.append_assoc, textOfList, List.length_append,
      Nat.add_assoc]

theorem text_isInfix_of_mem {t : Tree} {ts : List Tree} (h : t ∈ ts) : t.text <:+: textOfList ts := by
  obtain ⟨us, vs, rfl⟩ := List.append_of_mem h
  exact ⟨textOfList us, textOfList vs, by simp [textOfList_append, textOfList]⟩

mutual

theorem descend_forall {P : Tree → Prop} (hP : ∀ kind children, P (.node kind children) → ∀ t ∈ children, P t)
    (offset : Nat) {t : Tree} (ht : P t) : ∀ q ∈ descend offset t, P q.tree := by
  intro q hq
  match t with
  | .blank _ | .token _ | .leaf _ _ =>
    simp only [descend, List.mem_singleton] at hq
    subst hq
    exact ht
  | .node kind children =>
    simp only [descend, List.mem_cons] at hq
    rcases hq with rfl | hq
    · exact ht
    · exact descendList_forall hP offset (hP kind children ht) q hq

theorem descendList_forall {P : Tree → Prop} (hP : ∀ kind children, P (.node kind children) → ∀ t ∈ children, P t)
    (offset : Nat) {ts : List Tree} (hts : ∀ t ∈ ts, P t) : ∀ q ∈ descendList offset ts, P q.tree := by
  intro q hq
  match ts with
  | [] => simp [descendList] at hq
  | t :: ts =>
    simp only [descendList, List.mem_append] at hq
    rcases hq with hq | hq
    · exact descend_forall hP offset (hts t List.mem_cons_self) q hq
    · exact descendList_forall hP _ (fun u hu => hts u (List.mem_cons_of_mem _ hu)) q hq

end

theorem descend_solid (offset : Nat) (t : Tree) (ht : t.Solid) : ∀ q ∈ descend offset t, q.tree.Solid :=
  descend_forall (P := Solid) (fun _ _ h => allSolid_iff.1 h) offset ht

theorem descend_formed (offset : Nat) (t : Tree) (ht : t.Formed) : ∀ q ∈ descend offset t, q.tree.Formed :=
  descend_forall (P := Formed) (fun _ _ h => allFormed_iff.1 h.2) offset ht

mutual

theorem descend_pairwise (offset : Nat) (t : Tree) :
    (descend offset t).Pairwise fun p q => p.stop ≤ q.offset ∨ q ∈ descendList p.offset p.tree.children := by
  match t with
  | .blank _ | .token _ | .leaf _ _ => exact List.pairwise_singleton _ _
  | .node kind children => exact List.pairwise_cons.2 ⟨fun _ => .inr, descendList_pairwise offset children⟩

theorem descendList_pairwise (offset : Nat) (ts : List Tree) :
    (descendList offset ts).Pairwise fun p q => p.stop ≤ q.offset ∨ q ∈ descendList p.offset p.tree.children := by
  match ts with
  | [] => exact List.Pairwise.nil
  | t :: ts =>
    refine List.pairwise_append.2 ⟨descend_pairwise offset t, descendList_pairwise _ ts, ?_⟩
    intro p hp q hq
    exact .inl (Nat.le_trans (descend_bounds offset t p hp).2 (descendList_bounds _ ts q hq).1)

end

/-- Where a tree lies as against an earlier one: behind it, or strictly within it. -/
def Placed.Precedes (p q : Placed) : Prop :=
  p.stop ≤ q.offset ∨ (p.offset < q.offset ∧ q.stop ≤ p.stop)

end Tree

open AssetEmbed.Script.Tree

namespace Source

variable {m : Source}

/-! ## 2. Marker calls -/

/-- The first part of a marker call, after blanks and comments, is the name of the marker. -/
theorem isMarkerCall_shape {t : Tree} (h : m.isMarkerCall t) :
    ∃ before rest, t = .node .callExpression (before ++ .leaf .identifier m.marker :: rest) ∧
      ∀ u ∈ before, u.isTrivia := by
  unfold isMarkerCall at h
  rw [Bool.and_eq_true] at h
  obtain ⟨hkind, hcallee⟩ := h
  split at hcallee
  next name hhead =>
    have hname : name = m.marker := of_decide_eq_true hcallee
    subst hname
    unfold parts at hhead
    rw [List.head?_filter, List.find?_eq_some_iff_append] at hhead
    -- the first part is the first child that is no blank and no comment
    obtain ⟨-, before, rest, hchildren, hbefore⟩ := hhead
    refine ⟨before, rest, ?_, ?_⟩
    · cases t with
      | blank _ => simp [children] at hchildren
      | token _ => simp [children] at hchildren
      | leaf _ _ => simp [children] at hchildren
      | node kind children =>
        have hkind : kind = .callExpression := by simpa [isKind, kind?] using hkind
        have hchildren : children = before ++ .leaf .identifier m.marker :: rest := hchildren
        rw [hkind, hchildren]
    · intro u hu
      have := hbefore u hu
      simpa using this
  next => exact absurd hcallee (by decide)

theorem not_isMarkerCall_of_isTrivia {t : Tree} (ht : t.isTrivia) (offset : Nat) :
    (descend offset t).filter (fun p => m.isMarkerCall p.tree) = [] := by
  unfold isTrivia at ht
  split at ht <;> first | rfl | exact absurd ht (by decide)

theorem filter_descendList_trivia {ts : List Tree} (hts : ∀ t ∈ ts, t.isTrivia) (offset : Nat) :
    (descendList offset ts).filter (fun p => m.isMarkerCall p.tree) = [] := by
  induction ts generalizing offset with
  | nil => rfl
  | cons t ts ih =>
    rw [descendList, List.filter_append, not_isMarkerCall_of_isTrivia (hts t List.mem_cons_self),
      ih fun u hu => hts u (List.mem_cons_of_mem _ hu)]
    rfl

theorem isMarkerCall_text {t : Tree} (h : m.isMarkerCall t) (ht : t.Solid) :
    m.marker <:+: t.text ∧ 0 < m.marker.length := by
  obtain ⟨before, rest, rfl, -⟩ := isMarkerCall_shape h
  have hmem : .leaf .identifier m.marker ∈ before ++ .leaf .identifier m.marker :: rest := by simp
  have hsolid : Solid (.leaf .identifier m.marker) := allSolid_iff.1 ht _ hmem
  exact ⟨text_isInfix_of_mem hmem, List.length_pos_iff.2 hsolid⟩

theorem lt_offset_of_mem {kind : Kind} {children : List Tree} {offset : Nat}
    (h : m.isMarkerCall (.node kind children)) (hsolid : AllSolid children) :
    ∀ q ∈ (descendList offset children).filter (fun p => m.isMarkerCall p.tree),
      offset < q.offset := by
  intro q hq
  have hmarker := (isMarkerCall_text h hsolid).2
  obtain ⟨before, rest, heq, hbefore⟩ := isMarkerCall_shape h
  obtain ⟨-, rfl⟩ : kind = .callExpression ∧ children = before ++ .leaf .identifier m.marker :: rest := by
    simpa using heq
  -- neither what stands before the name nor the name itself is a call
  rw [descendList_append, List.filter_append, filter_descendList_trivia hbefore, List.nil_append, descendList,
    List.filter_append] at hq
  have hname : ∀ o, (descend o (.leaf .identifier m.marker)).filter
      (fun p => m.isMarkerCall p.tree) = [] := fun _ => rfl
  rw [hname, List.nil_append] at hq
  have hbounds := descendList_bounds _ rest q (List.mem_filter.1 hq).1
  simp only [Tree.text] at hbounds
  omega

/-- Of two marker calls within a tree the later one lies behind the earlier one or strictly within it. -/
theorem descend_precedes (offset : Nat) (t : Tree) (ht : t.Solid) :
    ((descend offset t).filter fun p => m.isMarkerCall p.tree).Pairwise Placed.Precedes := by
  refine ((descend_pairwise offset t).filter _).imp_of_mem ?_
  intro p q hp hq h
  obtain ⟨hp, hmarker⟩ := List.mem_filter.1 hp
  refine h.imp_right fun hwithin => ?_
  obtain ⟨_, tree⟩ := p
  cases tree with
  | blank _ | token _ | leaf _ _ => cases hwithin
  | node kind children =>
    have hsolid := descend_solid offset t ht _ hp
    exact ⟨lt_offset_of_mem hmarker hsolid q (List.mem_filter.2 ⟨hwithin, (List.mem_filter.1 hq).2⟩),
      (descendList_bounds _ children q hwithin).2⟩

/-! ## 3. Calls that are understood -/

theorem markerCall_range {p : Placed} {call : MarkerCall} (h : m.markerCall p = .ok call) :
    call.start = p.offset ∧ call.stop = p.stop := by
  unfold markerCall at h
  split at h
  next => cases h; exact ⟨rfl, rfl⟩
  next => cases h

theorem markerCalls_eq_filterMap (script : Tree) :
    (m.markerCalls script).1 = (m.placedCalls script).filterMap fun p => (m.markerCall p).toOption := by
  show ((m.placedCalls script).map m.markerCall).filterMap _ = _
  rw [List.filterMap_map]
  congr 1
  funext p
  simp only [Function.comp_apply]
  cases m.markerCall p <;> rfl

theorem markerCall_of_toOption {p : Placed} {call : MarkerCall} (h : (m.markerCall p).toOption = some call) :
    m.markerCall p = .ok call := by
  cases hm : m.markerCall p with
  | ok _ => rw [hm] at h; cases h; rfl
  | error _ => rw [hm] at h; cases h

theorem exists_placed_of_mem {script : Tree} {call : MarkerCall}
    (h : call ∈ (m.markerCalls script).1) :
    ∃ p ∈ script.descend 0, m.isMarkerCall p.tree ∧ m.markerCall p = .ok call := by
  rw [markerCalls_eq_filterMap, List.mem_filterMap] at h
  obtain ⟨p, hp, hcall⟩ := h
  obtain ⟨hp, hmarker⟩ := List.mem_filter.1 hp
  exact ⟨p, hp, hmarker, markerCall_of_toOption hcall⟩

theorem markerCalls_bounds {script : Tree} (hsolid : script.Solid) :
    ∀ call ∈ (m.markerCalls script).1,
      call.start < call.stop ∧ call.stop ≤ script.text.length := by
  intro call hcall
  obtain ⟨p, hp, hmarker, hok⟩ := exists_placed_of_mem hcall
  obtain ⟨hstart, hstop⟩ := markerCall_range hok
  have hbounds := descend_bounds 0 script p hp
  have hmarker := isMarkerCall_text hmarker (descend_solid 0 script hsolid p hp)
  have hlength := hmarker.1.length_le
  rw [hstart, hstop]
  unfold Placed.stop at hbounds ⊢
  omega

theorem markerCalls_eq_nil {script : Tree} (hsolid : script.Solid) (h : ¬ m.marker <:+: script.text) :
    (m.markerCalls script).1 = [] := by
  rw [List.eq_nil_iff_forall_not_mem]
  intro call hcall
  obtain ⟨p, hp, hmarker, -⟩ := exists_placed_of_mem hcall
  have htext := (isMarkerCall_text hmarker (descend_solid 0 script hsolid p hp)).1
  exact h (htext.trans (descend_isInfix 0 script p hp))

theorem markerCalls_precede {script : Tree} (hsolid : script.Solid) :
    (m.markerCalls script).1.Pairwise fun a b =>
      a.stop ≤ b.start ∨ (a.start < b.start ∧ b.stop ≤ a.stop) := by
  rw [markerCalls_eq_filterMap, List.pairwise_filterMap]
  refine (descend_precedes 0 script hsolid).imp ?_
  intro p q hpq a ha b hb
  obtain ⟨hstart, hstop⟩ := markerCall_range (markerCall_of_toOption ha)
  obtain ⟨hstart', hstop'⟩ := markerCall_range (markerCall_of_toOption hb)
  rw [hstart, hstop, hstart', hstop']
  exact hpq

end Source

end AssetEmbed.Script
