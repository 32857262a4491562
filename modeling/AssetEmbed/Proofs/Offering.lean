import AssetEmbed.Proofs.Applying
import AssetEmbed.Proofs.Sequencing

/-!
# Offering — the order of offers

Which of several nested replacements are absorbed, and which are refused, depends on the order in which they are
offered.  What is left does not: in every order these are the outermost ranges.
-/

namespace AssetEmbed

namespace Editor

variable {ed ed' : Editor} {es fs offered : List Edit}

/-! ## 1. Misfits -/

def Misfit.unnumbered : Misfit → Misfit
  | .negativeStart _ start => .negativeStart 0 start
  | .stopBeyondText _ stop length => .stopBeyondText 0 stop length

theorem map_unnumbered_misfits (e : Edit) (length index : Nat) :
    (e.misfits length index).map Misfit.unnumbered = e.misfits length 0 := by
  unfold Edit.misfits
  split <;> split <;> rfl

theorem misfits_map_unnumbered (ed : Editor) :
    ed.misfits.map Misfit.unnumbered = ed.edits.flatMap fun e => e.misfits ed.text.length 0 := by
  unfold misfits
  rw [List.map_flatten, List.map_map, ← List.flatMap_def]
  have hzip : (ed.edits.zipIdx.map (·.1)).flatMap (fun e => e.misfits ed.text.length 0) =
      ed.edits.zipIdx.flatMap fun x => x.1.misfits ed.text.length 0 := by
    rw [List.flatMap_map]
  rw [List.zipIdx_map_fst] at hzip
  rw [hzip]
  apply List.flatMap_congr
  intro x _
  exact map_unnumbered_misfits x.1 ed.text.length x.2

/-! ## 2. Applying in another order -/

theorem sorted_eq_of_perm (hperm : ed.edits.Perm ed'.edits)
    (hstarts : ed.edits.Pairwise fun a b => a.range.start ≠ b.range.start) : ed.sorted = ed'.sorted := by
  have hsorted : ed.sorted.Perm ed'.sorted := (ed.sorted_perm.trans hperm).trans ed'.sorted_perm.symm
  refine hsorted.eq_of_pairwise ?_ ed.sorted_pairwise ed'.sorted_pairwise
  intro a b ha hb hab hba
  by_contra hne
  have hsymm : Std.Symm fun a b : Edit => a.range.start ≠ b.range.start := ⟨fun _ _ h => h.symm⟩
  have hb := hsorted.mem_iff.2 hb
  exact hstarts.forall (mem_sorted.1 ha) (mem_sorted.1 hb) hne (by omega)

/-- Accepted replacements that start at different positions are applied to the same end, whatever their order. -/
theorem agree_apply_of_perm (htext : ed.text = ed'.text) (hperm : ed.edits.Perm ed'.edits)
    (hstarts : ed.edits.Pairwise fun a b => a.range.start ≠ b.range.start) :
    Agree (fun ms ms' => (ms.map Misfit.unnumbered).Perm (ms'.map Misfit.unnumbered)) (· = ·)
      ed.apply ed'.apply := by
  -- misfits are told for each replacement by itself, so only their order differs
  have hmisfits : (ed.misfits.map Misfit.unnumbered).Perm (ed'.misfits.map Misfit.unnumbered) := by
    rw [misfits_map_unnumbered, misfits_map_unnumbered, htext]
    exact hperm.flatMap_right _
  unfold apply
  cases hms : ed.misfits with
  | nil =>
    have hnone : ed'.misfits = [] := by
      rw [hms] at hmisfits
      exact List.map_eq_nil_iff.1 hmisfits.nil_eq.symm
    -- sorting loses the order, and so do the sums of removed and added characters
    have hremoved := (hperm.map (·.range.width)).sum_eq
    have hadded := ((hperm.map (·.replacement)).map List.length).sum_eq
    rw [hnone]
    dsimp only
    rw [sorted_eq_of_perm hperm hstarts, htext, hperm.length_eq, removed_eq_sum, removed_eq_sum, added_eq_sum,
      added_eq_sum, hremoved, hadded]
    exact .ok rfl
  | cons m ms =>
    cases hms' : ed'.misfits with
    | nil =>
      rw [hms, hms'] at hmisfits
      exact absurd hmisfits.eq_nil (List.cons_ne_nil _ _)
    | cons m' ms' =>
      rw [hms, hms'] at hmisfits
      exact .error hmisfits

/-! ## 3. Offers in another order -/

theorem outermost_offers (text : Text) (hl : Laminar es) : Outermost es ((ofText text).offers es) :=
  (outermost_ofText text).offers hl

theorem Outermost.mem_ranges (h : Outermost offered ed) (hl : Laminar offered) (r : Range) :
    r ∈ ed.edits.map (·.range) ↔
      r ∈ offered.map (·.range) ∧ ∀ x ∈ offered, r.isInside x.range = false := by
  constructor
  · intro hr
    obtain ⟨d, hd, rfl⟩ := List.mem_map.1 hr
    exact ⟨List.mem_map_of_mem (h.mem_offered hd), fun x hx => h.not_isInside hl hd hx⟩
  · intro hr
    obtain ⟨hr, houter⟩ := hr
    obtain ⟨e, he, rfl⟩ := List.mem_map.1 hr
    obtain ⟨d, hd, hrange⟩ := h.exists_of_not_isInside he houter
    exact List.mem_map.2 ⟨d, hd, hrange⟩

theorem Outermost.nodup_ranges (h : Outermost offered ed) (hl : Laminar offered) :
    (ed.edits.map (·.range)).Nodup := by
  apply List.pairwise_map.2
  apply (h.starts_ne hl).imp
  intro a b hne heq
  exact hne (congrArg Range.start heq)

theorem outermost_perm (hperm : es.Perm fs) : (outermost es).Perm (outermost fs) := by
  have hall : (fun e : Edit => es.all fun x => !e.range.isInside x.range) =
      fun e => fs.all fun x => !e.range.isInside x.range := by
    funext e
    exact hperm.all_eq
  unfold outermost
  rw [hall]
  exact hperm.filter _

/-- Of nested replacements that are offered for a text the outermost ranges are left, each once and with the
replacement that was offered first for it.  So the same ranges are left in every order; and if all ranges differ,
applying what is left has the same result, or tells the same misfits but for their numbers. -/
theorem offers_leave_outermost (text : Text) (hl : Laminar es) :
    let ed := (ofText text).offers es
    (∀ r, r ∈ ed.edits.map (·.range) ↔
      r ∈ es.map (·.range) ∧ ∀ x ∈ es, r.isInside x.range = false) ∧
    (ed.edits.map (·.range)).Nodup ∧
    (∀ d ∈ ed.edits, (es.find? fun e => e.range = d.range) = some d) ∧
    ∀ fs, es.Perm fs →
      let ed' := (ofText text).offers fs
      (ed.edits.map (·.range)).Perm (ed'.edits.map (·.range)) ∧
      ((es.Pairwise fun a b => a.range ≠ b.range) →
        Agree (fun ms ms' => (ms.map Misfit.unnumbered).Perm (ms'.map Misfit.unnumbered)) (· = ·)
          ed.apply ed'.apply) := by
  intro ed
  have h : Outermost es ed := outermost_offers text hl
  refine ⟨h.mem_ranges hl, h.nodup_ranges hl, h.first, ?_⟩
  intro fs hperm ed'
  have hl' := hl.perm hperm
  have h' : Outermost fs ed' := outermost_offers text hl'
  constructor
  · rw [List.perm_ext_iff_of_nodup (h.nodup_ranges hl) (h'.nodup_ranges hl')]
    intro r
    rw [h.mem_ranges hl, h'.mem_ranges hl', (hperm.map (·.range)).mem_iff]
    simp only [hperm.mem_iff]
  · intro hdistinct
    have hdistinct' : fs.Pairwise fun a b => a.range ≠ b.range := hperm.pairwise hdistinct fun h => h.symm
    have hedits : ed.edits.Perm ed'.edits :=
      ((h.perm hl hdistinct).trans (outermost_perm hperm)).trans (h'.perm hl' hdistinct').symm
    have htext : ed.text = ed'.text := by rw [offers_text, offers_text]
    exact agree_apply_of_perm htext hedits (h.starts_ne hl)

/-- A range, a wider one around it and one behind them. -/
def nestedEdits : List Edit :=
  [⟨⟨1, 2, by decide⟩, ['x']⟩, ⟨⟨0, 3, by decide⟩, ['y']⟩, ⟨⟨4, 5, by decide⟩, ['z']⟩]

theorem offers_leave_outermost_nestedEdits :
    Laminar nestedEdits ∧ (nestedEdits.Pairwise fun a b => a.range ≠ b.range) ∧
      ⟨1, 2, by decide⟩ ∉ ((ofText "abcdef".toList).offers nestedEdits).edits.map (·.range) ∧
      ((ofText "abcdef".toList).offers nestedEdits).apply = .ok ⟨"ydzf".toList, 2, 4, 2⟩ ∧
      ((ofText "abcdef".toList).offers nestedEdits.reverse).apply = .ok ⟨"ydzf".toList, 2, 4, 2⟩ := by
  have hl : Laminar nestedEdits := by
    constructor
    · decide
    · unfold Range.Nests
      decide
  have hdistinct : nestedEdits.Pairwise fun a b => a.range ≠ b.range := by decide
  have happly : ((ofText "abcdef".toList).offers nestedEdits).apply = .ok ⟨"ydzf".toList, 2, 4, 2⟩ := by
    have hsorted : ((ofText "abcdef".toList).offers nestedEdits).sorted =
        ((ofText "abcdef".toList).offers nestedEdits).edits := List.mergeSort_of_pairwise (by decide)
    unfold apply
    rw [hsorted]
    decide
  obtain ⟨hranges, -, -, horder⟩ := offers_leave_outermost "abcdef".toList hl
  refine ⟨hl, hdistinct, ?_, happly, ?_⟩
  · rw [hranges]
    decide
  · have hagree := (horder nestedEdits.reverse (List.reverse_perm _).symm).2 hdistinct
    rw [happly] at hagree
    generalize ((ofText "abcdef".toList).offers nestedEdits.reverse).apply = result at hagree ⊢
    cases hagree with
    | ok heq => rw [← heq]

end Editor

end AssetEmbed
