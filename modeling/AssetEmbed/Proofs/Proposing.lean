import AssetEmbed.Proofs.Outermost

/-!
# Proposing — replacements for any two positions

Replacements may be proposed for any positions, in any number and order: nested, crossing, equal and empty ranges,
and ends that are not in order.  What an editor keeps never overlaps, and a proposal that is not accepted changes
nothing.
-/

namespace AssetEmbed

def Proposal.IsOf (p : Proposal) (e : Edit) : Prop :=
  e.range.start = p.start ∧ e.range.stop = p.stop ∧ e.replacement = p.replacement

namespace Editor

variable {ed : Editor} {p : Proposal}

def IsApart (ed : Editor) : Prop := ed.edits.Pairwise fun a b => a.range.overlaps b.range = false

/-- What becomes of a proposal: its ends are not in order, something that is at least as wide stands in its way, or
it takes the place of all that it overlaps. -/
theorem propose_cases (ed : Editor) (p : Proposal) :
    (p.stop < p.start ∧ ed.propose p = (ed, .error (Range.disorderMessage p.start p.stop))) ∨
    ∃ e, p.IsOf e ∧
      ((∃ b ∈ ed.edits, e.range.overlaps b.range ∧ e.range.width ≤ b.range.width ∧ ed.propose p = (ed, .ok false)) ∨
        ((∀ d ∈ ed.edits, e.range.overlaps d.range → d.range.width < e.range.width) ∧
          ed.propose p =
            ({ ed with edits := ed.edits.filter (fun d => !e.range.overlaps d.range) ++ [e] }, .ok true))) := by
  unfold propose Range.ofEnds?
  by_cases horder : p.start ≤ p.stop
  · rw [dif_pos horder]
    right
    refine ⟨⟨⟨p.start, p.stop, horder⟩, p.replacement⟩, ⟨rfl, rfl, rfl⟩, ?_⟩
    simp only [add]
    rcases ed.offer_cases ⟨⟨p.start, p.stop, horder⟩, p.replacement⟩ with
      ⟨b, hb, hoverlaps, hwidth, hoffer⟩ | ⟨hfree, hoffer⟩
    · left
      rw [hoffer]
      exact ⟨b, hb, hoverlaps, hwidth, rfl⟩
    · right
      rw [hoffer]
      exact ⟨hfree, rfl⟩
  · rw [dif_neg horder]
    left
    exact ⟨Int.not_le.1 horder, rfl⟩

theorem IsApart.propose (h : ed.IsApart) (p : Proposal) : (ed.propose p).1.IsApart := by
  rcases ed.propose_cases p with ⟨-, hpropose⟩ | ⟨e, -, ⟨b, -, -, -, hpropose⟩ | ⟨-, hpropose⟩⟩
  · rw [hpropose]
    exact h
  · rw [hpropose]
    exact h
  · rw [hpropose]
    exact apart_accepted h e

/-- The editor after several proposals, however each of them is answered. -/
def proposeAll (ed : Editor) (ps : List Proposal) : Editor := ps.foldl (fun ed p => (ed.propose p).1) ed

theorem IsApart.proposeAll (h : ed.IsApart) (ps : List Proposal) : (ed.proposeAll ps).IsApart := by
  induction ps generalizing ed with
  | nil => exact h
  | cons p ps ih => exact ih (h.propose p)

/-- After any proposals for a text no two accepted replacements overlap.  From there a proposal is answered by an
error exactly if its ends are not in order; an error and a refusal leave the editor as it is; and a proposal that is
accepted is added, while exactly the replacements that it overlaps are dropped, all of them narrower. -/
theorem proposals_stay_apart (text : Text) (ps : List Proposal) :
    let ed := (ofText text).proposeAll ps
    ed.IsApart ∧ ∀ p : Proposal,
      (p.stop < p.start ↔ ∃ message, (ed.propose p).2 = .error message) ∧
      (∀ message, (ed.propose p).2 = .error message → (ed.propose p).1 = ed) ∧
      ((ed.propose p).2 = .ok false → (ed.propose p).1 = ed) ∧
      ((ed.propose p).2 = .ok true → ∃ e, p.IsOf e ∧
        (ed.propose p).1 = { ed with edits := ed.edits.filter (fun d => !e.range.overlaps d.range) ++ [e] } ∧
        ∀ d ∈ ed.edits, e.range.overlaps d.range → d.range.width < e.range.width) := by
  intro ed
  have hstart : (ofText text).IsApart := List.Pairwise.nil
  refine ⟨hstart.proposeAll ps, ?_⟩
  intro p
  rcases ed.propose_cases p with ⟨horder, hpropose⟩ | ⟨e, he, hcases⟩
  · rw [hpropose]
    exact ⟨⟨fun _ => ⟨_, rfl⟩, fun _ => horder⟩, fun _ _ => rfl, fun _ => rfl, nofun⟩
  · have horder : ¬ p.stop < p.start := by
      have := e.range.start_le_stop
      rw [he.1, he.2.1] at this
      omega
    rcases hcases with ⟨b, -, -, -, hpropose⟩ | ⟨hfree, hpropose⟩
    · rw [hpropose]
      exact ⟨⟨fun h => absurd h horder, nofun⟩, nofun, fun _ => rfl, nofun⟩
    · rw [hpropose]
      exact ⟨⟨fun h => absurd h horder, nofun⟩, nofun, nofun, fun _ => ⟨e, he, rfl, hfree⟩⟩

end Editor

end AssetEmbed
