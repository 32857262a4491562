import AssetEmbed.Text
import Mathlib.Data.Char
import Mathlib.Data.List.Lex
import Mathlib.Data.List.Sort

/-!
# Sorting — the order of names

Texts are in code point order, which is a linear order.  What is sorted does not tell in which order it was
listed before.
-/

namespace AssetEmbed

namespace Text

theorem le_iff {s t : Text} : Text.le s t ↔ s ≤ t := by
  unfold Text.le
  rw [decide_eq_true_eq]
  exact not_lt

theorem le_trans_of_le {a b c : Text} (hab : Text.le a b) (hbc : Text.le b c) : Text.le a c :=
  le_iff.2 (le_trans (le_iff.1 hab) (le_iff.1 hbc))

theorem le_total_or (a b : Text) : (Text.le a b || Text.le b a) = true := by
  rw [Bool.or_eq_true, le_iff, le_iff]
  exact le_total a b

/-! ## 1. Lists in order -/

theorem sort_pairwise (ts : List Text) : (sort ts).Pairwise (· ≤ ·) := by
  have hsorted : (ts.mergeSort le).Pairwise fun a b => le a b := by
    refine List.pairwise_mergeSort ?_ le_total_or ts
    exact fun _ _ _ => le_trans_of_le
  exact hsorted.imp le_iff.1

theorem sort_perm (ts : List Text) : (sort ts).Perm ts := List.mergeSort_perm ts le

theorem mem_sort {t : Text} {ts : List Text} : t ∈ sort ts ↔ t ∈ ts := (sort_perm ts).mem_iff

theorem nodup_sort {ts : List Text} (h : ts.Nodup) : (sort ts).Nodup := (sort_perm ts).nodup_iff.2 h

theorem sort_eq_of_perm {ts ts' : List Text} (h : ts.Perm ts') : sort ts = sort ts' :=
  (((sort_perm ts).trans h).trans (sort_perm ts').symm).eq_of_pairwise'
    (sort_pairwise ts) (sort_pairwise ts')

theorem mergeSort_pairwise {α : Type} (items : List (Text × α)) :
    (items.mergeSort fun a b => le a.1 b.1).Pairwise fun a b => a.1 ≤ b.1 := by
  have hsorted : (items.mergeSort fun a b => le a.1 b.1).Pairwise fun a b => le a.1 b.1 := by
    refine List.pairwise_mergeSort ?_ ?_ items
    · exact fun _ _ _ => le_trans_of_le
    · exact fun a b => le_total_or a.1 b.1
  exact hsorted.imp le_iff.1

theorem mergeSort_eq_of_perm {α : Type} {items items' : List (Text × α)} (h : items.Perm items')
    (hnames : (items.map (·.1)).Nodup) :
    (items.mergeSort fun a b => le a.1 b.1) = items'.mergeSort fun a b => le a.1 b.1 := by
  have hperm : ∀ l : List (Text × α), (l.mergeSort fun a b => le a.1 b.1).Perm l :=
    fun l => List.mergeSort_perm l _
  refine (((hperm items).trans h).trans (hperm items').symm).eq_of_pairwise ?_ (mergeSort_pairwise items)
    (mergeSort_pairwise items')
  -- two items of one name are one item
  intro a b ha hb hab hba
  exact List.inj_on_of_nodup_map hnames ((hperm items).mem_iff.1 ha)
    (h.mem_iff.2 ((hperm items').mem_iff.1 hb)) (le_antisymm hab hba)

/-! ## 2. Without repetitions -/

theorem nodup_eraseDups (ts : List Text) : ts.eraseDups.Nodup := by
  induction hn : ts.length using Nat.strongRecOn generalizing ts with
  | ind n ih =>
    cases ts with
    | nil => exact List.nodup_nil
    | cons t ts =>
      rw [List.eraseDups_cons, List.nodup_cons]
      have hlength : (ts.filter fun b => !b == t).length < n := by
        have := List.length_filter_le (fun b => !b == t) ts
        rw [List.length_cons] at hn
        omega
      refine ⟨?_, ih _ hlength _ rfl⟩
      rw [List.mem_eraseDups, List.mem_filter]
      simp

theorem sortUnique_pairwise (ts : List Text) : (sortUnique ts).Pairwise (· < ·) := by
  have hnodup : (sortUnique ts).Nodup := nodup_sort (nodup_eraseDups ts)
  exact ((sort_pairwise ts.eraseDups).and hnodup).imp fun h => lt_of_le_of_ne h.1 h.2

theorem mem_sortUnique {t : Text} {ts : List Text} : t ∈ sortUnique ts ↔ t ∈ ts :=
  mem_sort.trans List.mem_eraseDups

theorem sortUnique_eq_nil {ts : List Text} : sortUnique ts = [] ↔ ts = [] := by
  simp only [List.eq_nil_iff_forall_not_mem, mem_sortUnique]

theorem sortUnique_eq_of_mem_iff {ts ts' : List Text} (h : ∀ t, t ∈ ts ↔ t ∈ ts') :
    sortUnique ts = sortUnique ts' :=
  (sortUnique_pairwise ts).eq_of_mem_iff (sortUnique_pairwise ts') fun t => by
    rw [mem_sortUnique, mem_sortUnique, h]

end Text

end AssetEmbed
