import AssetEmbed.FileSystem.Path
import Mathlib.Data.List.Basic
import Mathlib.Data.List.TakeWhile

/-!
# Paths by their names

An absolute path in normal form is told by its names.  Bringing a path to normal form lets each `..` take
back the name before it, so going up from a directory and down again, as the way from it to another path
does, ends at that path.
-/

namespace AssetEmbed

theorem Text.splitOn_append (sep : Char) (s t : Text) :
    splitOn sep (s ++ sep :: t) = splitOn sep s ++ splitOn sep t := by
  induction s with
  | nil => exact splitOn_append_cons List.not_mem_nil t
  | cons c s ih =>
    rw [List.cons_append, splitOn, splitOn]
    by_cases hc : c = sep
    · rw [if_pos hc, if_pos hc, ih]
      rfl
    · rw [if_neg hc, if_neg hc, ih]
      cases hs : splitOn sep s with
      | nil => exact absurd hs (splitOn_ne_nil sep s)
      | cons p ps => rfl

theorem Text.joinWith_append (sep : Char) {as bs : List Text} (ha : as ≠ []) (hb : bs ≠ []) :
    joinWith sep (as ++ bs) = joinWith sep as ++ sep :: joinWith sep bs := by
  induction as with
  | nil => exact absurd rfl ha
  | cons a as ih =>
    cases as with
    | nil =>
      obtain ⟨b, bs, rfl⟩ := List.exists_cons_of_ne_nil hb
      rfl
    | cons a' as =>
      rw [List.cons_append, List.cons_append, joinWith_cons_cons, ← List.cons_append, ih (List.cons_ne_nil a' as),
        joinWith_cons_cons, List.append_assoc, List.cons_append]

theorem Text.joinWith_append_singleton (sep : Char) {pieces : List Text} (h : pieces ≠ []) (p : Text) :
    joinWith sep (pieces ++ [p]) = joinWith sep pieces ++ sep :: p :=
  joinWith_append sep h (List.cons_ne_nil p [])

theorem Text.exists_splitOn_eq_concat (sep : Char) (s : Text) :
    ∃ init last, splitOn sep s = init ++ [last] ∧ sep ∉ last ∧
      (init = [] ∧ s = last ∨ init ≠ [] ∧ s = joinWith sep init ++ sep :: last) := by
  obtain ⟨init, last, hpieces⟩ := (List.eq_nil_or_concat' _).resolve_left (splitOn_ne_nil sep s)
  have hlast : last ∈ splitOn sep s := hpieces ▸ List.mem_append_right _ (List.mem_singleton_self last)
  have hjoin : s = joinWith sep (init ++ [last]) := by rw [← hpieces, joinWith_splitOn]
  refine ⟨init, last, hpieces, not_mem_of_mem_splitOn hlast, ?_⟩
  by_cases hnil : init = []
  · subst hnil
    exact .inl ⟨rfl, hjoin⟩
  · rw [joinWith_append_singleton sep hnil] at hjoin
    exact .inr ⟨hnil, hjoin⟩

namespace Path

/-! ## 1. Names -/

/-- Whether a text can stand between slashes as a name; `..` is one. -/
def IsName (n : Text) : Prop := n ≠ [] ∧ n ≠ ['.'] ∧ '/' ∉ n

def IsProper (n : Text) : Prop := IsName n ∧ n ≠ parentName

theorem isName_parentName : IsName parentName := ⟨by decide, by decide, by decide⟩

theorem isName_of_mem_names {n p : Text} (h : n ∈ names p) : IsName n := by
  unfold names at h
  rw [List.mem_filter, Bool.and_eq_true, decide_eq_true_eq, decide_eq_true_eq] at h
  exact ⟨h.2.1, h.2.2, Text.not_mem_of_mem_splitOn h.1⟩

theorem names_append_slash (p q : Text) : names (p ++ '/' :: q) = names p ++ names q := by
  unfold names
  rw [Text.splitOn_append, List.filter_append]

theorem names_cons_slash (p : Text) : names ('/' :: p) = names p := names_append_slash [] p

theorem splitOn_here (p : Text) : Text.splitOn '/' ('.' :: '/' :: p) = ['.'] :: Text.splitOn '/' p := rfl

theorem names_of_isName {n : Text} (h : IsName n) : names n = [n] := by
  unfold names
  rw [Text.splitOn_eq_singleton h.2.2, List.filter_cons_of_pos, List.filter_nil]
  rw [Bool.and_eq_true, decide_eq_true_eq, decide_eq_true_eq]
  exact ⟨h.1, h.2.1⟩

theorem names_joinWith {ns : List Text} (h : ∀ n ∈ ns, IsName n) :
    names (Text.joinWith '/' ns) = ns := by
  induction ns with
  | nil => rfl
  | cons n ns ih =>
    have hn := h n List.mem_cons_self
    have hns : ∀ m ∈ ns, IsName m := fun m hm => h m (List.mem_cons_of_mem _ hm)
    cases ns with
    | nil => exact names_of_isName hn
    | cons m ns =>
      rw [Text.joinWith_cons_cons, names_append_slash, names_of_isName hn, ih hns]
      rfl

theorem joinWith_head {ns : List Text} (h : ∀ n ∈ ns, IsName n) :
    (Text.joinWith '/' ns).head? ≠ some '/' := by
  cases ns with
  | nil => exact fun hhead => by cases hhead
  | cons n ns =>
    obtain ⟨hne, -, hslash⟩ := h n List.mem_cons_self
    cases n with
    | nil => exact absurd rfl hne
    | cons c n =>
      have hc : c ≠ '/' := by
        rintro rfl
        exact hslash List.mem_cons_self
      intro hhead
      cases ns with
      | nil => exact hc (Option.some.inj hhead)
      | cons m ns => exact hc (Option.some.inj hhead)

theorem getLast?_joinWith {ns : List Text} (hne : ns ≠ []) (h : ∀ n ∈ ns, IsName n) :
    (Text.joinWith '/' ns).getLast? ≠ some '/' := by
  intro hlast
  obtain ⟨start, hstart⟩ := List.getLast?_eq_some_iff.1 hlast
  have hsplit := Text.splitOn_joinWith hne fun n hn => (h n hn).2.2
  -- behind the last slash there would be an empty name
  rw [hstart, Text.splitOn_append] at hsplit
  exact (h [] (hsplit ▸ List.mem_append_right _ (List.mem_singleton_self _))).1 rfl

/-! ## 2. Rooted paths -/

def IsRooted (p : Text) : Prop := ∃ s, p = '/' :: s ∧ s.head? ≠ some '/'

def IsNormal (p : Text) : Prop := ∃ ns, (∀ n ∈ ns, IsProper n) ∧ p = '/' :: Text.joinWith '/' ns

theorem isRooted_iff {p : Text} : IsRooted p ↔ isAbsolute p ∧ ¬ ['/', '/'] <+: p := by
  constructor
  · rintro ⟨s, rfl, hs⟩
    refine ⟨rfl, ?_⟩
    rintro ⟨rest, hrest⟩
    rw [List.cons_append, List.cons.injEq] at hrest
    exact hs (by rw [← hrest.2]; rfl)
  · rintro ⟨habsolute, hdouble⟩
    unfold isAbsolute at habsolute
    cases p with
    | nil => cases habsolute
    | cons c s =>
      obtain rfl : c = '/' := by simpa using habsolute
      refine ⟨s, rfl, ?_⟩
      intro hs
      cases s with
      | nil => cases hs
      | cons d s =>
        obtain rfl : d = '/' := Option.some.inj hs
        exact hdouble ⟨s, rfl⟩

theorem IsNormal.isRooted {p : Text} (h : IsNormal p) : IsRooted p := by
  obtain ⟨ns, hns, rfl⟩ := h
  exact ⟨_, rfl, joinWith_head fun n hn => (hns n hn).1⟩

theorem IsRooted.isAbsolute {p : Text} (h : IsRooted p) : isAbsolute p = true := by
  obtain ⟨s, rfl, -⟩ := h
  rfl

theorem IsRooted.rootOf {p : Text} (h : IsRooted p) : rootOf p = ['/'] := by
  have habsolute := h.isAbsolute
  have hdouble := (isRooted_iff.1 h).2
  unfold Path.rootOf
  rw [habsolute]
  have hstarts : p.startsWith ['/', '/'] = false := by
    rw [← Bool.not_eq_true]
    intro hstarts
    exact hdouble (List.isPrefixOf_iff_prefix.1 hstarts)
  rw [hstarts]
  rfl

theorem names_normal {ns : List Text} (h : ∀ n ∈ ns, IsProper n) :
    names ('/' :: Text.joinWith '/' ns) = ns := by
  rw [names_cons_slash, names_joinWith fun n hn => (h n hn).1]

/-! ## 3. Taking names back -/

theorem resolveNames_of_ne {n : Text} (hn : n ≠ parentName) (absolute : Bool) (done ns : List Text) :
    resolveNames absolute done (n :: ns) = resolveNames absolute (n :: done) ns :=
  (resolveNames.eq_def absolute done (n :: ns)).trans (if_neg hn)

theorem resolveNames_parent_nil (absolute : Bool) (ns : List Text) :
    resolveNames absolute [] (parentName :: ns) =
      resolveNames absolute (if absolute then [] else [parentName]) ns :=
  (resolveNames.eq_def absolute [] (parentName :: ns)).trans (if_pos rfl)

theorem resolveNames_parent_cons (absolute : Bool) (d : Text) (ds ns : List Text) :
    resolveNames absolute (d :: ds) (parentName :: ns) =
      resolveNames absolute (if d = parentName then parentName :: d :: ds else ds) ns :=
  (resolveNames.eq_def absolute (d :: ds) (parentName :: ns)).trans (if_pos rfl)

theorem resolveNames_nil (absolute : Bool) (done : List Text) :
    resolveNames absolute done [] = done.reverse := by
  unfold resolveNames
  rfl

theorem resolveNames_append (absolute : Bool) (done as bs : List Text) :
    resolveNames absolute done (as ++ bs) =
      resolveNames absolute (resolveNames absolute done as).reverse bs := by
  induction as generalizing done with
  | nil => rw [List.nil_append, resolveNames_nil, List.reverse_reverse]
  | cons n as ih =>
    rw [List.cons_append]
    by_cases hn : n = parentName
    · subst hn
      cases done with
      | nil => rw [resolveNames_parent_nil, resolveNames_parent_nil, ih]
      | cons d ds => rw [resolveNames_parent_cons, resolveNames_parent_cons, ih]
    · rw [resolveNames_of_ne hn, resolveNames_of_ne hn, ih]

theorem resolveNames_proper {ns : List Text} (h : ∀ n ∈ ns, n ≠ parentName) (absolute : Bool)
    (done : List Text) : resolveNames absolute done ns = done.reverse ++ ns := by
  induction ns generalizing done with
  | nil => rw [resolveNames_nil, List.append_nil]
  | cons n ns ih =>
    rw [resolveNames_of_ne (h n List.mem_cons_self), ih fun m hm => h m (List.mem_cons_of_mem _ hm),
      List.reverse_cons, List.append_assoc]
    rfl

/-- From a root, nothing but names that lead down is left. -/
theorem isProper_of_mem_resolveNames {done ns : List Text} (hdone : ∀ n ∈ done, IsProper n)
    (hns : ∀ n ∈ ns, IsName n) : ∀ n ∈ resolveNames true done ns, IsProper n := by
  induction ns generalizing done with
  | nil =>
    intro n hn
    rw [resolveNames_nil, List.mem_reverse] at hn
    exact hdone n hn
  | cons m ns ih =>
    have hrest : ∀ n ∈ ns, IsName n := fun n hn => hns n (List.mem_cons_of_mem _ hn)
    by_cases hm : m = parentName
    · subst hm
      cases done with
      | nil =>
        rw [resolveNames_parent_nil, if_pos rfl]
        exact ih (fun _ hn => absurd hn List.not_mem_nil) hrest
      | cons d ds =>
        -- what is done is proper, so that it can be taken back
        rw [resolveNames_parent_cons, if_neg (hdone d List.mem_cons_self).2]
        exact ih (fun n hn => hdone n (List.mem_cons_of_mem _ hn)) hrest
    · rw [resolveNames_of_ne hm]
      refine ih ?_ hrest
      intro n hn
      rcases List.mem_cons.1 hn with rfl | hn
      · exact ⟨hns n List.mem_cons_self, hm⟩
      · exact hdone n hn

theorem isProper_of_mem_resolveNames_names (p : Text) :
    ∀ n ∈ resolveNames true [] (names p), IsProper n :=
  isProper_of_mem_resolveNames (fun _ hn => absurd hn List.not_mem_nil)
    fun _ hn => isName_of_mem_names hn

/-- Going up takes back the names that lead down, the last one first. -/
theorem resolveNames_parents {up : List Text} (hup : ∀ n ∈ up, n ≠ parentName) (done : List Text) :
    resolveNames true (up ++ done) (up.map fun _ => parentName) = done.reverse := by
  induction up with
  | nil => exact resolveNames_nil true done
  | cons n up ih =>
    rw [List.cons_append, List.map_cons, resolveNames_parent_cons, if_neg (hup n List.mem_cons_self)]
    exact ih fun m hm => hup m (List.mem_cons_of_mem _ hm)

/-- Every name that is left is one of those that were there, or leads up. -/
theorem isName_of_mem_resolveNames {absolute : Bool} {done ns : List Text} (hdone : ∀ n ∈ done, IsName n)
    (hns : ∀ n ∈ ns, IsName n) : ∀ n ∈ resolveNames absolute done ns, IsName n := by
  fun_induction resolveNames absolute done ns with
  | case1 done => exact fun n hn => hdone n (List.mem_reverse.1 hn)
  | case2 ns ih =>
    refine ih ?_ (List.forall_mem_cons.1 hns).2
    cases absolute with
    | true => exact nofun
    | false => exact List.forall_mem_singleton.2 isName_parentName
  | case3 ns d ds ih =>
    refine ih ?_ (List.forall_mem_cons.1 hns).2
    split
    · exact List.forall_mem_cons.2 ⟨isName_parentName, hdone⟩
    · exact (List.forall_mem_cons.1 hdone).2
  | case4 done n ns _ ih =>
    obtain ⟨hn, hns⟩ := List.forall_mem_cons.1 hns
    exact ih (List.forall_mem_cons.2 ⟨hn, hdone⟩) hns

/-- Names that have been resolved without a root are resolved like the original ones. -/
theorem resolveNames_resolveNames (absolute : Bool) (done before ns : List Text) :
    resolveNames absolute done (resolveNames false before ns) = resolveNames absolute done (before.reverse ++ ns) := by
  fun_induction resolveNames false before ns with
  | case1 before => rw [List.append_nil]
  | case2 ns ih => rw [ih]; rfl
  | case3 ns d ds ih =>
    rw [ih]
    split
    · rename_i hd
      rw [List.reverse_cons, List.append_assoc, hd]
      rfl
    · rename_i hd
      -- the name that is taken back is taken back at once
      rw [List.reverse_cons, List.append_assoc, List.singleton_append, resolveNames_append, resolveNames_append,
        resolveNames_of_ne hd, resolveNames_parent_cons, if_neg hd]
  | case4 before n ns _ ih =>
    rw [ih, List.reverse_cons, List.append_assoc]
    rfl

/-! ## 4. Normal form -/

theorem IsRooted.normalize {p : Text} (h : IsRooted p) : IsNormal (normalize p) := by
  refine ⟨resolveNames true [] (names p), isProper_of_mem_resolveNames_names p, ?_⟩
  unfold Path.normalize
  rw [h.rootOf, h.isAbsolute]
  rfl

theorem IsNormal.normalize_eq {p : Text} (h : IsNormal p) : Path.normalize p = p := by
  have hrooted := h.isRooted
  obtain ⟨ns, hns, rfl⟩ := h
  unfold Path.normalize
  rw [hrooted.rootOf, hrooted.isAbsolute, names_normal hns,
    resolveNames_proper fun n hn => (hns n hn).2]
  rfl

theorem IsRooted.normalize_congr {p q : Text} (hp : IsRooted p) (hq : IsRooted q) (h : names p = names q) :
    Path.normalize p = Path.normalize q := by
  unfold Path.normalize
  rw [hp.rootOf, hq.rootOf, hp.isAbsolute, hq.isAbsolute, h]

/-! ## 5. Joining -/

theorem isAbsolute_of_not_mem {path : Text} (h : '/' ∉ path) : isAbsolute path = false := by
  rw [← Bool.not_eq_true]
  intro habsolute
  exact h (List.mem_of_mem_head? (beq_iff_eq.1 habsolute))

theorem join_of_isAbsolute {path : Text} (h : isAbsolute path) (base : Text) :
    join base path = path := by
  unfold join
  rw [h]
  rfl

theorem join_nil (path : Text) : join [] path = path := by
  unfold join
  rw [if_pos (by simp)]

theorem join_of_ne_nil {base path : Text} (hbase : base ≠ []) (hpath : isAbsolute path = false) :
    join base path = if base.getLast? = some '/' then base ++ path else base ++ '/' :: path := by
  unfold join
  simp [hpath, hbase]

/-- A path that is not absolute stands behind what is not empty, with a slash between them. -/
theorem exists_join_eq_append {base : Text} (hbase : base ≠ []) :
    ∃ start, ∀ path, isAbsolute path = false → join base path = start ++ '/' :: path := by
  by_cases hlast : base.getLast? = some '/'
  · obtain ⟨start, hstart⟩ := List.getLast?_eq_some_iff.1 hlast
    refine ⟨start, fun path hpath => ?_⟩
    rw [join_of_ne_nil hbase hpath, if_pos hlast, hstart, List.append_assoc]
    rfl
  · refine ⟨base, fun path hpath => ?_⟩
    rw [join_of_ne_nil hbase hpath, if_neg hlast]

theorem join_append {base path : Text} (hbase : base ≠ []) (hpath : isAbsolute path = false) (s : Text) :
    join (s ++ base) path = s ++ join base path := by
  rw [join_of_ne_nil hbase hpath, join_of_ne_nil (List.append_ne_nil_of_right_ne_nil s hbase) hpath,
    List.getLast?_append_of_ne_nil _ hbase]
  split
  · exact List.append_assoc _ _ _
  · exact List.append_assoc _ _ _

theorem isAbsolute_join_eq {path : Text} (hpath : isAbsolute path = false) (base : Text) :
    isAbsolute (join base path) = isAbsolute base := by
  cases base with
  | nil =>
    rw [join_nil, hpath]
    rfl
  | cons c s =>
    rw [join_of_ne_nil (List.cons_ne_nil c s) hpath]
    split <;> rfl

/-- Of three paths it does not matter which two are joined first. -/
theorem join_assoc (a b c : Text) : join (join a b) c = join a (join b c) := by
  by_cases hc : isAbsolute c = true
  · rw [join_of_isAbsolute hc, join_of_isAbsolute hc, join_of_isAbsolute hc]
  rw [Bool.not_eq_true] at hc
  by_cases ha : a = []
  · rw [ha, join_nil, join_nil]
  obtain ⟨start, hstart⟩ := exists_join_eq_append ha
  by_cases hb : b = []
  · -- an empty path leaves nothing but the slash
    have hslash : join ['/'] c = '/' :: c := join_of_ne_nil (List.cons_ne_nil _ _) hc
    rw [hb, join_nil, hstart [] rfl, hstart c hc, join_append (List.cons_ne_nil _ _) hc, hslash]
  by_cases habsolute : isAbsolute b = true
  · have hjoin := (isAbsolute_join_eq hc b).trans habsolute
    rw [join_of_isAbsolute habsolute, join_of_isAbsolute hjoin]
  · rw [Bool.not_eq_true] at habsolute
    rw [hstart b habsolute, hstart _ ((isAbsolute_join_eq hc b).trans habsolute), ← List.singleton_append,
      ← List.append_assoc, join_append hb hc, List.append_assoc]
    rfl

theorem IsRooted.join {base path : Text} (h : IsRooted base) (hpath : ¬ ['/', '/'] <+: path) :
    IsRooted (join base path) := by
  by_cases habsolute : Path.isAbsolute path
  · rw [join_of_isAbsolute habsolute]
    exact isRooted_iff.2 ⟨habsolute, hpath⟩
  obtain ⟨s, rfl, hs⟩ := h
  have hhead : path.head? ≠ some '/' := by
    intro hhead
    unfold Path.isAbsolute at habsolute
    rw [hhead] at habsolute
    exact habsolute rfl
  unfold Path.join
  rw [Bool.not_eq_true] at habsolute
  rw [habsolute, if_neg (by simp)]
  -- what stands behind the first slash
  have hnext : ∀ t, s ≠ [] ∨ t.head? ≠ some '/' → (s ++ t).head? ≠ some '/' := by
    intro t ht
    cases s with
    | nil => exact ht.resolve_left fun hne => hne rfl
    | cons c s => exact hs
  split
  · exact ⟨s ++ path, rfl, hnext path (.inr hhead)⟩
  · rename_i hlast
    refine ⟨s ++ '/' :: path, rfl, hnext _ (.inl ?_)⟩
    rintro rfl
    exact hlast rfl

theorem isAbsolute_join {base : Text} (h : isAbsolute base) (path : Text) :
    isAbsolute (join base path) := by
  by_cases habsolute : isAbsolute path = true
  · rwa [join_of_isAbsolute habsolute]
  · rw [isAbsolute_join_eq (by simpa using habsolute)]
    exact h

theorem names_join {path : Text} (hpath : isAbsolute path = false) (base : Text) :
    names (join base path) = names base ++ names path := by
  by_cases hbase : base = []
  · rw [hbase, join_nil]
    rfl
  rw [join_of_ne_nil hbase hpath]
  split
  · rename_i hlast
    obtain ⟨start, rfl⟩ := List.getLast?_eq_some_iff.1 hlast
    have hend : names (start ++ ['/']) = names start := by
      rw [names_append_slash]
      exact List.append_nil _
    rw [List.append_assoc, List.singleton_append, names_append_slash, hend]
  · exact names_append_slash base path

/-- The names of a path behind a slash are told behind those of the directory before the slash. -/
theorem names_join_append_slash (root directory path : Text) :
    names (join root (directory ++ '/' :: path)) =
      names (join root (if directory = [] then ['/'] else directory)) ++ names path := by
  by_cases hnil : directory = []
  · rw [hnil, if_pos rfl, join_of_isAbsolute rfl, join_of_isAbsolute rfl]
    exact names_cons_slash path
  · have habsolute : isAbsolute (directory ++ '/' :: path) = isAbsolute directory := by
      unfold isAbsolute
      rw [List.head?_append_of_ne_nil _ hnil]
    rw [if_neg hnil]
    cases hdirectory : isAbsolute directory with
    | true =>
      rw [join_of_isAbsolute hdirectory, join_of_isAbsolute (habsolute.trans hdirectory), names_append_slash]
    | false =>
      rw [names_join hdirectory, names_join (habsolute.trans hdirectory), names_append_slash, List.append_assoc]

/-- Only what a path stands behind gives it slashes in front. -/
theorem slashes_isPre_join {base path q : Text} (hbase : base ≠ []) (hpath : isAbsolute path = false)
    (hq : ∀ c ∈ q, c = '/') : q <+: join base path ↔ q <+: base := by
  have hpre : base <+: join base path := by
    rw [join_of_ne_nil hbase hpath]
    split
    · exact List.prefix_append base path
    · exact List.prefix_append base _
  constructor
  · intro h
    rcases List.prefix_or_prefix_of_prefix h hpre with hqpre | ⟨rest, rfl⟩
    · exact hqpre
    -- one slash more than the base has would have to be the first character of the path
    cases rest with
    | nil => exact (List.append_nil base).symm ▸ List.prefix_rfl
    | cons c rest =>
      have hlast : base.getLast? = some '/' := by
        rw [List.getLast?_eq_some_getLast hbase, hq _ (List.mem_append_left _ (List.getLast_mem hbase))]
      have hc : c = '/' := hq c (by simp)
      rw [join_of_ne_nil hbase hpath, if_pos hlast, List.prefix_append_right_inj, hc] at h
      obtain ⟨more, rfl⟩ := h
      cases hpath
  · exact fun h => h.trans hpre

theorem rootOf_join {path : Text} (hpath : isAbsolute path = false) (base : Text) :
    rootOf (join base path) = rootOf base := by
  by_cases hbase : base = []
  · subst hbase
    rw [join_nil, rootOf, rootOf, hpath]
    rfl
  have hstarts : ∀ q : Text, (∀ c ∈ q, c = '/') → Text.startsWith (join base path) q = Text.startsWith base q := by
    intro q hq
    rw [Bool.eq_iff_iff]
    exact List.isPrefixOf_iff_prefix.trans
      ((slashes_isPre_join hbase hpath hq).trans List.isPrefixOf_iff_prefix.symm)
  unfold rootOf
  rw [isAbsolute_join_eq hpath, hstarts _ (by simp), hstarts _ (by simp)]

theorem rootOf_eq (p : Text) : rootOf p = [] ∨ rootOf p = ['/'] ∨ rootOf p = ['/', '/'] := by
  unfold rootOf
  split
  · exact .inl rfl
  split
  · exact .inr (.inr rfl)
  · exact .inr (.inl rfl)

theorem IsRooted.ofBeginning {p q : Text} (h : IsRooted p) (hpre : q <+: p) (hne : q ≠ []) :
    IsRooted q := by
  obtain ⟨s, rfl, hs⟩ := h
  obtain ⟨rest, hrest⟩ := hpre
  cases q with
  | nil => exact absurd rfl hne
  | cons c q =>
    rw [List.cons_append, List.cons.injEq] at hrest
    obtain ⟨rfl, rfl⟩ := hrest
    refine ⟨q, rfl, ?_⟩
    intro hq
    cases q with
    | nil => cases hq
    | cons d q => exact hs hq

theorem reverse_dropWhile_isPre (f : Char → Bool) (s : Text) : (s.reverse.dropWhile f).reverse <+: s := by
  have hsuffix := List.dropWhile_suffix f (l := s.reverse)
  rw [← List.reverse_prefix, List.reverse_reverse] at hsuffix
  exact hsuffix

theorem dropEnd_ne_nil {f : Char → Bool} {s : Text} {c : Char} (hc : c ∈ s) (hf : f c = false) :
    (s.reverse.dropWhile f).reverse ≠ [] := by
  intro hnil
  rw [List.reverse_eq_nil_iff, List.dropWhile_eq_nil_iff] at hnil
  have htrue := hnil c (List.mem_reverse.2 hc)
  rw [hf] at htrue
  cases htrue

theorem directoryName_isPre {p : Text} (h : '/' ∈ p) : directoryName p <+: p ∧ directoryName p ≠ [] := by
  have hhead := reverse_dropWhile_isPre (fun c => decide (c ≠ '/')) p
  have hne := dropEnd_ne_nil (f := fun c => decide (c ≠ '/')) h (by decide)
  unfold Path.directoryName
  simp only
  split
  · exact ⟨hhead, hne⟩
  · rename_i hall
    refine ⟨(reverse_dropWhile_isPre _ _).trans hhead, ?_⟩
    rw [Bool.not_eq_true, List.all_eq_false] at hall
    obtain ⟨c, hc, hother⟩ := hall
    exact dropEnd_ne_nil hc (by simpa using hother)

theorem IsRooted.directoryName {p : Text} (h : IsRooted p) : IsRooted (directoryName p) := by
  have hslash : '/' ∈ p := by
    obtain ⟨s, rfl, -⟩ := h
    exact List.mem_cons_self
  exact h.ofBeginning (directoryName_isPre hslash).1 (directoryName_isPre hslash).2

theorem isAbsolute_directoryName {p : Text} (h : isAbsolute p) : isAbsolute (directoryName p) = true := by
  obtain ⟨⟨rest, hrest⟩, hne⟩ := directoryName_isPre (List.mem_of_mem_head? (by simpa [isAbsolute] using h))
  generalize directoryName p = q at hrest hne
  subst hrest
  cases q with
  | nil => exact absurd rfl hne
  | cons c q => exact h

theorem names_append_slashes {slashes : Text} (h : ∀ c ∈ slashes, c = '/') (p : Text) : names (p ++ slashes) = names p := by
  induction slashes generalizing p with
  | nil => rw [List.append_nil]
  | cons c slashes ih =>
    obtain ⟨rfl, hrest⟩ := List.forall_mem_cons.1 h
    have hnone : names slashes = [] := ih hrest []
    rw [names_append_slash, hnone, List.append_nil]

theorem names_dropSlashes (p : Text) : names (p.reverse.dropWhile (· = '/')).reverse = names p := by
  have hsplit : p = (p.reverse.dropWhile (· = '/')).reverse ++ (p.reverse.takeWhile (· = '/')).reverse := by
    rw [← List.reverse_append, List.takeWhile_append_dropWhile, List.reverse_reverse]
  conv_rhs => rw [hsplit]
  rw [names_append_slashes]
  intro c hc
  simpa using List.mem_takeWhile_imp (List.mem_reverse.1 hc)

variable {last : Text}

/-- What is told of a path backwards begins with its last segment. -/
theorem reverse_append_slash (h : '/' ∉ last) (front : Text) :
    (front ++ '/' :: last).reverse = last.reverse ++ '/' :: front.reverse ∧
      ∀ c ∈ last.reverse, decide (c ≠ '/') = true := by
  refine ⟨by simp, fun c hc => decide_eq_true ?_⟩
  rintro rfl
  exact h (List.mem_reverse.1 hc)

theorem baseName_append_slash (h : '/' ∉ last) (front : Text) : baseName (front ++ '/' :: last) = last := by
  obtain ⟨hreverse, hlast⟩ := reverse_append_slash h front
  rw [baseName, hreverse, List.takeWhile_append_of_pos hlast, List.takeWhile_cons_of_neg (by simp), List.append_nil,
    List.reverse_reverse]

/-- The directory of a path has the names before the last segment. -/
theorem names_directoryName_append_slash (h : '/' ∉ last) (front : Text) :
    names (directoryName (front ++ '/' :: last)) = names front := by
  obtain ⟨hreverse, hlast⟩ := reverse_append_slash h front
  have hslash : names (front ++ ['/']) = names front := names_append_slashes (by simp) front
  rw [directoryName, hreverse, List.dropWhile_append_of_pos hlast, List.dropWhile_cons_of_neg (by simp),
    List.reverse_cons, List.reverse_reverse]
  split
  · exact hslash
  · rw [names_dropSlashes, hslash]

/-! ## 6. The way from a directory to a path -/

theorem dropCommon_eq (as bs : List Text) :
    ∃ common, as = common ++ (dropCommon as bs).1 ∧ bs = common ++ (dropCommon as bs).2 := by
  induction as generalizing bs with
  | nil => exact ⟨[], by simp [dropCommon], by simp [dropCommon]⟩
  | cons a as ih =>
    cases bs with
    | nil => exact ⟨[], by simp [dropCommon], by simp [dropCommon]⟩
    | cons b bs =>
      by_cases hab : a = b
      · subst hab
        obtain ⟨common, has, hbs⟩ := ih bs
        refine ⟨a :: common, ?_, ?_⟩
        · rw [dropCommon, if_pos rfl, List.cons_append, ← has]
        · rw [dropCommon, if_pos rfl, List.cons_append, ← hbs]
      · exact ⟨[], by simp [dropCommon, hab], by simp [dropCommon, hab]⟩

theorem dropCommon_append (as bs : List Text) : dropCommon as (as ++ bs) = ([], bs) := by
  induction as with
  | nil => cases bs <;> rfl
  | cons a as ih => rw [List.cons_append, dropCommon, if_pos rfl, ih]

theorem joinWith_ne_nil {ns : List Text} (hne : ns ≠ []) (h : ∀ n ∈ ns, IsName n) :
    Text.joinWith '/' ns ≠ [] := by
  intro hnil
  have hnames := names_joinWith h
  rw [hnil] at hnames
  exact hne hnames.symm

theorem ofNames_eq_append {r : Text} {ns : List Text} (h : r ++ Text.joinWith '/' ns ≠ []) :
    ofNames r ns = r ++ Text.joinWith '/' ns := by
  unfold ofNames
  split
  · rename_i heq
    exact absurd heq h
  · rfl

theorem normalize_ne_nil (p : Text) : normalize p ≠ [] := by
  unfold normalize ofNames
  split
  · exact List.cons_ne_nil _ _
  · rename_i hne
    exact hne

/-- Names that are joined to a path of names stand behind those. -/
theorem join_ofNames {r : Text} {ns more : List Text} (hr : r = [] ∨ r = ['/'] ∨ r = ['/', '/'])
    (hns : ∀ n ∈ ns, IsName n) (hmore : ∀ n ∈ more, IsName n) (hne : more ≠ []) (h : ofNames r ns ≠ ['.']) :
    join (ofNames r ns) (Text.joinWith '/' more) = ofNames r (ns ++ more) := by
  have hbase : r ++ Text.joinWith '/' ns ≠ [] := by
    intro hnil
    unfold ofNames at h
    rw [hnil] at h
    exact h rfl
  have hrelative : isAbsolute (Text.joinWith '/' more) = false := by
    simpa [isAbsolute] using joinWith_head hmore
  have hmoreNil := joinWith_ne_nil hne hmore
  rw [ofNames_eq_append hbase, join_of_ne_nil hbase hrelative]
  by_cases hnil : ns = []
  · -- nothing but the root stands before the names
    subst hnil
    rw [List.nil_append, ofNames_eq_append (List.append_ne_nil_of_right_ne_nil _ hmoreNil)]
    rcases hr with rfl | rfl | rfl
    · exact absurd rfl hbase
    · rfl
    · rfl
  -- no name ends in a slash, so that one is put between the names
  · have hlast : (r ++ Text.joinWith '/' ns).getLast? ≠ some '/' := by
      rw [List.getLast?_append_of_ne_nil _ (joinWith_ne_nil hnil hns)]
      exact getLast?_joinWith hnil hns
    have hjoin := Text.joinWith_append '/' hnil hne
    have hboth : r ++ Text.joinWith '/' (ns ++ more) ≠ [] := by
      rw [hjoin]
      simp
    rw [if_neg hlast, ofNames_eq_append hboth, hjoin, List.append_assoc]

theorem names_ofNames {ns : List Text} (h : ∀ n ∈ ns, IsName n) : names (ofNames [] ns) = ns := by
  unfold ofNames
  split
  · rename_i hnil
    cases ns with
    | nil => rfl
    | cons n ns => exact absurd hnil (joinWith_ne_nil (List.cons_ne_nil _ _) h)
  · exact names_joinWith h

theorem isAbsolute_ofNames {ns : List Text} (h : ∀ n ∈ ns, IsName n) :
    isAbsolute (ofNames [] ns) = false := by
  unfold ofNames isAbsolute
  split
  · rfl
  · have hhead := joinWith_head h
    simpa using hhead

theorem names_normalize {p : Text} (h : isAbsolute p) :
    names (normalize p) = resolveNames true [] (names p) := by
  have hproper := isProper_of_mem_resolveNames_names p
  unfold normalize rootOf
  rw [h]
  simp only [Bool.not_true, Bool.false_eq_true, if_false]
  split
  · show names ('/' :: '/' :: Text.joinWith '/' _) = _
    rw [names_cons_slash, names_normal hproper]
  · exact names_normal hproper

theorem isAbsolute_normalize {p : Text} (h : isAbsolute p) : isAbsolute (normalize p) = true := by
  unfold normalize rootOf
  rw [h]
  simp only [Bool.not_true, Bool.false_eq_true, if_false]
  split <;> rfl

theorem isProper_of_mem_names_normalize {p : Text} (h : isAbsolute p) : ∀ n ∈ names (normalize p), IsProper n := by
  rw [names_normalize h]
  exact isProper_of_mem_resolveNames_names p

theorem not_mem_names_normalize {p : Text} (h : isAbsolute p) : parentName ∉ names (normalize p) :=
  fun hup => (isProper_of_mem_names_normalize h _ hup).2 rfl

theorem names_normalize_of_not_mem {p : Text} (h : isAbsolute p) (hup : parentName ∉ names p) :
    names (normalize p) = names p := by
  rw [names_normalize h, resolveNames_proper fun n hn heq => hup (heq ▸ hn)]
  rfl

theorem names_normalize_eq (p : Text) : names (normalize p) = resolveNames (isAbsolute p) [] (names p) := by
  by_cases h : isAbsolute p = true
  · rw [names_normalize h, h]
  · rw [Bool.not_eq_true] at h
    unfold normalize rootOf
    rw [h]
    exact names_ofNames (isName_of_mem_resolveNames nofun fun n hn => isName_of_mem_names hn)

theorem isAbsolute_normalize_eq (p : Text) : isAbsolute (normalize p) = isAbsolute p := by
  by_cases h : isAbsolute p = true
  · rw [isAbsolute_normalize h, h]
  · rw [Bool.not_eq_true] at h
    unfold normalize rootOf
    rw [h]
    exact isAbsolute_ofNames (isName_of_mem_resolveNames nofun fun n hn => isName_of_mem_names hn)

/-- A path and its normal form lead to the same names, from whichever directory they are read. -/
theorem names_absolute_normalize (cwd p : Text) : names (absolute cwd (normalize p)) = names (absolute cwd p) := by
  unfold absolute
  rw [names_normalize_eq, names_normalize_eq (join cwd p)]
  by_cases h : isAbsolute p = true
  · rw [join_of_isAbsolute h, join_of_isAbsolute (isAbsolute_normalize h), isAbsolute_normalize h, names_normalize h, h,
      resolveNames_proper fun n hn => (isProper_of_mem_resolveNames_names p n hn).2]
    rfl
  · rw [Bool.not_eq_true] at h
    have hnormal := (isAbsolute_normalize_eq p).trans h
    rw [isAbsolute_join_eq h, isAbsolute_join_eq hnormal, names_join h, names_join hnormal, names_normalize_eq, h,
      resolveNames_append, resolveNames_append, resolveNames_resolveNames]
    rfl

theorem join_joinWith {ns more : List Text} (hns : ∀ n ∈ ns, IsName n) (hmore : ∀ n ∈ more, IsName n)
    (hne : more ≠ []) : join (Text.joinWith '/' ns) (Text.joinWith '/' more) = Text.joinWith '/' (ns ++ more) := by
  by_cases hnil : ns = []
  · subst hnil
    exact join_nil _
  have hrelative : isAbsolute (Text.joinWith '/' more) = false := by
    simpa [isAbsolute] using joinWith_head hmore
  rw [join_of_ne_nil (joinWith_ne_nil hnil hns) hrelative, if_neg (getLast?_joinWith hnil hns),
    Text.joinWith_append '/' hnil hne]

theorem normalize_join_nil (p : Text) : normalize (join p []) = normalize p := by
  unfold normalize
  rw [rootOf_join rfl, isAbsolute_join_eq rfl, names_join rfl]
  exact congrArg (fun ns => ofNames (rootOf p) (resolveNames (isAbsolute p) [] ns)) (List.append_nil _)

theorem resolveNames_of_normalize_eq {p : Text} (h : normalize p = ['.']) :
    isAbsolute p = false ∧ resolveNames false [] (names p) = [] := by
  have habsolute := isAbsolute_normalize_eq p
  have hnames := names_normalize_eq p
  rw [h] at habsolute hnames
  rw [← habsolute] at hnames
  exact ⟨habsolute.symm, hnames.symm⟩

theorem normalize_join_of_normalize_eq {p : Text} {ns : List Text} (h : normalize p = ['.'])
    (hns : ∀ n ∈ ns, IsProper n) (hne : ns ≠ []) :
    normalize (join p (Text.joinWith '/' ns)) = Text.joinWith '/' ns := by
  obtain ⟨habsolute, hresolve⟩ := resolveNames_of_normalize_eq h
  have hnames : ∀ n ∈ ns, IsName n := fun n hn => (hns n hn).1
  have hrelative : isAbsolute (Text.joinWith '/' ns) = false := by
    simpa [isAbsolute] using joinWith_head hnames
  have hroot : rootOf p = [] := by
    unfold rootOf
    rw [habsolute]
    rfl
  unfold normalize
  rw [rootOf_join hrelative, isAbsolute_join_eq hrelative, names_join hrelative, names_joinWith hnames, hroot,
    habsolute, resolveNames_append, hresolve, List.reverse_nil, resolveNames_proper fun n hn => (hns n hn).2]
  exact ofNames_eq_append (joinWith_ne_nil hne hnames)

variable {cwd root path : Text}

theorem IsNormal.absolute_eq (h : IsNormal path) (cwd : Text) : absolute cwd path = path := by
  unfold absolute
  rw [join_of_isAbsolute h.isRooted.isAbsolute, h.normalize_eq]

theorem isProper_of_mem_names_absolute (h : isAbsolute (join cwd path)) :
    ∀ n ∈ names (absolute cwd path), IsProper n :=
  isProper_of_mem_names_normalize h

/-- Below a directory, the way from it to a path leads to the names of that path. -/
theorem resolveNames_join_relative (hproper : ∀ n ∈ names root, IsProper n)
    (hnames : names (absolute cwd root) = names root) (hpath : isAbsolute (join cwd path)) :
    isAbsolute (relative cwd path root) = false ∧
      resolveNames true [] (names (join root (relative cwd path root))) = names (absolute cwd path) := by
  have hpathProper := isProper_of_mem_names_absolute hpath
  obtain ⟨common, hup, hdown⟩ := dropCommon_eq (names root) (names (absolute cwd path))
  have hway : relative cwd path root = ofNames [] ((dropCommon (names root)
      (names (absolute cwd path))).1.map (fun _ => parentName) ++
        (dropCommon (names root) (names (absolute cwd path))).2) := by
    unfold relative
    rw [hnames]
  generalize (dropCommon (names root) (names (absolute cwd path))).1 = up at hup hway
  generalize (dropCommon (names root) (names (absolute cwd path))).2 = down at hdown hway
  have hupNe : ∀ n ∈ up, n ≠ parentName := by
    intro n hn
    refine (hproper n ?_).2
    rw [hup]
    exact List.mem_append_right _ hn
  have hdownProper : ∀ n ∈ down, IsProper n := by
    intro n hn
    refine hpathProper n ?_
    rw [hdown]
    exact List.mem_append_right _ hn
  have hwayNames : ∀ n ∈ up.map (fun _ => parentName) ++ down, IsName n := by
    intro n hn
    rcases List.mem_append.1 hn with hn | hn
    · obtain ⟨-, -, rfl⟩ := List.mem_map.1 hn
      exact isName_parentName
    · exact (hdownProper n hn).1
  refine ⟨by rw [hway, isAbsolute_ofNames hwayNames], ?_⟩
  rw [hway, names_join (isAbsolute_ofNames hwayNames), names_ofNames hwayNames,
    resolveNames_append, resolveNames_proper fun n hn => (hproper n hn).2, List.reverse_nil,
    List.nil_append, hup, List.reverse_append, resolveNames_append]
  -- the way up takes back exactly what leads from the common names to the root
  have hparents : up.map (fun _ => parentName) = up.reverse.map fun _ => parentName := by
    rw [List.map_const', List.map_const', List.length_reverse]
  rw [hparents, resolveNames_parents fun n hn => hupNe n (List.mem_reverse.1 hn),
    List.reverse_reverse, resolveNames_proper fun n hn => (hdownProper n hn).2,
    List.reverse_reverse, hdown]

/-- Below a directory, the way from it to a path leads to the normal form of that path. -/
theorem normalize_join_relative_eq (hroot : IsNormal root) (hpath : isAbsolute (join cwd path)) :
    normalize (join root (relative cwd path root)) =
      '/' :: Text.joinWith '/' (names (absolute cwd path)) := by
  have hrooted := hroot.isRooted
  have hproper : ∀ n ∈ names root, IsProper n := by
    obtain ⟨ns, hns, rfl⟩ := hroot
    rw [names_normal hns]
    exact hns
  obtain ⟨hrelative, hresolve⟩ :=
    resolveNames_join_relative hproper (by rw [hroot.absolute_eq]) hpath
  have hjoin : IsRooted (join root (relative cwd path root)) := by
    refine hrooted.join ?_
    rintro ⟨rest, hrest⟩
    rw [← hrest] at hrelative
    cases hrelative
  unfold Path.normalize
  rw [hjoin.rootOf, hjoin.isAbsolute, hresolve]
  rfl

theorem normalize_join_relative (hroot : IsNormal root) (hpath : IsNormal path) :
    normalize (join root (relative cwd path root)) = path := by
  have habsolute : isAbsolute (join cwd path) := by
    rw [join_of_isAbsolute hpath.isRooted.isAbsolute]
    exact hpath.isRooted.isAbsolute
  rw [normalize_join_relative_eq hroot habsolute, hpath.absolute_eq]
  obtain ⟨ns, hns, rfl⟩ := hpath
  rw [names_normal hns]

theorem isNormal_normalize_join_relative (hroot : IsNormal root)
    (hpath : isAbsolute (join cwd path)) :
    IsNormal (normalize (join root (relative cwd path root))) :=
  ⟨_, isProper_of_mem_names_absolute hpath, normalize_join_relative_eq hroot hpath⟩

/-- What is found by the way from a directory to a path lies on that way. -/
theorem relative_normalize_join (hroot : IsNormal root) (hpath : isAbsolute (join cwd path)) :
    relative cwd (normalize (join root (relative cwd path root))) root = relative cwd path root := by
  have hproper := isProper_of_mem_names_absolute hpath
  have hnormal := isNormal_normalize_join_relative hroot hpath
  rw [normalize_join_relative_eq hroot hpath] at hnormal ⊢
  unfold relative
  rw [hnormal.absolute_eq, names_normal hproper]

end Path

end AssetEmbed
