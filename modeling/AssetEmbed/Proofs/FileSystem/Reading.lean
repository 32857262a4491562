import AssetEmbed.Proofs.FileSystem.Locating
import Mathlib.Data.List.Induction

/-!
# Reading — what stands at the end of a path without links

Without links an absolute path that never goes up leads to the place of its names, unless it is too long.  So
whether it leads to a file, and to which bytes, depends on that place alone.
-/

namespace AssetEmbed

/-! ## 1. Paths that never go up -/

namespace Path

/-- The names between slashes that lead somewhere. -/
def leading (segs : List Text) : List Text := segs.filter fun n => n ≠ [] && n ≠ ['.']

theorem leading_cons_of_skip {name : Text} (h : name = [] ∨ name = ['.']) (segs : List Text) :
    leading (name :: segs) = leading segs := by
  rcases h with rfl | rfl <;> rfl

theorem leading_cons_of_ne {name : Text} (h : ¬ (name = [] ∨ name = ['.'])) (segs : List Text) :
    leading (name :: segs) = name :: leading segs := by
  rw [not_or] at h
  exact List.filter_cons_of_pos (by simp [h.1, h.2])

def EndsInName (segs : List Text) : Prop := ∀ n ∈ segs.getLast?, ¬ (n = [] ∨ n = ['.'])

theorem endsInName_nil : EndsInName [] := fun _ h => absurd h (Option.not_mem_none _)

theorem endsInName_cons {name : Text} {segs : List Text} (h : segs ≠ []) :
    EndsInName (name :: segs) ↔ EndsInName segs := by
  rw [EndsInName, EndsInName, List.getLast?_cons_of_ne_nil h]

theorem EndsInName.leading_ne_nil {segs : List Text} (h : EndsInName segs) (hne : segs ≠ []) :
    leading segs ≠ [] := by
  have hlast := h _ (List.getLast?_eq_some_getLast hne)
  rw [not_or] at hlast
  refine List.ne_nil_of_mem (List.mem_filter.2 ⟨List.getLast_mem hne, ?_⟩)
  simp [hlast.1, hlast.2]

end Path

namespace FileSystem

variable {fs fs' : FileSystem} {followLast : Bool} {onLink : Place → List Text → Except Fault Spot}
  {here place : Place} {segs : List Text} {node : Node}

theorem node?_eq_directory_of_append {name : Text} {below : Place}
    (h : fs.node? (here ++ name :: below) = some node) :
    fs.node? here = some .directory := by
  obtain ⟨e, he, -⟩ := Option.map_eq_some_iff.1 h
  rw [← Entry.at?_directory, Entry.at?_append, Entry.at?_directory] at he
  obtain ⟨e', he', hbelow⟩ := Option.bind_eq_some_iff.1 he
  cases e' with
  | file bytes => cases hbelow
  | link target => cases hbelow
  | directory l => exact node?_eq_directory_iff.2 ⟨l, he'⟩

theorem descend_cons_of_leads {name : Text} {rest : List Text} {next : Place}
    (hhere : fs.node? here = some .directory) (h : fs.Leads here name next) :
    fs.descend followLast onLink here (name :: rest) = fs.descend followLast onLink next rest := by
  simp only [descend_cons, hhere]
  cases h with
  | skip hskip => rw [if_pos (by simpa using hskip)]
  | up hparent =>
    rw [if_neg (by rw [hparent]; decide), if_pos hparent]
  | @down node hname hdown hshort hnode hlink =>
    rw [if_neg (by simpa using hname), if_neg hdown, if_neg (Nat.not_lt.2 hshort), hnode]
    cases node with
    | link target => exact absurd rfl (hlink target)
    | file bytes => rfl
    | directory => rfl

/-- Without links names that lead to a place do so step by step. -/
theorem exists_leads_of_descend (hfree : fs.LinkFree) {name : Text} {rest : List Text}
    (h : fs.descend followLast onLink here (name :: rest) = .ok (.taken place)) :
    fs.node? here = some .directory ∧
      ∃ next, fs.Leads here name next ∧ fs.descend followLast onLink next rest = .ok (.taken place) := by
  obtain ⟨hhere, hstep⟩ := descends_of_descend_cons h
  refine ⟨hhere, ?_⟩
  cases hstep with
  | on hleads h => exact ⟨_, hleads, h⟩
  | last hlink => exact absurd hlink (hfree _ _)
  | through _ _ _ hlink => exact absurd hlink (hfree _ _)

theorem Leads.byteLength_le {name : Text} {next : Place} (h : fs.Leads here name next) :
    byteLength name ≤ maxNameBytes := by
  cases h with
  | skip hskip => rcases hskip with rfl | rfl <;> decide
  | up hparent => rw [hparent]; decide
  | down _ _ hshort => exact hshort

/-- A step goes where resolving its name goes. -/
theorem Leads.resolveNames_leading {name : Text} {next : Place} (h : fs.Leads here name next)
    (hhere : ∀ n ∈ here, n ≠ Path.parentName) (rest : List Text) :
    (∀ n ∈ next, n ≠ Path.parentName) ∧
      Path.resolveNames true next.reverse (Path.leading rest) =
        Path.resolveNames true here.reverse (Path.leading (name :: rest)) := by
  cases h with
  | skip hskip => exact ⟨hhere, by rw [Path.leading_cons_of_skip hskip]⟩
  | up hparent =>
    refine ⟨fun n hn => hhere n (List.dropLast_subset here hn), ?_⟩
    rw [hparent, Path.leading_cons_of_ne (by decide)]
    -- above the root is the root
    rcases List.eq_nil_or_concat' here with rfl | ⟨above, last, rfl⟩
    · rw [List.reverse_nil, Path.resolveNames_parent_nil]
      rfl
    · rw [List.dropLast_concat, List.reverse_append, List.reverse_singleton, List.singleton_append,
        Path.resolveNames_parent_cons, if_neg (hhere last (List.mem_append_right _ (List.mem_singleton_self _)))]
  | down hname hdown _ _ _ =>
    refine ⟨fun n hn => ?_, ?_⟩
    · rcases List.mem_append.1 hn with hn | hn
      · exact hhere n hn
      · rwa [List.mem_singleton.1 hn]
    · rw [Path.leading_cons_of_ne hname, Path.resolveNames_of_ne hdown, List.reverse_append]
      rfl

/-- Without links names lead to where the last ones are left of which none is taken back, and only a directory has
names behind it that lead nowhere. -/
theorem descend_eq_taken (hfree : fs.LinkFree) (hhere : ∀ n ∈ here, n ≠ Path.parentName)
    (h : fs.descend followLast onLink here segs = .ok (.taken place)) :
    place = Path.resolveNames true here.reverse (Path.leading segs) ∧ (∀ n ∈ segs, byteLength n ≤ maxNameBytes) ∧
      (fs.node? place ≠ some .directory → Path.EndsInName segs) := by
  -- name by name, with the names that have led to the place so far on the stack of the resolution
  induction segs generalizing here with
  | nil =>
    rw [descend] at h
    cases h
    exact ⟨by rw [Path.leading, List.filter_nil, Path.resolveNames_nil, List.reverse_reverse], List.forall_mem_nil _,
      fun _ => Path.endsInName_nil⟩
  | cons name rest ih =>
    obtain ⟨hdirectory, next, hleads, h⟩ := exists_leads_of_descend hfree h
    obtain ⟨hnext, hresolve⟩ := hleads.resolveNames_leading hhere rest
    obtain ⟨hplace, hlengths, hend⟩ := ih hnext h
    refine ⟨hplace.trans hresolve, List.forall_mem_cons.2 ⟨hleads.byteLength_le, hlengths⟩, fun hnode => ?_⟩
    by_cases hrest : rest = []
    · -- the last name is not skipped, for then the way would end in a directory
      subst hrest
      rw [descend] at h
      cases h
      rintro n hn hskip
      cases hn
      cases hleads with
      | skip => exact hnode hdirectory
      | up hparent => exact absurd hskip (by rw [hparent]; decide)
      | down hname => exact hname hskip
    · exact (Path.endsInName_cons hrest).2 (hend hnode)

/-- Names that lead to a file still lead there if the directories are still there, and the file. -/
theorem descend_of_taken_file (hfree : fs.LinkFree) {onLink' : Place → List Text → Except Fault Spot}
    (hdirectories : ∀ p, fs.node? p = some .directory → fs'.node? p = some .directory) {bytes bytes' : Bytes}
    (h : fs.descend followLast onLink here segs = .ok (.taken place)) (hfile : fs.node? place = some (.file bytes))
    (hfile' : fs'.node? place = some (.file bytes')) :
    fs'.descend followLast onLink' here segs = .ok (.taken place) := by
  induction segs generalizing here with
  | nil =>
    rw [descend] at h ⊢
    exact h
  | cons name rest ih =>
    obtain ⟨hdirectory, next, hleads, h⟩ := exists_leads_of_descend hfree h
    have hleads' : fs'.Leads here name next := by
      cases hleads with
      | skip hskip => exact .skip hskip
      | up hparent => exact .up hparent
      | @down node hname hdown hshort hnode hlink =>
        cases rest with
        | nil =>
          rw [descend] at h
          cases h
          exact .down hname hdown hshort hfile' fun _ h => by cases h
        | cons n ns =>
          -- names lead on from a directory only
          have hnext := (exists_leads_of_descend hfree h).1
          exact .down hname hdown hshort (hdirectories _ hnext) fun _ h => by cases h
    rw [descend_cons_of_leads (hdirectories _ hdirectory) hleads']
    exact ih h

/-- To a place where something is, the names that spell it lead, unless one of them is too long. -/
theorem descend_of_node? (hfree : fs.LinkFree) (hsegs : Path.parentName ∉ segs)
    (hnode : fs.node? (here ++ Path.leading segs) = some node)
    (hend : node = .directory ∨ Path.EndsInName segs) :
    fs.descend followLast onLink here segs =
      if ∀ n ∈ segs, byteLength n ≤ maxNameBytes then .ok (.taken (here ++ Path.leading segs))
      else .error .nameTooLong := by
  induction segs generalizing here with
  | nil =>
    rw [descend, if_pos (List.forall_mem_nil _), Path.leading, List.filter_nil, List.append_nil]
  | cons name rest ih =>
    rw [List.mem_cons, not_or] at hsegs
    have hrestEnd : node = .directory ∨ Path.EndsInName rest := by
      refine hend.imp_right fun hend => ?_
      by_cases hrest : rest = []
      · subst hrest
        exact Path.endsInName_nil
      · exact (Path.endsInName_cons hrest).1 hend
    simp only [List.forall_mem_cons]
    by_cases hname : name = [] ∨ name = ['.']
    · have hstep : fs.Leads here name here := .skip hname
      have hhere : fs.node? here = some .directory := by
        rw [Path.leading_cons_of_skip hname] at hnode
        cases hleading : Path.leading rest with
        | cons n ns =>
          rw [hleading] at hnode
          exact node?_eq_directory_of_append hnode
        | nil =>
          -- nothing behind leads anywhere, so the way ends in a directory
          rcases hend with rfl | hend
          · rwa [hleading, List.append_nil] at hnode
          · have hne := hend.leading_ne_nil (List.cons_ne_nil _ _)
            rw [Path.leading_cons_of_skip hname, hleading] at hne
            exact absurd rfl hne
      rw [Path.leading_cons_of_skip hname] at hnode ⊢
      rw [descend_cons_of_leads hhere hstep, ih hsegs.2 hnode hrestEnd]
      simp only [hstep.byteLength_le, true_and]
    · rw [Path.leading_cons_of_ne hname] at hnode ⊢
      have hhere := node?_eq_directory_of_append hnode
      by_cases hlong : byteLength name > maxNameBytes
      · rw [if_neg (fun h => absurd h.1 (Nat.not_le.2 hlong))]
        simp only [descend_cons, hhere]
        rw [if_neg (by simpa using hname), if_neg (Ne.symm hsegs.1), if_pos hlong]
      · rw [List.append_cons] at hnode ⊢
        have hthere : ∃ node', fs.node? (here ++ [name]) = some node' := by
          cases hleading : Path.leading rest with
          | nil => exact ⟨node, by rwa [hleading, List.append_nil] at hnode⟩
          | cons n ns =>
            rw [hleading] at hnode
            exact ⟨_, node?_eq_directory_of_append hnode⟩
        obtain ⟨node', hthere⟩ := hthere
        have hstep : fs.Leads here name (here ++ [name]) :=
          .down hname (Ne.symm hsegs.1) (Nat.not_lt.1 hlong) hthere fun target hlink => hfree _ target (hlink ▸ hthere)
        rw [descend_cons_of_leads hhere hstep, ih hsegs.2 hnode hrestEnd]
        simp only [hstep.byteLength_le, true_and]

/-! ## 2. Absolute paths -/

def IsShort (path : Text) : Prop :=
  byteLength path ≤ maxPathBytes ∧ ∀ n ∈ Text.splitOn '/' path, byteLength n ≤ maxNameBytes

instance : DecidablePred IsShort := fun _ => inferInstanceAs (Decidable (_ ∧ _))

variable {path : Text} {entry : Entry}

theorem not_mem_splitOn_of_not_mem_names (h : Path.parentName ∉ Path.names path) :
    Path.parentName ∉ Text.splitOn '/' path :=
  fun hmem => h (List.mem_filter.2 ⟨hmem, by decide⟩)

theorem locate_of_isAbsolute (h : Path.isAbsolute path = true) :
    fs.locate followLast path =
      if byteLength path ≤ maxPathBytes then
        fs.descend followLast (fs.walkNames followLast (maxLinks - 1)) [] (Text.splitOn '/' path)
      else .error .nameTooLong := by
  have hne : path ≠ [] := by
    rintro rfl
    cases h
  unfold locate
  rw [if_neg hne, Path.join_of_isAbsolute h]
  by_cases hlong : byteLength path > maxPathBytes
  · rw [if_pos hlong, if_neg (by omega)]
  · rw [if_neg hlong, if_pos (by omega)]
    rfl

/-- The place of an absolute path: its names, each `..` taking back the one before it. -/
theorem entry?_eq_ok (hfree : fs.LinkFree) (habsolute : Path.isAbsolute path = true)
    (h : fs.entry? path = .ok entry) :
    fs.locate true path = .ok (.taken (Path.names (Path.normalize path))) ∧
      fs.entries.at? (Path.names (Path.normalize path)) = some entry ∧ IsShort path ∧
      (entry.node ≠ .directory → Path.EndsInName (Text.splitOn '/' path)) := by
  obtain ⟨spot, hspot, hthere⟩ := bind_eq_ok.1 h
  cases spot with
  | free directory name => cases hthere
  | taken place =>
    dsimp only at hthere
    cases hentry : fs.entries.at? place with
    | none =>
      rw [hentry] at hthere
      cases hthere
    | some e =>
      rw [hentry] at hthere
      cases hthere
      have hspot' := hspot
      rw [locate_of_isAbsolute habsolute] at hspot'
      split at hspot'
      · rename_i hshort
        obtain ⟨hplace, hlengths, hend⟩ := descend_eq_taken hfree (fun n hn => absurd hn List.not_mem_nil) hspot'
        -- where the names lead is the normal form of the path
        have hnames : place = Path.names (Path.normalize path) := by
          rw [hplace, Path.names_normalize habsolute]
          rfl
        rw [← hnames]
        refine ⟨hspot, hentry, ⟨hshort, hlengths⟩, fun hnode => hend fun hdirectory => hnode ?_⟩
        rw [node?, Listing.node?, hentry] at hdirectory
        exact Option.some.inj hdirectory
      · cases hspot'

/-- To what stands at the place of its names an absolute path leads that never goes up, unless it is too long. -/
theorem entry?_of_at? (hfree : fs.LinkFree) (habsolute : Path.isAbsolute path = true)
    (hup : Path.parentName ∉ Path.names path) (hentry : fs.entries.at? (Path.names path) = some entry)
    (hend : entry.node = .directory ∨ Path.EndsInName (Text.splitOn '/' path)) :
    fs.entry? path = if IsShort path then .ok entry else .error .nameTooLong := by
  have hnode : fs.node? ([] ++ Path.leading (Text.splitOn '/' path)) = some entry.node := by
    show fs.node? (Path.names path) = _
    rw [node?, Listing.node?, hentry]
    rfl
  unfold entry?
  rw [locate_of_isAbsolute habsolute,
    descend_of_node? hfree (not_mem_splitOn_of_not_mem_names hup) hnode hend]
  by_cases hshort : byteLength path ≤ maxPathBytes
  · by_cases hlengths : ∀ n ∈ Text.splitOn '/' path, byteLength n ≤ maxNameBytes
    · have hboth : IsShort path := ⟨hshort, hlengths⟩
      rw [if_pos hshort, if_pos hlengths, if_pos hboth]
      have hplace : fs.entries.at? ([] ++ Path.leading (Text.splitOn '/' path)) = some entry := hentry
      simp only [bind, Except.bind, hplace]
    · rw [if_pos hshort, if_neg hlengths, if_neg fun h => hlengths h.2]
      rfl
  · rw [if_neg hshort, if_neg fun h => hshort h.1]
    rfl

theorem read_of_file {bytes : Bytes} (hfree : fs.LinkFree) (habsolute : Path.isAbsolute path = true)
    (hup : Path.parentName ∉ Path.names path) (hend : Path.EndsInName (Text.splitOn '/' path))
    (hfile : fs.node? (Path.names path) = some (.file bytes)) :
    fs.read path = if IsShort path then .ok bytes else .error ⟨.nameTooLong, path⟩ := by
  unfold FileSystem.read
  rw [entry?_of_at? hfree habsolute hup (node?_eq_file_iff.1 hfile) (.inr hend)]
  by_cases hshort : IsShort path
  · rw [if_pos hshort, if_pos hshort]
  · rw [if_neg hshort, if_neg hshort]

theorem exists_file_of_isFile (hfree : fs.LinkFree) (habsolute : Path.isAbsolute path = true)
    (h : fs.isFile path = true) :
    ∃ bytes, fs.locate true path = .ok (.taken (Path.names (Path.normalize path))) ∧
      fs.node? (Path.names (Path.normalize path)) = some (.file bytes) ∧ IsShort path ∧
      Path.EndsInName (Text.splitOn '/' path) := by
  unfold isFile at h
  split at h
  · rename_i bytes hentry
    obtain ⟨hspot, hplace, hshort, hend⟩ := entry?_eq_ok hfree habsolute hentry
    exact ⟨bytes, hspot, node?_eq_file_iff.2 hplace, hshort, hend nofun⟩
  · cases h

theorem isFile_of_node? (hfree : fs.LinkFree) (habsolute : Path.isAbsolute path = true)
    (hup : Path.parentName ∉ Path.names path) (hshort : IsShort path)
    (hend : Path.EndsInName (Text.splitOn '/' path)) {bytes : Bytes}
    (hfile : fs.node? (Path.names path) = some (.file bytes)) : fs.isFile path = true := by
  unfold isFile
  rw [entry?_of_at? hfree habsolute hup (node?_eq_file_iff.1 hfile) (.inr hend), if_pos hshort]

/-! ## 3. Paths below a directory -/

theorem byteLength_append (s t : Text) : byteLength (s ++ t) = byteLength s + byteLength t := by
  induction s with
  | nil => exact (Nat.zero_add _).symm
  | cons c s ih =>
    show c.utf8Size + byteLength (s ++ t) = c.utf8Size + byteLength s + byteLength t
    rw [ih, Nat.add_assoc]

variable {top name : Text} {way : List Text}

theorem exists_lead_splitOn_join (base : Text) :
    ∃ lead, (Text.splitOn '/' base = lead ∨ Text.splitOn '/' base = lead ++ [[]]) ∧
      ∀ path, Path.isAbsolute path = false →
        Text.splitOn '/' (Path.join base path) = lead ++ Text.splitOn '/' path := by
  by_cases hbase : base = []
  · subst hbase
    refine ⟨[], .inr rfl, fun path _ => ?_⟩
    rw [Path.join_nil]
    rfl
  by_cases hlast : base.getLast? = some '/'
  · obtain ⟨start, rfl⟩ := List.getLast?_eq_some_iff.1 hlast
    refine ⟨Text.splitOn '/' start, .inr (Text.splitOn_append '/' start []), fun path hpath => ?_⟩
    rw [Path.join_of_ne_nil hbase hpath, if_pos hlast, List.append_assoc, List.singleton_append,
      Text.splitOn_append]
  · refine ⟨Text.splitOn '/' base, .inl rfl, fun path hpath => ?_⟩
    rw [Path.join_of_ne_nil hbase hpath, if_neg hlast, Text.splitOn_append]

theorem byteLength_le_join {top : Text} (hpath : Path.isAbsolute path = false) :
    byteLength top ≤ byteLength (Path.join top path) := by
  by_cases htop : top = []
  · rw [htop]
    exact Nat.zero_le _
  · rw [Path.join_of_ne_nil htop hpath]
    split
    · rw [byteLength_append]
      exact Nat.le_add_right _ _
    · rw [byteLength_append]
      exact Nat.le_add_right _ _

theorem below_concat (top : Text) (way : List Text) (name : Text) :
    below top (way ++ [name]) = Path.join (below top way) name := by
  unfold below
  rw [List.foldl_append]
  rfl

theorem isAbsolute_joinWith (hway : Place.IsProper way) : Path.isAbsolute (Text.joinWith '/' way) = false := by
  have hhead := Path.joinWith_head fun n hn => (hway n hn).1
  simpa [Path.isAbsolute] using hhead

/-- Names one below another are the same as the path that they make. -/
theorem below_eq_join (hway : Place.IsProper way) (hne : way ≠ []) :
    below top way = Path.join top (Text.joinWith '/' way) := by
  induction way generalizing top with
  | nil => exact absurd rfl hne
  | cons name way ih =>
    cases way with
    | nil => rfl
    | cons next way =>
      have hrest : Place.IsProper (next :: way) := fun n hn => hway n (List.mem_cons_of_mem _ hn)
      have hname := (hway name List.mem_cons_self).1
      have hjoin : Path.join name (Text.joinWith '/' (next :: way)) = Text.joinWith '/' (name :: next :: way) := by
        rw [Path.join_of_ne_nil hname.1 (isAbsolute_joinWith hrest), if_neg, Text.joinWith_cons_cons]
        exact fun hlast => hname.2.2 (List.mem_of_getLast? hlast)
      show below (Path.join top name) (next :: way) = _
      rw [ih hrest (List.cons_ne_nil _ _), Path.join_assoc, hjoin]

theorem ne_nil_of_isAbsolute {path : Text} (h : Path.isAbsolute path = true) : path ≠ [] := by
  rintro rfl
  cases h

theorem isAbsolute_below (htop : Path.isAbsolute top = true) (way : List Text) :
    Path.isAbsolute (below top way) = true := by
  induction way using List.reverseRecOn with
  | nil => exact htop
  | append_singleton way name ih =>
    rw [below_concat]
    exact Path.isAbsolute_join ih name

theorem names_below (top : Text) (hway : Place.IsProper way) :
    Path.names (below top way) = Path.names top ++ way := by
  by_cases hne : way = []
  · subst hne
    exact (List.append_nil _).symm
  · rw [below_eq_join hway hne, Path.names_join (isAbsolute_joinWith hway),
      Path.names_joinWith fun n hn => (hway n hn).1]

theorem names_absolute_below (cwd top : Text) (hway : Place.IsProper way) :
    Path.names (Path.absolute cwd (below top way)) = Path.names (Path.absolute cwd top) ++ way := by
  by_cases hne : way = []
  · subst hne
    exact (List.append_nil _).symm
  have hrelative := isAbsolute_joinWith hway
  unfold Path.absolute
  rw [below_eq_join hway hne, ← Path.join_assoc, Path.names_normalize_eq, Path.names_normalize_eq,
    Path.isAbsolute_join_eq hrelative, Path.names_join hrelative, Path.names_joinWith fun n hn => (hway n hn).1,
    Path.resolveNames_append, Path.resolveNames_proper (fun n hn => (hway n hn).2), List.reverse_reverse]

/-- From a directory, what is below it is told by the names that lead there. -/
theorem relative_below_normalize (cwd root : Text) {fixed : List Text} (hfixed : Place.IsProper fixed)
    (hway : Place.IsProper way) (hne : way ≠ []) :
    Path.relative cwd (below (Path.normalize (Path.join root (Text.joinWith '/' fixed))) way) root =
      Text.joinWith '/' (fixed ++ way) := by
  have htop : Path.names (Path.absolute cwd (Path.join root (Text.joinWith '/' fixed))) =
      Path.names (Path.absolute cwd root) ++ fixed := by
    by_cases hnil : fixed = []
    · subst hnil
      show Path.names (Path.absolute cwd (Path.join root [])) = _
      rw [← Path.names_absolute_normalize, Path.normalize_join_nil, Path.names_absolute_normalize, List.append_nil]
    · rw [← below_eq_join hfixed hnil, names_absolute_below cwd root hfixed]
  have hall : ∀ n ∈ fixed ++ way, Path.IsName n := fun n hn => (hfixed.append hway n hn).1
  have hnil := Path.joinWith_ne_nil (List.append_ne_nil_of_right_ne_nil fixed hne) hall
  unfold Path.relative
  rw [names_absolute_below cwd _ hway, Path.names_absolute_normalize, htop, List.append_assoc, Path.dropCommon_append]
  exact Path.ofNames_eq_append hnil

/-- The normal form of what is below a path is below the normal form of the path, unless that is `.`. -/
theorem normalize_below {p : Text} (hway : Place.IsProper way) (hp : Path.normalize p ≠ ['.']) :
    Path.normalize (below p way) = below (Path.normalize p) way := by
  by_cases hne : way = []
  · rw [hne]
    rfl
  have hrelative := isAbsolute_joinWith hway
  have hwayNames : ∀ n ∈ way, Path.IsName n := fun n hn => (hway n hn).1
  have hnames : ∀ n ∈ Path.resolveNames (Path.isAbsolute p) [] (Path.names p), Path.IsName n :=
    Path.isName_of_mem_resolveNames nofun fun n hn => Path.isName_of_mem_names hn
  have hresolved : Path.resolveNames (Path.isAbsolute p) [] (Path.names p ++ way) =
      Path.resolveNames (Path.isAbsolute p) [] (Path.names p) ++ way := by
    rw [Path.resolveNames_append, Path.resolveNames_proper (fun n hn => (hway n hn).2), List.reverse_reverse]
  rw [below_eq_join hway hne, below_eq_join hway hne]
  unfold Path.normalize at hp ⊢
  rw [Path.rootOf_join hrelative, Path.isAbsolute_join_eq hrelative, Path.names_join hrelative,
    Path.names_joinWith hwayNames, hresolved, Path.join_ofNames (Path.rootOf_eq p) hnames hwayNames hne hp]

theorem endsInName_below (hway : Place.IsProper way) (hne : way ≠ []) :
    Path.EndsInName (Text.splitOn '/' (below top way)) := by
  obtain ⟨lead, -, hjoin⟩ := exists_lead_splitOn_join top
  rw [below_eq_join hway hne, hjoin _ (isAbsolute_joinWith hway),
    Text.splitOn_joinWith hne fun n hn => (hway n hn).1.2.2]
  intro n hn
  rw [List.getLast?_append_of_ne_nil _ hne] at hn
  have hname := (hway n (List.mem_of_getLast? hn)).1
  exact not_or.2 ⟨hname.1, hname.2.1⟩

/-! ## 4. Where names below a directory lead -/

theorem descend_append (hfree : fs.LinkFree) {more : List Text} :
    fs.descend followLast onLink here (segs ++ more) = .ok (.taken place) ↔
      ∃ mid, fs.descend followLast onLink here segs = .ok (.taken mid) ∧
        fs.descend followLast onLink mid more = .ok (.taken place) := by
  -- both sides take the same steps along the first names
  induction segs generalizing here with
  | nil =>
    rw [List.nil_append, descend]
    constructor
    · intro h
      exact ⟨here, rfl, h⟩
    · rintro ⟨mid, hmid, h⟩
      cases hmid
      exact h
  | cons name segs ih =>
    rw [List.cons_append]
    constructor
    · intro h
      obtain ⟨hhere, next, hleads, h⟩ := exists_leads_of_descend hfree h
      obtain ⟨mid, hmid, h⟩ := ih.1 h
      exact ⟨mid, by rw [descend_cons_of_leads hhere hleads, hmid], h⟩
    · rintro ⟨mid, hmid, h⟩
      obtain ⟨hhere, next, hleads, hmid⟩ := exists_leads_of_descend hfree hmid
      rw [descend_cons_of_leads hhere hleads]
      exact ih.2 ⟨mid, hmid, h⟩

/-- Whether a path that is not empty leads to a place, however long it is. -/
def LeadsTo (fs : FileSystem) (path : Text) (place : Place) : Prop :=
  fs.descend true (fs.walkNames true (maxLinks - 1)) [] (Text.splitOn '/' (Path.join fs.cwd path)) =
    .ok (.taken place)

theorem locate_eq_taken (hpath : path ≠ []) :
    fs.locate true path = .ok (.taken place) ↔ byteLength path ≤ maxPathBytes ∧ fs.LeadsTo path place := by
  unfold locate LeadsTo
  rw [if_neg hpath]
  by_cases hlong : byteLength path > maxPathBytes
  · rw [if_pos hlong]
    exact ⟨nofun, fun h => absurd h.1 (Nat.not_le.2 hlong)⟩
  · rw [if_neg hlong]
    exact ⟨fun h => ⟨Nat.not_lt.1 hlong, h⟩, fun h => h.2⟩

theorem entry?_eq_ok_iff (hpath : path ≠ []) :
    fs.entry? path = .ok entry ↔
      byteLength path ≤ maxPathBytes ∧ ∃ place, fs.LeadsTo path place ∧ fs.entries.at? place = some entry := by
  constructor
  · intro h
    obtain ⟨spot, hspot, hthere⟩ := bind_eq_ok.1 h
    cases spot with
    | free directory name => cases hthere
    | taken place =>
      obtain ⟨hlength, hleads⟩ := (locate_eq_taken hpath).1 hspot
      refine ⟨hlength, place, hleads, ?_⟩
      dsimp only at hthere
      split at hthere
      · rename_i hentry
        cases hthere
        exact hentry
      · cases hthere
  · rintro ⟨hlength, place, hleads, hentry⟩
    unfold entry?
    rw [(locate_eq_taken hpath).2 ⟨hlength, hleads⟩]
    simp only [bind, Except.bind, hentry]

/-- A dot and a slash at the start of a path lead nowhere else. -/
theorem leadsTo_here (hfree : fs.LinkFree) (hpath : Path.isAbsolute path = false) :
    fs.LeadsTo ('.' :: '/' :: path) place ↔ fs.LeadsTo path place := by
  obtain ⟨lead, -, hjoin⟩ := exists_lead_splitOn_join fs.cwd
  obtain ⟨name, rest, hsegs⟩ := List.exists_cons_of_ne_nil (Text.splitOn_ne_nil '/' path)
  unfold LeadsTo
  rw [hjoin path hpath, hjoin _ rfl, Path.splitOn_here, descend_append hfree, descend_append hfree]
  refine exists_congr fun mid => and_congr_right fun _ => ?_
  constructor
  · intro h
    obtain ⟨hmid, -⟩ := exists_leads_of_descend hfree h
    rwa [descend_cons_of_leads hmid (.skip (.inr rfl))] at h
  · intro h
    rw [hsegs] at h
    obtain ⟨hmid, -⟩ := exists_leads_of_descend hfree h
    rw [descend_cons_of_leads hmid (.skip (.inr rfl)), hsegs]
    exact h

theorem isFile_iff (hpath : path ≠ []) :
    fs.isFile path = true ↔ byteLength path ≤ maxPathBytes ∧
      ∃ place bytes, fs.LeadsTo path place ∧ fs.node? place = some (.file bytes) := by
  constructor
  · intro h
    unfold isFile at h
    split at h
    · rename_i bytes hentry
      obtain ⟨hlength, place, hleads, hplace⟩ := (entry?_eq_ok_iff hpath).1 hentry
      exact ⟨hlength, place, bytes, hleads, node?_eq_file_iff.2 hplace⟩
    · cases h
  · rintro ⟨hlength, place, bytes, hleads, hfile⟩
    unfold isFile
    rw [(entry?_eq_ok_iff hpath).2 ⟨hlength, place, hleads, node?_eq_file_iff.1 hfile⟩]

theorem below_ne_nil (htop : top ≠ []) (hway : Place.IsProper way) : below top way ≠ [] := by
  by_cases hne : way = []
  · subst hne
    exact htop
  · rw [below_eq_join hway hne, Path.join_of_ne_nil htop (isAbsolute_joinWith hway)]
    split
    · exact List.append_ne_nil_of_left_ne_nil htop _
    · exact List.append_ne_nil_of_left_ne_nil htop _

/-- The path of a file below `.` is longer than the names that lead to it. -/
theorem isFile_below_here (hfree : fs.LinkFree) (hway : Place.IsProper way) (hne : way ≠ []) :
    fs.isFile (below ['.'] way) = true ↔
      fs.isFile (Text.joinWith '/' way) = true ∧ byteLength (Text.joinWith '/' way) + 2 ≤ maxPathBytes := by
  have hbelow : below ['.'] way = '.' :: '/' :: Text.joinWith '/' way := by
    rw [below_eq_join hway hne, Path.join_of_ne_nil (List.cons_ne_nil _ _) (isAbsolute_joinWith hway)]
    rfl
  have hlength : byteLength ('.' :: '/' :: Text.joinWith '/' way) = byteLength (Text.joinWith '/' way) + 2 := by
    show 1 + (1 + byteLength (Text.joinWith '/' way)) = _
    omega
  rw [hbelow, isFile_iff (List.cons_ne_nil _ _), isFile_iff (Path.joinWith_ne_nil hne fun n hn => (hway n hn).1), hlength]
  simp only [leadsTo_here hfree (isAbsolute_joinWith hway)]
  constructor
  · rintro ⟨hshort, hplace⟩
    exact ⟨⟨by omega, hplace⟩, hshort⟩
  · rintro ⟨⟨-, hplace⟩, hshort⟩
    exact ⟨hshort, hplace⟩

/-- A file that is reached from a directory below a root is the one that the names from the root lead to.  Only where
the root is told as `.` and no directory is named, the path is longer than the names. -/
theorem isFile_below_normalize (hfree : fs.LinkFree) {fixed : List Text} (hfixed : Place.IsProper fixed)
    (hway : Place.IsProper way) (hne : way ≠ []) (root : Text) :
    fs.isFile (below (Path.normalize (Path.join root (Text.joinWith '/' fixed))) way) = true ↔
      fs.isFile (Path.normalize (Path.join root (Text.joinWith '/' (fixed ++ way)))) = true ∧
        (Path.normalize root = ['.'] → fixed = [] → byteLength (Text.joinWith '/' way) + 2 ≤ maxPathBytes) := by
  have hfixedNames : ∀ n ∈ fixed, Path.IsName n := fun n hn => (hfixed n hn).1
  have hwayNames : ∀ n ∈ way, Path.IsName n := fun n hn => (hway n hn).1
  have hjoin : below (Path.join root (Text.joinWith '/' fixed)) way =
      Path.join root (Text.joinWith '/' (fixed ++ way)) := by
    rw [below_eq_join hway hne, Path.join_assoc, Path.join_joinWith hfixedNames hwayNames hne]
  by_cases hhere : Path.normalize (Path.join root (Text.joinWith '/' fixed)) = ['.']
  -- the normal form `.` stands for no name at all, so that no directory is named
  · obtain ⟨habsolute, hresolve⟩ := Path.resolveNames_of_normalize_eq hhere
    have hnil : fixed = [] := by
      rw [Path.names_join (isAbsolute_joinWith hfixed), Path.names_joinWith hfixedNames, Path.resolveNames_append,
        Path.resolveNames_proper (fun n hn => (hfixed n hn).2)] at hresolve
      exact (List.append_eq_nil_iff.1 hresolve).2
    subst hnil
    have hroot : Path.normalize root = ['.'] := (Path.normalize_join_nil root).symm.trans hhere
    rw [hhere, isFile_below_here hfree hway hne, List.nil_append, Path.normalize_join_of_normalize_eq hroot hway hne]
    exact and_congr_right fun _ => ⟨fun hshort _ _ => hshort, fun hshort => hshort hroot rfl⟩
  · rw [← hjoin, normalize_below hway hhere]
    refine ⟨fun h => ⟨h, fun hroot hnil => absurd ?_ hhere⟩, fun h => h.1⟩
    rw [hnil]
    exact (Path.normalize_join_nil root).trans hroot

theorem endsInName_normalize {path : Text} (h : Path.isAbsolute path = true)
    (hne : Path.names (Path.normalize path) ≠ []) : Path.EndsInName (Text.splitOn '/' (Path.normalize path)) := by
  rw [Path.names_normalize h] at hne
  have hproper := Path.isProper_of_mem_resolveNames_names path
  have hlast : ∀ slashes : Text, Path.EndsInName (Text.splitOn '/'
      (slashes ++ '/' :: Text.joinWith '/' (Path.resolveNames true [] (Path.names path)))) := by
    intro slashes n hn
    rw [Text.splitOn_append, Text.splitOn_joinWith hne fun n hn => (hproper n hn).1.2.2,
      List.getLast?_append_of_ne_nil _ hne] at hn
    obtain ⟨⟨hempty, hdot, -⟩, -⟩ := hproper n (List.mem_of_getLast? hn)
    exact not_or.2 ⟨hempty, hdot⟩
  unfold Path.normalize Path.rootOf
  rw [h]
  simp only [Bool.not_true, Bool.false_eq_true, if_false]
  split
  · exact hlast ['/']
  · exact hlast []

/-! ## 5. Real paths -/

/-- Without links names lead where they say. -/
theorem realNames_of_linkFree (hfree : fs.LinkFree) {onLink : Place → List Text → Except RealPathError Place}
    {here : Place} (hhere : Path.parentName ∉ here) (names : List Text) :
    fs.realNames onLink here names =
      if names.any (·.elem '\x00') then .error .embeddedNul
      else .ok (Path.resolveNames true here.reverse (names.filter fun n => n ≠ [] && n ≠ ['.'])) := by
  -- names that are skipped, names that go up and names that go down, as in the resolution
  induction names generalizing here with
  | nil => simp [realNames, Path.resolveNames_nil]
  | cons name rest ih =>
    rw [realNames_cons]
    by_cases hempty : name = [] ∨ name = ['.']
    · rw [if_pos (by simpa using hempty), ih hhere]
      rcases hempty with rfl | rfl <;> rfl
    rw [if_neg (by simpa using hempty), List.filter_cons_of_pos (by simpa using hempty), List.any_cons]
    by_cases hup : name = Path.parentName
    · subst hup
      rw [if_pos rfl, ih fun hmem => hhere (List.dropLast_subset _ hmem)]
      -- going up from the root stays there
      rcases List.eq_nil_or_concat' here with rfl | ⟨here, last, rfl⟩
      · rw [List.reverse_nil, Path.resolveNames_parent_nil]
        rfl
      · have hlast : last ≠ Path.parentName := fun h => hhere (by simp [h])
        rw [List.dropLast_concat, List.reverse_concat, Path.resolveNames_parent_cons, if_neg hlast]
        rfl
    · rw [if_neg hup, Path.resolveNames_of_ne hup]
      by_cases hnul : name.elem '\x00' = true
      · rw [if_pos hnul, hnul]
        rfl
      · have hthere : Path.parentName ∉ here ++ [name] := by simp [hhere, Ne.symm hup]
        rw [if_neg hnul, Bool.eq_false_iff.2 hnul, Bool.false_or, ← List.reverse_concat, ← ih hthere]
        split
        · rename_i target hlink
          exact absurd hlink (hfree _ target)
        · rfl

theorem realNamesUpTo_of_linkFree (hfree : fs.LinkFree) (depth : Nat) (names : List Text) :
    fs.realNamesUpTo depth [] names =
      if names.any (·.elem '\x00') then .error .embeddedNul
      else .ok (Path.resolveNames true [] (names.filter fun n => n ≠ [] && n ≠ ['.'])) := by
  cases depth <;> exact realNames_of_linkFree hfree List.not_mem_nil names

theorem realPath_of_linkFree (hfree : fs.LinkFree) (hnul : '\x00' ∉ Path.join fs.cwd path) :
    fs.realPath path = .ok (Place.path (Path.resolveNames true [] (Path.names (Path.join fs.cwd path)))) := by
  have hnames : ¬ (Text.splitOn '/' (Path.join fs.cwd path)).any (·.elem '\x00') = true := by
    simp only [List.any_eq_true, List.elem_eq_mem, decide_eq_true_eq, not_exists, not_and]
    exact fun n hn hmem => hnul (Text.mem_of_mem_splitOn hn hmem)
  rw [realPath, realNamesUpTo_of_linkFree hfree, if_neg hnames]
  rfl

/-- Without links, nothing that stands anywhere shows in a real path. -/
theorem realPath_eq_of_linkFree (hfree : fs.LinkFree) (hfree' : fs'.LinkFree) (hcwd : fs.cwd = fs'.cwd) :
    fs.realPath = fs'.realPath := by
  funext path
  rw [realPath, realPath, hcwd, realNamesUpTo_of_linkFree hfree, realNamesUpTo_of_linkFree hfree']

end FileSystem

end AssetEmbed
