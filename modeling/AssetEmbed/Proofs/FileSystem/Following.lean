import AssetEmbed.Proofs.FileSystem.Reading

/-!
# Following — where paths lead through links

A path is followed name by name.  A link on the way puts the names of its target before those that are left, and uses
up one of the links that a path may pass.  So names behind others lead on from where those lead, with the links that
these leave.
-/

namespace AssetEmbed.FileSystem

variable {fs : FileSystem} {links links' left : Nat} {here next mid place : Place} {name top path : Text}
  {segs lead more rest way : List Text} {followLast : Bool} {node : Node}

/-! ## 1. Steps -/

/-- One name leads on from a place: to the next place, or through a link, whose names then come before the others. -/
inductive Step (fs : FileSystem) (here : Place) (name : Text) : (links links' : Nat) → Place → List Text → Prop
  | on {links : Nat} {next : Place} (hleads : fs.Leads here name next) : Step fs here name links links next []
  | follow {links : Nat} {target : Text} (hname : ¬ (name = [] ∨ name = ['.'])) (hdown : name ≠ Path.parentName)
      (hshort : byteLength name ≤ maxNameBytes) (hlink : fs.node? (here ++ [name]) = some (.link target)) :
      Step fs here name (links + 1) links (if Path.isAbsolute target then [] else here) (target.splitOn '/')

theorem exists_walkNames_eq_descend (fs : FileSystem) (followLast : Bool) (links : Nat) :
    ∃ onLink, fs.walkNames followLast links = fs.descend followLast onLink ∧
      ∀ {here names spot}, onLink here names = .ok spot →
        ∃ links', links = links' + 1 ∧ fs.walkNames followLast links' here names = .ok spot := by
  cases links with
  | zero => exact ⟨_, rfl, nofun⟩
  | succ links => exact ⟨_, rfl, fun h => ⟨links, rfl, h⟩⟩

theorem walkNames_nil (fs : FileSystem) (followLast : Bool) (links : Nat) (here : Place) :
    fs.walkNames followLast links here [] = .ok (.taken here) := by
  obtain ⟨onLink, hwalk, -⟩ := exists_walkNames_eq_descend fs followLast links
  rw [hwalk, descend]

theorem Leads.walkNames_eq (h : fs.Leads here name next) (hhere : fs.node? here = some .directory)
    (followLast : Bool) (links : Nat) (rest : List Text) :
    fs.walkNames followLast links here (name :: rest) = fs.walkNames followLast links next rest := by
  obtain ⟨onLink, hwalk, -⟩ := exists_walkNames_eq_descend fs followLast links
  rw [hwalk]
  exact descend_cons_of_leads hhere h

theorem Step.walkNames_eq (h : fs.Step here name links links' next lead) (hhere : fs.node? here = some .directory)
    (hend : rest ≠ [] ∨ followLast = true) :
    fs.walkNames followLast links here (name :: rest) = fs.walkNames followLast links' next (lead ++ rest) := by
  cases h with
  | on hleads => exact hleads.walkNames_eq hhere followLast links rest
  | follow hname hdown hshort hlink =>
    show fs.descend followLast (fs.walkNames followLast links') here (name :: rest) = _
    rw [descend_cons, hhere]
    dsimp only
    rw [if_neg (by simpa using hname), if_neg hdown, if_neg (Nat.not_lt.2 hshort), hlink]
    dsimp only
    apply if_neg
    rcases hend with hrest | hfollow
    · simp [hrest]
    · simp [hfollow]

/-- Names that lead to a place do so by a step, unless they are one name, that of a link that is not followed. -/
theorem exists_step_of_walkNames (h : fs.walkNames followLast links here (name :: rest) = .ok (.taken place)) :
    fs.node? here = some .directory ∧
      ((∃ links' next lead, fs.Step here name links links' next lead ∧
          fs.walkNames followLast links' next (lead ++ rest) = .ok (.taken place)) ∨
        rest = [] ∧ followLast = false) := by
  obtain ⟨onLink, hwalk, honLink⟩ := exists_walkNames_eq_descend fs followLast links
  rw [hwalk] at h
  obtain ⟨hhere, hstep⟩ := descends_of_descend_cons h
  refine ⟨hhere, ?_⟩
  cases hstep with
  | on hleads h => exact .inl ⟨links, _, [], .on hleads, by rwa [List.nil_append, hwalk]⟩
  | last _ hrest hlast => exact .inr ⟨hrest, hlast⟩
  -- through a link its names come first, and there is one link less
  | through hname hdown hshort hlink h =>
    obtain ⟨links', rfl, h⟩ := honLink h
    exact .inl ⟨links', _, _, .follow hname hdown hshort hlink, h⟩

/-! ## 2. Ways -/

/-- Names lead from a place to another one, and leave some links for those behind them. -/
inductive Follows (fs : FileSystem) : (links : Nat) → Place → List Text → (left : Nat) → Place → Prop
  | nil {links : Nat} {here : Place} : Follows fs links here [] links here
  | cons {links links' left : Nat} {here next mid : Place} {name : Text} {lead segs : List Text}
      (hhere : fs.node? here = some .directory) (hstep : fs.Step here name links links' next lead)
      (hrest : Follows fs links' next (lead ++ segs) left mid) : Follows fs links here (name :: segs) left mid

theorem Follows.walkNames_append (h : fs.Follows links here segs left mid) (hend : more ≠ [] ∨ followLast = true) :
    fs.walkNames followLast links here (segs ++ more) = fs.walkNames followLast left mid more := by
  induction h with
  | nil => rfl
  | cons hhere hstep _ ih =>
    have hrest : ∀ {segs : List Text}, segs ++ more ≠ [] ∨ followLast = true :=
      hend.imp_left (List.append_ne_nil_of_right_ne_nil _)
    rw [List.cons_append, hstep.walkNames_eq hhere hrest, ← List.append_assoc, ih]

theorem Step.links_lt_or (h : fs.Step here name links links' next lead) :
    links' < links ∨ links' = links ∧ lead = [] := by
  cases h with
  | on => exact .inr ⟨rfl, rfl⟩
  | follow => exact .inl (Nat.lt_succ_self _)

/-- Where names lead to a place, the first ones lead to some place before. -/
theorem exists_follows_of_walkNames (hend : more ≠ [] ∨ followLast = true) :
    ∀ {links : Nat} {here : Place} {segs : List Text},
      fs.walkNames followLast links here (segs ++ more) = .ok (.taken place) →
        ∃ left mid, fs.Follows links here segs left mid
  | links, here, [], _ => ⟨links, here, .nil⟩
  | links, here, name :: segs, h => by
    obtain ⟨hhere, ⟨links', next, lead, hstep, hrest⟩ | ⟨hnil, hlast⟩⟩ := exists_step_of_walkNames h
    · have hrest : fs.walkNames followLast links' next ((lead ++ segs) ++ more) = .ok (.taken place) := by
        rw [List.append_assoc]
        exact hrest
      have hless := hstep.links_lt_or
      obtain ⟨left, mid, hfollows⟩ := exists_follows_of_walkNames hend hrest
      exact ⟨left, mid, .cons hhere hstep hfollows⟩
    · rcases hend with hmore | hfollow
      · exact absurd (List.append_eq_nil_iff.1 hnil).2 hmore
      · rw [hlast] at hfollow
        cases hfollow
-- a step through a link uses up a link, and every other one a name
termination_by links _ segs => (links, segs.length)
decreasing_by
  rcases hless with hlinks | ⟨rfl, rfl⟩
  · exact Prod.Lex.left _ _ hlinks
  · exact Prod.Lex.right _ (Nat.lt_succ_self segs.length)

theorem walkNames_eq_taken :
    fs.walkNames true links here segs = .ok (.taken place) ↔ ∃ left, fs.Follows links here segs left place := by
  constructor
  · intro h
    have happend : fs.walkNames true links here (segs ++ []) = .ok (.taken place) := by rwa [List.append_nil]
    obtain ⟨left, mid, hfollows⟩ := exists_follows_of_walkNames (.inr rfl) happend
    rw [hfollows.walkNames_append (.inr rfl), walkNames_nil] at happend
    cases happend
    exact ⟨left, hfollows⟩
  · intro h
    obtain ⟨left, hfollows⟩ := h
    have happend : fs.walkNames true links here (segs ++ []) = fs.walkNames true left place [] :=
      hfollows.walkNames_append (.inr rfl)
    rwa [List.append_nil, walkNames_nil] at happend

/-! ## 3. Names that lead down -/

/-- Names lead to what they spell where that is. -/
theorem walkNames_of_node? (hway : Place.IsProper way) (hshort : ∀ n ∈ way, byteLength n ≤ maxNameBytes)
    (hnode : fs.node? (here ++ way) = some node) (hlink : ∀ target, node = .link target → followLast = false) :
    fs.walkNames followLast links here way = .ok (.taken (here ++ way)) := by
  -- name by name: every one but the last is that of a directory, since something stands below it
  induction way generalizing here with
  | nil => rw [walkNames_nil, List.append_nil]
  | cons name rest ih =>
    obtain ⟨hname, hrestProper⟩ := List.forall_mem_cons.1 hway
    obtain ⟨hnameShort, hrestShort⟩ := List.forall_mem_cons.1 hshort
    have hskip : ¬ (name = [] ∨ name = ['.']) := not_or.2 ⟨hname.1.1, hname.1.2.1⟩
    have hhere := node?_eq_directory_of_append hnode
    have hdown : ∀ {node}, fs.node? (here ++ [name]) = some node → (∀ target, node ≠ .link target) →
        fs.walkNames followLast links here (name :: rest) = .ok (.taken (here ++ name :: rest)) := by
      intro node hthere hplain
      have hstep : fs.Leads here name (here ++ [name]) := .down hskip hname.2 hnameShort hthere hplain
      rw [List.append_cons] at hnode ⊢
      rw [hstep.walkNames_eq hhere, ih hrestProper hrestShort hnode]
    cases rest with
    | nil =>
      by_cases hplain : ∀ target, node ≠ .link target
      · exact hdown hnode hplain
      · -- a link at the end is taken as it stands
        rw [not_forall] at hplain
        obtain ⟨target, htarget⟩ := hplain
        rw [not_not] at htarget
        subst htarget
        obtain ⟨onLink, hwalk, -⟩ := exists_walkNames_eq_descend fs followLast links
        rw [hwalk, descend_cons, hhere]
        dsimp only
        rw [if_neg (by simpa using hskip), if_neg hname.2, if_neg (Nat.not_lt.2 hnameShort), hnode, hlink target rfl]
        rfl
    | cons n ns =>
      have hthere : fs.node? (here ++ [name]) = some .directory := by
        rw [List.append_cons] at hnode
        exact node?_eq_directory_of_append hnode
      exact hdown hthere nofun

/-- Where names lead to something, the first ones lead down through directories, unless there are links on the way. -/
theorem node?_eq_directory_of_walkNames (hway : Place.IsProper (way ++ name :: rest))
    (hlink : ∀ q, q <+: way → q ≠ [] → (∀ n ∈ q, byteLength n ≤ maxNameBytes) →
      ∀ target, fs.node? (here ++ q) ≠ some (.link target))
    (h : fs.walkNames followLast links here (way ++ name :: rest) = .ok (.taken place)) :
    fs.node? (here ++ way) = some .directory ∧ (∀ n ∈ way, byteLength n ≤ maxNameBytes) ∧
      fs.walkNames followLast links (here ++ way) (name :: rest) = .ok (.taken place) := by
  -- name by name, which is possible as long as none of them is that of a link
  induction way generalizing here with
  | nil =>
    rw [List.append_nil]
    exact ⟨(exists_step_of_walkNames h).1, List.forall_mem_nil _, h⟩
  | cons first way ih =>
    obtain ⟨hfirst, hrestProper⟩ := List.forall_mem_cons.1 hway
    have hskip : ¬ (first = [] ∨ first = ['.']) := not_or.2 ⟨hfirst.1.1, hfirst.1.2.1⟩
    have hpre : [first] <+: first :: way := ⟨way, rfl⟩
    obtain ⟨-, ⟨links', next, lead, hstep, hrest⟩ | ⟨hnil, -⟩⟩ := exists_step_of_walkNames h
    · -- a proper name goes down, and not through a link
      cases hstep with
      | follow hname hdown hshort hnode =>
        exact absurd hnode (hlink [first] hpre (List.cons_ne_nil _ _) (List.forall_mem_singleton.2 hshort) _)
      | on hleads =>
        cases hleads with
        | skip h => exact absurd h hskip
        | up h => exact absurd h hfirst.2
        | down _ _ hshort _ _ =>
          have hlinkRest : ∀ q, q <+: way → q ≠ [] → (∀ n ∈ q, byteLength n ≤ maxNameBytes) →
              ∀ target, fs.node? ((here ++ [first]) ++ q) ≠ some (.link target) := by
            intro q hq hne hqShort
            rw [← List.append_cons]
            exact hlink (first :: q) (List.cons_prefix_cons.2 ⟨rfl, hq⟩) (List.cons_ne_nil _ _)
              (List.forall_mem_cons.2 ⟨hshort, hqShort⟩)
          obtain ⟨hnode, hshorts, hwalk⟩ := ih hrestProper hlinkRest hrest
          rw [← List.append_cons] at hnode hwalk
          exact ⟨hnode, List.forall_mem_cons.2 ⟨hshort, hshorts⟩, hwalk⟩
    · exact absurd (List.append_eq_nil_iff.1 hnil).2 (List.cons_ne_nil _ _)

theorem node?_eq_directory_of_isPrefix (h : fs.node? (here ++ way) = some .directory) {q : List Text} (hq : q <+: way) :
    fs.node? (here ++ q) = some .directory := by
  obtain ⟨rest, rfl⟩ := hq
  cases rest with
  | nil => rwa [List.append_nil] at h
  | cons n rest =>
    rw [← List.append_assoc] at h
    exact node?_eq_directory_of_append h

theorem walkNames_behind_directory (hway : Place.IsProper (way ++ name :: rest))
    (hdirectory : fs.node? (here ++ way) = some .directory)
    (h : fs.walkNames followLast links here (way ++ name :: rest) = .ok (.taken place)) :
    (∀ n ∈ way, byteLength n ≤ maxNameBytes) ∧
      fs.walkNames followLast links (here ++ way) (name :: rest) = .ok (.taken place) := by
  refine (node?_eq_directory_of_walkNames hway ?_ h).2
  intro q hq _ _ target hlink
  rw [node?_eq_directory_of_isPrefix hdirectory hq] at hlink
  cases hlink

/-! ## 4. Paths below a directory -/

theorem leadsTo_iff_walkNames :
    fs.LeadsTo path place ↔
      fs.walkNames true maxLinks [] (Text.splitOn '/' (Path.join fs.cwd path)) = .ok (.taken place) := Iff.rfl

/-- The names of a path below a directory begin with names that lead where the path of the directory leads. -/
theorem exists_lead_below (fs : FileSystem) (top : Text) :
    ∃ lead, (∀ {way}, Place.IsProper way → way ≠ [] →
        Text.splitOn '/' (Path.join fs.cwd (below top way)) = lead ++ way) ∧
      (∀ {mid}, fs.LeadsTo top mid → ∃ left, fs.Follows maxLinks [] lead left mid) ∧
      ∀ {left mid}, fs.Follows maxLinks [] lead left mid → fs.node? mid = some .directory → fs.LeadsTo top mid := by
  obtain ⟨lead, hlead, hjoin⟩ := exists_lead_splitOn_join (Path.join fs.cwd top)
  -- an empty name at the end leads nowhere else
  have hskip : ∀ {mid}, fs.Leads mid [] mid := .skip (.inl rfl)
  refine ⟨lead, ?_, ?_, ?_⟩
  · intro way hway hne
    rw [below_eq_join hway hne, ← Path.join_assoc, hjoin _ (isAbsolute_joinWith hway),
      Text.splitOn_joinWith hne fun n hn => (hway n hn).1.2.2]
  · intro mid htop
    rw [leadsTo_iff_walkNames] at htop
    rcases hlead with hlead | hlead
    · rw [hlead] at htop
      exact walkNames_eq_taken.1 htop
    · rw [hlead] at htop
      obtain ⟨left, mid', hfollows⟩ := exists_follows_of_walkNames (.inr rfl) htop
      rw [hfollows.walkNames_append (.inr rfl)] at htop
      rw [hskip.walkNames_eq (exists_step_of_walkNames htop).1, walkNames_nil] at htop
      cases htop
      exact ⟨left, hfollows⟩
  · intro left mid hfollows hmid
    rw [leadsTo_iff_walkNames]
    rcases hlead with hlead | hlead
    · rw [hlead]
      exact walkNames_eq_taken.2 ⟨left, hfollows⟩
    · rw [hlead, hfollows.walkNames_append (.inr rfl), hskip.walkNames_eq hmid, walkNames_nil]

/-- Where a path below a directory leads is asked from the place of the directory, with the links that its path
leaves. -/
theorem exists_left_of_leadsTo (htop : fs.LeadsTo top mid) :
    ∃ left, ∀ {followLast way}, Place.IsProper way → way ≠ [] →
      fs.walkNames followLast maxLinks [] (Text.splitOn '/' (Path.join fs.cwd (below top way))) =
        fs.walkNames followLast left mid way := by
  obtain ⟨lead, hbelow, hleads, -⟩ := exists_lead_below fs top
  obtain ⟨left, hfollows⟩ := hleads htop
  refine ⟨left, ?_⟩
  intro followLast way hway hne
  rw [hbelow hway hne]
  exact hfollows.walkNames_append (.inl hne)

theorem exists_leadsTo_of_below (hway : Place.IsProper way) (hne : way ≠ []) (h : fs.LeadsTo (below top way) place) :
    ∃ mid, fs.LeadsTo top mid ∧ fs.node? mid = some .directory := by
  obtain ⟨lead, hbelow, -, hleads⟩ := exists_lead_below fs top
  rw [leadsTo_iff_walkNames, hbelow hway hne] at h
  obtain ⟨left, mid, hfollows⟩ := exists_follows_of_walkNames (.inl hne) h
  rw [hfollows.walkNames_append (.inl hne)] at h
  obtain ⟨name, rest, rfl⟩ := List.exists_cons_of_ne_nil hne
  have hmid := (exists_step_of_walkNames h).1
  exact ⟨mid, hleads hfollows hmid, hmid⟩

theorem locate_eq_walkNames (hpath : path ≠ []) (hlength : byteLength path ≤ maxPathBytes) :
    fs.locate followLast path = fs.walkNames followLast maxLinks [] (Text.splitOn '/' (Path.join fs.cwd path)) := by
  unfold locate
  rw [if_neg hpath, if_neg (Nat.not_lt.2 hlength)]

theorem byteLength_below_le (hway : Place.IsProper way) {q : List Text} (hq : q <+: way) :
    byteLength (below top q) ≤ byteLength (below top way) := by
  obtain ⟨rest, rfl⟩ := hq
  by_cases hne : rest = []
  · rw [hne, List.append_nil]
  have hrest : Place.IsProper rest := fun n hn => hway n (List.mem_append_right _ hn)
  have hbelow : below top (q ++ rest) = below (below top q) rest := List.foldl_append
  rw [hbelow, below_eq_join hrest hne]
  exact byteLength_le_join (isAbsolute_joinWith hrest)

/-- Whether the path of something below a directory ends in a link is told by what stands there. -/
theorem linkTarget?_below (htop : top ≠ []) (hmid : fs.LeadsTo top mid) (hway : Place.IsProper way) (hne : way ≠ [])
    (hlength : byteLength (below top way) ≤ maxPathBytes) (hshort : ∀ n ∈ way, byteLength n ≤ maxNameBytes)
    (hnode : fs.node? (mid ++ way) = some node) {target : Text} :
    fs.linkTarget? (below top way) = some target ↔ node = .link target := by
  obtain ⟨left, hwalk⟩ := exists_left_of_leadsTo hmid
  have hspot : fs.locate false (below top way) = .ok (.taken (mid ++ way)) := by
    rw [locate_eq_walkNames (below_ne_nil htop hway) hlength, hwalk hway hne]
    exact walkNames_of_node? hway hshort hnode fun _ _ => rfl
  obtain ⟨e, he, rfl⟩ := Option.map_eq_some_iff.1 hnode
  unfold linkTarget?
  rw [hspot]
  dsimp only
  rw [he]
  cases e <;> simp [Entry.node]

/-- Whether a path below a directory is followed without entering a link to another directory. -/
def EntersNoLink (fs : FileSystem) (top : Text) (way : List Text) : Prop :=
  ∀ q, q <+: way → q ≠ [] → q ≠ way → fs.linkTarget? (below top q) = none

theorem exists_walkNames_of_isFile (htop : top ≠ []) (hmid : fs.LeadsTo top mid) (hway : Place.IsProper way)
    (hne : way ≠ []) (hfile : fs.isFile (below top way) = true) :
    byteLength (below top way) ≤ maxPathBytes ∧ ∃ left place bytes,
      fs.walkNames true left mid way = .ok (.taken place) ∧ fs.node? place = some (.file bytes) := by
  obtain ⟨hlength, place, bytes, hleads, hnode⟩ := (isFile_iff (below_ne_nil htop hway)).1 hfile
  obtain ⟨left, hwalk⟩ := exists_left_of_leadsTo hmid
  rw [leadsTo_iff_walkNames, hwalk hway hne] at hleads
  exact ⟨hlength, left, place, bytes, hleads, hnode⟩

/-- The path of a file enters no link exactly if the file stands in a directory to which names alone lead. -/
theorem entersNoLink_iff (htop : top ≠ []) (hmid : fs.LeadsTo top mid) (hway : Place.IsProper (way ++ [name]))
    (hfile : fs.isFile (below top (way ++ [name])) = true) :
    fs.EntersNoLink top (way ++ [name]) ↔ fs.node? (mid ++ way) = some .directory := by
  obtain ⟨hlength, left, place, bytes, hwalk, -⟩ := exists_walkNames_of_isFile htop hmid hway (by simp) hfile
  have hproper : ∀ {q}, q <+: way → Place.IsProper q := fun hq n hn =>
    hway n (List.mem_append_left _ (hq.subset hn))
  have hpathLength : ∀ {q}, q <+: way → byteLength (below top q) ≤ maxPathBytes := fun hq =>
    (byteLength_below_le hway (hq.trans (List.prefix_append way [name]))).trans hlength
  constructor
  · intro henters
    refine (node?_eq_directory_of_walkNames hway ?_ hwalk).1
    intro q hq hne hshort target hnode
    -- a link on the way would be one that the path of the file enters
    have hnone := henters q (hq.trans (List.prefix_append way [name])) hne fun heq => by
      have hle := hq.length_le
      rw [heq, List.length_append, List.length_singleton] at hle
      omega
    rw [(linkTarget?_below htop hmid (hproper hq) hne (hpathLength hq) hshort hnode).2 rfl] at hnone
    cases hnone
  · intro hdirectory q hq hne hshorter
    have hpre : q <+: way := (List.prefix_concat_iff.1 hq).resolve_left hshorter
    have hshort := (walkNames_behind_directory hway hdirectory hwalk).1
    rw [Option.eq_none_iff_forall_ne_some]
    intro target htarget
    have hlink := (linkTarget?_below htop hmid (hproper hpre) hne (hpathLength hpre)
      (fun n hn => hshort n (hpre.subset hn)) (node?_eq_directory_of_isPrefix hdirectory hpre)).1 htarget
    cases hlink

theorem exists_node?_of_isFile (htop : top ≠ []) (hmid : fs.LeadsTo top mid) (hway : Place.IsProper (way ++ [name]))
    (hfile : fs.isFile (below top (way ++ [name])) = true) (hdirectory : fs.node? (mid ++ way) = some .directory) :
    ∃ node, fs.node? (mid ++ way ++ [name]) = some node ∧ node ≠ .directory := by
  obtain ⟨-, left, place, bytes, hwalk, hnode⟩ := exists_walkNames_of_isFile htop hmid hway (by simp) hfile
  have hlast := (walkNames_behind_directory hway hdirectory hwalk).2
  have hname := hway name (List.mem_append_right _ (List.mem_singleton_self _))
  obtain ⟨-, ⟨links', next, lead, hstep, hrest⟩ | ⟨-, hfollow⟩⟩ := exists_step_of_walkNames hlast
  · cases hstep with
    | follow _ _ _ hlink => exact ⟨_, hlink, nofun⟩
    | on hleads =>
      rw [List.append_nil, walkNames_nil] at hrest
      cases hrest
      cases hleads with
      | skip hskip => exact absurd hskip (not_or.2 ⟨hname.1.1, hname.1.2.1⟩)
      | up hparent => exact absurd hparent hname.2
      | down => exact ⟨_, hnode, nofun⟩
  · cases hfollow

end AssetEmbed.FileSystem
