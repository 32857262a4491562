import AssetEmbed.FileSystem.Walk
import AssetEmbed.Proofs.FileSystem.Tree
import AssetEmbed.Proofs.Sequencing

/-!
# Where paths lead, and what writing does there

A path leads to a place that is taken, or to a name that is free in a directory, so writing at the end of a
path keeps a file system well formed.  Without links, the path of a place leads nowhere but to that place, and
writing there leaves every other place as it is.
-/

namespace AssetEmbed

/-! ## 1. The path of a place -/

theorem Text.joinWith_append_last (sep : Char) (pieces : List Text) (p s : Text) :
    joinWith sep (pieces ++ [p ++ s]) = joinWith sep (pieces ++ [p]) ++ s := by
  by_cases h : pieces = []
  · subst h
    rfl
  · rw [joinWith_append_singleton sep h, joinWith_append_singleton sep h, List.append_assoc,
      List.cons_append]

namespace Place

/-- The path of a place: absolute and without links. -/
def path (place : Place) : Text := '/' :: Text.joinWith '/' place

def IsProper (place : Place) : Prop := ∀ n ∈ place, Path.IsProper n

variable {place below : Place} {name : Text}

theorem IsProper.append (h : IsProper place) (hbelow : IsProper below) : IsProper (place ++ below) := by
  intro n hn
  rcases List.mem_append.1 hn with hn | hn
  · exact h n hn
  · exact hbelow n hn

theorem IsProper.dropLast (h : IsProper place) : IsProper place.dropLast :=
  fun n hn => h n (List.dropLast_subset place hn)

theorem IsProper.concat (h : IsProper place) (hname : Path.IsProper name) :
    IsProper (place ++ [name]) :=
  h.append fun n hn => by rwa [List.mem_singleton.1 hn]

theorem IsProper.not_mem (h : IsProper place) : Path.parentName ∉ place := fun hup => (h _ hup).2 rfl

theorem IsProper.isNormal (h : IsProper place) : Path.IsNormal (path place) := ⟨place, h, rfl⟩

theorem IsProper.names_path (h : IsProper place) : Path.names (path place) = place :=
  Path.names_normal h

theorem path_append_last (place : Place) (name s : Text) :
    path (place ++ [name]) ++ s = path (place ++ [name ++ s]) := by
  rw [path, path, Text.joinWith_append_last, List.cons_append]

theorem IsProper.fileName_path (h : IsProper (place ++ [name])) :
    Path.fileName (path (place ++ [name])) = name := by
  rw [Path.fileName, h.names_path, List.getLast?_append_of_ne_nil _ (List.cons_ne_nil name [])]
  rfl

theorem IsProper.parent_path (h : IsProper place) : Path.parent (path place) = path place.dropLast := by
  rw [Path.parent, h.names_path, h.isNormal.isRooted.rootOf]
  rfl

theorem IsProper.getLast?_path (h : IsProper place) (hne : place ≠ []) :
    (path place).getLast? ≠ some '/' := by
  obtain ⟨above, name, rfl⟩ : ∃ above name, place = above ++ [name] :=
    ⟨_, _, (List.dropLast_append_getLast hne).symm⟩
  obtain ⟨⟨hname, -, hslash⟩, -⟩ := h name (List.mem_append_right _ (List.mem_singleton_self name))
  have hend : ∃ s, path (above ++ [name]) = s ++ name := by
    by_cases habove : above = []
    · subst habove
      exact ⟨['/'], rfl⟩
    · rw [path, Text.joinWith_append_singleton '/' habove]
      exact ⟨'/' :: Text.joinWith '/' above ++ ['/'], by simp⟩
  obtain ⟨s, hs⟩ := hend
  rw [hs, List.getLast?_append_of_ne_nil _ hname]
  intro hlast
  exact hslash (List.mem_of_getLast? hlast)

theorem IsProper.join_path (h : IsProper place) (hname : Path.IsProper name) :
    Path.join (path place) name = path (place ++ [name]) := by
  obtain ⟨⟨hne, -, hslash⟩, -⟩ := hname
  have hrelative : Path.isAbsolute name = false := by
    cases name with
    | nil => rfl
    | cons c name =>
      rw [List.mem_cons, not_or] at hslash
      simp [Path.isAbsolute, Ne.symm hslash.1]
  rw [Path.join, hrelative, Bool.false_or, if_neg (by simp [path])]
  by_cases hroot : place = []
  · subst hroot
    rfl
  · rw [if_neg (by simpa using h.getLast?_path hroot), path, path,
      Text.joinWith_append_singleton '/' hroot, List.cons_append]

theorem IsProper.below_path (h : IsProper place) (hbelow : IsProper below) :
    FileSystem.below (path place) below = path (place ++ below) := by
  induction below generalizing place with
  | nil => rw [List.append_nil]; rfl
  | cons name below ih =>
    have hname := hbelow name List.mem_cons_self
    show FileSystem.below (Path.join (path place) name) below = _
    rw [h.join_path hname, ih (h.concat hname) fun n hn => hbelow n (List.mem_cons_of_mem _ hn),
      List.append_assoc, List.singleton_append]

end Place

theorem Entry.IsSound.isProper_of_at? {e e' : Entry} {way : Place} (h : e.IsSound) (hway : e.at? way = some e') :
    Place.IsProper way := by
  induction way generalizing e with
  | nil => exact fun n hn => absurd hn List.not_mem_nil
  | cons name way ih =>
    cases e with
    | file bytes => cases hway
    | link target => cases hway
    | directory l =>
      rw [at?_directory, at?_cons] at hway
      obtain ⟨e, hget, hway⟩ := Option.bind_eq_some_iff.1 hway
      rw [IsSound] at h
      obtain ⟨hname, he⟩ := h.of_mem (Listing.mem_of_get?_eq_some hget)
      exact List.forall_mem_cons.2 ⟨hname, ih he hway⟩

namespace FileSystem

def Spot.place : Spot → Place
  | .taken place => place
  | .free directory name => directory ++ [name]

variable {fs fs' : FileSystem} {place : Place} {path : Text}

/-! ## 2. What following a name asks -/

/-- Following a name asks only what stands where the way has come to, and what stands there under the name. -/
theorem descend_cons (fs : FileSystem) (followLast : Bool) (onLink : Place → List Text → Except Fault Spot)
    (here : Place) (name : Text) (rest : List Text) :
    fs.descend followLast onLink here (name :: rest) =
      match fs.node? here with
      | some .directory =>
        if name = [] || name = ['.'] then fs.descend followLast onLink here rest
        else if name = Path.parentName then fs.descend followLast onLink here.dropLast rest
        else if byteLength name > maxNameBytes then .error .nameTooLong
        else match fs.node? (here ++ [name]) with
          | none => if rest.all (· = []) then .ok (.free here name) else .error .notFound
          | some (.link target) =>
            if rest = [] && !followLast then .ok (.taken (here ++ [name]))
            else onLink (if Path.isAbsolute target then [] else here) (target.splitOn '/' ++ rest)
          | some _ => fs.descend followLast onLink (here ++ [name]) rest
      | some _ => .error .notDirectory
      | none => .error .notFound := by
  rw [descend]
  unfold node? Listing.node?
  cases hhere : fs.entries.at? here with
  | none => rfl
  | some e =>
    cases e with
    | file bytes => rfl
    | link target => rfl
    | directory listing =>
      rw [Listing.at?_append_singleton hhere]
      dsimp only [Option.map_some, Entry.node]
      cases Listing.get? name listing with
      | none => rfl
      | some e => cases e <;> rfl

/-- One name leads from a place to the next one: it is skipped, goes up, or leads down to what is no link. -/
inductive Leads (fs : FileSystem) (here : Place) (name : Text) : Place → Prop
  | skip (hskip : name = [] ∨ name = ['.']) : Leads fs here name here
  | up (hparent : name = Path.parentName) : Leads fs here name here.dropLast
  | down {node : Node} (hname : ¬ (name = [] ∨ name = ['.'])) (hdown : name ≠ Path.parentName)
      (hshort : byteLength name ≤ maxNameBytes) (hnode : fs.node? (here ++ [name]) = some node)
      (hlink : ∀ target, node ≠ .link target) : Leads fs here name (here ++ [name])

/-- What following a name from a directory comes to, and then the names left behind it: the name leads on; or it is
free, and nothing but slashes is left; or it is that of a link, which is followed unless it comes last. -/
inductive Descends (fs : FileSystem) (followLast : Bool) (onLink : Place → List Text → Except Fault Spot) (here : Place)
    (name : Text) (rest : List Text) : Spot → Prop
  | on {next : Place} {spot : Spot} (hleads : fs.Leads here name next)
      (h : fs.descend followLast onLink next rest = .ok spot) : Descends fs followLast onLink here name rest spot
  | free (hname : ¬ (name = [] ∨ name = ['.'])) (hdown : name ≠ Path.parentName)
      (hfree : fs.node? (here ++ [name]) = none) (hslashes : ∀ n ∈ rest, n = []) :
      Descends fs followLast onLink here name rest (.free here name)
  | last {target : Text} (hlink : fs.node? (here ++ [name]) = some (.link target)) (hrest : rest = [])
      (hlast : followLast = false) : Descends fs followLast onLink here name rest (.taken (here ++ [name]))
  | through {target : Text} {spot : Spot} (hname : ¬ (name = [] ∨ name = ['.'])) (hdown : name ≠ Path.parentName)
      (hshort : byteLength name ≤ maxNameBytes) (hlink : fs.node? (here ++ [name]) = some (.link target))
      (h : onLink (if Path.isAbsolute target then [] else here) (target.splitOn '/' ++ rest) = .ok spot) :
      Descends fs followLast onLink here name rest spot

theorem descends_of_descend_cons {followLast : Bool} {onLink : Place → List Text → Except Fault Spot} {here : Place}
    {name : Text} {rest : List Text} {spot : Spot} (h : fs.descend followLast onLink here (name :: rest) = .ok spot) :
    fs.node? here = some .directory ∧ fs.Descends followLast onLink here name rest spot := by
  rw [descend_cons] at h
  split at h
  next hhere =>
    refine ⟨hhere, ?_⟩
    split at h
    next hskip => exact .on (.skip (by simpa using hskip)) h
    next hname =>
      have hname : ¬ (name = [] ∨ name = ['.']) := by simpa using hname
      split at h
      next hparent => exact .on (.up hparent) h
      next hdown =>
        split at h
        next => cases h
        next hlong =>
          have hshort := Nat.not_lt.1 hlong
          split at h
          next hfree =>
            split at h
            next hslashes =>
              cases h
              exact .free hname hdown hfree (by simpa using hslashes)
            next => cases h
          next target hlink =>
            split at h
            next hlast =>
              cases h
              rw [Bool.and_eq_true, decide_eq_true_eq, Bool.not_eq_true'] at hlast
              exact .last hlink hlast.1 hlast.2
            next => exact .through hname hdown hshort hlink h
          next node hnode hlink =>
            exact .on (.down hname hdown hshort hlink hnode) h
  next => cases h
  next => cases h

/-- A real path asks only for links. -/
theorem realNames_cons (fs : FileSystem) (onLink : Place → List Text → Except RealPathError Place)
    (here : Place) (name : Text) (rest : List Text) :
    fs.realNames onLink here (name :: rest) =
      if name = [] || name = ['.'] then fs.realNames onLink here rest
      else if name = Path.parentName then fs.realNames onLink here.dropLast rest
      else if name.elem '\x00' then .error .embeddedNul
      else match fs.node? (here ++ [name]) with
        | some (.link target) => do
          let place ← onLink (if Path.isAbsolute target then [] else here) (target.splitOn '/')
          fs.realNames onLink place rest
        | _ => fs.realNames onLink (here ++ [name]) rest := by
  rw [realNames]
  unfold node? Listing.node?
  cases fs.entries.at? (here ++ [name]) with
  | none => rfl
  | some e => cases e <;> rfl

/-! ## 3. Real paths -/

theorem realNames_isProper {onLink : Place → List Text → Except RealPathError Place}
    (honLink : ∀ here names place, Place.IsProper here → (∀ n ∈ names, '/' ∉ n) →
      onLink here names = .ok place → Place.IsProper place)
    {here : Place} {names : List Text} (hhere : Place.IsProper here) (hnames : ∀ n ∈ names, '/' ∉ n)
    (h : fs.realNames onLink here names = .ok place) : Place.IsProper place := by
  induction names generalizing here with
  | nil =>
    rw [realNames, Except.ok.injEq] at h
    rwa [← h]
  | cons name rest ih =>
    have hrest : ∀ n ∈ rest, '/' ∉ n := fun n hn => hnames n (List.mem_cons_of_mem _ hn)
    rw [realNames] at h
    split at h
    · exact ih hhere hrest h
    rename_i hempty
    split at h
    · exact ih hhere.dropLast hrest h
    rename_i hparent
    split at h
    · cases h
    have hname : Path.IsProper name := by
      rw [Bool.or_eq_true, decide_eq_true_eq, decide_eq_true_eq, not_or] at hempty
      exact ⟨⟨hempty.1, hempty.2, hnames name List.mem_cons_self⟩, hparent⟩
    split at h
    · rename_i target _
      obtain ⟨there, hthere, h⟩ := bind_eq_ok.1 h
      -- a target that begins with a slash starts at the root
      have hstart : Place.IsProper (if Path.isAbsolute target then [] else here) := by
        split
        · exact fun n hn => absurd hn List.not_mem_nil
        · exact hhere
      exact ih (honLink _ _ _ hstart (fun n hn => Text.not_mem_of_mem_splitOn hn) hthere) hrest h
    · exact ih (hhere.concat hname) hrest h

theorem realNamesUpTo_isProper {depth : Nat} {here : Place} {names : List Text}
    (hhere : Place.IsProper here) (hnames : ∀ n ∈ names, '/' ∉ n)
    (h : fs.realNamesUpTo depth here names = .ok place) : Place.IsProper place := by
  induction depth generalizing here names place with
  | zero => exact realNames_isProper (fun _ _ _ _ _ hlink => by cases hlink) hhere hnames h
  | succ depth ih =>
    exact realNames_isProper (fun _ _ _ hhere hnames hlink => ih hhere hnames hlink) hhere hnames h

theorem exists_place_of_realPath {real : Text} (h : fs.realPath path = .ok real) :
    ∃ place, Place.IsProper place ∧ real = Place.path place := by
  obtain ⟨place, hplace, hreal⟩ := map_eq_ok.1 h
  refine ⟨place, realNamesUpTo_isProper (fun n hn => absurd hn List.not_mem_nil) ?_ hplace, ?_⟩
  · exact fun n hn => Text.not_mem_of_mem_splitOn hn
  · rw [← hreal]
    rfl

/-! ## 4. Spots -/

/-- Whether a spot is as it says: something is there, or a name that can be one is free in a directory. -/
def Spot.Holds (fs : FileSystem) : Spot → Prop
  | .taken place => ∃ e, fs.entries.at? place = some e
  | .free directory name =>
    Path.IsProper name ∧
      ∃ l, fs.entries.at? directory = some (.directory l) ∧ Listing.get? name l = none

theorem exists_at?_dropLast {e : Entry} (h : fs.entries.at? place = some e) :
    ∃ e', fs.entries.at? place.dropLast = some e' := by
  by_cases hne : place = []
  · subst hne
    exact ⟨_, h⟩
  · rw [← List.dropLast_append_getLast hne] at h
    obtain ⟨l, hl, -⟩ := Listing.exists_directory_of_at? h
    exact ⟨_, hl⟩

theorem descend_holds {followLast : Bool} {onLink : Place → List Text → Except Fault Spot}
    (honLink : ∀ here names spot, (∃ e, fs.entries.at? here = some e) → (∀ n ∈ names, '/' ∉ n) →
      onLink here names = .ok spot → spot.Holds fs)
    {here : Place} {names : List Text} {spot : Spot} (hhere : ∃ e, fs.entries.at? here = some e)
    (hnames : ∀ n ∈ names, '/' ∉ n) (h : fs.descend followLast onLink here names = .ok spot) :
    spot.Holds fs := by
  -- along the way, at the names that are left; what lies behind a link is left to the hypothesis on `onLink`
  induction names generalizing here with
  | nil =>
    rw [descend, Except.ok.injEq] at h
    rwa [← h]
  | cons name rest ih =>
    have hrest : ∀ n ∈ rest, '/' ∉ n := fun n hn => hnames n (List.mem_cons_of_mem _ hn)
    obtain ⟨hdirectory, hstep⟩ := descends_of_descend_cons h
    obtain ⟨listing, hlisting⟩ := node?_eq_directory_iff.1 hdirectory
    cases hstep with
    | on hleads h =>
      cases hleads with
      | skip => exact ih hhere hrest h
      | up =>
        obtain ⟨e, he⟩ := hhere
        exact ih (exists_at?_dropLast he) hrest h
      | down _ _ _ hnode _ =>
        obtain ⟨e, he, -⟩ := Option.map_eq_some_iff.1 hnode
        exact ih ⟨e, he⟩ hrest h
    | free hname hdown hfree hslashes =>
      rw [not_or] at hname
      refine ⟨⟨⟨hname.1, hname.2, hnames name List.mem_cons_self⟩, hdown⟩, listing, hlisting, ?_⟩
      rw [← Listing.at?_append_singleton hlisting]
      exact node?_eq_none_iff.1 hfree
    | last hlink =>
      obtain ⟨e, he, -⟩ := Option.map_eq_some_iff.1 hlink
      exact ⟨e, he⟩
    | through _ _ _ hlink h =>
      refine honLink _ _ _ ?_ ?_ h
      · split
        · exact ⟨_, rfl⟩
        · exact hhere
      · intro n hn
        rcases List.mem_append.1 hn with hn | hn
        · exact Text.not_mem_of_mem_splitOn hn
        · exact hrest n hn

theorem walkNames_holds {followLast : Bool} {links : Nat} {here : Place} {names : List Text}
    {spot : Spot} (hhere : ∃ e, fs.entries.at? here = some e) (hnames : ∀ n ∈ names, '/' ∉ n)
    (h : fs.walkNames followLast links here names = .ok spot) : spot.Holds fs := by
  induction links generalizing here names spot with
  | zero => exact descend_holds (fun _ _ _ _ _ hlink => by cases hlink) hhere hnames h
  | succ links ih => exact descend_holds (fun _ _ _ hhere hnames hlink => ih hhere hnames hlink) hhere hnames h

theorem locate_holds {followLast : Bool} {spot : Spot} (h : fs.locate followLast path = .ok spot) :
    spot.Holds fs := by
  unfold locate at h
  split at h
  · cases h
  split at h
  · cases h
  exact walkNames_holds ⟨_, rfl⟩ (fun n hn => Text.not_mem_of_mem_splitOn hn) h

/-! ## 5. Writing keeps file systems well formed -/

theorem Spot.Holds.isProper {spot : Spot} (h : spot.Holds fs) (hfs : fs.WellFormed) :
    ∀ name ∈ spot.place.getLast?, Path.IsProper name := by
  intro name hname
  cases spot with
  | taken place =>
    obtain ⟨e, he⟩ := h
    obtain ⟨above, rfl⟩ := List.getLast?_eq_some_iff.1 hname
    exact Listing.IsSound.isProper hfs he
  | free directory n =>
    rw [Spot.place, List.getLast?_append_of_ne_nil _ (List.cons_ne_nil n [])] at hname
    cases hname
    exact h.1

theorem WellFormed.put (hfs : fs.WellFormed) {followLast : Bool} {spot : Spot} {e : Entry}
    (h : fs.locate followLast path = .ok spot) (he : e.IsSound) :
    (fs.update (fun _ => some e) spot.place).WellFormed :=
  hfs.update he ((locate_holds h).isProper hfs)

theorem WellFormed.write (hfs : fs.WellFormed) {bytes : Bytes} (h : fs.write path bytes = .ok fs') :
    fs'.WellFormed := by
  have he : (Entry.file bytes).IsSound := by rw [Entry.IsSound]; trivial
  unfold FileSystem.write at h
  split at h
  · cases h
  · rename_i directory name hspot
    split at h
    · cases h
    · cases h
      exact hfs.put hspot he
  · rename_i place hspot
    split at h
    · cases h
    · cases h
      exact hfs.put hspot he

theorem WellFormed.makeDirectory (hfs : fs.WellFormed) (h : fs.makeDirectory path = .ok fs') :
    fs'.WellFormed := by
  have he : (Entry.directory []).IsSound := by rw [Entry.IsSound, Listing.IsSound]; trivial
  unfold FileSystem.makeDirectory at h
  split at h
  · cases h
  · cases h
  · rename_i directory name hspot
    cases h
    exact hfs.put hspot he

/-- Making a directory and those above it goes by making directories. -/
theorem ensureDirectoryUpTo_induction {P : FileSystem → Text → FileSystem → Prop}
    (hrefl : ∀ fs path, P fs path fs)
    (hmake : ∀ fs path fs', fs.makeDirectory path = .ok fs' → P fs path fs')
    (habove : ∀ fs path mid fs', P fs (Path.parent path) mid → P mid path fs' → P fs path fs')
    {bound : Nat} (h : ensureDirectoryUpTo bound fs path = .ok fs') : P fs path fs' := by
  induction bound generalizing fs path fs' with
  | zero =>
    rw [ensureDirectoryUpTo] at h
    split at h
    · rename_i made hmade
      cases h
      exact hmake _ _ _ hmade
    · cases h
  | succ bound ih =>
    rw [ensureDirectoryUpTo] at h
    split at h
    · rename_i made hmade
      cases h
      exact hmake _ _ _ hmade
    dsimp only at h
    split at h
    · split at h
      · cases h
      -- the directory above was missing: it is made, and then this one is tried once more
      obtain ⟨mid, hmid, h⟩ := bind_eq_ok.1 h
      refine habove _ _ mid _ (ih hmid) ?_
      split at h
      · rename_i made hmade
        cases h
        exact hmake _ _ _ hmade
      · split at h
        · cases h
          exact hrefl _ _
        · cases h
    · split at h
      · cases h
        exact hrefl _ _
      · cases h

theorem WellFormed.ensureDirectory (hfs : fs.WellFormed) (h : fs.ensureDirectory path = .ok fs') :
    fs'.WellFormed :=
  ensureDirectoryUpTo_induction (P := fun fs _ fs' => fs.WellFormed → fs'.WellFormed)
    (fun _ _ hfs => hfs) (fun _ _ _ hmade hfs => hfs.makeDirectory hmade)
    (fun _ _ _ _ hmid h hfs => h (hmid hfs)) h hfs

/-! ## 6. Without links -/

/-- Without links, names that lead down lead to the place they spell. -/
theorem descend_place (hfree : fs.LinkFree) {followLast : Bool}
    {onLink : Place → List Text → Except Fault Spot} {here : Place} {names : List Text} {spot : Spot}
    (hnames : Place.IsProper names) (h : fs.descend followLast onLink here names = .ok spot) :
    spot.place = here ++ names := by
  induction names generalizing here with
  | nil =>
    rw [descend, Except.ok.injEq] at h
    rw [← h, List.append_nil]
    rfl
  | cons name rest ih =>
    have hrest : Place.IsProper rest := fun n hn => hnames n (List.mem_cons_of_mem _ hn)
    obtain ⟨⟨hne, hdot, -⟩, hparent⟩ := hnames name List.mem_cons_self
    obtain ⟨-, hstep⟩ := descends_of_descend_cons h
    cases hstep with
    | on hleads h =>
      cases hleads with
      | skip hskip => exact absurd hskip (by simp [hne, hdot])
      | up hup => exact absurd hup hparent
      | down => rw [ih hrest h, List.append_assoc, List.singleton_append]
    | free _ _ _ hslashes =>
      -- a proper name is no empty one, so the free name is the last one
      obtain rfl : rest = [] := List.eq_nil_iff_forall_not_mem.2 fun n hn =>
        (hrest n hn).1.1 (hslashes n hn)
      rfl
    | last hlink => exact absurd hlink (hfree _ _)
    | through _ _ _ hlink => exact absurd hlink (hfree _ _)

theorem splitOn_path (hplace : Place.IsProper place) :
    Text.splitOn '/' (Place.path place) = [] :: (if place = [] then [[]] else place) := by
  rw [Place.path, Text.splitOn, if_pos rfl]
  by_cases h : place = []
  · subst h
    rfl
  · rw [if_neg h, Text.splitOn_joinWith h fun n hn => (hplace n hn).1.2.2]

/-- Without links, the path of a place leads nowhere but to that place. -/
theorem locate_path (hfree : fs.LinkFree) {followLast : Bool} {spot : Spot}
    (hplace : Place.IsProper place) (h : fs.locate followLast (Place.path place) = .ok spot) :
    spot.place = place := by
  have hwalk : ∀ {links : Nat}, fs.walkNames followLast links [] ([] :: place) = .ok spot →
      spot.place = place := by
    intro links h
    -- the slash that a path begins with splits off an empty name, which leads nowhere
    have hskip : ∀ onLink, fs.descend followLast onLink [] ([] :: place) =
        fs.descend followLast onLink [] place := fun onLink => by rw [descend]; rfl
    cases links with
    | zero =>
      rw [walkNames, hskip] at h
      exact descend_place hfree hplace h
    | succ links =>
      rw [walkNames, hskip] at h
      exact descend_place hfree hplace h
  unfold locate at h
  rw [if_neg (by simp [Place.path])] at h
  split at h
  · cases h
  rw [Path.join_of_isAbsolute rfl, splitOn_path hplace] at h
  by_cases hroot : place = []
  · subst hroot
    cases h
    rfl
  · rw [if_neg hroot] at h
    exact hwalk h

/-! ## 7. What an operation at a place does -/

/-- Whether nothing but some files is changed, apart from directories that are made on the way to others. -/
def Touches (files directories : List Place) (before after : FileSystem) : Prop :=
  ∀ p ∉ files, after.node? p = before.node? p ∨
    before.node? p = none ∧ after.node? p = some .directory ∧ ∃ d ∈ directories, p <+: d

theorem Touches.refl (fs : FileSystem) : Touches [] [] fs fs := fun _ _ => .inl rfl

theorem Touches.trans {files files' directories directories' : List Place} {before mid after : FileSystem}
    (h : Touches files directories before mid) (h' : Touches files' directories' mid after) :
    Touches (files ++ files') (directories ++ directories') before after := by
  intro p hp
  rw [List.mem_append, not_or] at hp
  rcases h p hp.1 with hkept | ⟨hnone, hmade, d, hd, hpre⟩
  · rcases h' p hp.2 with hkept' | ⟨hnone, hmade, d, hd, hpre⟩
    · exact .inl (hkept'.trans hkept)
    · exact .inr ⟨hkept ▸ hnone, hmade, d, List.mem_append_right _ hd, hpre⟩
  · rcases h' p hp.2 with hkept' | ⟨hnone', -, -⟩
    · exact .inr ⟨hnone, hkept'.trans hmade, d, List.mem_append_left _ hd, hpre⟩
    · rw [hmade] at hnone'
      cases hnone'

theorem Touches.mono {files files' directories directories' : List Place} {before after : FileSystem}
    (h : Touches files directories before after) (hfiles : files ⊆ files')
    (hdirectories : ∀ d ∈ directories, ∃ d' ∈ directories', d <+: d') :
    Touches files' directories' before after := by
  intro p hp
  rcases h p fun hmem => hp (hfiles hmem) with hkept | ⟨hnone, hmade, d, hd, hpre⟩
  · exact .inl hkept
  · obtain ⟨d', hd', hpre'⟩ := hdirectories d hd
    exact .inr ⟨hnone, hmade, d', hd', hpre.trans hpre'⟩

theorem LinkFree.of_node? (hfree : fs.LinkFree)
    (h : ∀ p, fs'.node? p = fs.node? p ∨ ∀ target, fs'.node? p ≠ some (.link target)) : fs'.LinkFree := by
  intro p target
  rcases h p with heq | hne
  · rw [heq]
    exact hfree p target
  · exact hne target

theorem read_path (hfree : fs.LinkFree) (hplace : Place.IsProper place) {bytes : Bytes}
    (h : fs.read (Place.path place) = .ok bytes) : fs.node? place = some (.file bytes) := by
  unfold read at h
  split at h
  · rename_i found hentry
    cases h
    obtain ⟨spot, hspot, hthere⟩ := bind_eq_ok.1 hentry
    have hplace := locate_path hfree hplace hspot
    cases spot with
    | free directory name => cases hthere
    | taken there =>
      obtain rfl : there = place := hplace
      dsimp only at hthere
      split at hthere
      · rename_i e he
        cases hthere
        exact node?_eq_file_iff.2 he
      · cases hthere
  · cases h
  · cases h

/-- Writing puts a file where the path leads, which is no directory, and changes nothing else. -/
theorem node?_of_write {bytes : Bytes} (h : fs.write path bytes = .ok fs') :
    ∃ spot, fs.locate true path = .ok spot ∧ fs.node? spot.place ≠ some .directory ∧
      ∀ p, fs'.node? p = if p = spot.place then some (.file bytes) else fs.node? p := by
  unfold write at h
  split at h
  · cases h
  · rename_i directory name hspot
    split at h
    · cases h
    cases h
    -- the name is free, so a file is made
    obtain ⟨-, l, hl, hname⟩ := locate_holds hspot
    have hdirectory : fs.node? (directory ++ [name]) ≠ some .directory := by
      rw [node?_eq_none_iff.2 ((Listing.at?_append_singleton hl name).trans hname)]
      exact nofun
    exact ⟨_, hspot, hdirectory, node?_update hl hdirectory fun _ _ => rfl⟩
  · rename_i there hspot
    -- something stands there already: a file is written over, and a directory refuses
    obtain ⟨e, he⟩ := locate_holds hspot
    split at h
    · cases h
    rename_i hfile
    cases h
    have hdirectory : fs.node? there ≠ some .directory := by
      rw [Ne, node?_eq_directory_iff]
      rintro ⟨l, hl⟩
      exact hfile l hl
    rcases List.eq_nil_or_concat' there with rfl | ⟨above, name, rfl⟩
    · exact absurd rfl (hfile fs.entries)
    · obtain ⟨l, hl, -⟩ := Listing.exists_directory_of_at? he
      exact ⟨_, hspot, hdirectory, node?_update hl hdirectory fun _ _ => rfl⟩

/-- Making a directory puts one where the path leads, where nothing is, and changes nothing else. -/
theorem node?_of_makeDirectory (h : fs.makeDirectory path = .ok fs') :
    ∃ spot, fs.locate false path = .ok spot ∧ fs.node? spot.place = none ∧
      ∀ p, fs'.node? p = if p = spot.place then some .directory else fs.node? p := by
  unfold makeDirectory at h
  split at h
  · cases h
  · cases h
  · rename_i directory name hspot
    cases h
    obtain ⟨-, l, hl, hname⟩ := locate_holds hspot
    have hnone : fs.node? (directory ++ [name]) = none :=
      node?_eq_none_iff.2 ((Listing.at?_append_singleton hl name).trans hname)
    exact ⟨_, hspot, hnone, node?_update hl (by rw [hnone]; exact nofun) Entry.at?_empty⟩

theorem node?_write (hfree : fs.LinkFree) (hplace : Place.IsProper place) {bytes : Bytes}
    (h : fs.write (Place.path place) bytes = .ok fs') (p : Place) :
    fs'.node? p = if p = place then some (.file bytes) else fs.node? p := by
  obtain ⟨spot, hspot, -, hnode⟩ := node?_of_write h
  rw [hnode, locate_path hfree hplace hspot]

theorem node?_makeDirectory (hfree : fs.LinkFree) (hplace : Place.IsProper place)
    (h : fs.makeDirectory (Place.path place) = .ok fs') :
    fs.node? place = none ∧
      ∀ p, fs'.node? p = if p = place then some .directory else fs.node? p := by
  obtain ⟨spot, hspot, hnone, hnode⟩ := node?_of_makeDirectory h
  rw [locate_path hfree hplace hspot] at hnone hnode
  exact ⟨hnone, hnode⟩

theorem touches_write (hfree : fs.LinkFree) (hplace : Place.IsProper place) {bytes : Bytes}
    (h : fs.write (Place.path place) bytes = .ok fs') : Touches [place] [] fs fs' := by
  intro p hp
  rw [node?_write hfree hplace h, if_neg (by simpa using hp)]
  exact .inl rfl

theorem LinkFree.write (hfree : fs.LinkFree) (hplace : Place.IsProper place) {bytes : Bytes}
    (h : fs.write (Place.path place) bytes = .ok fs') : fs'.LinkFree := by
  refine hfree.of_node? fun p => ?_
  rw [node?_write hfree hplace h]
  split
  · exact .inr nofun
  · exact .inl rfl

/-- Making a directory and those above it makes nothing but directories on the way. -/
theorem touches_ensureDirectory (hfree : fs.LinkFree) (hplace : Place.IsProper place)
    (h : fs.ensureDirectory (Place.path place) = .ok fs') : Touches [] [place] fs fs' ∧ fs'.LinkFree := by
  refine ensureDirectoryUpTo_induction (P := fun fs path fs' => ∀ place, Place.IsProper place →
    path = Place.path place → fs.LinkFree → Touches [] [place] fs fs' ∧ fs'.LinkFree)
    ?refl ?make ?above h place hplace rfl hfree
  case refl =>
    intro fs path place _ _ hfree
    exact ⟨(Touches.refl fs).mono (fun _ hp => hp) nofun, hfree⟩
  case make =>
    rintro fs path fs' h place hplace rfl hfree
    obtain ⟨hnone, hnode⟩ := node?_makeDirectory hfree hplace h
    refine ⟨fun p _ => ?_, hfree.of_node? fun p => ?_⟩
    · rw [hnode]
      split
      · rename_i hp
        rw [hp]
        exact .inr ⟨hnone, rfl, place, List.mem_singleton_self place, List.prefix_rfl⟩
      · exact .inl rfl
    · rw [hnode]
      split
      · exact .inr nofun
      · exact .inl rfl
  case above =>
    rintro fs path mid fs' hmid h place hplace rfl hfree
    obtain ⟨htouches, hfree⟩ := hmid _ hplace.dropLast hplace.parent_path hfree
    obtain ⟨htouches', hfree⟩ := h place hplace rfl hfree
    -- the directories above the place lie on the way to it
    refine ⟨(htouches.trans htouches').mono (fun _ hp => hp) ?_, hfree⟩
    intro d hd
    refine ⟨place, List.mem_singleton_self place, ?_⟩
    rcases List.mem_append.1 hd with hd | hd
    · rw [List.mem_singleton.1 hd]
      exact List.dropLast_prefix place
    · obtain rfl := List.mem_singleton.1 hd
      exact List.prefix_rfl

end FileSystem

end AssetEmbed
