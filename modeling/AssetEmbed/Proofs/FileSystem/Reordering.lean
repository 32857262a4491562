import AssetEmbed.FileSystem.TextFile
import AssetEmbed.Proofs.FileSystem.Locating
import AssetEmbed.Proofs.FileSystem.Visiting
import AssetEmbed.Proofs.Sorting
import Mathlib.Data.List.Perm.Basic

/-!
# Reordering — trees that differ in the order of their listings

Two trees are alike if the same stands at every place of them; then they differ at most in the order in which
directories list their entries.  Where a path leads, what is read there and what a walk visits does not tell
them apart, nor does what is left after writing.
-/

namespace AssetEmbed

/-! ## 1. Names and their entries -/

namespace Listing

variable {l l' : Listing} {name : Text} {entry : Entry}

theorem get?_eq_of_perm (h : (l.map (·.1)).Nodup) (hperm : l.Perm l') : l.get? name = l'.get? name := by
  have h' : (l'.map (·.1)).Nodup := (hperm.map _).nodup_iff.1 h
  ext entry
  rw [get?_eq_some_iff h, get?_eq_some_iff h', hperm.mem_iff]

end Listing

/-! ## 2. Entries that are alike -/

namespace Entry

/-- Whether the same stands at every place below two entries. -/
def Alike (e e' : Entry) : Prop := ∀ place, (e.at? place).map node = (e'.at? place).map node

variable {e e' e'' : Entry} {l l' : Listing}

theorem Alike.refl (e : Entry) : e.Alike e := fun _ => rfl

theorem Alike.symm (h : e.Alike e') : e'.Alike e := fun place => (h place).symm

theorem Alike.trans (h : e.Alike e') (h' : e'.Alike e'') : e.Alike e'' :=
  fun place => (h place).trans (h' place)

theorem Alike.node_eq (h : e.Alike e') : e.node = e'.node := by simpa using h []

theorem map_node_at?_cons (l : Listing) (name : Text) (names : Place) :
    ((Entry.directory l).at? (name :: names)).map node =
      (l.get? name).bind fun e => (e.at? names).map node := by
  rw [at?_directory]
  exact Listing.node?_cons l name names

theorem alike_directory_iff :
    (directory l).Alike (directory l') ↔ ∀ name, Option.Rel Alike (l.get? name) (l'.get? name) := by
  constructor
  · intro h name
    have hbelow := fun names => h (name :: names)
    simp only [map_node_at?_cons] at hbelow
    -- an entry of the name itself is seen at the place of one name
    cases hget : l.get? name with
    | none =>
      cases hget' : Listing.get? name l' with
      | none => exact .none
      | some e' => simpa [hget, hget'] using hbelow []
    | some e =>
      cases hget' : Listing.get? name l' with
      | none => simpa [hget, hget'] using hbelow []
      | some e' => exact .some fun names => by simpa [hget, hget'] using hbelow names
  · intro h place
    cases place with
    | nil => rfl
    | cons name names =>
      have hname := h name
      rw [map_node_at?_cons, map_node_at?_cons]
      generalize l.get? name = found, Listing.get? name l' = found' at hname ⊢
      cases hname with
      | none => rfl
      | some halike => exact halike names

theorem alike_of_perm (h : (l.map (·.1)).Nodup) (hperm : l.Perm l') : (directory l).Alike (directory l') := by
  rw [alike_directory_iff]
  intro name
  rw [← Listing.get?_eq_of_perm h hperm]
  cases l.get? name with
  | none => exact .none
  | some e => exact .some (Alike.refl e)

theorem alike_of_forall₂ (h : List.Forall₂ (fun x y => x.1 = y.1 ∧ x.2.Alike y.2) l l') :
    (directory l).Alike (directory l') := by
  rw [alike_directory_iff]
  intro name
  induction h with
  | nil => exact .none
  | cons hxy _ ih =>
    rw [Listing.get?, Listing.get?, hxy.1]
    split
    · exact .some hxy.2
    · exact ih

theorem Alike.exists_file {bytes : Bytes} (h : (file bytes).Alike e') : e' = file bytes := by
  have hnode := h.node_eq
  cases e' <;> cases hnode
  rfl

theorem Alike.exists_link {target : Text} (h : (link target).Alike e') : e' = link target := by
  have hnode := h.node_eq
  cases e' <;> cases hnode
  rfl

theorem Alike.exists_directory (h : (directory l).Alike e') : ∃ l', e' = directory l' := by
  have hnode := h.node_eq
  cases e' with
  | directory l' => exact ⟨l', rfl⟩
  | file bytes => cases hnode
  | link target => cases hnode

theorem Alike.exists_mem (h : (directory l).Alike (directory l')) (hl : (l.map (·.1)).Nodup) {name : Text}
    (hmem : (name, e) ∈ l) : ∃ e', (name, e') ∈ l' ∧ e.Alike e' := by
  have hname := alike_directory_iff.1 h name
  rw [(Listing.get?_eq_some_iff hl).2 hmem] at hname
  cases hget : Listing.get? name l' with
  | none =>
    rw [hget] at hname
    cases hname
  | some e' =>
    rw [hget] at hname
    cases hname with
    | some halike => exact ⟨e', Listing.mem_of_get?_eq_some hget, halike⟩

theorem Alike.names_perm (h : (directory l).Alike (directory l')) (hl : (l.map (·.1)).Nodup)
    (hl' : (l'.map (·.1)).Nodup) {p : Text × Entry → Bool}
    (hp : ∀ name e e', e.node = e'.node → p (name, e) = p (name, e')) :
    ((l.filter p).map (·.1)).Perm ((l'.filter p).map (·.1)) := by
  have hsubset : ∀ {l l' : Listing}, (directory l).Alike (directory l') → (l.map (·.1)).Nodup →
      ∀ name, name ∈ (l.filter p).map (·.1) → name ∈ (l'.filter p).map (·.1) := by
    intro l l' h hl name hname
    obtain ⟨⟨n, e⟩, hmem, rfl⟩ := List.mem_map.1 hname
    obtain ⟨hmem, hkind⟩ := List.mem_filter.1 hmem
    obtain ⟨e', hmem', halike⟩ := h.exists_mem hl hmem
    rw [hp n e e' halike.node_eq] at hkind
    exact List.mem_map.2 ⟨(n, e'), List.mem_filter.2 ⟨hmem', hkind⟩, rfl⟩
  have hnodup : ∀ {l : Listing}, (l.map (·.1)).Nodup → ((l.filter p).map (·.1)).Nodup :=
    fun hl => hl.sublist (List.filter_sublist.map _)
  exact (List.perm_ext_iff_of_nodup (hnodup hl) (hnodup hl')).2
    fun name => ⟨hsubset h hl name, hsubset h.symm hl' name⟩

/-! ## 3. Links and visits -/

theorem linkCount_eq_sum {l : Listing} (h : (l.map (·.1)).Nodup) :
    Listing.linkCount l = ((l.map (·.1)).map fun name => ((l.get? name).map linkCount).getD 0).foldr (· + ·) 0 := by
  have hsum : ∀ l : Listing, Listing.linkCount l = (l.map fun x => x.2.linkCount).foldr (· + ·) 0 := by
    intro l
    induction l with
    | nil => rfl
    | cons x l ih => rw [Listing.linkCount, ih, List.map_cons, List.foldr_cons]
  rw [hsum, List.map_map]
  refine congrArg _ (List.map_congr_left fun x hx => ?_)
  rw [Function.comp_apply, (Listing.get?_eq_some_iff h).2 hx]
  rfl

theorem Alike.linkCount_eq (h : e.Alike e') (he : e.IsSound) (he' : e'.IsSound) : e.linkCount = e'.linkCount := by
  induction e using Entry.induction generalizing e' with
  | hfile bytes => rw [h.exists_file]
  | hlink target => rw [h.exists_link]
  | hdirectory l ih =>
    obtain ⟨l', rfl⟩ := h.exists_directory
    rw [IsSound] at he he'
    have hnames := h.names_perm he.nodup he'.nodup (p := fun _ => true) fun _ _ _ _ => rfl
    -- under each name there are as many links, so only the order of the names differs
    have hcount : ∀ name, ((l.get? name).map linkCount).getD 0 = ((Listing.get? name l').map linkCount).getD 0 := by
      intro name
      have hname := alike_directory_iff.1 h name
      generalize hget : l.get? name = found, hget' : Listing.get? name l' = found' at hname ⊢
      cases hname with
      | none => rfl
      | some halike =>
        have hmem := Listing.mem_of_get?_eq_some hget
        have hmem' := Listing.mem_of_get?_eq_some hget'
        exact ih _ hmem halike (he.of_mem hmem).2 (he'.of_mem hmem').2
    rw [List.filter_true, List.filter_true] at hnames
    rw [linkCount, linkCount, linkCount_eq_sum he.nodup, linkCount_eq_sum he'.nodup]
    simp only [hcount]
    exact (hnames.map _).foldr_eq _

/-- A walk through one of two trees that are alike visits the same as a walk through the other one. -/
theorem Alike.visits_eq (h : e.Alike e') (he : e.IsSound) (he' : e'.IsSound) (rule : WalkRule)
    (here : List Text) : e.visits rule here = e'.visits rule here := by
  induction e using Entry.induction generalizing e' here with
  | hfile bytes => rw [h.exists_file]
  | hlink target => rw [h.exists_link]
  | hdirectory l ih =>
    obtain ⟨l', rfl⟩ := h.exists_directory
    rw [IsSound] at he he'
    have hfiles : rule.files here l = rule.files here l' :=
      Text.sort_eq_of_perm (h.names_perm he.nodup he'.nodup fun _ _ _ => WalkRule.isFile_eq_of_node rule _)
    -- each name is entered in both directories or in none, and then the visits below it are the same
    have hbranches : (Listing.branches rule here l).Perm (Listing.branches rule here l') := by
      refine (List.perm_ext_iff_of_nodup (Listing.nodup_branches _ _ he.nodup).of_map
        (Listing.nodup_branches _ _ he'.nodup).of_map).2 ?_
      rintro ⟨name, visits⟩
      rw [Listing.mem_branches, Listing.mem_branches]
      constructor
      · rintro ⟨e, hmem, henters, rfl⟩
        obtain ⟨e', hmem', halike⟩ := h.exists_mem he.nodup hmem
        exact ⟨e', hmem', henters, (ih _ hmem halike (he.of_mem hmem).2 (he'.of_mem hmem').2 _).symm⟩
      · rintro ⟨e', hmem', henters, rfl⟩
        obtain ⟨e, hmem, halike⟩ := h.symm.exists_mem he'.nodup hmem'
        exact ⟨e, hmem, henters, ih _ hmem halike.symm (he.of_mem hmem).2 (he'.of_mem hmem').2 _⟩
    rw [visits, visits, hfiles, Text.mergeSort_eq_of_perm hbranches (Listing.nodup_branches _ _ he.nodup)]

end Entry

/-! ## 4. Where paths lead -/

namespace FileSystem

/-- Whether two well-formed file systems differ only in the order in which their directories list their
entries. -/
structure Reordered (fs fs' : FileSystem) : Prop where
  left : fs.WellFormed
  right : fs'.WellFormed
  cwd : fs.cwd = fs'.cwd
  node? : ∀ place, fs.node? place = fs'.node? place

theorem reordered_of_alike {fs fs' : FileSystem} (left : fs.WellFormed) (right : fs'.WellFormed)
    (hcwd : fs.cwd = fs'.cwd) (h : (Entry.directory fs.entries).Alike (.directory fs'.entries)) :
    fs.Reordered fs' := by
  refine ⟨left, right, hcwd, fun place => ?_⟩
  have hplace := h place
  rwa [Entry.at?_directory, Entry.at?_directory] at hplace

namespace Reordered

variable {fs fs' : FileSystem} (h : fs.Reordered fs')

include h

theorem alike : (Entry.directory fs.entries).Alike (.directory fs'.entries) := by
  intro place
  rw [Entry.at?_directory, Entry.at?_directory]
  exact h.node? place

theorem descend_eq (followLast : Bool) (onLink : Place → List Text → Except Fault Spot) :
    fs.descend followLast onLink = fs'.descend followLast onLink := by
  funext here names
  induction names generalizing here with
  | nil => rw [descend, descend]
  | cons name rest ih => rw [descend_cons, descend_cons, h.node?, h.node?, ih, ih, ih]

theorem walkNames_eq (followLast : Bool) (links : Nat) :
    fs.walkNames followLast links = fs'.walkNames followLast links := by
  induction links with
  | zero => rw [walkNames, walkNames, h.descend_eq]
  | succ links ih => rw [walkNames, walkNames, ih, h.descend_eq]

theorem locate_eq : fs.locate = fs'.locate := by
  funext followLast path
  rw [locate, locate, h.walkNames_eq, h.cwd]

theorem realNames_eq (onLink : Place → List Text → Except RealPathError Place) :
    fs.realNames onLink = fs'.realNames onLink := by
  funext here names
  induction names generalizing here with
  | nil => rw [realNames, realNames]
  | cons name rest ih =>
    rw [realNames_cons, realNames_cons, h.node?]
    simp only [ih]

theorem realPath_eq : fs.realPath = fs'.realPath := by
  have hcount : Listing.linkCount fs.entries = Listing.linkCount fs'.entries := by
    have hlinks := h.alike.linkCount_eq (by rw [Entry.IsSound]; exact h.left) (by rw [Entry.IsSound]; exact h.right)
    rwa [Entry.linkCount, Entry.linkCount] at hlinks
  have hdepth : ∀ depth, fs.realNamesUpTo depth = fs'.realNamesUpTo depth := by
    intro depth
    induction depth with
    | zero => rw [realNamesUpTo, realNamesUpTo, h.realNames_eq]
    | succ depth ih => rw [realNamesUpTo, realNamesUpTo, ih, h.realNames_eq]
  funext path
  rw [realPath, realPath, hcount, hdepth, h.cwd]

/-! ## 5. What is there -/

theorem rel_at? (place : Place) :
    Option.Rel (fun e e' => e.Alike e' ∧ e.IsSound ∧ e'.IsSound) (fs.entries.at? place)
      (fs'.entries.at? place) := by
  have hnode := h.node? place
  unfold FileSystem.node? Listing.node? at hnode
  cases he : fs.entries.at? place <;> cases he' : fs'.entries.at? place <;> rw [he, he'] at hnode
  · exact .none
  · cases hnode
  · cases hnode
  · refine .some ⟨fun below => ?_, Listing.IsSound.at? h.left he, Listing.IsSound.at? h.right he'⟩
    have hbelow := h.alike (place ++ below)
    rw [Entry.at?_append, Entry.at?_append, Entry.at?_directory, Entry.at?_directory, he, he'] at hbelow
    exact hbelow

/-- A path leads to entries that are alike, or to none for the same reason. -/
theorem agree_entry? (path : Text) :
    Agree (· = ·) (fun e e' => e.Alike e' ∧ e.IsSound ∧ e'.IsSound) (fs.entry? path) (fs'.entry? path) := by
  unfold entry?
  rw [h.locate_eq]
  cases fs'.locate true path with
  | error fault => exact .error rfl
  | ok spot =>
    cases spot with
    | free directory name => exact .error rfl
    | taken place =>
      dsimp only [bind, Except.bind]
      generalize fs.entries.at? place = found, fs'.entries.at? place = found', h.rel_at? place = hfound
      cases hfound with
      | none => exact .error rfl
      | some hok => exact .ok hok

theorem entry?_cases (path : Text) :
    (∃ fault, fs.entry? path = .error fault ∧ fs'.entry? path = .error fault) ∨
      ∃ e e', fs.entry? path = .ok e ∧ fs'.entry? path = .ok e' ∧ e.node = e'.node := by
  generalize fs.entry? path = found, fs'.entry? path = found', h.agree_entry? path = hfound
  cases hfound with
  | error heq => exact .inl ⟨_, rfl, congrArg _ heq.symm⟩
  | ok hok => exact .inr ⟨_, _, rfl, rfl, hok.1.node_eq⟩

theorem isFile_eq : fs.isFile = fs'.isFile := by
  funext path
  rw [isFile, isFile]
  obtain ⟨fault, hfault, hfault'⟩ | ⟨e, e', he, he', hnode⟩ := h.entry?_cases path
  · rw [hfault, hfault']
  · rw [he, he']
    cases e <;> cases e' <;> cases hnode <;> rfl

theorem isDirectory_eq : fs.isDirectory = fs'.isDirectory := by
  funext path
  rw [isDirectory, isDirectory]
  obtain ⟨fault, hfault, hfault'⟩ | ⟨e, e', he, he', hnode⟩ := h.entry?_cases path
  · rw [hfault, hfault']
  · rw [he, he']
    cases e <;> cases e' <;> cases hnode <;> rfl

theorem read_eq : fs.read = fs'.read := by
  funext path
  rw [read, read]
  obtain ⟨fault, hfault, hfault'⟩ | ⟨e, e', he, he', hnode⟩ := h.entry?_cases path
  · rw [hfault, hfault']
  · rw [he, he']
    cases e <;> cases e' <;> cases hnode <;> rfl

theorem readText_eq : fs.readText = fs'.readText := by
  funext path
  rw [readText, readText, h.read_eq]

theorem linkTarget?_eq : fs.linkTarget? = fs'.linkTarget? := by
  funext path
  unfold linkTarget?
  rw [h.locate_eq]
  split
  · rename_i place _
    generalize fs.entries.at? place = found, fs'.entries.at? place = found', h.rel_at? place = hfound
    cases hfound with
    | none => rfl
    | @some e e' hok =>
      have hnode := hok.1.node_eq
      cases e <;> cases e' <;> cases hnode <;> rfl
  · rfl

theorem walk_eq : fs.walk = fs'.walk := by
  funext enters top
  unfold walk
  rw [h.isDirectory_eq]
  generalize fs.entry? top = found, fs'.entry? top = found', h.agree_entry? top = hfound
  cases hfound with
  | error _ => rfl
  | ok hok => exact hok.1.visits_eq hok.2.1 hok.2.2 _ _

end Reordered

end FileSystem

/-! ## 6. Writing -/

theorem Entry.Alike.update {l l' : Listing} (h : (Entry.directory l).Alike (.directory l')) (entry : Entry)
    (place : Place) : (Entry.directory (Listing.update (fun _ => some entry) l place)).Alike
      (.directory (Listing.update (fun _ => some entry) l' place)) := by
  have hput : ∀ {l l' : Listing} {e e' : Entry} (name : Text), (Entry.directory l).Alike (.directory l') →
      e.Alike e' → (Entry.directory (l.put name e)).Alike (.directory (l'.put name e')) := by
    intro l l' e e' name h halike
    rw [Entry.alike_directory_iff] at h ⊢
    intro other
    by_cases heq : other = name
    · rw [heq, Listing.get?_put_self, Listing.get?_put_self]
      exact .some halike
    · rw [Listing.get?_put_of_ne heq, Listing.get?_put_of_ne heq]
      exact h other
  induction place generalizing l l' with
  | nil => exact h
  | cons name place ih =>
    cases place with
    | nil => exact hput name h (.refl entry)
    | cons k place =>
      have hname := Entry.alike_directory_iff.1 h name
      rw [Listing.update, Listing.update]
      -- the entry goes below the first name, if there is a directory of that name
      · generalize l.get? name = found, Listing.get? name l' = found' at hname
        cases hname with
        | none => exact h
        | @some e e' halike =>
          cases e with
          | file bytes =>
            obtain rfl := halike.exists_file
            exact h
          | link target =>
            obtain rfl := halike.exists_link
            exact h
          | directory below =>
            obtain ⟨below', rfl⟩ := halike.exists_directory
            exact hput name h (ih halike)
      · exact List.cons_ne_nil _ _
      · exact List.cons_ne_nil _ _

namespace FileSystem

namespace Reordered

variable {fs fs' : FileSystem} (h : fs.Reordered fs')

include h

theorem put {followLast : Bool} {path : Text} {spot : Spot} {e : Entry}
    (hspot : fs'.locate followLast path = .ok spot) (he : e.IsSound) :
    (fs.update (fun _ => some e) spot.place).Reordered (fs'.update (fun _ => some e) spot.place) where
  left := h.left.put (h.locate_eq ▸ hspot) he
  right := h.right.put hspot he
  cwd := h.cwd
  node? place := by
    have hplace := h.alike.update e spot.place place
    rwa [Entry.at?_directory, Entry.at?_directory] at hplace

theorem agree_write (path : Text) (bytes : Bytes) :
    Agree (· = ·) Reordered (fs.write path bytes) (fs'.write path bytes) := by
  have he : (Entry.file bytes).IsSound := by rw [Entry.IsSound]; trivial
  unfold write
  rw [h.locate_eq]
  cases hspot : fs'.locate true path with
  | error fault => exact .error rfl
  | ok spot =>
    cases spot with
    | free directory name =>
      dsimp only
      split
      · exact .error rfl
      · exact .ok (h.put hspot he)
    | taken place =>
      have hput := h.put hspot he
      dsimp only
      -- what stands at the place is a directory in both file systems, or in neither
      generalize fs.entries.at? place = found, fs'.entries.at? place = found', h.rel_at? place = hfound
      cases hfound with
      | none => exact .ok hput
      | @some e e' hok =>
        have hnode := hok.1.node_eq
        cases e <;> cases e' <;> cases hnode
        · exact .ok hput
        · exact .ok hput
        · exact .error rfl

theorem agree_makeDirectory (path : Text) :
    Agree (· = ·) Reordered (fs.makeDirectory path) (fs'.makeDirectory path) := by
  unfold makeDirectory
  rw [h.locate_eq]
  cases hspot : fs'.locate false path with
  | error fault => exact .error rfl
  | ok spot =>
    cases spot with
    | taken place => exact .error rfl
    | free directory name =>
      exact .ok (h.put hspot (by rw [Entry.IsSound, Listing.IsSound]; trivial))

theorem agree_ensureDirectoryUpTo (bound : Nat) (path : Text) :
    Agree (· = ·) Reordered (ensureDirectoryUpTo bound fs path) (ensureDirectoryUpTo bound fs' path) := by
  induction bound generalizing fs fs' path with
  | zero =>
    rw [ensureDirectoryUpTo, ensureDirectoryUpTo]
    generalize fs.makeDirectory path = made, fs'.makeDirectory path = made', h.agree_makeDirectory path = hmade
    cases hmade with
    | ok hmade => exact .ok hmade
    | error heq => exact .error heq
  | succ bound ih =>
    -- what is answered when a directory cannot be made: it may be there already
    have hdone : ∀ {fs fs' : FileSystem} (e : FileError), fs.Reordered fs' → Agree (· = ·) Reordered
        (if fs.isDirectory path then .ok fs else .error e) (if fs'.isDirectory path then .ok fs' else .error e) := by
      intro fs fs' e h
      rw [h.isDirectory_eq]
      split
      · exact .ok h
      · exact .error rfl
    rw [ensureDirectoryUpTo, ensureDirectoryUpTo]
    generalize fs.makeDirectory path = made, fs'.makeDirectory path = made', h.agree_makeDirectory path = hmade
    cases hmade with
    | ok hmade => exact .ok hmade
    | @error e _ heq =>
      obtain rfl := heq
      dsimp only
      split
      · split
        · exact .error rfl
        -- the directories above are made first, and then this one is tried again
        · refine (ih h (Path.parent path)).bind fun mid mid' hmid => ?_
          generalize mid.makeDirectory path = made, mid'.makeDirectory path = made',
            hmid.agree_makeDirectory path = hmade
          cases hmade with
          | ok hmade => exact .ok hmade
          | @error e _ heq =>
            obtain rfl := heq
            exact hdone e hmid
      · exact hdone e h

theorem agree_ensureDirectory (path : Text) :
    Agree (· = ·) Reordered (fs.ensureDirectory path) (fs'.ensureDirectory path) :=
  h.agree_ensureDirectoryUpTo _ path

end Reordered

end FileSystem

end AssetEmbed
