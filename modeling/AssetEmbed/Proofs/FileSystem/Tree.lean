import AssetEmbed.Proofs.FileSystem.Path
import AssetEmbed.FileSystem

/-!
# Trees by their places

What a tree holds is told place by place: a file with its bytes, a link, or a directory.  Putting a file or an
empty directory at a place where no directory is changes the tree at that place and nowhere else.
-/

namespace AssetEmbed

instance : DecidablePred Path.IsName := fun _ => inferInstanceAs (Decidable (_ ∧ _ ∧ _))

instance : DecidablePred Path.IsProper := fun _ => inferInstanceAs (Decidable (_ ∧ _))

/-! ## 1. The names of a directory -/

namespace Listing

variable {l : Listing} {name : Text} {entry : Entry}

theorem get?_eq_none_iff : get? name l = none ↔ name ∉ l.map (·.1) := by
  induction l with
  | nil => simp [get?]
  | cons head rest ih =>
    obtain ⟨n, e⟩ := head
    by_cases h : n = name
    · simp [get?, h]
    · simp [get?, h, ih, Ne.symm h]

theorem mem_of_get?_eq_some (h : get? name l = some entry) : (name, entry) ∈ l := by
  induction l with
  | nil => cases h
  | cons head rest ih =>
    obtain ⟨n, e⟩ := head
    by_cases hn : n = name
    · rw [get?, if_pos hn, Option.some.injEq] at h
      rw [hn, h]
      exact List.mem_cons_self
    · rw [get?, if_neg hn] at h
      exact List.mem_cons_of_mem _ (ih h)

end Listing

/-! ## 2. Entries below an entry -/

/-- What stands at a place, without what is below it. -/
inductive Node where
  | file (bytes : Bytes)
  | link (target : Text)
  | directory
  deriving DecidableEq, Repr

namespace Entry

def node : Entry → Node
  | .file bytes => .file bytes
  | .link target => .link target
  | .directory _ => .directory

def at? : Entry → Place → Option Entry
  | e, [] => some e
  | .directory entries, place => Listing.at? entries place
  | _, _ => none

@[simp] theorem at?_nil (e : Entry) : e.at? [] = some e := by
  unfold at?
  rfl

@[simp] theorem at?_directory (l : Listing) (place : Place) :
    (Entry.directory l).at? place = l.at? place := by
  cases place <;> rfl

theorem at?_cons (l : Listing) (name : Text) (names : Place) :
    l.at? (name :: names) = (l.get? name).bind (·.at? names) := by
  cases names with
  | nil =>
    rw [Listing.at?]
    cases l.get? name <;> simp
  | cons m names =>
    rw [Listing.at?]
    · cases l.get? name with
      | none => rfl
      | some e => cases e <;> rfl
    · exact List.cons_ne_nil _ _

theorem at?_empty (name : Text) (names : Place) : (Entry.directory []).at? (name :: names) = none := by
  rw [at?_directory, at?_cons]
  rfl

theorem at?_append (e : Entry) (place rest : Place) :
    e.at? (place ++ rest) = (e.at? place).bind (·.at? rest) := by
  induction place generalizing e with
  | nil => simp
  | cons name place ih =>
    cases e with
    | file bytes => rfl
    | link target => rfl
    | directory l =>
      rw [List.cons_append, at?_directory, at?_directory, at?_cons, at?_cons]
      cases Listing.get? name l with
      | none => rfl
      | some e => exact ih e

/-- What a directory hands on to its entries holds at every place below it. -/
theorem of_at? {P : Entry → Prop}
    (hstep : ∀ (l : Listing) name e, P (.directory l) → l.get? name = some e → P e) {e e' : Entry}
    {place : Place} (h : P e) (hplace : e.at? place = some e') : P e' := by
  induction place generalizing e with
  | nil =>
    rw [at?_nil, Option.some.injEq] at hplace
    rwa [← hplace]
  | cons name place ih =>
    cases e with
    | file bytes => cases hplace
    | link target => cases hplace
    | directory l =>
      rw [at?_directory, at?_cons] at hplace
      obtain ⟨e, hname, hplace⟩ := Option.bind_eq_some_iff.1 hplace
      exact ih (hstep l name e h hname) hplace

/-- A file below a directory is one of its entries, or stands below one of them. -/
theorem exists_of_file_at? {l : Listing} {place : Place} {bytes : Bytes}
    (h : (Entry.directory l).at? place = some (.file bytes)) :
    ∃ name below e, place = name :: below ∧ (name, e) ∈ l ∧ e.at? below = some (.file bytes) := by
  cases place with
  | nil => cases h
  | cons name below =>
    rw [at?_directory, at?_cons] at h
    obtain ⟨e, hget, hbelow⟩ := Option.bind_eq_some_iff.1 h
    exact ⟨name, below, e, rfl, Listing.mem_of_get?_eq_some hget, hbelow⟩

theorem eq_nil_of_file_at? {bytes bytes' : Bytes} {place : Place}
    (h : (Entry.file bytes).at? place = some (.file bytes')) : place = [] := by
  cases place with
  | nil => rfl
  | cons name place => cases h

theorem exists_eq_directory {e : Entry} {place : Place} {l : Listing} (h : e.at? place = some (.directory l)) :
    ∃ l', e = .directory l' := by
  cases e with
  | file bytes => cases place <;> cases h
  | link target => cases place <;> cases h
  | directory l' => exact ⟨l', rfl⟩

end Entry

namespace Listing

variable {l listing : Listing} {place : Place} {name : Text} {entry : Entry}

theorem at?_append_singleton (h : l.at? place = some (.directory listing)) (name : Text) :
    l.at? (place ++ [name]) = listing.get? name := by
  rw [← Entry.at?_directory, Entry.at?_append, Entry.at?_directory, h]
  exact Entry.at?_directory listing [name]

theorem exists_directory_of_at? (h : l.at? (place ++ [name]) = some entry) :
    ∃ listing, l.at? place = some (.directory listing) ∧ Listing.get? name listing = some entry := by
  rw [← Entry.at?_directory, Entry.at?_append, Entry.at?_directory] at h
  cases hplace : l.at? place with
  | none =>
    rw [hplace] at h
    cases h
  | some e =>
    rw [hplace] at h
    cases e with
    | file bytes => cases h
    | link target => cases h
    | directory listing => exact ⟨listing, rfl, h⟩

def node? (l : Listing) (place : Place) : Option Node := (l.at? place).map Entry.node

theorem node?_cons (l : Listing) (name : Text) (names : Place) :
    l.node? (name :: names) = (l.get? name).bind fun e => (e.at? names).map Entry.node := by
  rw [node?, Entry.at?_cons]
  cases l.get? name <;> rfl

/-! ## 3. Putting an entry -/

theorem update_cons_append (change : Option Entry → Option Entry) (m : Text) (place : Place)
    (name : Text) (h : l.get? m = some (.directory listing)) :
    update change l (m :: (place ++ [name])) =
      l.put m (.directory (update change listing (place ++ [name]))) := by
  cases place with
  | nil =>
    show update change l [m, name] = _
    rw [update, h]
    · rfl
    · exact List.cons_ne_nil _ _
  | cons k place =>
    show update change l (m :: k :: (place ++ [name])) = _
    rw [update, h]
    · rfl
    · exact List.cons_ne_nil _ _

/-- Putting an entry with nothing below it where no directory is changes nothing elsewhere. -/
theorem node?_update (hplace : l.at? place = some (.directory listing))
    (hold : ∀ below, listing.get? name ≠ some (.directory below))
    (hnew : ∀ m ms, entry.at? (m :: ms) = none) (p : Place) :
    (update (fun _ => some entry) l (place ++ [name])).node? p =
      if p = place ++ [name] then some entry.node else l.node? p := by
  induction place generalizing l p with
  | nil =>
    obtain rfl : l = listing := by
      rw [at?, Option.some.injEq, Entry.directory.injEq] at hplace
      exact hplace
    show (l.put name entry).node? p = _
    cases p with
    | nil => rfl
    | cons m ms =>
      by_cases hm : m = name
      · subst hm
        rw [node?_cons, get?_put_self]
        cases ms with
        | nil => simp
        | cons k ks =>
          rw [if_neg (by simp), Option.bind_some, hnew, node?_cons]
          -- below a name that is no directory there was nothing before
          cases he : l.get? m with
          | none => rfl
          | some e =>
            cases e with
            | file bytes => rfl
            | link target => rfl
            | directory below => exact absurd he (hold below)
      · rw [node?_cons, get?_put_of_ne hm, node?_cons, if_neg (by simp [hm])]
  | cons m place ih =>
    obtain ⟨below, hm, hbelow⟩ : ∃ below, l.get? m = some (.directory below) ∧
        Listing.at? below place = some (.directory listing) := by
      rw [Entry.at?_cons] at hplace
      obtain ⟨e, hm, hbelow⟩ := Option.bind_eq_some_iff.1 hplace
      obtain ⟨below, rfl⟩ := Entry.exists_eq_directory hbelow
      exact ⟨below, hm, by rwa [Entry.at?_directory] at hbelow⟩
    rw [List.cons_append, update_cons_append _ _ _ _ hm]
    cases p with
    | nil => rfl
    | cons k ks =>
      by_cases hk : k = m
      · subst hk
        have hbelow := ih hbelow ks
        rw [node?_cons, get?_put_self, Option.bind_some, Entry.at?_directory, ← node?, hbelow,
          node?_cons, hm, Option.bind_some, Entry.at?_directory, ← node?]
        simp
      · rw [node?_cons, get?_put_of_ne hk, ← node?_cons, if_neg (by simp [hk])]

end Listing

/-! ## 4. Sound trees -/

mutual

/-- Whether every name in an entry can be a name, and stands once in its directory. -/
def Entry.IsSound : Entry → Prop
  | .file _ => True
  | .link _ => True
  | .directory entries => Listing.IsSound entries

/-- Whether every name in a listing can be a name, and stands once. -/
def Listing.IsSound : Listing → Prop
  | [] => True
  | (n, e) :: rest =>
    Path.IsProper n ∧ Listing.get? n rest = none ∧ e.IsSound ∧ Listing.IsSound rest

end

namespace Listing

variable {l listing : Listing} {place : Place} {name : Text} {entry : Entry}

theorem IsSound.nodup (h : l.IsSound) : (l.map (·.1)).Nodup := by
  induction l with
  | nil => exact List.nodup_nil
  | cons head rest ih =>
    rw [IsSound] at h
    obtain ⟨-, hfresh, -, hrest⟩ := h
    exact List.nodup_cons.2 ⟨get?_eq_none_iff.1 hfresh, ih hrest⟩

theorem IsSound.of_mem (h : l.IsSound) (hmem : (name, entry) ∈ l) :
    Path.IsProper name ∧ entry.IsSound := by
  induction l with
  | nil => cases hmem
  | cons head rest ih =>
    rw [IsSound] at h
    obtain ⟨hname, -, hentry, hrest⟩ := h
    rcases List.mem_cons.1 hmem with rfl | hmem
    · exact ⟨hname, hentry⟩
    · exact ih hrest hmem

theorem IsSound.put (h : l.IsSound) (hname : Path.IsProper name) (hentry : entry.IsSound) :
    (l.put name entry).IsSound := by
  induction l with
  | nil =>
    rw [Listing.put, IsSound]
    exact ⟨hname, rfl, hentry, by rw [IsSound]; trivial⟩
  | cons head rest ih =>
    obtain ⟨n, e⟩ := head
    rw [IsSound] at h
    obtain ⟨hn, hfresh, he, hrest⟩ := h
    by_cases hcase : n = name
    · rw [Listing.put, if_pos hcase, IsSound]
      exact ⟨hn, hfresh, hentry, hrest⟩
    · rw [Listing.put, if_neg hcase, IsSound, get?_put_of_ne hcase]
      exact ⟨hn, hfresh, he, ih hrest⟩

theorem isSound_of_at? {e : Entry} (h : e.IsSound) (hentry : e.at? place = some entry) : entry.IsSound := by
  refine Entry.of_at? ?_ h hentry
  intro l name e hl hname
  rw [Entry.IsSound] at hl
  exact (hl.of_mem (mem_of_get?_eq_some hname)).2

theorem nodup_of_at? {e : Entry} (h : e.IsSound) (hl : e.at? place = some (.directory listing)) :
    (listing.map (·.1)).Nodup := by
  have hsound := isSound_of_at? h hl
  rw [Entry.IsSound] at hsound
  exact hsound.nodup

theorem IsSound.at? (h : l.IsSound) (hentry : l.at? place = some entry) : entry.IsSound := by
  rw [← Entry.at?_directory] at hentry
  exact isSound_of_at? (by rwa [Entry.IsSound]) hentry

theorem IsSound.directory (h : l.IsSound) (hplace : l.at? place = some (.directory listing)) :
    listing.IsSound := by
  have hentry := h.at? hplace
  rwa [Entry.IsSound] at hentry

theorem IsSound.isProper (h : l.IsSound) (hentry : l.at? (place ++ [name]) = some entry) :
    Path.IsProper name := by
  obtain ⟨listing, hplace, hname⟩ := exists_directory_of_at? hentry
  exact ((h.directory hplace).of_mem (mem_of_get?_eq_some hname)).1

theorem IsSound.update (h : l.IsSound) (hentry : entry.IsSound)
    (hname : ∀ name ∈ place.getLast?, Path.IsProper name) :
    (l.update (fun _ => some entry) place).IsSound := by
  induction place generalizing l with
  | nil => exact h
  | cons m place ih =>
    cases place with
    | nil => exact h.put (hname m rfl) hentry
    | cons k place =>
      rw [Listing.update]
      -- the entry goes below the first name, if there is a directory of that name
      · cases hm : l.get? m with
        | none => exact h
        | some e =>
          cases e with
          | file bytes => exact h
          | link target => exact h
          | directory below =>
            obtain ⟨hproper, hbelow⟩ := h.of_mem (mem_of_get?_eq_some hm)
            rw [Entry.IsSound] at hbelow
            refine h.put hproper ?_
            rw [Entry.IsSound]
            refine ih hbelow fun name hlast => hname name ?_
            rwa [List.getLast?_cons_cons]
      · exact List.cons_ne_nil _ _

theorem linkCount_of_mem (h : linkCount l = 0) (hmem : (name, entry) ∈ l) : entry.linkCount = 0 := by
  induction l with
  | nil => cases hmem
  | cons head rest ih =>
    obtain ⟨n, e⟩ := head
    rw [linkCount, Nat.add_eq_zero_iff] at h
    rcases List.mem_cons.1 hmem with heq | hmem
    · cases heq
      exact h.1
    · exact ih h.2 hmem

end Listing

/-! ## 5. File systems -/

namespace FileSystem

def node? (fs : FileSystem) (place : Place) : Option Node := fs.entries.node? place

/-- Whether the names in each directory can be names and are told apart. -/
def WellFormed (fs : FileSystem) : Prop := fs.entries.IsSound

/-- Whether a file system holds no links. -/
def LinkFree (fs : FileSystem) : Prop := ∀ place target, fs.node? place ≠ some (.link target)

variable {fs : FileSystem} {place : Place} {bytes : Bytes}

theorem node?_eq_directory_iff :
    fs.node? place = some .directory ↔ ∃ l, fs.entries.at? place = some (.directory l) := by
  unfold node? Listing.node?
  cases fs.entries.at? place with
  | none => simp
  | some e => cases e <;> simp [Entry.node]

theorem node?_eq_file_iff :
    fs.node? place = some (.file bytes) ↔ fs.entries.at? place = some (.file bytes) := by
  unfold node? Listing.node?
  cases fs.entries.at? place with
  | none => simp
  | some e => cases e <;> simp [Entry.node]

theorem node?_eq_none_iff : fs.node? place = none ↔ fs.entries.at? place = none := by
  unfold node? Listing.node?
  exact Option.map_eq_none_iff

theorem linkFree_of_linkCount (h : Listing.linkCount fs.entries = 0) : fs.LinkFree := by
  intro place target hlink
  obtain ⟨e, hplace, he⟩ := Option.map_eq_some_iff.1 hlink
  rw [← Entry.at?_directory] at hplace
  have hnone : e.linkCount = 0 := by
    refine Entry.of_at? (P := fun e => e.linkCount = 0) ?_ (by rwa [Entry.linkCount]) hplace
    intro l name e hl hname
    rw [Entry.linkCount] at hl
    exact Listing.linkCount_of_mem hl (Listing.mem_of_get?_eq_some hname)
  cases e with
  | file bytes => cases he
  | directory l => cases he
  | link target =>
    rw [Entry.linkCount] at hnone
    cases hnone

/-! ## 6. Putting an entry in a file system -/

theorem node?_update {d : Place} {l : Listing} {name : Text} {e : Entry}
    (hd : fs.entries.at? d = some (.directory l)) (hold : fs.node? (d ++ [name]) ≠ some .directory)
    (hnew : ∀ m ms, e.at? (m :: ms) = none) (p : Place) :
    (fs.update (fun _ => some e) (d ++ [name])).node? p =
      if p = d ++ [name] then some e.node else fs.node? p := by
  refine Listing.node?_update hd ?_ hnew p
  intro below hbelow
  refine hold (node?_eq_directory_iff.2 ⟨below, ?_⟩)
  rw [Listing.at?_append_singleton hd, hbelow]

theorem WellFormed.update (h : fs.WellFormed) {e : Entry} (he : e.IsSound)
    (hname : ∀ name ∈ place.getLast?, Path.IsProper name) :
    (fs.update (fun _ => some e) place).WellFormed :=
  Listing.IsSound.update h he hname

end FileSystem

end AssetEmbed
